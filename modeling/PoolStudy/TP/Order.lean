import PoolStudy.TP.Life
import Mathlib.Algebra.Order.Group.Multiset

/-! # The Windows thread pool: each posting once, in order

From the time a pool is created until its next `Destroy`, `m_usSemaphoreCount` is the count of the kernel's
semaphore and the workers that have been woken but have not yet taken the lock (`Mirror`). So a `NotifyThread`
is never refused, and every `PostRequest` that finds the thread list returns true.

`PopRequest` reads the front and removes by value. As long as no request is posted while it is still on the
list, the requests popped and those on the list are the requests posted (`popped_in_order_iff`). -/

namespace PoolStudy.TP.Order

open PoolStudy.Lib.Transition PoolStudy.Lib.Threads PoolStudy.TP.Model PoolStudy.TP.Steps PoolStudy.TP.Life

variable {R : Type} [DecidableEq R]

/-- **No request is posted while it is still on the list.** -/
def postedOnce (c : State R) (a : Tid × Input R) : Prop :=
  controlled c a ∧ ∀ r, a.2.call = some (.postRequest r) → r ∉ c.mem.requestQueue

/-- The pool has been created, or is being created, and is not being destroyed. -/
def alive (m : Mem R) : Prop := m.stage = .creating ∨ m.stage = .up

/-! ### The mirror of the semaphore -/

/-- The worker has returned from `WaitForSingleObject` and has not yet counted down. -/
def woken : Worker R → ℕ
  | .woken => 1
  | _ => 0

/-- **The mirror**: `W` workers have been woken. -/
def Mirror (m : Mem R) (W : ℕ) : Prop :=
  ∃ cnt, m.semaphore = some ⟨cnt, m.threadCount⟩ ∧ m.semaphoreCount = cnt + W ∧ m.semaphoreCount ≤ m.threadCount

/-- **A step of a worker** keeps the mirror. -/
theorem workerStep_mirror {i : Fin maxThreads} {x : Input R} {m m' : Mem R} {w w' : Worker R} {W W' : ℕ}
    (hs : WorkerStep i x m w m' w') (h : Mirror m W) (hn : m.threadCount ≤ maxThreads)
    (hW : W' + woken w = W + woken w') (hw : woken w ≤ W) : Mirror m' W' := by
  obtain ⟨cnt, hsem, hcount, hle⟩ := h
  have hmax : maxThreads = 64 := rfl
  cases hs with
  | acquire hs hpos =>
    obtain rfl := Option.some.inj (hs.symm.trans hsem)
    simp only [woken] at hW hpos
    exact ⟨cnt - 1, rfl, by simp only; omega, hle⟩
  | waitFailed hs => cases hs.symm.trans hsem
  | woken =>
    simp only [woken] at hW hw
    refine ⟨cnt, hsem, ?_, ?_⟩ <;> simp only [dec] <;> omega
  | passOn hp hc hs hle' =>
    obtain rfl := Option.some.inj (hs.symm.trans hsem)
    simp only [woken] at hW
    refine ⟨cnt + 1, rfl, ?_, ?_⟩ <;> simp only [notified, released, inc] <;> omega
  | _ => exact ⟨cnt, hsem, by simp_all [woken], hle⟩

omit [DecidableEq R] in
/-- `NotifyThread` is not refused. -/
theorem Mirror.not_refused {m : Mem R} {W : ℕ} (h : Mirror m W) {x : Input R} (hx : x.refuse = false)
    (hc : m.semaphoreCount < m.threadCount) : notifyThread m x ≠ none := by
  intro hno
  obtain ⟨cnt, hsem, hcount, hle⟩ := h
  have := notifyThread_none hno hsem hx
  simp only at this
  omega

omit [DecidableEq R] in
/-- **A post** keeps the mirror; it returns true, or does nothing. -/
theorem postStep_mirror {x : Input R} {m m' : Mem R} {r : R} {v : Bool} {W : ℕ} (hp : PostStep x m r m' v)
    (h : Mirror m W) (hn : m.threadCount ≤ maxThreads) (hx : x.refuse = false) :
    Mirror m' W ∧ (v = true ∨ m' = m) := by
  obtain ⟨cnt, hsem, hcount, hle⟩ := h
  have hmax : maxThreads = 64 := rfl
  cases hp with
  | noList _ => exact ⟨⟨cnt, hsem, hcount, hle⟩, Or.inr rfl⟩
  | notify hl hc hs hle' =>
    obtain rfl := Option.some.inj (hs.symm.trans hsem)
    refine ⟨⟨cnt + 1, rfl, ?_, ?_⟩, Or.inl rfl⟩ <;> simp only [notified, released, pushBack, inc] <;> omega
  | notifyFailed hl hc hno' =>
    have hpush : Mirror (pushBack m r) W := ⟨cnt, hsem, hcount, hle⟩
    exact absurd hno' (hpush.not_refused hx hc)
  | count hl hc => exact ⟨⟨cnt, hsem, hcount, hle⟩, Or.inl rfl⟩

/-! ### The list -/

/-- The list, and what has been popped of it. -/
structure Listed (m : Mem R) : Prop where
  nodup : m.requestQueue.Nodup
  order : m.popped ++ m.requestQueue = m.posted

theorem filter_head {r : R} {q : List R} (h : (r :: q).Nodup) : (r :: q).filter (· ≠ r) = q := by
  have hr := (List.nodup_cons.mp h).1
  rw [List.filter_cons_of_neg (by simp)]
  exact List.filter_eq_self.mpr fun a ha => by
    simp only [decide_eq_true_eq]
    rintro rfl
    exact hr ha

theorem workerStep_listed {i : Fin maxThreads} {x : Input R} {m m' : Mem R} {w w' : Worker R}
    (hs : WorkerStep i x m w m' w') (h : Listed m) : Listed m' := by
  cases hs with
  | pop hq =>
    have hnodup := h.nodup
    have horder := h.order
    rw [hq] at hnodup horder
    refine ⟨?_, ?_⟩
    · simp only [filter_head hnodup]
      exact (List.nodup_cons.mp hnodup).2
    · simp only [filter_head hnodup]
      rw [List.append_assoc, List.singleton_append]
      exact horder
  | _ => exact ⟨h.nodup, h.order⟩

omit [DecidableEq R] in
theorem postStep_listed {x : Input R} {m m' : Mem R} {r : R} {v : Bool} (hp : PostStep x m r m' v)
    (h : Listed m) (hv : v = true ∨ m' = m) (hr : r ∉ m.requestQueue) : Listed m' := by
  have hnodup : (m.requestQueue ++ [r]).Nodup :=
    List.nodup_append.mpr ⟨h.nodup, List.nodup_singleton r, fun a ha b hb hab => by
      rw [List.mem_singleton] at hb
      exact hr (hb ▸ hab ▸ ha)⟩
  have horder : m.popped ++ (m.requestQueue ++ [r]) = m.posted ++ [r] := by
    rw [← List.append_assoc, h.order]
  cases hp with
  | noList _ => exact h
  | notifyFailed _ _ _ =>
    rcases hv with hv | hv
    · cases hv
    · rw [hv]
      exact h
  | notify _ _ _ _ | count _ _ => exact ⟨hnodup, horder⟩

/-! ### The requests popped -/

/-- The request the worker has popped and not executed. -/
def hand : Worker R → Multiset R
  | .execute r => {r}
  | _ => 0

/-- The requests popped are those executed and those in the hands of the workers. -/
def Handed (c : State R) : Prop :=
  (c.mem.popped : Multiset R) = (c.mem.executed : Multiset R) + ∑ i, hand (c.worker i)

theorem workerStep_handed {i : Fin maxThreads} {x : Input R} {m m' : Mem R} {w w' : Worker R}
    (hs : WorkerStep i x m w m' w') :
    (m'.popped : Multiset R) + (m.executed : Multiset R) + hand w =
      (m.popped : Multiset R) + (m'.executed : Multiset R) + hand w' := by
  cases hs with
  | pop hq =>
    simp only [hand, ← Multiset.coe_add, add_zero, Multiset.coe_singleton]
    abel
  | execute r _ | executeFailed r _ =>
    simp only [hand, ← Multiset.coe_add, add_zero, Multiset.coe_singleton]
    abel
  | _ => rfl

omit [DecidableEq R] in
theorem postStep_history {x : Input R} {m m' : Mem R} {r : R} {v : Bool} (hp : PostStep x m r m' v) :
    m'.popped = m.popped ∧ m'.executed = m.executed := by
  cases hp <;> exact ⟨rfl, rfl⟩

/-! ### The invariant -/

omit [DecidableEq R] in
/-- A sum to which only the workers past their wait contribute. -/
theorem sum_calm {M : Type} [AddCommMonoid M] {v : Worker R → M} {f : Fin maxThreads → Worker R}
    (h : ∀ i, f i = .off ∨ f i = .wait) (h0 : v .off = 0 ∧ v .wait = 0) : ∑ i, v (f i) = 0 := by
  refine Finset.sum_eq_zero fun i _ => ?_
  rcases h i with hi | hi <;> rw [hi]
  · exact h0.1
  · exact h0.2

/-- **The invariant**: a pool that is down, or has no thread list yet, has no requests, and the requests of a
pool that is alive are in order. -/
structure OrderInv (c : State R) : Prop where
  down : c.mem.stage = .down → c.mem.requestQueue = []
  noList : c.mem.stage = .creating → c.mem.threadList = none → c.mem.requestQueue = []
  alive : alive c.mem → Mirror c.mem (∑ i, woken (c.worker i)) ∧ Listed c.mem ∧ Handed c

omit [DecidableEq R] in
theorem alive_sized {m : Mem R} {p : Client} (h : Ctl m p) (ha : alive m) : Sized m := by
  rcases ha with hc | hu
  · exact h.of_creating hc
  · exact (h.of_up hu).sized

theorem workerStep_empty {i : Fin maxThreads} {x : Input R} {m m' : Mem R} {w w' : Worker R}
    (hs : WorkerStep i x m w m' w') (h : m.requestQueue = []) : m'.requestQueue = [] := by
  cases hs with
  | pop hq => rw [h] at hq; cases hq
  | _ => exact h

theorem OrderInv.moveWorker {c : State R} (h : OrderInv c) (hl : LifeInv c) {i : Fin maxThreads} {x : Input R}
    {r : Mem R × Worker R} (hs : WorkerStep i x c.mem (c.worker i) r.1 r.2) : OrderInv (c.moveWorker i r) := by
  have hsame := workerStep_same hs
  refine ⟨fun hd => workerStep_empty hs (h.down (hsame.stage.symm.trans hd)), fun hc hn => ?_, fun ha => ?_⟩
  · exact workerStep_empty hs (h.noList (hsame.stage.symm.trans hc) (hsame.list.symm.trans hn))
  · have ha' : Order.alive c.mem := by rwa [Order.alive, ← hsame.stage]
    obtain ⟨hmirror, hlisted, hhanded⟩ := h.alive ha'
    refine ⟨?_, workerStep_listed hs hlisted, ledger_move (fun _ => hand) hhanded (workerStep_handed hs)⟩
    exact workerStep_mirror hs hmirror (alive_sized hl.ctl ha').le (sum_update (fun _ => woken) c.worker i r.2)
      (le_sum c.worker i fun _ => woken)

omit [DecidableEq R] in
theorem postStep_noList {x : Input R} {m m' : Mem R} {r : R} {v : Bool} (hp : PostStep x m r m' v)
    (h : m.threadList = none) : m' = m := by
  cases hp with
  | noList _ => rfl
  | notify hl _ _ _ | notifyFailed hl _ _ | count hl _ => exact absurd h hl

omit [DecidableEq R] in
theorem OrderInv.post {c : State R} (h : OrderInv c) (hl : LifeInv c) {k : ℕ} {x : Input R} {r : R} {v : Bool}
    {m' : Mem R} {p' : Client} (hx : x.refuse = false) (hr : r ∉ c.mem.requestQueue)
    (hp : PostStep x c.mem r m' v) : OrderInv (c.moveClient k (m', p')) := by
  have hsame := postStep_same hp
  refine ⟨fun hd => ?_, fun hc hn => ?_, fun ha => ?_⟩
  · have hd' := hsame.stage.symm.trans hd
    show m'.requestQueue = []
    rw [postStep_noList hp (hl.ctl.of_down hd').1]
    exact h.down hd'
  · have hn' := hsame.list.symm.trans hn
    show m'.requestQueue = []
    rw [postStep_noList hp hn']
    exact h.noList (hsame.stage.symm.trans hc) hn'
  · have ha' : Order.alive c.mem := by rwa [Order.alive, ← hsame.stage]
    obtain ⟨hmirror, hlisted, hhanded⟩ := h.alive ha'
    obtain ⟨hmirror', hv⟩ := postStep_mirror hp hmirror (alive_sized hl.ctl ha').le hx
    obtain ⟨hpop, hexec⟩ := postStep_history hp
    refine ⟨hmirror', postStep_listed hp hlisted hv hr, ?_⟩
    show (m'.popped : Multiset R) = (m'.executed : Multiset R) + ∑ i, hand (c.worker i)
    rw [hpop, hexec]
    exact hhanded

/-- The fields the invariant is about. -/
structure SameAccounts (m m' : Mem R) : Prop where
  stage : m'.stage = m.stage
  threadCount : m'.threadCount = m.threadCount
  semaphore : m'.semaphore = m.semaphore
  count : m'.semaphoreCount = m.semaphoreCount
  queue : m'.requestQueue = m.requestQueue
  history : m'.posted = m.posted ∧ m'.popped = m.popped ∧ m'.executed = m.executed

omit [DecidableEq R] in
theorem OrderInv.congr {c c' : State R} (h : OrderInv c) (hw : c'.worker = c.worker)
    (hs : SameAccounts c.mem c'.mem) (hn : c'.mem.threadList = none → c.mem.threadList = none) :
    OrderInv c' := by
  obtain ⟨hposted, hpopped, hexec⟩ := hs.history
  refine ⟨?_, fun hc hl => ?_, fun ha => ?_⟩
  · rw [hs.stage, hs.queue]
    exact h.down
  · exact hs.queue.trans (h.noList (hs.stage.symm.trans hc) (hn hl))
  · obtain ⟨hmirror, hlisted, hhanded⟩ := h.alive (by rwa [Order.alive, ← hs.stage])
    refine ⟨?_, ⟨?_, ?_⟩, ?_⟩
    · rw [Mirror, hs.semaphore, hs.threadCount, hs.count, hw]
      exact hmirror
    · rw [hs.queue]
      exact hlisted.nodup
    · rw [hpopped, hs.queue, hposted]
      exact hlisted.order
    · rw [Handed, hpopped, hexec, hw]
      exact hhanded

omit [DecidableEq R] in
/-- Nothing is said of a pool that is being destroyed. -/
theorem OrderInv.of_ending {c : State R} (h : c.mem.stage = .destroying ∨ c.mem.stage = .failed) :
    OrderInv c := by
  obtain ⟨hc, hu⟩ := ending_stage h
  refine ⟨fun hd => ?_, fun hs => absurd hs hc, fun ha => absurd ha (not_or.mpr ⟨hc, hu⟩)⟩
  rcases h with h | h <;> cases hd.symm.trans h

omit [DecidableEq R] in
/-- The semaphore has been created, with no thread alive. -/
theorem OrderInv.createInit {c : State R} (h : OrderInv c) (hl : LifeInv c) (hst : c.mem.stage = .down) (n : ℕ) :
    OrderInv (c.moveClient 0 (initialized c.mem n, .createList)) := by
  have hoff : ∀ i, c.worker i = .off ∨ c.worker i = .wait := fun i =>
    Or.inl (hl.off_of_le (hl.ctl.of_down hst).2 (Nat.zero_le _))
  have hq : (initialized c.mem n).requestQueue = [] := h.down hst
  refine ⟨fun hd => (by cases hd), fun _ _ => hq, fun _ => ⟨?_, ⟨?_, ?_⟩, ?_⟩⟩
  · refine ⟨0, rfl, ?_, Nat.zero_le _⟩
    show 0 = 0 + ∑ i, woken (c.worker i)
    rw [sum_calm hoff ⟨rfl, rfl⟩, add_zero]
  · show (initialized c.mem n).requestQueue.Nodup
    rw [hq]
    exact List.nodup_nil
  · show [] ++ (initialized c.mem n).requestQueue = []
    rw [hq]
    rfl
  · show (([] : List R) : Multiset R) = (([] : List R) : Multiset R) + ∑ i, hand (c.worker i)
    rw [sum_calm hoff ⟨rfl, rfl⟩, add_zero]

omit [DecidableEq R] in
theorem OrderInv.moveController {c : State R} (h : OrderInv c) (hl : LifeInv c) {x : Input R} {m' : Mem R}
    {p' : Client} (hx : x.refuse = false) (hok : ∀ r, x.call = some (.postRequest r) → r ∉ c.mem.requestQueue)
    (hs : ClientStep x c.mem (c.client 0) m' p') : OrderInv (c.moveClient 0 (m', p')) := by
  have hctl := hl.ctl
  generalize c.client 0 = p at hs hctl
  cases hs with
  | post last hc hp => exact h.post hl hx (hok _ hc) hp
  | destroy last hc hl' => exact .of_ending (beginDestroy_stage _ _)
  | createDestroy hl' => exact .of_ending (beginDestroy_stage _ _)
  | createInit n =>
    cases hctl with
    | createInit _ hst _ _ _ _ => exact h.createInit hl hst n
    | ending hp _ => exact hp.elim
  | semaphoreFailed n =>
    cases hctl with
    | createInit _ hst _ _ _ _ =>
      refine ⟨fun _ => h.down hst, fun hc => (by cases hc.symm.trans hst), fun ha => ?_⟩
      rcases ha with ha | ha <;> cases ha.symm.trans hst
    | ending hp _ => exact hp.elim
  | createFlag =>
    cases hctl with
    | createFlag hst _ _ _ =>
      obtain ⟨hmirror, hlisted, hhanded⟩ := h.alive (Or.inl hst)
      exact ⟨fun hd => (by cases hd), fun hc => (by cases hc), fun _ =>
        ⟨hmirror, ⟨hlisted.nodup, hlisted.order⟩, hhanded⟩⟩
    | ending hp _ => exact hp.elim
  | createFailed hlist =>
    cases hctl with
    | noList hst _ _ _ =>
      exact ⟨fun _ => h.noList hst hlist, fun hc => (by cases hc), fun ha => (by rcases ha with ha | ha <;> cases ha)⟩
    | threadFailed _ hlist' _ _ _ => cases hlist.symm.trans hlist'
    | ending hp _ => exact hp.elim
  | cancel b | setFlag b =>
    cases hctl with
    | ending _ he => exact .of_ending he.stage
  | release b ha hsem hle =>
    cases hctl with
    | ending _ he => exact .of_ending he.stage
  | closeThreads b =>
    cases hctl with
    | closeThreads _ hst _ _ => exact .of_ending hst
    | ending hp _ => exact hp.elim
  | closeSemaphore b =>
    cases hctl with
    | closeSemaphore _ hst _ _ => exact .of_ending hst
    | ending hp _ => exact hp.elim
  | clear b =>
    exact ⟨fun _ => rfl, fun hc => (by cases hc), fun ha => (by rcases ha with ha | ha <;> cases ha)⟩
  | createList | createThread k hk =>
    exact h.congr rfl ⟨rfl, rfl, rfl, rfl, rfl, rfl, rfl, rfl⟩ fun hn => by cases hn
  | _ => exact h.congr rfl ⟨rfl, rfl, rfl, rfl, rfl, rfl, rfl, rfl⟩ id

/-- **The invariant holds in every run** in which no request is posted while it is still on the list. -/
theorem order_reach {ok : State R → Tid × Input R → Prop}
    (hok : ∀ c a, OrderInv c → ok c a → postedOnce c a) {c : State R} (h : Reach (pool R).lts ok c) :
    OrderInv c ∧ LifeInv c := by
  refine controlled_induct (I := OrderInv) (fun c a hi ha => (hok c a hi ha).1) ?_ ?_ ?_ ?_ h
  · rintro _ rfl
    exact ⟨fun _ => rfl, fun hc => (by cases hc), fun ha => (by rcases ha with ha | ha <;> cases ha)⟩
  · intro c i x r _ hl hi _ hs
    exact hi.moveWorker hl hs
  · intro c x m' p' _ hl hi ha hs
    obtain ⟨hctl, hpost⟩ := hok c _ hi ha
    exact hi.moveController hl hctl.1 hpost hs
  · intro c k x q v m' p' _ hl hi _ ha hc hp
    obtain ⟨hctl, hpost⟩ := hok c _ hi ha
    exact hi.post hl hctl.1 (hpost q hc) hp

/-- **Each posting is executed once, in order, as long as no request is posted while it is still on the
list**: the requests popped and those on the list are the requests posted, and the requests popped are those
executed and those about to be. A `PopRequest` keeps this iff the request at the front is not on the list a
second time. -/
theorem popped_in_order_iff :
    (∀ c : State R, Reach (pool R).lts postedOnce c → alive c.mem →
      c.mem.popped ++ c.mem.requestQueue = c.mem.posted ∧ Handed c) ∧
    (∀ (c c' : State R) (i : Fin maxThreads) (x : Input R) (r : R) (q : List R), c.worker i = .pop →
      c.mem.requestQueue = r :: q → c.mem.popped ++ c.mem.requestQueue = c.mem.posted →
      (pool R).lts.next c (.inl i, x) = some c' →
      (c'.mem.popped ++ c'.mem.requestQueue = c'.mem.posted ↔ r ∉ q)) := by
  refine ⟨fun c h hu => ?_, fun c c' i x r q hw hq horder hs => ?_⟩
  · obtain ⟨-, hlisted, hhanded⟩ := (order_reach (fun _ _ _ ha => ha) h).1.alive hu
    exact ⟨hlisted.order, hhanded⟩
  · obtain ⟨r', hr', rfl⟩ := Option.map_eq_some_iff.mp hs
    obtain rfl : ({ c.mem with requestQueue := (r :: q).filter (· ≠ r), popped := c.mem.popped ++ [r] },
        Worker.execute r) = r' := by simpa [pool, hw, workerStep, popRequest, hq] using hr'
    show (c.mem.popped ++ [r]) ++ (r :: q).filter (· ≠ r) = c.mem.posted ↔ r ∉ q
    rw [← horder, hq, List.append_assoc, List.append_cancel_left_eq, List.singleton_append,
      List.filter_cons_of_neg (by simp)]
    simp only [List.cons.injEq, true_and, List.filter_eq_self, decide_eq_true_eq]
    exact ⟨fun h hin => h r hin rfl, fun h a ha hra => h (hra ▸ ha)⟩

/-- The test for an allowed step. -/
def onceTest (c : State R) (a : Tid × Input R) : Bool :=
  controlledTest a && match a.2.call with
    | some (.postRequest r) => decide (r ∉ c.mem.requestQueue)
    | _ => true

theorem once_of_test (c : State R) (a : Tid × Input R) (h : onceTest c a = true) : postedOnce c a := by
  simp only [onceTest, Bool.and_eq_true] at h
  refine ⟨controlled_of_test c a h.1, fun r hr => ?_⟩
  have h2 := h.2
  rw [hr] at h2
  exact of_decide_eq_true h2

/-- A request is executed and then posted again. -/
def repostRun : List (Tid × Input ℕ) :=
  createCall 1 ++ steps (.inl 0) 1 ++ post 7 ++ steps (.inl 0) 6 ++ (post 7 ++ post 8)

theorem popped_in_order_iff_repostRun : ∃ c : State ℕ, Reach (pool ℕ).lts postedOnce c ∧
    c.mem.popped = [7] ∧ c.mem.posted = [7, 7, 8] ∧ [7] ++ c.mem.requestQueue = [7, 7, 8] := by
  obtain ⟨c, hc, hp⟩ := reach_of_run (pool ℕ).lts once_of_test repostRun
    (fun c => decide (c.mem.stage = .up) && decide (c.mem.popped = [7]) && decide (c.mem.posted = [7, 7, 8]))
    rfl (by decide)
  simp only [Bool.and_eq_true, decide_eq_true_eq] at hp
  obtain ⟨horder, -⟩ := popped_in_order_iff.1 c hc (Or.inr hp.1.1)
  rw [hp.1.2, hp.2] at horder
  exact ⟨c, hc, hp.1.2, hp.2, horder⟩

/-- The same request is posted twice before a worker pops it. -/
def twiceRun : List (Tid × Input ℕ) :=
  createCall 1 ++ steps (.inl 0) 1 ++ (post 7 ++ post 7) ++ steps (.inl 0) 5

/-- **The second posting is lost**: both have been taken off the list for one `Execute`. -/
theorem posting_lost_twiceRun : ∃ c : State ℕ, Reach (pool ℕ).lts controlled c ∧ c.mem.stage = .up ∧
    c.mem.posted = [7, 7] ∧ c.mem.popped = [7] ∧ c.mem.requestQueue = [] := by
  obtain ⟨c, hc, hp⟩ := reach_of_run (pool ℕ).lts (fun c a => controlled_of_test c a) twiceRun
    (fun c => decide (c.mem.stage = .up) && decide (c.mem.posted = [7, 7]) && decide (c.mem.popped = [7]) &&
      decide (c.mem.requestQueue = [])) rfl (by decide)
  simp only [Bool.and_eq_true, decide_eq_true_eq] at hp
  exact ⟨c, hc, hp.1.1.1, hp.1.1.2, hp.1.2, hp.2⟩

end PoolStudy.TP.Order
