import PoolStudy.TP.Life

/-! # The Windows thread pool: a request that is refused

`PostRequest` puts the request on the list before it asks the semaphore for a token. If `ReleaseSemaphore` fails it
counts the request as pending and returns false, with the request still on the list, and its caller deletes the
request. This happens while `Destroy` is running: the tokens it has released are not in `m_usSemaphoreCount`.

A call that returns false has left the list and the counters alone exactly if it did not fail there (`notifies`). In
a run without such a failure, every request on the list is one that was accepted. -/

namespace PoolStudy.TP.Refused

open PoolStudy.Lib.Transition PoolStudy.Lib.Threads PoolStudy.TP.Model PoolStudy.TP.Steps PoolStudy.TP.Life

variable {R : Type} [DecidableEq R]

/-! ### The call -/

omit [DecidableEq R] in
/-- The list and the counters. -/
def queueFields (m : Mem R) : List R × ℕ × ℕ := (m.requestQueue, m.pendingReqCount, m.semaphoreCount)

omit [DecidableEq R] in
/-- `ReleaseSemaphore` of one token succeeds. -/
def canRelease (m : Mem R) (x : Input R) : Bool :=
  !x.refuse && m.semaphore.any fun s => decide (s.count < s.max)

omit [DecidableEq R] in
/-- **A `PostRequest` does not fail to notify a thread**: there is no pool, or no token is free, or the semaphore
takes one. -/
def notifies (m : Mem R) (x : Input R) : Bool :=
  m.threadList.isNone || decide (m.threadCount ≤ m.semaphoreCount) || canRelease m x

omit [DecidableEq R] in
theorem notifyThread_isSome (m : Mem R) (x : Input R) (r : R) :
    (notifyThread (pushBack m r) x).isSome = canRelease m x := by
  unfold notifyThread releaseSemaphore canRelease pushBack
  cases m.semaphore with
  | none => simp
  | some s =>
    by_cases hx : x.refuse = false ∧ s.count < s.max
    · have hle : s.count + 1 ≤ s.max := hx.2
      simp [hx.1, hx.2, hle]
    · cases hr : x.refuse with
      | true => simp
      | false =>
        have hlt : ¬ s.count < s.max := fun h => hx ⟨hr, h⟩
        have hle : ¬ s.count + 1 ≤ s.max := hlt
        simp [hlt, hle]

omit [DecidableEq R] in
/-- **A call that returns false has changed nothing exactly if it did not fail to notify a thread.** -/
theorem postRequest_false_iff (m : Mem R) (x : Input R) (r : R) :
    ((postRequest m x r).2 = false → queueFields (postRequest m x r).1 = queueFields m) ↔ notifies m x = true := by
  have hsome := notifyThread_isSome m x r
  unfold postRequest notifies
  by_cases hl : m.threadList = none
  · simp [hl]
  by_cases hc : m.semaphoreCount < m.threadCount
  · have hlist : m.threadList.isNone = false := by simpa [Option.isSome_iff_ne_none] using hl
    have hcount : ¬ m.threadCount ≤ m.semaphoreCount := by omega
    rw [if_neg hl, if_pos hc, ← hsome]
    cases hn : notifyThread (pushBack m r) x with
    | some m' => simp
    | none => simp [hlist, hcount, queueFields, pushBack]
  · rw [if_neg hl, if_neg hc]
    simp [show m.threadCount ≤ m.semaphoreCount by omega]

/-! ### Runs -/

/-- `Create` before it has the list. -/
def starting : Client → Prop
  | .createInit _ | .createList => True
  | _ => False

/-- `Destroy` behind the list. -/
def closing : Client → Prop
  | .closeSemaphore _ | .clear _ => True
  | _ => False

/-- One thread creates and destroys the pool, `CloseHandle` succeeds, and no `PostRequest` fails to notify a
thread. -/
structure Notified (c : State R) (a : Tid × Input R) : Prop where
  one : ∀ k, a.1 = .inr k → k ≠ 0 → ∀ call, a.2.call = some call → ∃ r, call = .postRequest r
  close : ∀ k b, a.1 = .inr k → c.client k = .closeSemaphore b → a.2.refuse = false
  post : ∀ k r, a.1 = .inr k → a.2.call = some (.postRequest r) → notifies c.mem a.2 = true

/-- **Every request on the list was accepted.** -/
structure Kept (c : State R) : Prop where
  others : ∀ k, k ≠ 0 → ∃ v, c.client k = .out v
  accepted : ∀ r ∈ c.mem.requestQueue, r ∈ c.mem.posted
  start : starting (c.client 0) → c.mem.threadList = none
  empty : c.mem.threadList = none → ¬ closing (c.client 0) → c.mem.requestQueue = []

/-- What a step of a worker does to the list. -/
theorem workerStep_list {i : Fin maxThreads} {x : Input R} {m m' : Mem R} {w w' : Worker R}
    (hs : WorkerStep i x m w m' w') :
    m'.requestQueue ⊆ m.requestQueue ∧ m'.posted = m.posted ∧ m'.threadList = m.threadList := by
  cases hs with
  | pop h =>
    refine ⟨fun r hr => ?_, rfl, rfl⟩
    rw [h]
    exact (List.mem_filter.mp hr).1
  | _ => exact ⟨List.Subset.refl _, rfl, rfl⟩

omit [DecidableEq R] in
/-- What a `PostRequest` that does not fail to notify a thread does to the list. -/
theorem postStep_list {x : Input R} {m m' : Mem R} {r : R} {v : Bool} (h : PostStep x m r m' v)
    (hn : notifies m x = true) (hq : ∀ q ∈ m.requestQueue, q ∈ m.posted) :
    (∀ q ∈ m'.requestQueue, q ∈ m'.posted) ∧ m'.threadList = m.threadList ∧
      (m.threadList = none → m'.requestQueue = m.requestQueue) := by
  have hpush : ∀ q ∈ m.requestQueue ++ [r], q ∈ m.posted ++ [r] := fun q hin => by
    rcases List.mem_append.mp hin with hin | hin
    · exact List.mem_append_left _ (hq q hin)
    · exact List.mem_append_right _ hin
  cases h with
  | noList hl => exact ⟨hq, rfl, fun _ => rfl⟩
  | notify hl hc hs hle => exact ⟨hpush, rfl, fun h => absurd h hl⟩
  | notifyFailed hl hc hnone =>
    have hsome := notifyThread_isSome m x r
    have hlist : m.threadList.isNone = false := by simpa [Option.isSome_iff_ne_none] using hl
    rw [hnone, Option.isSome_none] at hsome
    rw [notifies, hlist, ← hsome, Bool.or_false, Bool.false_or, decide_eq_true_eq] at hn
    omega
  | count hl hc => exact ⟨hpush, rfl, fun h => absurd h hl⟩

theorem Kept.moveWorker {c : State R} {i : Fin maxThreads} {x : Input R} {r : Mem R × Worker R} (h : Kept c)
    (hs : WorkerStep i x c.mem (c.worker i) r.1 r.2) : Kept (c.moveWorker i r) := by
  obtain ⟨hq, hp, hl⟩ := workerStep_list hs
  refine ⟨h.others, fun q hin => ?_, fun hst => hl.trans (h.start hst), fun hnone hcl => ?_⟩
  · show q ∈ r.1.posted
    rw [hp]
    exact h.accepted q (hq hin)
  · have hempty := h.empty (hl.symm.trans hnone) hcl
    rw [hempty] at hq
    exact List.subset_nil.mp hq

omit [DecidableEq R] in
theorem Kept.post {c : State R} {k : ℕ} {x : Input R} {m' : Mem R} {v : Bool} {r : R} (h : Kept c)
    (hp : PostStep x c.mem r m' v) (hn : notifies c.mem x = true) (hk : ∃ last, c.client k = .out last) :
    Kept (c.moveClient k (m', .out (some v))) := by
  obtain ⟨hq, hl, hsame⟩ := postStep_list hp hn h.accepted
  have hzero : ∀ P : Client → Prop, (∀ last, P (.out last) ↔ False) →
      (P ((c.moveClient k (m', .out (some v))).client 0) ↔ P (c.client 0)) := fun P hP => by
    rcases moveClient_cases c k (m', Client.out (some v)) 0 with ⟨h0, he⟩ | ⟨-, he⟩
    · obtain ⟨last, hlast⟩ := hk
      rw [he, h0, hlast, hP, hP]
    · rw [he]
  refine ⟨fun k' hk' => ?_, hq, fun hst => hl.trans (h.start ?_), fun hnone hcl => ?_⟩
  · rcases moveClient_cases c k (m', Client.out (some v)) k' with ⟨-, he⟩ | ⟨-, he⟩
    · exact ⟨some v, he⟩
    · rw [he]
      exact h.others k' hk'
  · exact (hzero starting fun _ => Iff.rfl).mp hst
  · have hlist : c.mem.threadList = none := hl.symm.trans hnone
    exact (hsame hlist).trans (h.empty hlist fun h0 => hcl ((hzero closing fun _ => Iff.rfl).mpr h0))

omit [DecidableEq R] in
/-- A step of the controller, from what it does to the list. -/
theorem Kept.control {c : State R} {m' : Mem R} {p' : Client} (h : Kept c)
    (hq : ∀ r ∈ m'.requestQueue, r ∈ m'.posted) (hst : starting p' → m'.threadList = none)
    (hempty : m'.threadList = none → ¬ closing p' → m'.requestQueue = []) : Kept (c.moveClient 0 (m', p')) := by
  refine ⟨fun k hk => ?_, hq, fun h0 => hst ?_, fun hl h0 => hempty hl ?_⟩
  · rw [moveClient_other c hk]
    exact h.others k hk
  · rwa [moveClient_self] at h0
  · rwa [moveClient_self] at h0

omit [DecidableEq R] in
theorem Kept.moveController {c : State R} {x : Input R} {m' : Mem R} {p' : Client} (h : Kept c)
    (hs : ClientStep x c.mem (c.client 0) m' p') (hok : Notified c (.inr 0, x)) :
    Kept (c.moveClient 0 (m', p')) := by
  have hst := h.start
  have hem := h.empty
  have hclose := hok.close 0
  generalize hp : c.client 0 = p at hs hst hem hclose
  cases hs with
  | post last hc hpost => exact h.post hpost (hok.post 0 _ rfl hc) ⟨last, hp⟩
  | create last hc hl h0 hn => exact h.control h.accepted (fun _ => hl) fun hl _ => hem hl id
  | destroy last hc hl => exact h.control h.accepted False.elim fun hl' => absurd hl' hl
  | createInit n =>
    have hq : c.mem.requestQueue = [] := hem (hst trivial) id
    refine h.control (fun r hr => ?_) (fun _ => hst trivial) fun _ _ => hq
    rw [show (initialized c.mem n).requestQueue = [] from hq] at hr
    cases hr
  | createList => exact h.control h.accepted False.elim nofun
  | createThread k hk => exact h.control h.accepted False.elim nofun
  | createDestroy hl => exact h.control h.accepted False.elim fun hl' => absurd hl' hl
  | cancel b => exact h.control nofun False.elim fun _ _ => rfl
  | closeThreads b => exact h.control h.accepted False.elim fun _ hcl => absurd trivial hcl
  | closeSemaphore b => exact h.control h.accepted False.elim fun _ hcl => absurd trivial hcl
  | closeSemaphoreFailed b hx =>
    have hno := hclose b rfl rfl
    rw [hx] at hno
    cases hno
  | clear b => exact h.control nofun False.elim fun _ _ => rfl
  | _ => exact h.control h.accepted False.elim fun hl _ => hem hl id

theorem kept_reach {c : State R} (h : Reach (pool R).lts Notified c) : Kept c := by
  refine Program.invariant (I := Kept) ?_ ?_ ?_ h
  · rintro _ rfl
    exact ⟨fun k _ => ⟨none, rfl⟩, nofun, fun _ => rfl, fun _ _ => rfl⟩
  · intro c i x r _ hi _ hs
    exact hi.moveWorker (workerStep_cases hs)
  · rintro c k x ⟨m', p'⟩ _ hi hok hs
    have hcs := clientStep_cases hs
    by_cases hk : k = 0
    · subst hk
      exact hi.moveController hcs hok
    · obtain ⟨q, v, hc, hp, rfl⟩ := post_of_controlled hcs (hok.one k rfl hk) (hi.others k hk)
      exact hi.post hp (hok.post k q rfl hc) (hi.others k hk)

/-- **A refused `PostRequest` does not keep the request** exactly if it did not fail to notify a thread, in every
state of the pool. In every run without such a failure, also while `Destroy` is running, every request on the list is
one whose `PostRequest` returned true. -/
theorem refused_iff {c : State R} (h : Reach (pool R).lts Notified c) :
    (∀ (m : Mem R) (x : Input R) (r : R),
      ((postRequest m x r).2 = false → queueFields (postRequest m x r).1 = queueFields m) ↔ notifies m x = true) ∧
    ∀ r ∈ c.mem.requestQueue, r ∈ c.mem.posted :=
  ⟨postRequest_false_iff, (kept_reach h).accepted⟩

/-- The test for such a step. -/
def notifiedTest (c : State R) (a : Tid × Input R) : Bool :=
  controlledTest a && (match a.2.call with
    | some (.postRequest _) => notifies c.mem a.2
    | _ => true)

omit [DecidableEq R] in
theorem notified_of_test (c : State R) (a : Tid × Input R) (h : notifiedTest c a = true) : Notified c a := by
  simp only [notifiedTest, Bool.and_eq_true] at h
  have hctl := controlled_of_test c a h.1
  refine ⟨hctl.2, fun _ _ _ _ => hctl.1, fun k r _ hcall => ?_⟩
  have h2 := h.2
  rw [hcall] at h2
  exact h2

/-- A request is posted before the pool is created, which is refused, and another one afterwards. -/
def beforeCreateRun : List (Tid × Input ℕ) := post 7 ++ createCall 1 ++ steps (.inl 0) 1 ++ post 8

theorem refused_iff_beforeCreateRun : ∃ c : State ℕ, Reach (pool ℕ).lts Notified c ∧ c.mem.requestQueue = [8] ∧
    ∀ r ∈ c.mem.requestQueue, r ∈ c.mem.posted := by
  obtain ⟨c, hc, hp⟩ := reach_of_run (pool ℕ).lts notified_of_test beforeCreateRun
    (fun c => decide (c.mem.requestQueue = [8])) rfl (by decide)
  exact ⟨c, hc, of_decide_eq_true hp, (refused_iff hc).2⟩

/-- A request is posted to a pool of one thread when `Destroy` has released the semaphore. -/
def whileDestroyRun : List (Tid × Input ℕ) :=
  createCall 1 ++ steps (.inl 0) 1 ++ destroyCall ++ post 7

/-- **A refused request is left on the list**: `ReleaseSemaphore` has found all tokens there already. -/
theorem refused_kept_whileDestroyRun : ∃ c : State ℕ, Reach (pool ℕ).lts controlled c ∧
    c.client 1 = .out (some false) ∧ c.mem.requestQueue = [7] ∧ c.mem.pendingReqCount = 1 ∧ c.mem.posted = [] := by
  obtain ⟨c, hc, hp⟩ := reach_of_run (pool ℕ).lts (fun c a h => controlled_of_test c a h) whileDestroyRun
    (fun c => decide (c.client 1 = .out (some false)) && decide (c.mem.requestQueue = [7]) &&
      decide (c.mem.pendingReqCount = 1) && decide (c.mem.posted = [])) rfl (by decide)
  simp only [Bool.and_eq_true, decide_eq_true_eq] at hp
  obtain ⟨⟨⟨hv, hq⟩, hn⟩, hpost⟩ := hp
  exact ⟨c, hc, hv, hq, hn, hpost⟩

end PoolStudy.TP.Refused
