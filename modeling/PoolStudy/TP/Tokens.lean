import PoolStudy.TP.Order

/-! # The Windows thread pool: tokens, pending requests and the list

While the pool is up, the requests on the list are the tokens of the semaphore, the wake-ups not spent yet, and
the requests pending (`Spent`). The steps of the workers (`workerStep_spent`) and the posts (`postStep_spent`)
keep this, so `PopRequest` never finds the list empty (`token_accounting`). -/

namespace PoolStudy.TP.Tokens

open PoolStudy.Lib.Transition PoolStudy.Lib.Threads PoolStudy.TP.Model PoolStudy.TP.Steps PoolStudy.TP.Life
open PoolStudy.TP.Order

variable {R : Type} [DecidableEq R]

/-- **Requests are posted while the pool is up, and are pairwise distinct.** -/
def distinctPosts (c : State R) (a : Tid × Input R) : Prop :=
  controlled c a ∧ ∀ r, a.2.call = some (.postRequest r) → c.mem.stage = .up ∧ r ∉ c.mem.posted

omit [DecidableEq R] in
/-- Requests that are pairwise distinct are not on the list when they are posted. -/
theorem postedOnce_of_distinct (c : State R) (a : Tid × Input R) (hi : OrderInv c) (h : distinctPosts c a) :
    postedOnce c a := by
  refine ⟨h.1, fun r hr hin => ?_⟩
  obtain ⟨hu, hnew⟩ := h.2 r hr
  obtain ⟨-, hlisted, -⟩ := hi.alive (Or.inr hu)
  rw [← hlisted.order] at hnew
  exact hnew (List.mem_append_right _ hin)

/-! ### Wake-ups -/

/-- The worker holds a wake-up for which it has not popped a request. -/
def unspent : Worker R → ℕ
  | .woken | .enter | .check | .pop => 1
  | _ => 0

/-- **The requests on the list**: the tokens, `U` wake-ups not spent, and those pending. -/
def Spent (m : Mem R) (U : ℕ) : Prop :=
  ∀ s, m.semaphore = some s → ∃ k, m.requestQueue.length = s.count + U + k ∧ k % 65536 = m.pendingReqCount

/-- **A step of a worker.** -/
theorem workerStep_spent {i : Fin maxThreads} {x : Input R} {m m' : Mem R} {w w' : Worker R} {W U U' : ℕ}
    (hs : WorkerStep i x m w m' w') (h : Spent m U) (hm : Mirror m W) (hl : Listed m)
    (hflag : m.destroyed = false) (hx : x.refuse = false) (hU : U' + unspent w = U + unspent w')
    (hu : unspent w ≤ U) : Spent m' U' := by
  obtain ⟨cnt, hsem, -, -⟩ := id hm
  obtain ⟨k, hlen, hk⟩ := h _ hsem
  -- the semaphore after the step
  have hspent : ∀ cnt' k', m'.semaphore = some ⟨cnt', m.threadCount⟩ →
      m'.requestQueue.length = cnt' + U' + k' → k' % 65536 = m'.pendingReqCount → Spent m' U' := by
    intro cnt' k' hs' hlen' hk' s hs
    obtain rfl := Option.some.inj (hs'.symm.trans hs)
    exact ⟨k', hlen', hk'⟩
  cases hs with
  | acquire hs hpos =>
    obtain rfl := Option.some.inj (hs.symm.trans hsem)
    simp only [unspent] at hU hpos hlen
    exact hspent (cnt - 1) k rfl (by simp only; omega) hk
  | waitFailed hs => cases hs.symm.trans hsem
  | checkQuit hd | recheckQuit hd => rw [hflag] at hd; cases hd
  | popEmpty hq =>
    simp only [hq, List.length_nil, unspent] at hlen hu
    omega
  | pop hq =>
    have hnodup := hl.nodup
    rw [hq] at hnodup hlen
    simp only [unspent, List.length_cons] at hU hlen
    refine hspent cnt k hsem ?_ hk
    simp only [filter_head hnodup]
    omega
  | passOn hp hc hs hle' =>
    obtain rfl := Option.some.inj (hs.symm.trans hsem)
    simp only [unspent] at hU hlen
    refine hspent (cnt + 1) (k - 1) rfl ?_ ?_ <;> simp only [notified, released, dec] <;> omega
  | passOnFailed hp hc hno => exact absurd hno (hm.not_refused hx hc)
  | _ => exact hspent cnt k hsem (by simp_all [unspent]) hk

omit [DecidableEq R] in
/-- **A post.** -/
theorem postStep_spent {x : Input R} {m m' : Mem R} {r : R} {v : Bool} {W U : ℕ} (hp : PostStep x m r m' v)
    (h : Spent m U) (hm : Mirror m W) (hx : x.refuse = false) : Spent m' U := by
  obtain ⟨cnt, hsem, hmirror⟩ := hm
  obtain ⟨k, hlen, hk⟩ := h _ hsem
  intro s hs'
  cases hp with
  | noList _ => exact h s hs'
  | notify hl hc hs hle =>
    obtain rfl := Option.some.inj (hs.symm.trans hsem)
    obtain rfl := Option.some.inj hs'
    refine ⟨k, ?_, hk⟩
    simp only [notified, released, pushBack, List.length_append, List.length_singleton]
    simp only at hlen
    omega
  | notifyFailed hl hc hno =>
    have hpush : Mirror (pushBack m r) W := ⟨cnt, hsem, hmirror⟩
    exact absurd hno (hpush.not_refused hx hc)
  | count hl hc =>
    obtain rfl := Option.some.inj (hsem.symm.trans hs')
    refine ⟨k + 1, ?_, ?_⟩ <;> simp only [counted, pushBack, inc, List.length_append, List.length_singleton]
    · simp only at hlen
      omega
    · omega

/-! ### The invariant -/

/-- The pool is being created, and nothing has been posted. -/
structure Calm (c : State R) : Prop where
  semaphore : ∃ n, c.mem.semaphore = some ⟨0, n⟩
  pending : c.mem.pendingReqCount = 0
  queue : c.mem.requestQueue = []
  workers : ∀ i, c.worker i = .off ∨ c.worker i = .wait

/-- **The invariant**, by the stage of the pool. -/
structure TokensInv (c : State R) : Prop where
  creating : c.mem.stage = .creating → Calm c
  flag : c.mem.stage = .up → c.mem.destroyed = false
  spent : c.mem.stage = .up → Spent c.mem (∑ i, unspent (c.worker i))

/-- A worker of a pool that is being created goes to its wait. -/
theorem Calm.moveWorker {c : State R} (h : Calm c) {i : Fin maxThreads} {x : Input R} {r : Mem R × Worker R}
    (hs : WorkerStep i x c.mem (c.worker i) r.1 r.2) : Calm (c.moveWorker i r) := by
  obtain ⟨n, hsem⟩ := h.semaphore
  have hi := h.workers i
  obtain ⟨m', w'⟩ := r
  change WorkerStep i x c.mem (c.worker i) m' w' at hs
  generalize c.worker i = w at hs hi
  cases hs with
  | start ht =>
    refine ⟨⟨n, hsem⟩, h.pending, h.queue, fun j => ?_⟩
    rcases moveWorker_cases c i (_, .wait) j with ⟨-, he⟩ | ⟨-, he⟩
    · exact Or.inr he
    · rw [he]
      exact h.workers j
  | acquire hs hpos =>
    obtain rfl := Option.some.inj (hs.symm.trans hsem)
    exact absurd hpos (lt_irrefl 0)
  | waitFailed hnone => cases hnone.symm.trans hsem
  | _ => simp at hi

theorem TokensInv.moveWorker {c : State R} (h : TokensInv c) (ho : OrderInv c) {i : Fin maxThreads} {x : Input R}
    {r : Mem R × Worker R} (hx : x.refuse = false) (hs : WorkerStep i x c.mem (c.worker i) r.1 r.2) :
    TokensInv (c.moveWorker i r) := by
  have hst := (workerStep_same hs).stage
  refine ⟨fun hc => (h.creating (hst.symm.trans hc)).moveWorker hs, fun hu => ?_, fun hu => ?_⟩
  · exact (workerStep_flag hs).trans (h.flag (hst.symm.trans hu))
  · have hu' := hst.symm.trans hu
    obtain ⟨hmirror, hlisted, -⟩ := ho.alive (Or.inr hu')
    exact workerStep_spent hs (h.spent hu') hmirror hlisted (h.flag hu') hx
      (sum_update (fun _ => unspent) c.worker i r.2) (le_sum c.worker i fun _ => unspent)

omit [DecidableEq R] in
theorem TokensInv.post {c : State R} (h : TokensInv c) (ho : OrderInv c) {k : ℕ} {x : Input R} {r : R} {v : Bool}
    {m' : Mem R} {p' : Client} (hx : x.refuse = false) (hp : PostStep x c.mem r m' v) (hu : c.mem.stage = .up) :
    TokensInv (c.moveClient k (m', p')) := by
  have hst := (postStep_same hp).stage
  refine ⟨fun hc => ?_, fun _ => (postStep_flag hp).trans (h.flag hu), fun _ => ?_⟩
  · cases (hst.symm.trans hc).symm.trans hu
  · exact postStep_spent hp (h.spent hu) (ho.alive (Or.inr hu)).1 hx

omit [DecidableEq R] in
/-- Nothing is said of a pool that is neither being created nor up. -/
theorem TokensInv.of_stage {c : State R} (h : c.mem.stage ≠ .creating ∧ c.mem.stage ≠ .up) : TokensInv c :=
  ⟨fun hc => absurd hc h.1, fun hu => absurd hu h.2, fun hu => absurd hu h.2⟩

omit [DecidableEq R] in
theorem TokensInv.congr {c c' : State R} (h : TokensInv c) (hw : c'.worker = c.worker)
    (hs : SameAccounts c.mem c'.mem) (hp : c'.mem.pendingReqCount = c.mem.pendingReqCount)
    (hf : c'.mem.destroyed = c.mem.destroyed) : TokensInv c' := by
  refine ⟨fun hc => ?_, fun hu => hf.trans (h.flag (hs.stage.symm.trans hu)), fun hu => ?_⟩
  · have hcm := h.creating (hs.stage.symm.trans hc)
    exact ⟨by rw [hs.semaphore]; exact hcm.semaphore, hp.trans hcm.pending, hs.queue.trans hcm.queue,
      by rw [hw]; exact hcm.workers⟩
  · rw [Spent, hs.semaphore, hs.queue, hp, hw]
    exact h.spent (hs.stage.symm.trans hu)

omit [DecidableEq R] in
theorem TokensInv.moveController {c : State R} (h : TokensInv c) (ho : OrderInv c) (hl : LifeInv c) {x : Input R}
    {m' : Mem R} {p' : Client} (hx : x.refuse = false)
    (hok : ∀ r, x.call = some (.postRequest r) → c.mem.stage = .up)
    (hs : ClientStep x c.mem (c.client 0) m' p') : TokensInv (c.moveClient 0 (m', p')) := by
  have hctl := hl.ctl
  generalize c.client 0 = p at hs hctl
  cases hs with
  | post last hc hp => exact h.post ho hx hp (hok _ hc)
  | destroy last hc hl' => exact .of_stage (ending_stage (beginDestroy_stage _ _))
  | createDestroy hl' => exact .of_stage (ending_stage (beginDestroy_stage _ _))
  | createInit n =>
    cases hctl with
    | createInit _ hst _ hb _ _ =>
      exact ⟨fun _ => ⟨⟨n, rfl⟩, rfl, ho.down hst, fun i => Or.inl (hl.off_of_le hb (Nat.zero_le _))⟩,
        fun hu => (by cases hu), fun hu => (by cases hu)⟩
    | ending hp _ => exact hp.elim
  | semaphoreFailed n =>
    cases hctl with
    | createInit _ hst _ _ _ _ => exact .of_stage ⟨by simp [Config.moveClient, hst], by simp [Config.moveClient, hst]⟩
    | ending hp _ => exact hp.elim
  | createFlag =>
    cases hctl with
    | createFlag hst _ _ _ =>
      have hcm := h.creating hst
      obtain ⟨n, hsem⟩ := hcm.semaphore
      refine ⟨fun hc => (by cases hc), fun _ => rfl, fun _ s hs => ⟨0, ?_, ?_⟩⟩
      · obtain rfl := Option.some.inj (hsem.symm.trans hs)
        show c.mem.requestQueue.length = 0 + ∑ i, unspent (c.worker i) + 0
        rw [sum_calm hcm.workers ⟨rfl, rfl⟩, hcm.queue]
        rfl
      · exact hcm.pending.symm
    | ending hp _ => exact hp.elim
  | createFailed hlist => exact .of_stage ⟨by simp [Config.moveClient], by simp [Config.moveClient]⟩
  | clear b => exact .of_stage ⟨by simp [Config.moveClient], by simp [Config.moveClient]⟩
  | cancel b | setFlag b =>
    cases hctl with
    | ending _ he => exact .of_stage (ending_stage he.stage)
  | release b ha hsem hle =>
    cases hctl with
    | ending _ he => exact .of_stage (ending_stage he.stage)
  | closeSemaphore b =>
    cases hctl with
    | closeSemaphore _ hst _ _ => exact .of_stage (ending_stage hst)
    | ending hp _ => exact hp.elim
  | _ => exact h.congr rfl ⟨rfl, rfl, rfl, rfl, rfl, rfl, rfl, rfl⟩ rfl rfl

/-- **What holds in every run** whose requests are posted while the pool is up and are pairwise distinct. -/
structure Accounts (c : State R) : Prop where
  life : LifeInv c
  order : OrderInv c
  tokens : TokensInv c

theorem accounts_reach {ok : State R → Tid × Input R → Prop} (hok : ∀ c a, ok c a → distinctPosts c a)
    {c : State R} (h : Reach (pool R).lts ok c) : Accounts c := by
  have horder : ∀ {c}, Reach (pool R).lts ok c → OrderInv c := fun hr =>
    (order_reach (fun c a hi ha => postedOnce_of_distinct c a hi (hok c a ha)) hr).1
  suffices ht : TokensInv c ∧ LifeInv c from ⟨ht.2, horder h, ht.1⟩
  refine controlled_induct (I := TokensInv) (fun c a _ ha => (hok c a ha).1) ?_ ?_ ?_ ?_ h
  · rintro _ rfl
    exact .of_stage ⟨by simp [threadPool], by simp [threadPool]⟩
  · intro c i x r hr _ hi ha hs
    exact hi.moveWorker (horder hr) (hok c _ ha).1.1 hs
  · intro c x m' p' hr hl hi ha hs
    have hd := hok c _ ha
    exact hi.moveController (horder hr) hl hd.1.1 (fun r hr => (hd.2 r hr).1) hs
  · intro c k x q v m' p' hr _ hi _ ha hc hp
    have hd := hok c _ ha
    exact hi.post (horder hr) hd.1.1 hp (hd.2 q hc).1

omit [DecidableEq R] in
/-- A worker at a place that counts is counted. -/
theorem sum_pos_of {v : Worker R → ℕ} {f : Fin maxThreads → Worker R} {i : Fin maxThreads} (h : 0 < v (f i)) :
    0 < ∑ j, v (f j) :=
  h.trans_le (le_sum f i fun _ => v)

/-- **The accounts of a pool that is up.** With requests that are pairwise distinct and posted only after
`Create` has returned true: `m_usSemaphoreCount` is the count of the semaphore and the workers that have
returned from their wait but not yet counted down, at most `m_usThreadCount`, and not zero when it is counted
down; `m_lActiveThread` is the number of workers in the scope of `AutoCounter`; and the length of the list is
the count, the wake-ups not spent and a number congruent to `m_usPendingReqCount`. So a `NotifyThread` stays
within the maximum, and `PopRequest` finds a request. -/
theorem token_accounting {c : State R} (h : Reach (pool R).lts distinctPosts c) (hu : c.mem.stage = .up) :
    ∃ cnt k, c.mem.semaphore = some ⟨cnt, c.mem.threadCount⟩ ∧
      c.mem.semaphoreCount = cnt + ∑ i, woken (c.worker i) ∧
      c.mem.semaphoreCount ≤ c.mem.threadCount ∧ 0 < c.mem.threadCount ∧ c.mem.threadCount ≤ 64 ∧
      (∀ i, c.worker i = .woken → 0 < c.mem.semaphoreCount) ∧
      c.mem.activeThread = ∑ i, inScope (c.worker i) ∧
      c.mem.requestQueue.length = cnt + ∑ i, unspent (c.worker i) + k ∧ k % 65536 = c.mem.pendingReqCount ∧
      (c.mem.semaphoreCount < c.mem.threadCount → cnt + 1 ≤ c.mem.threadCount) ∧
      (∀ i, c.worker i = .pop → c.mem.requestQueue ≠ []) := by
  obtain ⟨hl, ho, ht⟩ := accounts_reach (fun _ _ ha => ha) h
  obtain ⟨cnt, hsem, hcount, hle⟩ := (ho.alive (Or.inr hu)).1
  obtain ⟨k, hlen, hk⟩ := ht.spent hu _ hsem
  have hz := (hl.ctl.of_up hu).sized
  refine ⟨cnt, k, hsem, hcount, hle, hz.pos, hz.le, fun i hw => ?_, hl.active, hlen, hk, fun hlt => by omega,
    fun i hw hq => ?_⟩
  · have := sum_pos_of (v := woken) (f := c.worker) (i := i) (by rw [hw]; exact Nat.one_pos)
    omega
  · have := sum_pos_of (v := unspent) (f := c.worker) (i := i) (by rw [hw]; exact Nat.one_pos)
    rw [hq, List.length_nil] at hlen
    simp only at hlen
    omega

/-- The test for an allowed step. -/
def distinctTest (c : State R) (a : Tid × Input R) : Bool :=
  controlledTest a && match a.2.call with
    | some (.postRequest r) => decide (c.mem.stage = .up ∧ r ∉ c.mem.posted)
    | _ => true

theorem distinct_of_test (c : State R) (a : Tid × Input R) (h : distinctTest c a = true) :
    distinctPosts c a := by
  simp only [distinctTest, Bool.and_eq_true] at h
  refine ⟨controlled_of_test c a h.1, fun r hr => ?_⟩
  have h2 := h.2
  rw [hr] at h2
  exact of_decide_eq_true h2

/-- A pool of two threads; three requests are posted, and a worker is woken. -/
def threePostsRun : List (Tid × Input ℕ) :=
  createCall 2 ++ steps (.inl 0) 1 ++ (post 7 ++ post 8 ++ post 9) ++ steps (.inl 0) 1

theorem token_accounting_threePostsRun : ∃ c : State ℕ, Reach (pool ℕ).lts distinctPosts c ∧
    c.mem.stage = .up ∧ c.mem.requestQueue = [7, 8, 9] ∧ 0 < c.mem.semaphoreCount := by
  obtain ⟨c, hc, hp⟩ := reach_of_run (pool ℕ).lts distinct_of_test threePostsRun
    (fun c => decide (c.mem.stage = .up) && decide (c.mem.requestQueue = [7, 8, 9]) &&
      decide (c.worker 0 = .woken)) rfl (by decide)
  simp only [Bool.and_eq_true, decide_eq_true_eq] at hp
  obtain ⟨-, -, -, -, -, -, -, hpos, -⟩ := token_accounting hc hp.1.1
  exact ⟨c, hc, hp.1.1, hp.1.2, hpos 0 hp.2⟩

end PoolStudy.TP.Tokens
