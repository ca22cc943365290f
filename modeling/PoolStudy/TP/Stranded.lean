import PoolStudy.TP.Tokens

/-! # The Windows thread pool: stranded requests

A request that finds no token free is only counted, and a worker that has finished passes one on. A worker
whose `Execute` fails does not: it goes back to its wait past the test of `m_usPendingReqCount`. If it was the
last one on its way to that test, and no token is left, the requests pending stay on the list. They also do when
the count of them wraps. `none_stranded` says that this is all that can go wrong. -/

namespace PoolStudy.TP.Stranded

open PoolStudy.Lib.Transition PoolStudy.Lib.Threads PoolStudy.TP.Model PoolStudy.TP.Steps PoolStudy.TP.Life
open PoolStudy.TP.Order PoolStudy.TP.Tokens

variable {R : Type} [DecidableEq R]

/-- The worker is on its way to the test of `m_usPendingReqCount`, if its `Execute` does not fail. -/
def notifies : Worker R → ℕ
  | .woken | .enter | .check | .pop | .execute _ | .recheck | .renotify => 1
  | _ => 0

/-- **The count of the pending requests does not wrap, and an `Execute` fails only if no request is pending,
a token is left, or another worker is on its way to pass a request on.** -/
def passesOn (c : State R) (a : Tid × Input R) : Prop :=
  (∀ r, a.2.call = some (.postRequest r) → c.mem.threadCount ≤ c.mem.semaphoreCount →
    c.mem.pendingReqCount < 65535) ∧
  (∀ i r, a.1 = .inl i → c.worker i = .execute r → a.2.result ≠ .zero →
    c.mem.pendingReqCount = 0 ∨ tokenLeft c.mem ∨ ∃ j, j ≠ i ∧ 0 < notifies (c.worker j))

/-- The steps the result is about. -/
def carriedOn (c : State R) (a : Tid × Input R) : Prop := distinctPosts c a ∧ passesOn c a

/-! ### The invariant -/

/-- **The requests pending**: the count has not wrapped, and while there are any, a token is left or one of
`N` workers is on its way. -/
def Carried (m : Mem R) (U N : ℕ) : Prop :=
  ∀ s, m.semaphore = some s → m.requestQueue.length = s.count + U + m.pendingReqCount ∧
    (0 < m.pendingReqCount → 0 < s.count ∨ 0 < N)

omit [DecidableEq R] in
theorem woken_le_notifies (w : Worker R) : woken w ≤ notifies w := by
  cases w <;> simp [woken, notifies]

omit [DecidableEq R] in
/-- A pool whose tokens are all out has one left or a worker just woken. -/
theorem full_carried {m : Mem R} {W N cnt : ℕ} (hcount : m.semaphoreCount = cnt + W) (hpos : 0 < m.threadCount)
    (hfull : m.threadCount ≤ m.semaphoreCount) (hW : W ≤ N) : 0 < cnt ∨ 0 < N := by
  omega

/-- **A step of a worker.** -/
theorem workerStep_carried {i : Fin maxThreads} {x : Input R} {m m' : Mem R} {w w' : Worker R}
    {W U N U' N' : ℕ} (hs : WorkerStep i x m w m' w') (h : Carried m U N) (hm : Mirror m W) (hl : Listed m)
    (hflag : m.destroyed = false) (hx : x.refuse = false) (hpos : 0 < m.threadCount)
    (hpend : m.pendingReqCount < 65536) (hU : U' + unspent w = U + unspent w')
    (hN : N' + notifies w = N + notifies w') (hu : unspent w ≤ U) (hW : W + notifies w ≤ N + woken w)
    (hfail : ∀ r, w = .execute r → x.result ≠ .zero → m.pendingReqCount = 0 ∨ tokenLeft m ∨ 0 < N') :
    Carried m' U' N' := by
  obtain ⟨cnt, hsem, hcount, hle⟩ := id hm
  obtain ⟨hlen, hcarry⟩ := h _ hsem
  simp only at hlen hcarry
  have hcarried : ∀ cnt', m'.semaphore = some ⟨cnt', m.threadCount⟩ →
      m'.requestQueue.length = cnt' + U' + m'.pendingReqCount →
      (0 < m'.pendingReqCount → 0 < cnt' ∨ 0 < N') → Carried m' U' N' := by
    intro cnt' hs' hlen' hc' s hs
    obtain rfl := Option.some.inj (hs'.symm.trans hs)
    exact ⟨hlen', hc'⟩
  cases hs with
  | acquire hs hpos' =>
    obtain rfl := Option.some.inj (hs.symm.trans hsem)
    simp only [unspent, notifies] at hU hN hpos'
    exact hcarried (cnt - 1) rfl (by simp only; omega) fun _ => Or.inr (by omega)
  | waitFailed hs => cases hs.symm.trans hsem
  | checkQuit hd | recheckQuit hd => rw [hflag] at hd; cases hd
  | popEmpty hq =>
    simp only [hq, List.length_nil, unspent] at hlen hu
    omega
  | pop hq =>
    have hnodup := hl.nodup
    rw [hq] at hnodup hlen
    simp only [unspent, notifies, List.length_cons] at hU hN hlen
    refine hcarried cnt hsem ?_ fun hp => (hcarry hp).imp_right fun hn => by omega
    simp only [filter_head hnodup]
    omega
  | executeFailed r hr =>
    simp only [unspent, notifies] at hU hN
    refine hcarried cnt hsem (by simp only; omega) fun hp => ?_
    rcases hfail r rfl hr with h0 | ⟨s, hs, hs0⟩ | hn
    · simp only at hp
      omega
    · obtain rfl := Option.some.inj (hs.symm.trans hsem)
      exact Or.inl hs0
    · exact Or.inr hn
  | passOn hp hc hs hle' =>
    obtain rfl := Option.some.inj (hs.symm.trans hsem)
    simp only [unspent] at hU
    refine hcarried (cnt + 1) rfl ?_ fun _ => Or.inl (Nat.succ_pos cnt)
    simp only [notified, released, dec]
    omega
  | passOnFailed hp hc hno => exact absurd hno (hm.not_refused hx hc)
  | nothing hor =>
    simp only [unspent, notifies, woken] at hU hN hW
    refine hcarried cnt hsem (by omega) fun hp => ?_
    exact full_carried hcount hpos (hor.resolve_left (by omega)) (by omega)
  | _ =>
    simp only [unspent, notifies] at hU hN
    refine hcarried cnt hsem ?_ fun hp => (hcarry hp).imp_right fun hn => by omega
    show m.requestQueue.length = cnt + U' + m.pendingReqCount
    omega

omit [DecidableEq R] in
/-- **A post.** -/
theorem postStep_carried {x : Input R} {m m' : Mem R} {r : R} {v : Bool} {W U N : ℕ} (hp : PostStep x m r m' v)
    (h : Carried m U N) (hm : Mirror m W) (hx : x.refuse = false) (hpos : 0 < m.threadCount) (hW : W ≤ N)
    (hwrap : m.threadCount ≤ m.semaphoreCount → m.pendingReqCount < 65535) : Carried m' U N := by
  obtain ⟨cnt, hsem, hcount, hle⟩ := hm
  obtain ⟨hlen, hcarry⟩ := h _ hsem
  simp only at hlen hcarry
  intro s hs'
  cases hp with
  | noList _ => exact h s hs'
  | notify hl hc hs hle' =>
    obtain rfl := Option.some.inj (hs.symm.trans hsem)
    obtain rfl := Option.some.inj hs'
    refine ⟨?_, fun _ => Or.inl (Nat.succ_pos cnt)⟩
    simp only [notified, released, pushBack, List.length_append, List.length_singleton]
    omega
  | notifyFailed hl hc hno =>
    have hpush : Mirror (pushBack m r) W := ⟨cnt, hsem, hcount, hle⟩
    exact absurd hno (hpush.not_refused hx hc)
  | count hl hc =>
    obtain rfl := Option.some.inj (hsem.symm.trans hs')
    have := hwrap hc
    refine ⟨?_, fun _ => full_carried hcount hpos hc hW⟩
    simp only [counted, pushBack, inc, List.length_append, List.length_singleton]
    omega

/-! ### Runs -/

/-- **The invariant** of the runs in which requests are passed on. -/
def CarriedInv (c : State R) : Prop :=
  c.mem.stage = .up → Carried c.mem (∑ i, unspent (c.worker i)) (∑ i, notifies (c.worker i))

omit [DecidableEq R] in
/-- A worker other than `i` that is on its way is still there after a step of `i`. -/
theorem notifies_other {f : Fin maxThreads → Worker R} {i j : Fin maxThreads} (w : Worker R) (hj : j ≠ i)
    (h : 0 < notifies (f j)) : 0 < ∑ k, notifies (Function.update f i w k) := by
  refine sum_pos_of (i := j) ?_
  rwa [Function.update_of_ne hj]

omit [DecidableEq R] in
theorem sum_woken_le (f : Fin maxThreads → Worker R) : ∑ i, woken (f i) ≤ ∑ i, notifies (f i) :=
  Finset.sum_le_sum fun i _ => woken_le_notifies (f i)

omit [DecidableEq R] in
/-- Of the workers other than `i`, those woken are on their way. -/
theorem sum_woken_other (f : Fin maxThreads → Worker R) (i : Fin maxThreads) :
    ∑ j, woken (f j) + notifies (f i) ≤ ∑ j, notifies (f j) + woken (f i) := by
  have hW : ∑ j, woken (Function.update f i .off j) + woken (f i) = ∑ j, woken (f j) + 0 :=
    sum_update (fun _ => woken) f i .off
  have hN : ∑ j, notifies (Function.update f i .off j) + notifies (f i) = ∑ j, notifies (f j) + 0 :=
    sum_update (fun _ => notifies) f i .off
  have hle := sum_woken_le (Function.update f i .off)
  omega

omit [DecidableEq R] in
/-- The count of the pending requests is an `unsigned short`. -/
theorem pending_lt {c : State R} (h : Accounts c) (hu : c.mem.stage = .up) : c.mem.pendingReqCount < 65536 := by
  obtain ⟨cnt, hsem, -⟩ := (h.order.alive (Or.inr hu)).1
  obtain ⟨k, -, hk⟩ := h.tokens.spent hu _ hsem
  omega

theorem CarriedInv.moveWorker {c : State R} (h : CarriedInv c) (ha : Accounts c) {i : Fin maxThreads}
    {x : Input R} {r : Mem R × Worker R} (hok : carriedOn c (.inl i, x))
    (hs : WorkerStep i x c.mem (c.worker i) r.1 r.2) : CarriedInv (c.moveWorker i r) := by
  intro hu
  have hu' : c.mem.stage = .up := (workerStep_same hs).stage.symm.trans hu
  obtain ⟨hmirror, hlisted, -⟩ := ha.order.alive (Or.inr hu')
  refine workerStep_carried hs (h hu') hmirror hlisted (ha.tokens.flag hu') hok.1.1.1
    (ha.life.ctl.of_up hu').sized.pos (pending_lt ha hu') (sum_update (fun _ => unspent) c.worker i r.2)
    (sum_update (fun _ => notifies) c.worker i r.2) (le_sum c.worker i fun _ => unspent)
    (sum_woken_other c.worker i) fun q hw hx => ?_
  rcases hok.2.2 i q rfl hw hx with h0 | ht | ⟨j, hj, hn⟩
  · exact Or.inl h0
  · exact Or.inr (Or.inl ht)
  · exact Or.inr (Or.inr (notifies_other r.2 hj hn))

omit [DecidableEq R] in
theorem CarriedInv.post {c : State R} (h : CarriedInv c) (ha : Accounts c) {k : ℕ} {x : Input R} {q : R} {v : Bool}
    {m' : Mem R} {p' : Client} (hok : carriedOn c (.inr k, x)) (hc : x.call = some (.postRequest q))
    (hp : PostStep x c.mem q m' v) : CarriedInv (c.moveClient k (m', p')) := by
  intro _
  have hu := (hok.1.2 q hc).1
  exact postStep_carried hp (h hu) (ha.order.alive (Or.inr hu)).1 hok.1.1.1 (ha.life.ctl.of_up hu).sized.pos
    (sum_woken_le c.worker) (hok.2.1 q hc)

omit [DecidableEq R] in
/-- A `Create` that returns true leaves an empty list. -/
theorem CarriedInv.createFlag {c : State R} (h : Calm c) :
    CarriedInv (c.moveClient 0 ({ c.mem with destroyed := false, stage := .up }, .out (some true))) := by
  intro _ s hs
  obtain ⟨n, hsem⟩ := h.semaphore
  obtain rfl := Option.some.inj (hsem.symm.trans hs)
  refine ⟨?_, fun hp => ?_⟩
  · show c.mem.requestQueue.length = 0 + ∑ i, unspent (c.worker i) + c.mem.pendingReqCount
    rw [sum_calm h.workers ⟨rfl, rfl⟩, h.queue, h.pending]
    rfl
  · exact absurd h.pending (Nat.pos_iff_ne_zero.mp hp)

omit [DecidableEq R] in
theorem CarriedInv.moveController {c : State R} (h : CarriedInv c) (ha : Accounts c) {x : Input R} {m' : Mem R}
    {p' : Client} (hok : carriedOn c (.inr 0, x)) (hs : ClientStep x c.mem (c.client 0) m' p') :
    CarriedInv (c.moveClient 0 (m', p')) := by
  have hctl := ha.life.ctl
  generalize c.client 0 = p at hs hctl
  -- a controller inside a call that is not the last step of `Create` keeps the pool from being up
  have hdown : (∀ v, p ≠ .out v) → m'.stage = c.mem.stage ∨ m'.stage ≠ .up →
      CarriedInv (c.moveClient 0 (m', p')) := by
    intro hp hst hu
    rcases hst with hst | hst
    · obtain ⟨v, hv⟩ := (hctl.of_up (hst.symm.trans hu)).out
      exact absurd hv (hp v)
    · exact absurd hu hst
  cases hs with
  | post last hc hp => exact h.post ha hok hc hp
  | createRefused | create | destroyRefused => exact h
  | destroy last hc hl =>
    exact fun hu => absurd hu (ending_stage (beginDestroy_stage c.mem false)).2
  | createDestroy hl => exact hdown (by simp) (Or.inr (ending_stage (beginDestroy_stage _ _)).2)
  | createFlag =>
    cases hctl with
    | createFlag hst _ _ _ => exact .createFlag (ha.tokens.creating hst)
    | ending hp _ => exact hp.elim
  | createInit | createFailed | clear => exact hdown (by simp) (Or.inr (by simp [initialized]))
  | _ => exact hdown (by simp) (Or.inl rfl)

theorem carried_reach {c : State R} (h : Reach (pool R).lts carriedOn c) : CarriedInv c := by
  have haccounts : ∀ {c : State R}, Reach (pool R).lts carriedOn c → Accounts c := fun hr =>
    accounts_reach (fun c a (ha : carriedOn c a) => ha.1) hr
  refine (controlled_induct (I := CarriedInv) (fun _ _ _ ha => ha.1.1) ?_ ?_ ?_ ?_ h).1
  · rintro _ rfl hu
    cases hu
  · intro c i x r hr _ hi ha hs
    exact hi.moveWorker (haccounts hr) ha hs
  · intro c x m' p' hr _ hi ha hs
    exact hi.moveController (haccounts hr) ha hs
  · intro c k x q v m' p' hr _ hi _ ha hc hp
    exact hi.post (haccounts hr) ha hc hp

/-! ### The result -/

/-- The worker `i` is running and not in `WaitForSingleObject`. -/
def busy (c : State R) (i : Fin maxThreads) : Prop := c.worker i ≠ .off ∧ c.worker i ≠ .wait

omit [DecidableEq R] in
/-- A worker that is counted is busy. -/
theorem exists_busy {c : State R} {v : Worker R → ℕ} (hv : v .off = 0 ∧ v .wait = 0)
    (h : 0 < ∑ i, v (c.worker i)) : ∃ i, busy c i := by
  by_contra hno
  simp only [busy, not_exists, not_and_or, not_not] at hno
  rw [sum_calm hno hv] at h
  exact lt_irrefl 0 h

/-- **No request is stranded as long as the count of the pending requests does not wrap and an `Execute` fails
only if no request is pending, a token is left, or another worker is on its way to pass a request on**: while
requests are on the list of a pool that is up, a token is left or a worker is busy. -/
theorem none_stranded {c : State R} (h : Reach (pool R).lts carriedOn c) (hu : c.mem.stage = .up)
    (hq : c.mem.requestQueue ≠ []) : tokenLeft c.mem ∨ ∃ i, busy c i := by
  have ha := accounts_reach (fun c a (h : carriedOn c a) => h.1) h
  obtain ⟨cnt, hsem, -⟩ := (ha.order.alive (Or.inr hu)).1
  obtain ⟨hlen, hcarry⟩ := carried_reach h hu _ hsem
  simp only at hlen hcarry
  have hpos := List.length_pos_of_ne_nil hq
  rcases Nat.eq_zero_or_pos cnt with h0 | h0
  · right
    rcases Nat.eq_zero_or_pos c.mem.pendingReqCount with hp | hp
    · exact exists_busy (v := unspent) ⟨rfl, rfl⟩ (by omega)
    · exact exists_busy (v := notifies) ⟨rfl, rfl⟩ ((hcarry hp).resolve_left (by omega))
  · exact Or.inl ⟨_, hsem, h0⟩

/-- The test for an allowed step of a run in which only the worker 0 runs. -/
def carriedTest (c : State R) (a : Tid × Input R) : Bool :=
  distinctTest c a && decide (c.mem.pendingReqCount < 65535) &&
    (decide (a.2.result = .zero) || decide (c.mem.pendingReqCount = 0))

theorem carried_of_test (c : State R) (a : Tid × Input R) (h : carriedTest c a = true) : carriedOn c a := by
  simp only [carriedTest, Bool.and_eq_true, Bool.or_eq_true, decide_eq_true_eq] at h
  obtain ⟨⟨hd, hp⟩, hr⟩ := h
  exact ⟨distinct_of_test c a hd, fun _ _ _ => hp, fun _ _ _ _ hne => Or.inl (hr.resolve_left hne)⟩

/-- A pool of one thread; two requests are posted, and the second one is pending. -/
def twoPosts : List (Tid × Input ℕ) := createCall 1 ++ steps (.inl 0) 1 ++ (post 7 ++ post 8)

/-- The worker executes the first request and has yet to pass the second one on. -/
def passOnRun : List (Tid × Input ℕ) := twoPosts ++ steps (.inl 0) 7

theorem none_stranded_passOnRun : ∃ c : State ℕ, Reach (pool ℕ).lts carriedOn c ∧ c.mem.stage = .up ∧
    c.mem.requestQueue = [8] ∧ (tokenLeft c.mem ∨ ∃ i, busy c i) := by
  obtain ⟨c, hc, hp⟩ := reach_of_run (pool ℕ).lts carried_of_test passOnRun
    (fun c => decide (c.mem.stage = .up) && decide (c.mem.requestQueue = [8])) rfl (by decide)
  simp only [Bool.and_eq_true, decide_eq_true_eq] at hp
  exact ⟨c, hc, hp.1, hp.2, none_stranded hc hp.1 (by rw [hp.2]; simp)⟩

/-- `Execute` returns a non-zero value for the first request, and the worker goes back to its wait. -/
def failedExecuteRun : List (Tid × Input ℕ) :=
  twoPosts ++ steps (.inl 0) 5 ++ [(.inl 0, { result := .nonZero })] ++ steps (.inl 0) 1

/-- **The second request is stranded**: it is on the list, no token is left, and the only worker is in
`WaitForSingleObject`. -/
theorem request_stranded_failedExecuteRun : ∃ c : State ℕ, Reach (pool ℕ).lts distinctPosts c ∧
    c.mem.stage = .up ∧ c.mem.requestQueue = [8] ∧ c.mem.threadCount = 1 ∧ c.worker 0 = .wait ∧
    ¬ tokenLeft c.mem ∧ ¬ ∃ i, busy c i := by
  obtain ⟨c, hc, hp⟩ := reach_of_run (pool ℕ).lts distinct_of_test failedExecuteRun
    (fun c => decide (c.mem.stage = .up) && decide (c.mem.requestQueue = [8]) &&
      decide (c.mem.semaphore = some ⟨0, 1⟩) && decide (c.mem.threadCount = 1) && decide (c.worker 0 = .wait))
    rfl (by decide)
  simp only [Bool.and_eq_true, decide_eq_true_eq] at hp
  obtain ⟨⟨⟨⟨hu, hq⟩, hsem⟩, hn⟩, hw⟩ := hp
  refine ⟨c, hc, hu, hq, hn, hw, ?_, ?_⟩
  · rintro ⟨s, hs, hpos⟩
    obtain rfl := Option.some.inj (hsem.symm.trans hs)
    exact lt_irrefl 0 hpos
  · rintro ⟨i, hoff, hwait⟩
    have hl := (accounts_reach (fun _ _ ha => ha) hc).life
    have hi := (hl.ctl.of_up hu).below i (Or.inr (hl.running hoff))
    obtain rfl : i = 0 := Fin.ext (by rw [hn] at hi; exact Nat.lt_one_iff.mp hi)
    exact hwait hw

end PoolStudy.TP.Stranded
