import PoolStudy.TP.Steps

/-! # The Windows thread pool: its life

One thread creates and destroys the pool (client 0); any thread posts requests (`controlled`). `Ctl` says what
holds of the pool at every point of `Create` and `Destroy`: which handles have been written and which threads
can be alive. `LifeInv` adds what holds of the workers: a worker runs iff its thread does, and `m_lActiveThread`
is the number of workers in the scope of `AutoCounter`. It holds in every run (`life_reach`). -/

namespace PoolStudy.TP.Life

open PoolStudy.Lib.Transition PoolStudy.Lib.Threads PoolStudy.TP.Model PoolStudy.TP.Steps

variable {R : Type} [DecidableEq R]

/-- **One thread creates and destroys the pool**, and the kernel does what is documented. -/
def controlled (_ : State R) (a : Tid × Input R) : Prop :=
  a.2.refuse = false ∧ ∀ k, a.1 = .inr k → k ≠ 0 → ∀ call, a.2.call = some call → ∃ r, call = .postRequest r

/-! ### The controller -/

omit [DecidableEq R] in
/-- The thread of the handle `j` has been created and has not ended. -/
def live (m : Mem R) (j : ℕ) : Prop := m.thread j = .created ∨ m.thread j = .running

omit [DecidableEq R] in
/-- Only threads of the first `k` handles are alive. -/
def LiveBelow (m : Mem R) (k : ℕ) : Prop := ∀ j, live m j → j < k

omit [DecidableEq R] in
/-- The pool has a thread count and a semaphore for as many tokens. -/
structure Sized (m : Mem R) : Prop where
  pos : 0 < m.threadCount
  le : m.threadCount ≤ maxThreads
  semaphore : ∃ s, m.semaphore = some s ∧ s.max = m.threadCount

/-- The places of `Destroy` at which the handles are still there. -/
def inDestroy : Client → Prop
  | .out _ | .cancel _ | .setFlag _ | .release _ | .waitAll _ => True
  | _ => False

/-- `Destroy` has begun, or failed. -/
structure Ending (m : Mem R) : Prop where
  stage : m.stage = .destroying ∨ m.stage = .failed
  list : m.threadList ≠ none
  full : m.stage = .destroying → m.threadList = some m.threadCount
  below : LiveBelow m m.threadCount
  sized : Sized m

/-- **What holds of the pool when its controller is at the given place.** -/
inductive Ctl (m : Mem R) : Client → Prop
  | down (last : Option Bool) (hs : m.stage = .down) (hl : m.threadList = none) (hb : LiveBelow m 0) :
      Ctl m (.out last)
  | createInit (n : ℕ) (hs : m.stage = .down) (hl : m.threadList = none) (hb : LiveBelow m 0) (h0 : 0 < n)
      (hn : n ≤ maxThreads) : Ctl m (.createInit n)
  | createList (hs : m.stage = .creating) (hl : m.threadList = none) (hb : LiveBelow m 0) (hz : Sized m) :
      Ctl m .createList
  | createThread (usIdx : ℕ) (hs : m.stage = .creating) (hl : m.threadList = some usIdx)
      (hi : usIdx ≤ m.threadCount) (hb : LiveBelow m usIdx) (hz : Sized m) : Ctl m (.createThread usIdx)
  | createFlag (hs : m.stage = .creating) (hl : m.threadList = some m.threadCount)
      (hb : LiveBelow m m.threadCount) (hz : Sized m) : Ctl m .createFlag
  | noList (hs : m.stage = .creating) (hl : m.threadList = none) (hb : LiveBelow m 0) (hz : Sized m) :
      Ctl m .destroy
  | threadFailed {usIdx : ℕ} (hs : m.stage = .creating) (hl : m.threadList = some usIdx)
      (hi : usIdx ≤ m.threadCount) (hb : LiveBelow m usIdx) (hz : Sized m) : Ctl m .destroy
  | up (last : Option Bool) (hs : m.stage = .up) (hl : m.threadList = some m.threadCount)
      (hb : LiveBelow m m.threadCount) (hz : Sized m) : Ctl m (.out last)
  | ending {p : Client} (hp : inDestroy p) (he : Ending m) : Ctl m p
  | closeThreads (b : Bool) (hs : m.stage = .destroying ∨ m.stage = .failed) (hl : m.threadList ≠ none)
      (hb : LiveBelow m 0) : Ctl m (.closeThreads b)
  | closeSemaphore (b : Bool) (hs : m.stage = .destroying ∨ m.stage = .failed) (hl : m.threadList = none)
      (hb : LiveBelow m 0) : Ctl m (.closeSemaphore b)
  | clear (b : Bool) (hs : m.stage = .destroying ∨ m.stage = .failed) (hl : m.threadList = none)
      (hb : LiveBelow m 0) : Ctl m (.clear b)

theorem ending_stage {s : Stage} (h : s = .destroying ∨ s = .failed) : s ≠ .creating ∧ s ≠ .up := by
  rcases h with rfl | rfl <;> simp

omit [DecidableEq R] in
theorem beginDestroy_stage (m : Mem R) (b : Bool) :
    (beginDestroy m b).stage = .destroying ∨ (beginDestroy m b).stage = .failed := by
  unfold beginDestroy
  split_ifs
  · exact Or.inr rfl
  · exact Or.inl rfl

/-- What holds of a pool that is up. -/
structure IsUp (m : Mem R) (p : Client) : Prop where
  out : ∃ v, p = .out v
  list : m.threadList = some m.threadCount
  below : LiveBelow m m.threadCount
  sized : Sized m

omit [DecidableEq R] in
theorem Ctl.of_up {m : Mem R} {p : Client} (h : Ctl m p) (hu : m.stage = .up) : IsUp m p := by
  cases h with
  | up v _ hl hb hz => exact ⟨⟨v, rfl⟩, hl, hb, hz⟩
  | down _ hs | createInit _ hs | createThread _ hs | createList hs | createFlag hs | noList hs
  | threadFailed hs => rw [hs] at hu; cases hu
  | closeThreads _ hs | closeSemaphore _ hs | clear _ hs => exact absurd hu (ending_stage hs).2
  | ending _ he => exact absurd hu (ending_stage he.stage).2

omit [DecidableEq R] in
theorem Ctl.of_creating {m : Mem R} {p : Client} (h : Ctl m p) (hc : m.stage = .creating) : Sized m := by
  cases h with
  | createList _ _ _ hz | createThread _ _ _ _ _ hz | createFlag _ _ _ hz | noList _ _ _ hz
  | threadFailed _ _ _ _ hz => exact hz
  | down _ hs | createInit _ hs | up _ hs => rw [hs] at hc; cases hc
  | closeThreads _ hs | closeSemaphore _ hs | clear _ hs => exact absurd hc (ending_stage hs).1
  | ending _ he => exact absurd hc (ending_stage he.stage).1

omit [DecidableEq R] in
theorem Ctl.of_down {m : Mem R} {p : Client} (h : Ctl m p) (hd : m.stage = .down) :
    m.threadList = none ∧ LiveBelow m 0 := by
  cases h with
  | down _ _ hl hb | createInit _ _ hl hb => exact ⟨hl, hb⟩
  | createThread _ hs | createList hs | createFlag hs | noList hs | threadFailed hs | up _ hs =>
    rw [hs] at hd; cases hd
  | closeThreads _ hs | closeSemaphore _ hs | clear _ hs => rw [hd] at hs; rcases hs with hs | hs <;> cases hs
  | ending _ he => rcases he.stage with hs | hs <;> rw [hd] at hs <;> cases hs

/-- What the steps of the workers and of the posts leave alone. -/
structure SameLife (m m' : Mem R) : Prop where
  stage : m'.stage = m.stage
  list : m'.threadList = m.threadList
  count : m'.threadCount = m.threadCount
  live : ∀ j, live m' j → live m j
  semaphore : ∀ s, m.semaphore = some s → ∃ s', m'.semaphore = some s' ∧ s'.max = s.max

section SameLife

variable {m m' : Mem R}

omit [DecidableEq R] in
theorem SameLife.below (h : SameLife m m') {k : ℕ} (hb : LiveBelow m k) : LiveBelow m' k := fun j hj =>
  hb j (h.live j hj)

omit [DecidableEq R] in
theorem SameLife.sized (h : SameLife m m') (hz : Sized m) : Sized m' := by
  obtain ⟨s, hs, hmax⟩ := hz.semaphore
  obtain ⟨s', hs', hmax'⟩ := h.semaphore s hs
  rw [← h.count] at hmax
  exact ⟨by rw [h.count]; exact hz.pos, by rw [h.count]; exact hz.le, s', hs', hmax'.trans hmax⟩

omit [DecidableEq R] in
theorem Ending.same (he : Ending m) (h : SameLife m m') : Ending m' := by
  refine ⟨by rw [h.stage]; exact he.stage, by rw [h.list]; exact he.list, ?_, ?_, h.sized he.sized⟩
  · rw [h.stage, h.list, h.count]
    exact he.full
  · rw [h.count]
    exact h.below he.below

omit [DecidableEq R] in
theorem Ctl.same {p : Client} (hc : Ctl m p) (h : SameLife m m') : Ctl m' p := by
  have hst := h.stage
  have hlist := h.list
  have hcount := h.count
  cases hc with
  | down last hs hl hb => exact .down last (hst.trans hs) (hlist.trans hl) (h.below hb)
  | createInit n hs hl hb h0 hn => exact .createInit n (hst.trans hs) (hlist.trans hl) (h.below hb) h0 hn
  | createList hs hl hb hz => exact .createList (hst.trans hs) (hlist.trans hl) (h.below hb) (h.sized hz)
  | createThread k hs hl hi hb hz =>
    exact .createThread k (hst.trans hs) (hlist.trans hl) (hcount ▸ hi) (h.below hb) (h.sized hz)
  | createFlag hs hl hb hz =>
    exact .createFlag (hst.trans hs) (by rw [hlist, hcount]; exact hl) (hcount ▸ h.below hb) (h.sized hz)
  | noList hs hl hb hz => exact .noList (hst.trans hs) (hlist.trans hl) (h.below hb) (h.sized hz)
  | threadFailed hs hl hi hb hz =>
    exact .threadFailed (hst.trans hs) (hlist.trans hl) (hcount ▸ hi) (h.below hb) (h.sized hz)
  | up last hs hl hb hz =>
    exact .up last (hst.trans hs) (by rw [hlist, hcount]; exact hl) (hcount ▸ h.below hb) (h.sized hz)
  | ending hp he => exact .ending hp (he.same h)
  | closeThreads b hs hl hb => exact .closeThreads b (hst ▸ hs) (hlist ▸ hl) (h.below hb)
  | closeSemaphore b hs hl hb => exact .closeSemaphore b (hst ▸ hs) (hlist.trans hl) (h.below hb)
  | clear b hs hl hb => exact .clear b (hst ▸ hs) (hlist.trans hl) (h.below hb)

omit [DecidableEq R] in
/-- The threads and the semaphore object are the same. -/
theorem SameLife.of_eq (hs : m'.stage = m.stage) (hl : m'.threadList = m.threadList)
    (hc : m'.threadCount = m.threadCount) (ht : m'.thread = m.thread)
    (hsem : m'.semaphore = m.semaphore) : SameLife m m' :=
  ⟨hs, hl, hc, fun j hj => by rwa [Life.live, ht] at hj, fun s h => ⟨s, hsem.trans h, rfl⟩⟩

omit [DecidableEq R] in
/-- The threads are the same, and tokens have come or gone. -/
theorem SameLife.tokens {s : Semaphore} {k : ℕ} (hsem : m.semaphore = some s) (hs : m'.stage = m.stage)
    (hl : m'.threadList = m.threadList) (hc : m'.threadCount = m.threadCount) (ht : m'.thread = m.thread)
    (hs' : m'.semaphore = some { s with count := k }) : SameLife m m' := by
  refine ⟨hs, hl, hc, fun j hj => by rwa [Life.live, ht] at hj, fun s1 h => ⟨_, hs', ?_⟩⟩
  rw [Option.some.inj (hsem.symm.trans h)]

end SameLife

theorem workerStep_same {i : Fin maxThreads} {x : Input R} {m m' : Mem R} {w w' : Worker R}
    (hs : WorkerStep i x m w m' w') : SameLife m m' := by
  cases hs with
  | start h =>
    refine ⟨rfl, rfl, rfl, fun j hj => ?_, fun s hs => ⟨s, hs, rfl⟩⟩
    by_cases hji : j = i
    · rw [hji]
      exact Or.inl h
    · simpa [live, hji] using hj
  | exit =>
    refine ⟨rfl, rfl, rfl, fun j hj => ?_, fun s hs => ⟨s, hs, rfl⟩⟩
    by_cases hji : j = i
    · simp [live, hji] at hj
    · simpa [live, hji] using hj
  | acquire hs h => exact .tokens hs rfl rfl rfl rfl rfl
  | passOn hp hc hs h => exact .tokens hs rfl rfl rfl rfl rfl
  | _ => exact .of_eq rfl rfl rfl rfl rfl

omit [DecidableEq R] in
theorem postStep_same {x : Input R} {m m' : Mem R} {r : R} {v : Bool} (h : PostStep x m r m' v) :
    SameLife m m' := by
  cases h with
  | notify hl hc hs h => exact .tokens hs rfl rfl rfl rfl rfl
  | _ => exact .of_eq rfl rfl rfl rfl rfl

theorem workerStep_flag {i : Fin maxThreads} {x : Input R} {m m' : Mem R} {w w' : Worker R}
    (hs : WorkerStep i x m w m' w') : m'.destroyed = m.destroyed := by
  cases hs <;> rfl

omit [DecidableEq R] in
theorem postStep_flag {x : Input R} {m m' : Mem R} {r : R} {v : Bool} (h : PostStep x m r m' v) :
    m'.destroyed = m.destroyed := by
  cases h <;> rfl

omit [DecidableEq R] in
theorem Ctl.out {m : Mem R} {last : Option Bool} (h : Ctl m (.out last)) (v : Option Bool) : Ctl m (.out v) := by
  cases h with
  | down _ hs hl hb => exact .down v hs hl hb
  | up _ hs hl hb hz => exact .up v hs hl hb hz
  | ending _ he => exact .ending trivial he

omit [DecidableEq R] in
/-- `Destroy` of a pool that is there begins. -/
theorem Ctl.beginDestroy {m : Mem R} {last : Option Bool} (h : Ctl m (.out last)) (hl : m.threadList ≠ none) :
    Ending (beginDestroy m false) := by
  cases h with
  | down _ hs hl' hb => exact absurd hl' hl
  | up _ hs hl' hb hz =>
    exact ⟨Or.inl (by simp [Model.beginDestroy, hs]), hl, fun _ => hl', hb, hz.pos, hz.le, hz.semaphore⟩
  | ending _ he =>
    refine ⟨?_, hl, fun hd => he.full ?_, he.below, he.sized.pos, he.sized.le, he.sized.semaphore⟩
    · simp only [Model.beginDestroy, Bool.false_eq_true, or_false]
      split_ifs
      · exact Or.inr rfl
      · exact Or.inl rfl
    · rcases he.stage with hs | hs
      · exact hs
      · simp [Model.beginDestroy, hs] at hd

omit [DecidableEq R] in
/-- **A step of the controller** keeps what holds of the pool. -/
theorem clientStep_ctl {x : Input R} {m m' : Mem R} {p p' : Client} (hs : ClientStep x m p m' p') (h : Ctl m p)
    (hx : x.refuse = false) : Ctl m' p' := by
  cases hs with
  | post last hc hp => exact (h.same (postStep_same hp)).out _
  | createRefused last hc => exact h.out _
  | create last hc hl h0 hn =>
    cases h with
    | down _ hs _ hb => exact .createInit _ hs hl hb h0 hn
    | up _ hs hl' hb hz => cases hl.symm.trans hl'
    | ending _ he => exact absurd hl he.list
  | destroyRefused last hc hl => exact h.out _
  | destroy last hc hl => exact .ending trivial (h.beginDestroy hl)
  | createInit n =>
    cases h with
    | createInit _ hs hl hb h0 hn => exact .createList rfl hl hb ⟨h0, hn, _, rfl, rfl⟩
    | ending hp he => exact hp.elim
  | semaphoreFailed n =>
    cases h with
    | createInit _ hs hl hb h0 hn => exact .down _ hs hl hb
    | ending hp he => exact hp.elim
  | createList =>
    cases h with
    | createList hs hl hb hz => exact .createThread 0 hs rfl (Nat.zero_le _) hb ⟨hz.pos, hz.le, hz.semaphore⟩
    | ending hp he => exact hp.elim
  | listFailed =>
    cases h with
    | createList hs hl hb hz => exact .noList hs hl hb hz
    | ending hp he => exact hp.elim
  | createThread k hk =>
    cases h with
    | createThread _ hs hl hi hb hz =>
      refine .createThread (k + 1) hs rfl hk (fun j hj => ?_) ⟨hz.pos, hz.le, hz.semaphore⟩
      by_cases hjk : j = k
      · omega
      · exact Nat.lt_succ_of_lt (hb j (by simpa [live, hjk] using hj))
    | ending hp he => exact hp.elim
  | threadFailed k hk =>
    cases h with
    | createThread _ hs hl hi hb hz => exact .threadFailed hs hl hi hb hz
    | ending hp he => exact hp.elim
  | allThreads k hk =>
    cases h with
    | createThread _ hs hl hi hb hz =>
      obtain rfl : k = m.threadCount := Nat.le_antisymm hi hk
      exact .createFlag hs hl hb hz
    | ending hp he => exact hp.elim
  | createFlag =>
    cases h with
    | createFlag hs hl hb hz => exact .up _ rfl hl hb ⟨hz.pos, hz.le, hz.semaphore⟩
    | ending hp he => exact hp.elim
  | createFailed hl =>
    cases h with
    | noList hs _ hb hz => exact .down _ rfl hl hb
    | threadFailed hs hl' hi hb hz => cases hl.symm.trans hl'
    | ending hp he => exact hp.elim
  | createDestroy hl =>
    cases h with
    | noList hs hl' hb hz => exact absurd hl' hl
    | threadFailed hs _ hi hb hz =>
      have hst : (beginDestroy m true).stage = .failed := by simp [Model.beginDestroy]
      exact .ending trivial ⟨Or.inr hst, hl, fun hd => (by rw [hst] at hd; cases hd),
        fun j hj => (hb j hj).trans_le hi, hz.pos, hz.le, hz.semaphore⟩
    | ending hp he => exact hp.elim
  | cancel b | setFlag b =>
    cases h with
    | ending _ he => exact .ending trivial (he.same (.of_eq rfl rfl rfl rfl rfl))
  | release b ha hsem hle =>
    cases h with
    | ending _ he => exact .ending trivial (he.same (.tokens hsem rfl rfl rfl rfl rfl))
  | releaseFailed b ha hr =>
    cases h with
    | ending _ he => exact .ending trivial he
  | allActive b ha =>
    cases h with
    | ending _ he => exact .ending trivial he
  | badHandle b hl =>
    cases h with
    | ending _ he => exact .ending trivial he
  | waitAll b hl ht =>
    cases h with
    | ending _ he =>
      refine .closeThreads b he.stage he.list fun j hj => ?_
      have hj' := ht j (he.below j hj)
      rcases hj with hj | hj <;> rw [hj] at hj' <;> cases hj'
  | closeThreads b =>
    cases h with
    | closeThreads _ hs hl hb => exact .closeSemaphore b hs rfl hb
    | ending hp he => exact hp.elim
  | closeThreadsFailed b hr => rw [hx] at hr; cases hr
  | closeSemaphore b =>
    cases h with
    | closeSemaphore _ hs hl hb => exact .clear b hs hl hb
    | ending hp he => exact hp.elim
  | closeSemaphoreFailed b hr => rw [hx] at hr; cases hr
  | clear b =>
    cases h with
    | clear _ hs hl hb => exact .down _ rfl hl hb
    | ending hp he => exact hp.elim

/-! ### The workers -/

/-- The worker is in the scope of its `AutoCounter`. -/
def inScope : Worker R → ℕ
  | .check | .pop | .execute _ | .recheck | .renotify | .leave | .quit => 1
  | .off | .wait | .woken | .enter | .exit => 0

/-- **The invariant of all runs.** -/
structure LifeInv (c : State R) : Prop where
  others : ∀ k, k ≠ 0 → ∃ v, c.client k = .out v
  ctl : Ctl c.mem (c.client 0)
  runs : ∀ i : Fin maxThreads, c.worker i = .off ↔ c.mem.thread i ≠ .running
  active : c.mem.activeThread = ∑ i, inScope (c.worker i)

omit [DecidableEq R] in
theorem inScope_le_one (w : Worker R) : inScope w ≤ 1 := by
  cases w <;> simp [inScope]

omit [DecidableEq R] in
theorem sum_le_maxThreads {v : Worker R → ℕ} (hv : ∀ w, v w ≤ 1) (f : Fin maxThreads → Worker R) :
    ∑ i, v (f i) ≤ maxThreads := by
  calc ∑ i, v (f i) ≤ ∑ _i : Fin maxThreads, 1 := Finset.sum_le_sum fun i _ => hv (f i)
    _ = maxThreads := by simp

/-- What a step of a worker does to its thread. -/
theorem workerStep_thread {i : Fin maxThreads} {x : Input R} {m m' : Mem R} {w w' : Worker R}
    (hs : WorkerStep i x m w m' w') (h : w = .off ↔ m.thread i ≠ .running) :
    (w' = .off ↔ m'.thread i ≠ .running) ∧ ∀ j, j ≠ i.val → m'.thread j = m.thread j := by
  cases hs with
  | start ht => exact ⟨by simp, fun j hj => Function.update_of_ne hj _ _⟩
  | exit => exact ⟨by simp, fun j hj => Function.update_of_ne hj _ _⟩
  | _ =>
    refine ⟨?_, fun _ _ => rfl⟩
    simpa [released, notified] using h

/-- What a step of a worker does to the count of active workers. -/
theorem workerStep_active {i : Fin maxThreads} {x : Input R} {m m' : Mem R} {w w' : Worker R}
    (hs : WorkerStep i x m w m' w') (hle : m.activeThread < 65535) (hpos : inScope w ≤ m.activeThread) :
    m'.activeThread + inScope w = m.activeThread + inScope w' := by
  cases hs with
  | enter =>
    show inc m.activeThread + 0 = m.activeThread + 1
    unfold inc
    omega
  | leave =>
    have : 1 ≤ m.activeThread := hpos
    show dec m.activeThread + 1 = m.activeThread + 0
    unfold dec
    omega
  | quit =>
    have : 1 ≤ m.activeThread := hpos
    show dec m.activeThread + 1 = m.activeThread + 0
    unfold dec
    omega
  | _ => rfl

omit [DecidableEq R] in
/-- The step of a thread that only posts is a `PostRequest`. -/
theorem post_of_controlled {c : State R} {k : ℕ} {x : Input R} {m' : Mem R} {p' : Client}
    (hs : ClientStep x c.mem (c.client k) m' p') (hpost : ∀ call, x.call = some call → ∃ r, call = .postRequest r)
    (ho : ∃ v, c.client k = .out v) :
    ∃ r v, x.call = some (.postRequest r) ∧ PostStep x c.mem r m' v ∧ p' = .out (some v) := by
  obtain ⟨last, ho⟩ := ho
  rw [ho] at hs
  cases hs with
  | post _ hc hp => exact ⟨_, _, hc, hp, rfl⟩
  | createRefused _ hc | create _ hc _ _ _ | destroyRefused _ hc _ | destroy _ hc _ =>
    obtain ⟨r, hr⟩ := hpost _ hc
    cases hr

omit [DecidableEq R] in
theorem postStep_thread {x : Input R} {m m' : Mem R} {r : R} {v : Bool} (h : PostStep x m r m' v) :
    m'.thread = m.thread ∧ m'.activeThread = m.activeThread := by
  cases h <;> exact ⟨rfl, rfl⟩

omit [DecidableEq R] in
/-- A worker that is not off has a running thread. -/
theorem LifeInv.running {c : State R} (h : LifeInv c) {i : Fin maxThreads} (hi : c.worker i ≠ .off) :
    c.mem.thread i = .running := by
  by_contra hne
  exact hi ((h.runs i).mpr hne)

omit [DecidableEq R] in
/-- Only workers of live threads are not off. -/
theorem LifeInv.off_of_le {c : State R} (h : LifeInv c) {k : ℕ} (hb : LiveBelow c.mem k) {i : Fin maxThreads}
    (hi : k ≤ i.val) : c.worker i = .off :=
  (h.runs i).mpr fun hr => absurd (hb i (Or.inr hr)) (Nat.not_lt.mpr hi)

omit [DecidableEq R] in
/-- While no thread is alive, no worker is in a scope. -/
theorem LifeInv.active_zero {c : State R} (h : LifeInv c) (hb : LiveBelow c.mem 0) :
    ∑ i, inScope (c.worker i) = 0 := by
  refine Finset.sum_eq_zero fun i _ => ?_
  rw [h.off_of_le hb (Nat.zero_le _)]
  rfl

omit [DecidableEq R] in
/-- What a step of the controller does to the workers' threads and their count. -/
theorem clientStep_life {c : State R} {x : Input R} {m' : Mem R} {p' : Client} (h : LifeInv c)
    (hs : ClientStep x c.mem (c.client 0) m' p') :
    (∀ i : Fin maxThreads, c.worker i = .off ↔ m'.thread i ≠ .running) ∧
      m'.activeThread = ∑ i, inScope (c.worker i) := by
  have hctl := h.ctl
  generalize c.client 0 = p at hs hctl
  cases hs with
  | post last hc hp =>
    obtain ⟨ht, ha⟩ := postStep_thread hp
    rw [ht, ha]
    exact ⟨h.runs, h.active⟩
  | createInit n =>
    cases hctl with
    | createInit _ _ _ hb _ _ => exact ⟨h.runs, (h.active_zero hb).symm⟩
    | ending hp _ => exact hp.elim
  | semaphoreFailed n =>
    cases hctl with
    | createInit _ _ _ hb _ _ => exact ⟨h.runs, (h.active_zero hb).symm⟩
    | ending hp _ => exact hp.elim
  | createThread k hk =>
    cases hctl with
    | createThread _ _ _ _ hb _ =>
      refine ⟨fun i => ?_, h.active⟩
      by_cases hik : i.val = k
      · simp [h.off_of_le hb hik.ge, hik]
      · simpa [hik] using h.runs i
    | ending hp _ => exact hp.elim
  | _ => exact ⟨h.runs, h.active⟩

theorem LifeInv.moveWorker {c : State R} {i : Fin maxThreads} {x : Input R} {r : Mem R × Worker R}
    (h : LifeInv c) (hs : WorkerStep i x c.mem (c.worker i) r.1 r.2) : LifeInv (c.moveWorker i r) := by
  obtain ⟨hself, hother⟩ := workerStep_thread hs (h.runs i)
  have hsum : inScope (c.worker i) ≤ ∑ j, inScope (c.worker j) :=
    le_sum c.worker i fun _ => inScope
  have hle := sum_le_maxThreads inScope_le_one c.worker
  have hact := workerStep_active hs (by rw [h.active]; exact hle.trans_lt (by decide)) (h.active ▸ hsum)
  refine ⟨h.others, h.ctl.same (workerStep_same hs), fun j => ?_, ?_⟩
  · rcases moveWorker_cases c i r j with ⟨rfl, hj⟩ | ⟨hne, hj⟩
    · rw [hj]
      exact hself
    · rw [hj]
      show c.worker j = .off ↔ r.1.thread j ≠ .running
      rw [hother j fun he => hne (Fin.ext he)]
      exact h.runs j
  · have := sum_update (fun _ => inScope) c.worker i r.2
    show r.1.activeThread = ∑ j, inScope (Function.update c.worker i r.2 j)
    have ha := h.active
    omega

omit [DecidableEq R] in
theorem LifeInv.moveClient {c : State R} {k : ℕ} {x : Input R} {r : Mem R × Client} (h : LifeInv c)
    (hok : controlled c (.inr k, x)) (hs : ClientStep x c.mem (c.client k) r.1 r.2) :
    LifeInv (c.moveClient k r) := by
  by_cases hk : k = 0
  · subst hk
    obtain ⟨hruns, hact⟩ := clientStep_life h hs
    refine ⟨fun k' hk' => ?_, ?_, hruns, hact⟩
    · rw [moveClient_other c hk']
      exact h.others k' hk'
    · rw [moveClient_self]
      exact clientStep_ctl hs h.ctl hok.1
  · obtain ⟨q, v, -, hp, hout⟩ := post_of_controlled hs (hok.2 k rfl hk) (h.others k hk)
    obtain ⟨ht, ha⟩ := postStep_thread hp
    refine ⟨fun k' hk' => ?_, ?_, fun i => ?_, ?_⟩
    · rcases moveClient_cases c k r k' with ⟨-, he⟩ | ⟨-, he⟩
      · exact ⟨some v, he.trans hout⟩
      · rw [he]
        exact h.others k' hk'
    · rw [moveClient_other c (Ne.symm hk)]
      exact h.ctl.same (postStep_same hp)
    · show c.worker i = .off ↔ r.1.thread i ≠ .running
      rw [ht]
      exact h.runs i
    · show r.1.activeThread = _
      rw [ha]
      exact h.active

/-- **The invariant holds in every run** with one controller. -/
theorem life_reach {ok : State R → Tid × Input R → Prop} (hok : ∀ c a, ok c a → controlled c a) {c : State R}
    (h : Reach (pool R).lts ok c) : LifeInv c := by
  refine Program.invariant (I := LifeInv) ?_ ?_ ?_ h
  · rintro _ rfl
    refine ⟨fun k _ => ⟨none, rfl⟩, .down none rfl rfl ?_, fun i => by simp [threadPool], ?_⟩
    · rintro j (hj | hj) <;> cases hj
    · simp [threadPool, inScope]
  · intro c i x r _ hi _ hs
    exact hi.moveWorker (workerStep_cases hs)
  · intro c k x r _ hi ha hs
    exact hi.moveClient (hok _ _ ha) (clientStep_cases hs)

/-- **Invariants of the runs with one controller**: one obligation for the workers, one for the controller, and
one for the posts of the others. -/
theorem controlled_induct {ok : State R → Tid × Input R → Prop} {I : State R → Prop}
    (hok : ∀ c a, I c → ok c a → controlled c a) (h0 : ∀ c, (pool R).lts.init c → I c)
    (hw : ∀ c i x r, Reach (pool R).lts ok c → LifeInv c → I c → ok c (.inl i, x) →
      WorkerStep i x c.mem (c.worker i) r.1 r.2 → I (c.moveWorker i r))
    (hc : ∀ c x m' p', Reach (pool R).lts ok c → LifeInv c → I c → ok c (.inr 0, x) →
      ClientStep x c.mem (c.client 0) m' p' → I (c.moveClient 0 (m', p')))
    (hp : ∀ c k x q v m' p', Reach (pool R).lts ok c → LifeInv c → I c → k ≠ 0 → ok c (.inr k, x) →
      x.call = some (.postRequest q) → PostStep x c.mem q m' v → I (c.moveClient k (m', p')))
    {c : State R} (h : Reach (pool R).lts ok c) : I c ∧ LifeInv c := by
  refine Program.invariant (I := fun c : State R => I c ∧ LifeInv c) ?_ ?_ ?_ h
  · intro c hinit
    have hr : Reach (pool R).lts controlled c := .init hinit
    exact ⟨h0 c hinit, life_reach (fun _ _ ha => ha) hr⟩
  · rintro c i x r hr ⟨hi, hl⟩ ha hs
    have hws := workerStep_cases hs
    exact ⟨hw c i x r hr hl hi ha hws, hl.moveWorker hws⟩
  · rintro c k x ⟨m', p'⟩ hr ⟨hi, hl⟩ ha hs
    have hcs := clientStep_cases hs
    have hctl := hok c _ hi ha
    refine ⟨?_, hl.moveClient hctl hcs⟩
    by_cases hk : k = 0
    · subst hk
      exact hc c x m' p' hr hl hi ha hcs
    · obtain ⟨q, v, hcall, hpost, -⟩ := post_of_controlled hcs (hctl.2 k rfl hk) (hl.others k hk)
      exact hp c k x q v m' p' hr hl hi hk ha hcall hpost

/-! ### Runs given as lists of actions -/

/-- The test for `controlled`. -/
def controlledTest (a : Tid × Input R) : Bool :=
  !a.2.refuse && match a.1, a.2.call with
    | .inr (_ + 1), some (.create _) => false
    | .inr (_ + 1), some .destroy => false
    | _, _ => true

omit [DecidableEq R] in
theorem controlled_of_test (c : State R) (a : Tid × Input R) (h : controlledTest a = true) : controlled c a := by
  obtain ⟨t, x⟩ := a
  simp only [controlledTest, Bool.and_eq_true, Bool.not_eq_true'] at h
  refine ⟨h.1, fun k hk hne call hcall => ?_⟩
  obtain ⟨k, rfl⟩ := Nat.exists_eq_succ_of_ne_zero hne
  have h2 := h.2
  dsimp only at hk hcall
  rw [hk, hcall] at h2
  cases call with
  | postRequest r => exact ⟨r, rfl⟩
  | create n => cases h2
  | destroy => cases h2

/-- The controller creates a pool of `n` threads. -/
def createCall (n : ℕ) : List (Tid × Input R) :=
  (.inr 0, { call := some (.create n) }) :: List.replicate (n + 4) (.inr 0, {})

/-- The controller calls `Destroy`, which has released the semaphore. -/
def destroyCall : List (Tid × Input R) := (.inr 0, { call := some .destroy }) :: List.replicate 3 (.inr 0, {})

/-- The thread `t` takes `n` steps. -/
def steps (t : Tid) (n : ℕ) : List (Tid × Input R) := List.replicate n (t, {})

/-- Another thread posts a request. -/
def post (r : R) : List (Tid × Input R) := [(.inr 1, { call := some (.postRequest r) })]

end PoolStudy.TP.Life
