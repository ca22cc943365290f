import PoolStudy.TP.Life

/-! # The Windows thread pool keeps its workers

`Create` clears `m_bDestroyed` as its last step, when the threads run and the thread list is visible to
`PostRequest`. In a later cycle the flag is still set from the `Destroy` before, and a worker woken by a request
posted in this window takes it for its own end. As long as no worker makes its first test of the flag in the
window, the workers stay until the next `Destroy` (`workers_stay_iff`). -/

namespace PoolStudy.TP.Serving

open PoolStudy.Lib.Transition PoolStudy.Lib.Threads PoolStudy.TP.Model PoolStudy.TP.Steps PoolStudy.TP.Life

variable {R : Type} [DecidableEq R]

/-- The worker is in the loop of `ProcessRequests`. -/
def inLoop : Worker R → Prop
  | .wait | .woken | .enter | .check | .pop | .execute _ | .recheck | .renotify | .leave => True
  | .off | .quit | .exit => False

/-- The worker has not made its first test of the flag. -/
def untested : Worker R → Prop
  | .off | .wait | .woken | .enter | .check => True
  | _ => False

/-- The thread of the handle `i` serves the pool: it is about to enter the loop, or is in it. -/
def serving (c : State R) (i : Fin maxThreads) : Prop := c.mem.thread i = .created ∨ inLoop (c.worker i)

/-- The number of threads created so far. -/
def started (m : Mem R) : ℕ := m.threadList.getD 0

/-- **No worker has left** from the time its thread is created until the next `Destroy`. -/
def Serves (c : State R) : Prop :=
  c.mem.stage = .creating ∨ c.mem.stage = .up → ∀ i : Fin maxThreads, i.val < started c.mem → serving c i

/-- **No worker makes its first test of `m_bDestroyed` while `Create` has yet to clear it.** -/
def noStale (c : State R) (a : Tid × Input R) : Prop :=
  ∀ i, a.1 = .inl i → c.worker i = .check → c.mem.stage = .creating → c.mem.destroyed = false

/-- The steps the results are about. -/
def fresh (c : State R) (a : Tid × Input R) : Prop := controlled c a ∧ noStale c a

/-! ### The invariant -/

/-- **The invariant.** -/
structure ServeInv (c : State R) : Prop where
  flag : c.mem.stage = .up → c.mem.destroyed = false
  early : c.mem.stage = .creating → c.mem.destroyed = true → ∀ i, untested (c.worker i)
  serves : Serves c

omit [DecidableEq R] in
/-- While the pool is being created, only threads of the handles written are alive. -/
theorem below_started {m : Mem R} {p : Client} (h : Ctl m p) (hs : m.stage = .creating ∨ m.stage = .up) :
    LiveBelow m (started m) := by
  cases h with
  | down _ h | createInit _ h => rw [h] at hs; rcases hs with hs | hs <;> cases hs
  | closeThreads _ h | closeSemaphore _ h | clear _ h =>
    rcases h with h | h <;> rw [h] at hs <;> rcases hs with hs | hs <;> cases hs
  | ending _ he => rcases he.stage with h | h <;> rw [h] at hs <;> rcases hs with hs | hs <;> cases hs
  | createList h hl hb _ => simpa [started, hl] using hb
  | noList h hl hb _ => simpa [started, hl] using hb
  | createThread _ h hl _ hb _ => simpa [started, hl] using hb
  | createFlag h hl hb _ => simpa [started, hl] using hb
  | threadFailed h hl _ hb _ => simpa [started, hl] using hb
  | up _ h hl hb _ => simpa [started, hl] using hb

/-- A worker in the loop stays there, unless it finds the flag set. -/
theorem workerStep_inLoop {i : Fin maxThreads} {x : Input R} {m m' : Mem R} {w w' : Worker R}
    (hs : WorkerStep i x m w m' w') (h : m.thread i = .created ∨ inLoop w) (hr : w = .off ↔ m.thread i ≠ .running)
    (hcheck : w = .check ∨ w = .recheck → m.destroyed = false) : inLoop w' := by
  cases hs with
  | checkQuit hd => rw [hcheck (Or.inl rfl)] at hd; cases hd
  | recheckQuit hd => rw [hcheck (Or.inr rfl)] at hd; cases hd
  | quit | exit =>
    rcases h with h | h
    · have hrun : m.thread i = .running := by
        by_contra hne
        cases hr.mpr hne
      rw [h] at hrun
      cases hrun
    · exact h.elim
  | _ => trivial

theorem workerStep_early {i : Fin maxThreads} {x : Input R} {m m' : Mem R} {w w' : Worker R}
    (hs : WorkerStep i x m w m' w') (h : untested w) (hd : w ≠ .check) : untested w' := by
  cases hs with
  | checkQuit | check => exact absurd rfl hd
  | start | acquire | waitFailed | woken | enter => trivial
  | _ => exact h.elim

omit [DecidableEq R] in
/-- Where a worker of a pool that is not being destroyed tests the flag, it is not set. -/
theorem ServeInv.flag_down {c : State R} (h : ServeInv c) {i : Fin maxThreads} {x : Input R}
    (hok : noStale c (.inl i, x)) (hs : c.mem.stage = .creating ∨ c.mem.stage = .up)
    (hw : c.worker i = .check ∨ c.worker i = .recheck) : c.mem.destroyed = false := by
  rcases hs with hs | hs
  · rcases hw with hw | hw
    · exact hok i rfl hw hs
    · by_contra hd
      have := h.early hs (by simpa using hd) i
      rw [hw] at this
      exact this
  · exact h.flag hs

theorem ServeInv.moveWorker {c : State R} (h : ServeInv c) (hl : LifeInv c) {i : Fin maxThreads} {x : Input R}
    {r : Mem R × Worker R} (hok : noStale c (.inl i, x)) (hs : WorkerStep i x c.mem (c.worker i) r.1 r.2) :
    ServeInv (c.moveWorker i r) := by
  have hsame := workerStep_same hs
  have hflag := workerStep_flag hs
  have hlist : started r.1 = started c.mem := by rw [started, started, hsame.list]
  refine ⟨fun hup => ?_, fun hst hd j => ?_, fun hst j hj => ?_⟩
  · exact hflag.trans (h.flag (hsame.stage.symm.trans hup))
  · have hst' : c.mem.stage = .creating := hsame.stage.symm.trans hst
    have hd' : c.mem.destroyed = true := hflag.symm.trans hd
    rcases moveWorker_cases c i r j with ⟨rfl, he⟩ | ⟨hne, he⟩
    · rw [he]
      refine workerStep_early hs (h.early hst' hd' j) fun hw => ?_
      rw [hok j rfl hw hst'] at hd'
      cases hd'
    · rw [he]
      exact h.early hst' hd' j
  · have hst' : c.mem.stage = .creating ∨ c.mem.stage = .up := hsame.stage ▸ hst
    have hserve := h.serves hst' j (hlist ▸ hj)
    rcases moveWorker_cases c i r j with ⟨rfl, he⟩ | ⟨hne, he⟩
    · right
      rw [he]
      exact workerStep_inLoop hs hserve (hl.runs j) (h.flag_down hok hst')
    · rw [serving, he]
      show r.1.thread j = .created ∨ _
      rw [(workerStep_thread hs (hl.runs i)).2 j fun hv => hne (Fin.ext hv)]
      exact hserve

omit [DecidableEq R] in
/-- Only the flag, the stage, the handles and the threads matter. -/
theorem ServeInv.congr {c c' : State R} (h : ServeInv c) (hw : c'.worker = c.worker)
    (hd : c'.mem.destroyed = c.mem.destroyed) (hs : c'.mem.stage = c.mem.stage)
    (hl : c'.mem.threadList = c.mem.threadList) (ht : c'.mem.thread = c.mem.thread) : ServeInv c' := by
  refine ⟨by rw [hs, hd]; exact h.flag, by rw [hs, hd, hw]; exact h.early, ?_⟩
  simp only [Serves, serving, started, hs, hl, ht, hw]
  exact h.serves

omit [DecidableEq R] in
/-- Nothing is said of a pool that is neither being created nor up. -/
theorem ServeInv.of_stage {c : State R} (h : c.mem.stage ≠ .creating ∧ c.mem.stage ≠ .up) : ServeInv c :=
  ⟨fun hu => absurd hu h.2, fun hc => absurd hc h.1, fun hs => absurd hs (not_or.mpr h)⟩

omit [DecidableEq R] in
theorem ServeInv.post {c : State R} (h : ServeInv c) {k : ℕ} {x : Input R} {q : R} {v : Bool} {m' : Mem R}
    {p' : Client} (hp : PostStep x c.mem q m' v) : ServeInv (c.moveClient k (m', p')) := by
  have hsame := postStep_same hp
  exact h.congr rfl (postStep_flag hp) hsame.stage hsame.list (postStep_thread hp).1

omit [DecidableEq R] in
theorem ServeInv.moveController {c : State R} (h : ServeInv c) (hl : LifeInv c) {x : Input R} {m' : Mem R}
    {p' : Client} (hs : ClientStep x c.mem (c.client 0) m' p') : ServeInv (c.moveClient 0 (m', p')) := by
  have hctl := hl.ctl
  generalize c.client 0 = p at hs hctl
  cases hs with
  | post last hc hp => exact h.post hp
  | destroy last hc hl' => exact .of_stage (ending_stage (beginDestroy_stage _ _))
  | createDestroy hl' => exact .of_stage (ending_stage (beginDestroy_stage _ _))
  | createInit n =>
    cases hctl with
    | createInit _ hst hlist hb h0 hn =>
      refine ⟨fun hup => (by cases hup), fun _ _ i => ?_, fun _ i hi => ?_⟩
      · show untested (c.worker i)
        rw [hl.off_of_le hb (Nat.zero_le _)]
        trivial
      · simp [started, Config.moveClient, initialized, hlist] at hi
    | ending hp he => exact hp.elim
  | createList =>
    refine ⟨h.flag, h.early, fun _ i hi => ?_⟩
    simp [started, Config.moveClient] at hi
  | createThread k hk =>
    cases hctl with
    | createThread _ hst hlist hi hb hz =>
      refine ⟨h.flag, h.early, fun _ i hik => ?_⟩
      have hik' : i.val < k + 1 := hik
      by_cases he : i.val = k
      · left
        simp [Config.moveClient, he]
      · have hserve := h.serves (Or.inl hst) i (by simp only [started, hlist, Option.getD_some]; omega)
        simpa [serving, Config.moveClient, he] using hserve
    | ending hp he => exact hp.elim
  | createFlag =>
    cases hctl with
    | createFlag hst hlist hb hz =>
      exact ⟨fun _ => rfl, fun hst' => (by cases hst'), fun _ i hi => h.serves (Or.inl hst) i hi⟩
    | ending hp he => exact hp.elim
  | createFailed hlist => exact .of_stage ⟨by simp [Config.moveClient], by simp [Config.moveClient]⟩
  | clear b => exact .of_stage ⟨by simp [Config.moveClient], by simp [Config.moveClient]⟩
  | setFlag b =>
    cases hctl with
    | ending _ he => exact .of_stage (ending_stage he.stage)
  | closeThreads b =>
    cases hctl with
    | closeThreads _ hst hlist hb => exact .of_stage (ending_stage hst)
    | ending hp he => exact hp.elim
  | _ => exact h.congr rfl rfl rfl rfl rfl

theorem serve_reach {c : State R} (h : Reach (pool R).lts fresh c) : ServeInv c ∧ LifeInv c := by
  refine controlled_induct (I := ServeInv) (fun _ _ _ ha => ha.1) ?_ ?_ ?_ ?_ h
  · rintro _ rfl
    exact .of_stage ⟨by simp [threadPool], by simp [threadPool]⟩
  · intro c i x r _ hl hi ha hs
    exact hi.moveWorker hl ha.2 hs
  · intro c x m' p' _ hl hi _ hs
    exact hi.moveController hl hs
  · intro c k x q v m' p' _ _ hi _ _ _ hp
    exact hi.post hp

/-! ### The condition on the posts -/

/-- **No request is posted while `Create` has made the thread list but not yet cleared `m_bDestroyed`.** -/
def noEarlyPost (c : State R) (a : Tid × Input R) : Prop :=
  ∀ r, a.2.call = some (.postRequest r) → c.mem.stage = .creating → c.mem.destroyed = true →
    c.mem.threadList = none

omit [DecidableEq R] in
/-- In the window nothing has been posted: no token, and no worker past its wait. -/
def Quiet (c : State R) : Prop :=
  c.mem.stage = .creating → c.mem.destroyed = true →
    (∃ s, c.mem.semaphore = some s ∧ s.count = 0) ∧ ∀ i, c.worker i = .off ∨ c.worker i = .wait

omit [DecidableEq R] in
theorem Quiet.congr {c c' : State R} (h : Quiet c) (hw : c'.worker = c.worker)
    (hd : c'.mem.destroyed = c.mem.destroyed) (hs : c'.mem.stage = c.mem.stage)
    (hsem : c'.mem.semaphore = c.mem.semaphore) : Quiet c' := by
  rw [Quiet, hs, hd, hsem, hw]
  exact h

omit [DecidableEq R] in
theorem Quiet.of_stage {c : State R} (h : c.mem.stage ≠ .creating) : Quiet c := fun hc => absurd hc h

theorem Quiet.moveWorker {c : State R} (h : Quiet c) {i : Fin maxThreads} {x : Input R} {r : Mem R × Worker R}
    (hs : WorkerStep i x c.mem (c.worker i) r.1 r.2) : Quiet (c.moveWorker i r) := by
  intro hst hd
  obtain ⟨⟨s, hsem, h0⟩, hall⟩ := h ((workerStep_same hs).stage.symm.trans hst) ((workerStep_flag hs).symm.trans hd)
  have hi := hall i
  obtain ⟨m', w'⟩ := r
  change WorkerStep i x c.mem (c.worker i) m' w' at hs
  generalize c.worker i = w at hs hi
  cases hs with
  | start ht =>
    refine ⟨⟨s, hsem, h0⟩, fun j => ?_⟩
    rcases moveWorker_cases c i (_, .wait) j with ⟨-, he⟩ | ⟨-, he⟩
    · exact Or.inr he
    · rw [he]
      exact hall j
  | acquire hs' hpos =>
    obtain rfl := Option.some.inj (hs'.symm.trans hsem)
    omega
  | waitFailed hnone => cases hnone.symm.trans hsem
  | _ => simp at hi

omit [DecidableEq R] in
theorem Quiet.post {c : State R} (h : Quiet c) {k : ℕ} {x : Input R} {r : R} {v : Bool} {m' : Mem R} {p' : Client}
    (hp : PostStep x c.mem r m' v) (hc : x.call = some (.postRequest r)) (hok : noEarlyPost c (.inr k, x)) :
    Quiet (c.moveClient k (m', p')) := by
  intro hst hd
  have hst' : c.mem.stage = .creating := (postStep_same hp).stage.symm.trans hst
  have hd' : c.mem.destroyed = true := (postStep_flag hp).symm.trans hd
  have hlist := hok r hc hst' hd'
  cases hp with
  | noList _ => exact h hst' hd'
  | notify hl _ _ _ | notifyFailed hl _ _ | count hl _ => exact absurd hlist hl

omit [DecidableEq R] in
theorem Quiet.moveController {c : State R} (h : Quiet c) (hl : LifeInv c) {x : Input R} {m' : Mem R} {p' : Client}
    (hok : noEarlyPost c (.inr 0, x)) (hs : ClientStep x c.mem (c.client 0) m' p') :
    Quiet (c.moveClient 0 (m', p')) := by
  have hctl := hl.ctl
  generalize c.client 0 = p at hs hctl
  cases hs with
  | post last hc hp => exact h.post hp hc hok
  | destroy last hc hl' => exact .of_stage (ending_stage (beginDestroy_stage _ _)).1
  | createDestroy hl' => exact .of_stage (ending_stage (beginDestroy_stage _ _)).1
  | createInit n =>
    cases hctl with
    | createInit _ hst hlist hb h0 hn =>
      exact fun _ _ => ⟨⟨_, rfl, rfl⟩, fun i => Or.inl (hl.off_of_le hb (Nat.zero_le _))⟩
    | ending hp he => exact hp.elim
  | semaphoreFailed n =>
    cases hctl with
    | createInit _ hst hlist hb h0 hn => exact .of_stage (by simp [Config.moveClient, hst])
    | ending hp he => exact hp.elim
  | createFlag => exact .of_stage (by simp [Config.moveClient])
  | createFailed hlist => exact .of_stage (by simp [Config.moveClient])
  | clear b => exact .of_stage (by simp [Config.moveClient])
  | setFlag b =>
    cases hctl with
    | ending _ he => exact .of_stage (ending_stage he.stage).1
  | release b ha hsem hle =>
    cases hctl with
    | ending _ he => exact .of_stage (ending_stage he.stage).1
  | closeSemaphore b =>
    cases hctl with
    | closeSemaphore _ hst hlist hb => exact .of_stage (ending_stage hst).1
    | ending hp he => exact hp.elim
  | _ => exact h.congr rfl rfl rfl rfl

theorem quiet_reach {c : State R} (h : Reach (pool R).lts (fun c a => controlled c a ∧ noEarlyPost c a) c) :
    Quiet c := by
  refine (controlled_induct (I := Quiet) (fun _ _ _ ha => ha.1) ?_ ?_ ?_ ?_ h).1
  · rintro _ rfl
    exact .of_stage (by simp [threadPool])
  · intro c i x r _ _ hq _ hs
    exact hq.moveWorker hs
  · intro c x m' p' _ hl hq ha hs
    exact hq.moveController hl ha.2 hs
  · intro c k x q v m' p' _ _ hq _ ha hc hp
    exact hq.post hp hc ha.2

/-- **If no request is posted in the window, no worker tests the flag there.** -/
theorem fresh_of_noEarlyPost {c : State R}
    (h : Reach (pool R).lts (fun c a => controlled c a ∧ noEarlyPost c a) c) : Reach (pool R).lts fresh c := by
  refine h.induct (I := Reach (pool R).lts fresh) (fun c hc => .init hc) ?_
  intro c a c' hr hfresh ha hs
  refine hfresh.next ⟨ha.1, fun i _ hw hst => ?_⟩ hs
  by_contra hd
  have := (quiet_reach hr hst (by simpa using hd)).2 i
  rw [hw] at this
  simp at this

/-! ### The result -/

omit [DecidableEq R] in
/-- The threads that serve a pool that is up are those of its handles. -/
theorem serving_iff {c : State R} (h : Serves c) (hl : LifeInv c) (hu : c.mem.stage = .up) (i : Fin maxThreads) :
    serving c i ↔ i.val < c.mem.threadCount := by
  have hbelow := below_started hl.ctl (Or.inr hu)
  have hlist : started c.mem = c.mem.threadCount := by simp [started, (hl.ctl.of_up hu).list]
  rw [← hlist]
  refine ⟨fun hs => hbelow i ?_, h (Or.inr hu) i⟩
  rcases hs with hs | hs
  · exact Or.inl hs
  · refine Or.inr (hl.running fun hoff => ?_)
    rw [hoff] at hs
    exact hs

/-- **The pool keeps its workers as long as no worker makes its first test of `m_bDestroyed` while `Create`
has yet to clear it.** Then no worker leaves between the creation of its thread and the next `Destroy`, and a
pool that is up is served by exactly `m_usThreadCount` threads; a test in the window loses a worker. That no
request is posted in the window is enough. -/
theorem workers_stay_iff :
    (∀ c : State R, Reach (pool R).lts fresh c →
      Serves c ∧ (c.mem.stage = .up → ∀ i, serving c i ↔ i.val < c.mem.threadCount)) ∧
    (∀ (c c' : State R) (a : Tid × Input R), Reach (pool R).lts fresh c → controlled c a →
      (pool R).lts.next c a = some c' → (Serves c' ↔ noStale c a)) ∧
    (∀ c : State R, Reach (pool R).lts (fun c a => controlled c a ∧ noEarlyPost c a) c → Serves c) := by
  refine ⟨fun c h => ?_, fun c c' a h hctl hs => ⟨fun hserve i hi hw hst => ?_, fun hok => ?_⟩, fun c h => ?_⟩
  · obtain ⟨hi, hl⟩ := serve_reach h
    exact ⟨hi.serves, serving_iff hi.serves hl⟩
  · by_contra hd
    have hl := (serve_reach h).2
    rcases Program.next_cases hs with ⟨i', x, r, rfl, hr, rfl⟩ | ⟨k, x, r, rfl, hr, rfl⟩
    · obtain rfl := Sum.inl.inj hi
      obtain rfl : (c.mem, .quit) = r := by simpa [pool, hw, workerStep, hd] using hr
      have hrun : c.mem.thread i' = .running := hl.running (by simp [hw])
      have hlt := below_started hl.ctl (Or.inl hst) i' (Or.inr hrun)
      rcases hserve (Or.inl hst) i' hlt with hcr | hloop
      · cases hcr.symm.trans hrun
      · rw [moveWorker_self] at hloop
        exact hloop
    · cases hi
  · exact (serve_reach (h.next ⟨hctl, hok⟩ hs)).1.serves
  · exact (serve_reach (fresh_of_noEarlyPost h)).1.serves

/-- The test for an allowed step. -/
def freshTest (c : State R) (a : Tid × Input R) : Bool :=
  controlledTest a && match a.1 with
    | .inl i => decide (c.worker i = .check → c.mem.stage = .creating → c.mem.destroyed = false)
    | .inr _ => true

theorem fresh_of_test (c : State R) (a : Tid × Input R) (h : freshTest c a = true) : fresh c a := by
  simp only [freshTest, Bool.and_eq_true] at h
  refine ⟨controlled_of_test c a h.1, fun i hi => ?_⟩
  have h2 := h.2
  rw [hi] at h2
  exact of_decide_eq_true h2

/-- A pool of one thread is created and destroyed, and created again up to the end of `CreateThread`. -/
def secondCreate : List (Tid × Input ℕ) :=
  createCall 1 ++ steps (.inl 0) 1 ++ destroyCall ++ steps (.inl 0) 6 ++ steps (.inr 0) 4 ++
    ((createCall 1).take 4 ++ steps (.inl 0) 1)

/-- The second `Create` comes to its end. -/
def secondCreateRun : List (Tid × Input ℕ) := secondCreate ++ steps (.inr 0) 2

theorem workers_stay_iff_secondCreateRun : ∃ c : State ℕ, Reach (pool ℕ).lts fresh c ∧ c.mem.stage = .up ∧
    c.mem.threadCount = 1 ∧ serving c 0 := by
  obtain ⟨c, hc, hp⟩ := reach_of_run (pool ℕ).lts fresh_of_test secondCreateRun
    (fun c => decide (c.mem.stage = .up) && decide (c.mem.threadCount = 1)) rfl (by decide)
  simp only [Bool.and_eq_true, decide_eq_true_eq] at hp
  refine ⟨c, hc, hp.1, hp.2, ((workers_stay_iff.1 c hc).2 hp.1 0).mpr ?_⟩
  rw [hp.2]
  exact Nat.one_pos

/-- A request is posted before the second `Create` clears the flag, and wakes the worker. -/
def earlyPostRun : List (Tid × Input ℕ) := secondCreate ++ post 7 ++ steps (.inl 0) 4 ++ steps (.inr 0) 2

/-- **The second pool loses its only worker**: `Create` has returned true, no `Destroy` has been called since,
and the worker has left its loop. -/
theorem worker_leaves_earlyPostRun : ∃ c : State ℕ, Reach (pool ℕ).lts controlled c ∧ c.mem.stage = .up ∧
    c.client 0 = .out (some true) ∧ c.mem.threadCount = 1 ∧ c.worker 0 = .quit ∧ ¬ Serves c := by
  obtain ⟨c, hc, hp⟩ := reach_of_run (pool ℕ).lts (fun c a => controlled_of_test c a) earlyPostRun
    (fun c => decide (c.mem.stage = .up) && decide (c.client 0 = .out (some true)) &&
      decide (c.mem.threadCount = 1) && decide (c.worker 0 = .quit) && decide (started c.mem = 1) &&
      decide (c.mem.thread 0 = .running)) rfl (by decide)
  simp only [Bool.and_eq_true, decide_eq_true_eq] at hp
  obtain ⟨⟨⟨⟨⟨hup, hout⟩, hn⟩, hquit⟩, hstarted⟩, hrun⟩ := hp
  refine ⟨c, hc, hup, hout, hn, hquit, fun hserve => ?_⟩
  rcases hserve (Or.inr hup) 0 (by rw [hstarted]; exact Nat.one_pos) with h | h
  · cases h.symm.trans hrun
  · rw [hquit] at h
    exact h

end PoolStudy.TP.Serving
