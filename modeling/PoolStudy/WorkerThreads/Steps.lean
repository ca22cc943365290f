import PoolStudy.WorkerThreads.Model

/-! # The rounds of `WorkerThreads.c`: what a step can do

`WorkerStep` and `MainStep` list the outcomes of a step of a worker and of `main`, with the guards under which
they happen; `workerStep_cases` and `mainStep_cases` read them off the definitions once, and `next_of_worker`
and `next_of_main` go back. -/

namespace PoolStudy.WorkerThreads.Steps

open PoolStudy.Lib.Transition PoolStudy.Lib.Threads PoolStudy.WorkerThreads.Model

variable {N R : ℕ}

/-- **The outcomes of a step of the worker `i`.** -/
inductive WorkerStep (i : Fin N) (m : Mem N) : Worker → Mem N → Worker → Prop
  | lockStart (h : m.startWorkMutex = none) :
      WorkerStep i m .lockStart { m with startWorkMutex := some (.inl i) } .waitStart
  | waitStart :
      WorkerStep i m .waitStart
        { m with startWorkMutex := none, startWorkCondition := insert i m.startWorkCondition } .blocked
  | wake (h : i ∉ m.startWorkCondition) (hl : m.startWorkMutex = none) :
      WorkerStep i m .blocked { m with startWorkMutex := some (.inl i) } .test
  | begin (h : m.workOn = true) :
      WorkerStep i m .test
        { m with begun := Function.update m.begun i (m.begun i ++ [m.round]) } .unlockWork
  | leave (h : m.workOn = false) : WorkerStep i m .test m .unlockExit
  | unlockWork : WorkerStep i m .unlockWork { m with startWorkMutex := none } .work
  | unlockExit :
      WorkerStep i m .unlockExit { m with startWorkMutex := none, exited := insert i m.exited } .exited
  | work :
      WorkerStep i m .work
        { m with executed := Function.update m.executed i (m.executed i + 1) } .lockComplete
  | lockComplete (h : m.completeMutex = none) :
      WorkerStep i m .lockComplete { m with completeMutex := some (.inl i) } .testWaiting
  | claim (h : m.mainThreadWaiting = true) : WorkerStep i m .testWaiting m .setFalse
  | retry (h : m.mainThreadWaiting = false) : WorkerStep i m .testWaiting m .unlockRetry
  | unlockRetry : WorkerStep i m .unlockRetry { m with completeMutex := none } .lockComplete
  | setFalse : WorkerStep i m .setFalse { m with mainThreadWaiting := false } .setBatch
  | setBatch : WorkerStep i m .setBatch { m with theCompletedBatch := i } .lockNext
  | lockNext (h : m.startWorkMutex = none) :
      WorkerStep i m .lockNext { m with startWorkMutex := some (.inl i) } .signal
  | signal :
      WorkerStep i m .signal
        { m with completeCondition := false, sent := m.sent ++ [m.theCompletedBatch] } .unlockComplete
  | unlockComplete : WorkerStep i m .unlockComplete { m with completeMutex := none } .waitStart

theorem lockStart_some {m m' : Mem N} {t : Tid N} (h : m.lockStart t = some m') :
    m.startWorkMutex = none ∧ m' = { m with startWorkMutex := some t } := by
  unfold Mem.lockStart at h
  split_ifs at h with hl
  cases h
  exact ⟨hl, rfl⟩

theorem lockComplete_some {m m' : Mem N} {t : Tid N} (h : m.lockComplete t = some m') :
    m.completeMutex = none ∧ m' = { m with completeMutex := some t } := by
  unfold Mem.lockComplete at h
  split_ifs at h with hl
  cases h
  exact ⟨hl, rfl⟩

theorem workerStep_cases {i : Fin N} {m : Mem N} {w : Worker} {r : Mem N × Worker}
    (h : workerStep i m w = some r) : WorkerStep i m w r.1 r.2 := by
  cases w with
  | lockStart =>
    obtain ⟨m', hm, rfl⟩ := Option.map_eq_some_iff.mp h
    obtain ⟨hl, rfl⟩ := lockStart_some hm
    exact .lockStart hl
  | waitStart => cases h; exact .waitStart
  | blocked =>
    simp only [workerStep] at h
    split_ifs at h with hi
    obtain ⟨m', hm, rfl⟩ := Option.map_eq_some_iff.mp h
    obtain ⟨hl, rfl⟩ := lockStart_some hm
    exact .wake hi hl
  | test =>
    simp only [workerStep] at h
    split_ifs at h with hw
    · cases h; exact .begin hw
    · cases h; exact .leave (by simpa using hw)
  | unlockWork => cases h; exact .unlockWork
  | unlockExit => cases h; exact .unlockExit
  | work => cases h; exact .work
  | lockComplete =>
    obtain ⟨m', hm, rfl⟩ := Option.map_eq_some_iff.mp h
    obtain ⟨hl, rfl⟩ := lockComplete_some hm
    exact .lockComplete hl
  | testWaiting =>
    simp only [workerStep, Option.some.injEq] at h
    subst h
    split_ifs with hw
    · exact .claim hw
    · exact .retry (by simpa using hw)
  | unlockRetry => cases h; exact .unlockRetry
  | setFalse => cases h; exact .setFalse
  | setBatch => cases h; exact .setBatch
  | lockNext =>
    obtain ⟨m', hm, rfl⟩ := Option.map_eq_some_iff.mp h
    obtain ⟨hl, rfl⟩ := lockStart_some hm
    exact .lockNext hl
  | signal => cases h; exact .signal
  | unlockComplete => cases h; exact .unlockComplete
  | exited => cases h

theorem workerStep_eq {i : Fin N} {m m' : Mem N} {w w' : Worker} (h : WorkerStep i m w m' w') :
    workerStep i m w = some (m', w') := by
  cases h <;> simp_all [workerStep, Mem.lockStart, Mem.lockComplete]

/-- **The outcomes of a step of `main`.** -/
inductive MainStep (R : ℕ) (m : Mem N) : Main → Mem N → Main → Prop
  | sleep (h : m.startWorkCondition = Finset.univ) : MainStep R m .sleep m (roundTop R 0)
  | lockStart (X : ℕ) (h : m.startWorkMutex = none) :
      MainStep R m (.lockStart X) { m with startWorkMutex := some (.inr ()) } (.setOn X)
  | setOn (X : ℕ) : MainStep R m (.setOn X) { m with workOn := true } (.incRound X)
  | incRound (X : ℕ) : MainStep R m (.incRound X) { m with round := m.round + 1 } (.lockComplete X)
  | lockComplete (X : ℕ) (h : m.completeMutex = none) :
      MainStep R m (.lockComplete X) { m with completeMutex := some (.inr ()) } (.broadcast X)
  | broadcast (X : ℕ) : MainStep R m (.broadcast X) { m with startWorkCondition := ∅ } (.unlockStart X)
  | unlockStart (X : ℕ) : MainStep R m (.unlockStart X) { m with startWorkMutex := none } (waitTop N X 0)
  | setWaiting (X Y : ℕ) : MainStep R m (.setWaiting X Y) { m with mainThreadWaiting := true } (.wait X Y)
  | wait (X Y : ℕ) :
      MainStep R m (.wait X Y) { m with completeMutex := none, completeCondition := true } (.blocked X Y)
  | wake (X Y : ℕ) (h : m.completeCondition = false) (hl : m.completeMutex = none) :
      MainStep R m (.blocked X Y) { m with completeMutex := some (.inr ()) } (.read X Y)
  | read (X Y : ℕ) :
      MainStep R m (.read X Y) { m with reads := m.reads ++ [m.theCompletedBatch] } (waitTop N X (Y + 1))
  | unlockComplete (X : ℕ) :
      MainStep R m (.unlockComplete X)
        { m with completeMutex := none, sent := [], reads := [], past := m.past ++ [m.reads] }
        (roundTop R (X + 1))
  | finalLock (h : m.startWorkMutex = none) :
      MainStep R m .finalLock { m with startWorkMutex := some (.inr ()) } .finalOff
  | finalOff : MainStep R m .finalOff { m with workOn := false } .finalBroadcast
  | finalBroadcast : MainStep R m .finalBroadcast { m with startWorkCondition := ∅ } .finalUnlock
  | finalUnlock : MainStep R m .finalUnlock { m with startWorkMutex := none } (.join 0)
  | joinOne (i : Fin N) (h : i ∈ m.exited) : MainStep R m (.join i) m (.join (i + 1))
  | joinEnd {X : ℕ} (h : N ≤ X) : MainStep R m (.join X) m .done

theorem mainStep_cases {m : Mem N} {p : Main} {r : Mem N × Main} (h : mainStep R m p = some r) :
    MainStep R m p r.1 r.2 := by
  cases p with
  | sleep =>
    simp only [mainStep] at h
    split_ifs at h with hu
    cases h; exact .sleep hu
  | lockStart X =>
    obtain ⟨m', hm, rfl⟩ := Option.map_eq_some_iff.mp h
    obtain ⟨hl, rfl⟩ := lockStart_some hm
    exact .lockStart X hl
  | setOn X => cases h; exact .setOn X
  | incRound X => cases h; exact .incRound X
  | lockComplete X =>
    obtain ⟨m', hm, rfl⟩ := Option.map_eq_some_iff.mp h
    obtain ⟨hl, rfl⟩ := lockComplete_some hm
    exact .lockComplete X hl
  | broadcast X => cases h; exact .broadcast X
  | unlockStart X => cases h; exact .unlockStart X
  | setWaiting X Y => cases h; exact .setWaiting X Y
  | wait X Y => cases h; exact .wait X Y
  | blocked X Y =>
    simp only [mainStep] at h
    split_ifs at h with hc
    obtain ⟨m', hm, rfl⟩ := Option.map_eq_some_iff.mp h
    obtain ⟨hl, rfl⟩ := lockComplete_some hm
    exact .wake X Y (by simpa using hc) hl
  | read X Y => cases h; exact .read X Y
  | unlockComplete X => cases h; exact .unlockComplete X
  | finalLock =>
    obtain ⟨m', hm, rfl⟩ := Option.map_eq_some_iff.mp h
    obtain ⟨hl, rfl⟩ := lockStart_some hm
    exact .finalLock hl
  | finalOff => cases h; exact .finalOff
  | finalBroadcast => cases h; exact .finalBroadcast
  | finalUnlock => cases h; exact .finalUnlock
  | join X =>
    simp only [mainStep, joinStep] at h
    split_ifs at h with hX he
    · cases h; exact .joinOne ⟨X, hX⟩ he
    · cases h; exact .joinEnd (by omega)
  | done => cases h

theorem mainStep_eq {m m' : Mem N} {p p' : Main} (h : MainStep R m p m' p') :
    mainStep R m p = some (m', p') := by
  cases h with
  | joinOne i h => simp [mainStep, joinStep, h]
  | joinEnd h => simp [mainStep, joinStep, h]
  | _ => simp_all [mainStep, Mem.lockStart, Mem.lockComplete]

/-! ### Steps of the system -/

/-- The position of `main`. -/
def mainAt (c : State N) : Main := c.client ()

theorem next_of_worker {c : State N} {i : Fin N} {m' : Mem N} {w' : Worker}
    (h : WorkerStep i c.mem (c.worker i) m' w') :
    (workerThreads N R).lts.next c (.inl i, ()) = some (c.moveWorker i (m', w')) :=
  Program.next_worker (workerStep_eq h)

theorem next_of_main {c : State N} {m' : Mem N} {p' : Main} (h : MainStep R c.mem (mainAt c) m' p') :
    (workerThreads N R).lts.next c (.inr (), ()) = some (c.moveClient () (m', p')) :=
  Program.next_client (mainStep_eq h)

end PoolStudy.WorkerThreads.Steps
