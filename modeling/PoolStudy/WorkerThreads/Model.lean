import PoolStudy.Lib.Threads

/-! # The rounds of `WorkerThreads.c`: data and steps

`N` workers process one batch each in every round. `main` starts a round by broadcasting
`StartWorkCondition` and then receives `N` completions, one at a time, on `CompleteCondition`. Both condition
variables are waited on without a predicate; a completing worker shakes hands with `main` over
`MainThreadWaiting` and goes from `CompleteMutex` to `StartWorkMutex` without a gap.

Every statement that touches shared data is a step. Waits end only when signalled: a thread blocked on a
condition variable stays there until it has been woken, and then has to take the mutex again. `sleep(1)` ends
when all workers wait (that is what it is for). `main` is the only client.

`Mem` holds the shared variables, which threads have ended, and the history of the run: for every worker the
values of `Round` it has seen at the beginning of its batches and the number of batches it has executed, the
values of `TheCompletedBatch` signalled and those read by `main` in the current round, and those read in the
rounds before. -/

namespace PoolStudy.WorkerThreads.Model

open PoolStudy.Lib.Transition PoolStudy.Lib.Threads

/-- The threads: the workers and `main`. -/
abbrev Tid (N : ℕ) := Fin N ⊕ Unit

/-- `BOGUS`. -/
def bogus : ℕ := 99

/-- The shared variables, the threads that have ended, and the history. -/
structure Mem (N : ℕ) where
  startWorkMutex : Option (Tid N)
  startWorkCondition : Finset (Fin N)
  workOn : Bool
  round : ℕ
  completeMutex : Option (Tid N)
  completeCondition : Bool
  mainThreadWaiting : Bool
  theCompletedBatch : ℕ
  exited : Finset (Fin N)
  begun : Fin N → List ℕ
  executed : Fin N → ℕ
  sent : List ℕ
  reads : List ℕ
  past : List (List ℕ)

/-- Where a worker is in `WorkerThread`. -/
inductive Worker
  | lockStart
  | waitStart
  | blocked
  | test
  | unlockWork
  | unlockExit
  | work
  | lockComplete
  | testWaiting
  | unlockRetry
  | setFalse
  | setBatch
  | lockNext
  | signal
  | unlockComplete
  | exited
  deriving DecidableEq

/-- Where `main` is, in the round `X` and before the completion `Y`. -/
inductive Main
  | sleep
  | lockStart (X : ℕ)
  | setOn (X : ℕ)
  | incRound (X : ℕ)
  | lockComplete (X : ℕ)
  | broadcast (X : ℕ)
  | unlockStart (X : ℕ)
  | setWaiting (X Y : ℕ)
  | wait (X Y : ℕ)
  | blocked (X Y : ℕ)
  | read (X Y : ℕ)
  | unlockComplete (X : ℕ)
  | finalLock
  | finalOff
  | finalBroadcast
  | finalUnlock
  | join (X : ℕ)
  | done
  deriving DecidableEq

variable {N : ℕ}

/-! ### Workers -/

/-- `pthread_mutex_lock(&StartWorkMutex)`. -/
def Mem.lockStart (m : Mem N) (self : Tid N) : Option (Mem N) :=
  if m.startWorkMutex = none then some { m with startWorkMutex := some self } else none

/-- `pthread_mutex_lock(&CompleteMutex)`. -/
def Mem.lockComplete (m : Mem N) (self : Tid N) : Option (Mem N) :=
  if m.completeMutex = none then some { m with completeMutex := some self } else none

/-- **`WorkerThread`**: the worker `i`. -/
def workerStep (i : Fin N) (m : Mem N) : Worker → Option (Mem N × Worker)
  | .lockStart => (m.lockStart (.inl i)).map fun m' => (m', .waitStart)
  | .waitStart =>
    some ({ m with
      startWorkMutex := none
      startWorkCondition := insert i m.startWorkCondition }, .blocked)
  | .blocked =>
    if i ∈ m.startWorkCondition then none
    else (m.lockStart (.inl i)).map fun m' => (m', .test)
  | .test =>
    if m.workOn then
      some ({ m with begun := Function.update m.begun i (m.begun i ++ [m.round]) }, .unlockWork)
    else some (m, .unlockExit)
  | .unlockWork => some ({ m with startWorkMutex := none }, .work)
  | .unlockExit => some ({ m with startWorkMutex := none, exited := insert i m.exited }, .exited)
  | .work =>
    some ({ m with executed := Function.update m.executed i (m.executed i + 1) }, .lockComplete)
  | .lockComplete => (m.lockComplete (.inl i)).map fun m' => (m', .testWaiting)
  | .testWaiting => some (m, if m.mainThreadWaiting then .setFalse else .unlockRetry)
  | .unlockRetry => some ({ m with completeMutex := none }, .lockComplete)
  | .setFalse => some ({ m with mainThreadWaiting := false }, .setBatch)
  | .setBatch => some ({ m with theCompletedBatch := i }, .lockNext)
  | .lockNext => (m.lockStart (.inl i)).map fun m' => (m', .signal)
  | .signal =>
    some ({ m with completeCondition := false, sent := m.sent ++ [m.theCompletedBatch] }, .unlockComplete)
  | .unlockComplete => some ({ m with completeMutex := none }, .waitStart)
  | .exited => none

/-! ### `main` -/

/-- The test of the loop over the rounds. -/
def roundTop (R X : ℕ) : Main := if X < R then .lockStart X else .finalLock

/-- The test of the loop over the completions. -/
def waitTop (N X Y : ℕ) : Main := if Y < N then .setWaiting X Y else .unlockComplete X

/-- `pthread_join` of the thread `X`. -/
def joinStep (m : Mem N) (X : ℕ) : Option (Mem N × Main) :=
  if h : X < N then if ⟨X, h⟩ ∈ m.exited then some (m, .join (X + 1)) else none
  else some (m, .done)

/-- **`main`**, with `R` rounds. -/
def mainStep (R : ℕ) (m : Mem N) : Main → Option (Mem N × Main)
  | .sleep => if m.startWorkCondition = Finset.univ then some (m, roundTop R 0) else none
  | .lockStart X => (m.lockStart (.inr ())).map fun m' => (m', .setOn X)
  | .setOn X => some ({ m with workOn := true }, .incRound X)
  | .incRound X => some ({ m with round := m.round + 1 }, .lockComplete X)
  | .lockComplete X => (m.lockComplete (.inr ())).map fun m' => (m', .broadcast X)
  | .broadcast X => some ({ m with startWorkCondition := ∅ }, .unlockStart X)
  | .unlockStart X => some ({ m with startWorkMutex := none }, waitTop N X 0)
  | .setWaiting X Y => some ({ m with mainThreadWaiting := true }, .wait X Y)
  | .wait X Y => some ({ m with completeMutex := none, completeCondition := true }, .blocked X Y)
  | .blocked X Y =>
    if m.completeCondition then none
    else (m.lockComplete (.inr ())).map fun m' => (m', .read X Y)
  | .read X Y => some ({ m with reads := m.reads ++ [m.theCompletedBatch] }, waitTop N X (Y + 1))
  | .unlockComplete X =>
    some ({ m with completeMutex := none, sent := [], reads := [], past := m.past ++ [m.reads] },
      roundTop R (X + 1))
  | .finalLock => (m.lockStart (.inr ())).map fun m' => (m', .finalOff)
  | .finalOff => some ({ m with workOn := false }, .finalBroadcast)
  | .finalBroadcast => some ({ m with startWorkCondition := ∅ }, .finalUnlock)
  | .finalUnlock => some ({ m with startWorkMutex := none }, .join 0)
  | .join X => joinStep m X
  | .done => none

/-! ### The system -/

/-- The shared variables as they are initialised. -/
def Mem.init (N : ℕ) : Mem N where
  startWorkMutex := none
  startWorkCondition := ∅
  workOn := false
  round := 0
  completeMutex := none
  completeCondition := false
  mainThreadWaiting := false
  theCompletedBatch := bogus
  exited := ∅
  begun := fun _ => []
  executed := fun _ => 0
  sent := []
  reads := []
  past := []

/-- A configuration. -/
abbrev State (N : ℕ) := Config (Fin N) Unit (Mem N) Worker Main

/-- **`main` and its workers.** -/
def workerThreads (N R : ℕ) : Program (Fin N) Unit (Mem N) Worker Main Unit where
  init c := c = ⟨Mem.init N, fun _ => .lockStart, fun _ => .sleep⟩
  workerStep i _ := workerStep i
  clientStep _ _ := mainStep R

end PoolStudy.WorkerThreads.Model
