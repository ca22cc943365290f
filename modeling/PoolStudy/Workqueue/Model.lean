import PoolStudy.Lib.Threads
import Mathlib.Data.List.FinRange

/-! # The work queue of libevent-thread: data and steps

`workqueue.c`: a list of waiting jobs behind one mutex and one condition variable, and workers running
`worker_function`. Other threads, and running jobs, call `workqueue_add_job` and `workqueue_shutdown`.
Both the jobs and the workers are kept in lists by the macros `LL_ADD` and `LL_REMOVE`, given here
statement by statement (`LList.llAdd`, `LList.llRemove`).

What `workqueue_add_job` does between lock and unlock is one step, and so is the removal of a job by a
worker. The reads of `terminate` and the traversal of the workers by `workqueue_shutdown`, which takes no
lock, are steps of their own. A worker blocked in `pthread_cond_wait` is at `Worker.blocked`, and in
`jobsCond` as long as no wake-up is pending for it.

`Mem` holds the queue, the fields of the workers' records, which of these records have been freed, and the
history of the run: the jobs added and the jobs taken, in the order of the mutex. -/

namespace PoolStudy.Workqueue.Model

open PoolStudy.Lib.Transition PoolStudy.Lib.Threads

/-! ### Linked lists -/

/-- The fields `prev` and `next`. -/
structure Links (α : Type) where
  prev : Option α
  next : Option α
  deriving DecidableEq

/-- The links of all items, and the variable `list` that points to the first. -/
structure LList (α : Type) where
  links : α → Links α
  list : Option α

namespace LList

variable {α : Type} [DecidableEq α] (l : LList α)

/-- `item->prev = p`. -/
def setPrev (item : α) (p : Option α) : LList α :=
  { l with links := Function.update l.links item { l.links item with prev := p } }

/-- `item->next = p`. -/
def setNext (item : α) (p : Option α) : LList α :=
  { l with links := Function.update l.links item { l.links item with next := p } }

/-- **`LL_ADD(item, list)`.** -/
def llAdd (item : α) : LList α :=
  let l := l.setPrev item none
  let l := l.setNext item l.list
  { l with list := some item }

/-- **`LL_REMOVE(item, list)`.** -/
def llRemove (item : α) : LList α :=
  let l := match (l.links item).prev with
    | some p => l.setNext p (l.links item).next
    | none => l
  let l := match (l.links item).next with
    | some q => l.setPrev q (l.links item).prev
    | none => l
  let l := if l.list = some item then { l with list := (l.links item).next } else l
  (l.setNext item none).setPrev item none

end LList

/-! ### Data -/

/-- The threads: the workers, and all others. -/
abbrev Tid (n : ℕ) := Fin n ⊕ ℕ

/-- `workqueue_t`. A worker stands for its `worker_t`. -/
structure Queue (n : ℕ) (J : Type) where
  workers : LList (Fin n)
  waitingJobs : LList J
  jobsMutex : Option (Tid n)
  jobsCond : Finset (Fin n)

/-- The queue, the workers' records, and the history. -/
structure Mem (n : ℕ) (J : Type) where
  queue : Queue n J
  terminate : Fin n → Bool
  freed : Finset (Fin n)
  added : List J
  taken : List J

/-- The calls of the library. -/
inductive Api (J : Type)
  | addJob (job : J)
  | shutdown
  deriving DecidableEq

/-- What a step leaves open: the call to make, and the waiters a signal wakes. -/
structure Input (n : ℕ) (J : Type) where
  call : Option (Api J) := none
  wake : Finset (Fin n) := ∅

/-- Where a thread is in a call of the library. -/
inductive Call (n : ℕ) (J : Type)
  | outside
  | addLock (job : J)
  | addIn (job : J)
  | addUnlock
  | head
  | mark (worker : Fin n)
  | next (worker : Fin n)
  | shutLock
  | shutIn
  | shutUnlock
  deriving DecidableEq

/-- Where a worker is in `worker_function`. -/
inductive Worker (n : ℕ) (J : Type)
  | lock
  | whileTest
  | whileTerminate
  | wait
  | blocked
  | terminate
  | take
  | unlock (job : Option J)
  | run (job : J) (c : Call n J)
  | free
  | exit
  | exited
  deriving DecidableEq

variable {n : ℕ} {J : Type} [DecidableEq J]

/-! ### Calls of the library -/

omit [DecidableEq J] in
/-- `pthread_mutex_lock(&workqueue->jobs_mutex)`. -/
def Mem.lock (m : Mem n J) (self : Tid n) : Option (Mem n J) :=
  if m.queue.jobsMutex = none then
    some { m with queue := { m.queue with jobsMutex := some self } }
  else none

omit [DecidableEq J] in
/-- `pthread_mutex_unlock(&workqueue->jobs_mutex)`. -/
def Mem.unlock (m : Mem n J) : Mem n J := { m with queue := { m.queue with jobsMutex := none } }

/-- **`workqueue_add_job`** between lock and unlock. -/
def addSection (m : Mem n J) (x : Input n J) (job : J) : Option (Mem n J) :=
  (signal x.wake m.queue.jobsCond).map fun ws =>
    { m with
      queue := { m.queue with waitingJobs := m.queue.waitingJobs.llAdd job, jobsCond := ws }
      added := m.added ++ [job] }

omit [DecidableEq J] in
/-- **`workqueue_shutdown`** between lock and unlock. -/
def shutdownSection (m : Mem n J) : Mem n J :=
  { m with
    queue := { m.queue with
      workers := { m.queue.workers with list := none }
      waitingJobs := { m.queue.waitingJobs with list := none }
      jobsCond := ∅ } }

omit [DecidableEq J] in
/-- The loop of `workqueue_shutdown` at the pointer `worker`. -/
def atWorker : Option (Fin n) → Call n J
  | some w => .mark w
  | none => .shutLock

/-- **The calls of the library** by the thread `self`. A freed record can be neither written nor read. -/
def callStep (self : Tid n) (x : Input n J) (m : Mem n J) : Call n J → Option (Mem n J × Call n J)
  | .outside =>
    match x.call with
    | none => none
    | some (.addJob job) => some (m, .addLock job)
    | some .shutdown => some (m, .head)
  | .addLock job => (m.lock self).map fun m' => (m', .addIn job)
  | .addIn job => (addSection m x job).map fun m' => (m', .addUnlock)
  | .addUnlock => some (m.unlock, .outside)
  | .head => some (m, atWorker m.queue.workers.list)
  | .mark w =>
    if w ∈ m.freed then none
    else some ({ m with terminate := Function.update m.terminate w true }, .next w)
  | .next w => if w ∈ m.freed then none else some (m, atWorker (m.queue.workers.links w).next)
  | .shutLock => (m.lock self).map fun m' => (m', .shutIn)
  | .shutIn => some (shutdownSection m, .shutUnlock)
  | .shutUnlock => some (m.unlock, .outside)

/-! ### Workers -/

/-- The job at the head of the list, removed from it. -/
def Mem.takeJob (m : Mem n J) : Mem n J × Option J :=
  match m.queue.waitingJobs.list with
  | some job =>
    ({ m with
        queue := { m.queue with waitingJobs := m.queue.waitingJobs.llRemove job }
        taken := m.taken ++ [job] }, some job)
  | none => (m, none)

/-- **`worker_function`**: the worker `i`. A running job may call the library. -/
def workerStep (i : Fin n) (x : Input n J) (m : Mem n J) : Worker n J → Option (Mem n J × Worker n J)
  | .lock => (m.lock (.inl i)).map fun m' => (m', .whileTest)
  | .whileTest => some (m, if m.queue.waitingJobs.list = none then .whileTerminate else .terminate)
  | .whileTerminate => some (m, if m.terminate i then .terminate else .wait)
  | .wait =>
    some ({ m with queue := { m.queue with
      jobsMutex := none, jobsCond := insert i m.queue.jobsCond } }, .blocked)
  | .blocked =>
    -- a waiter may wake up for no reason; a woken one takes the mutex again and tests again
    if i ∈ m.queue.jobsCond then
      some ({ m with queue := { m.queue with jobsCond := m.queue.jobsCond.erase i } }, .blocked)
    else (m.lock (.inl i)).map fun m' => (m', .whileTest)
  | .terminate => some (m, if m.terminate i then .free else .take)
  | .take => some (m.takeJob.1, .unlock m.takeJob.2)
  | .unlock job =>
    some (m.unlock, match job with
      | some j => .run j .outside
      | none => .lock)
  | .run job c =>
    if c = .outside ∧ x.call = none then some (m, .lock)
    else (callStep (.inl i) x m c).map fun r => (r.1, .run job r.2)
  -- both `break`s leave the loop with the mutex locked
  | .free => some ({ m with freed := insert i m.freed }, .exit)
  | .exit => some (m, .exited)
  | .exited => none

/-! ### The system -/

/-- The number of workers `workqueue_init` starts. -/
def workerCount (numWorkers : ℤ) : ℕ := (if numWorkers < 1 then 1 else numWorkers).toNat

omit [DecidableEq J] in
/-- **`workqueue_init`**: every worker is added to the list as it is started. The links of the jobs to come
are whatever they are. -/
def workqueueInit (n : ℕ) (links : J → Links J) : Mem n J where
  queue :=
    { workers := (List.finRange n).foldl LList.llAdd ⟨fun _ => ⟨none, none⟩, none⟩
      waitingJobs := ⟨links, none⟩
      jobsMutex := none
      jobsCond := ∅ }
  terminate := fun _ => false
  freed := ∅
  added := []
  taken := []

/-- A configuration of the work queue. -/
abbrev State (n : ℕ) (J : Type) := Config (Fin n) ℕ (Mem n J) (Worker n J) (Call n J)

/-- **The work queue with its workers and clients.** -/
def workqueue (n : ℕ) (J : Type) [DecidableEq J] :
    Program (Fin n) ℕ (Mem n J) (Worker n J) (Call n J) (Input n J) where
  init c := ∃ links : J → Links J, c = ⟨workqueueInit n links, fun _ => .lock, fun _ => .outside⟩
  workerStep := workerStep
  clientStep k := callStep (.inr k)

end PoolStudy.Workqueue.Model
