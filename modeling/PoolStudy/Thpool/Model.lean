import PoolStudy.Lib.IntCounter
import PoolStudy.Lib.Threads

/-! # The linked-queue pool: data and steps

The pool of `thpool.c`: a linked job queue behind `rwmutex`, the binary semaphore `has_jobs` with a
mutex of its own, two counters behind `thcount_lock` that other threads read without it, `n` detached
workers running `thread_do`, and any number of clients (`κ`). A running job may call `thpool_add_work`.

Every statement of `thread_do`, `jobqueue_push` and `jobqueue_pull`, and every read of a shared variable
in `thpool_wait` and `thpool_destroy`, is a step. Taking a mutex is a step; `bsem_post`, `bsem_post_all`
and `bsem_wait` are the taking of the mutex and, as one step, what follows until it is given back. The
call `free(jobqueue_pull(..))` of `jobqueue_clear` is one step, the statements of `jobqueue_pull` in a row
(`pullRun`): the workers have left by then. A signal of `thpool_pause` is pending until it is delivered,
between any two steps of the worker; inside `thread_hold` the worker does nothing else.

Left open by a step, and so part of the action (`Input`): the call a thread makes, the waiters a signal
on the condition variable wakes, whether `malloc` succeeds, whether a loop's time is up, and the delivery
of a signal. `len` is an `int` of 32 bits; the other two counters never exceed `n`. A pointer stands for one
allocation, and there is memory for fewer than `2 ^ 31` nodes that have been made and not been pulled
(`Pool.hasRoom`): beyond that `malloc` fails.

`Pool` also holds the history of the run: the nodes pushed and pulled, the jobs whose function was
called and by whom, those whose function has returned, those whose `thpool_add_work` has returned, the
nodes freed and by whom (`none`: `jobqueue_clear`), and, for every `thpool_wait` that has returned, the
jobs that had been added when it was called. -/

namespace PoolStudy.Thpool.Model

open PoolStudy.Lib.Transition PoolStudy.Lib.Threads PoolStudy.Lib.IntCounter

/-- Addresses of job nodes; `NULL` is `none`. -/
abbrev Ptr := ℕ

/-- `struct job`. -/
structure Job (F A : Type) where
  prev : Option Ptr
  function : F
  arg : A

/-- The threads: the workers of the pool, and all others. -/
abbrev Tid (n : ℕ) (κ : Type) := Fin n ⊕ κ

/-- `struct bsem`. `cond` are the workers blocked on it with no wake-up pending. -/
structure Bsem (n : ℕ) (κ : Type) where
  mutex : Option (Tid n κ)
  cond : Finset (Fin n)
  v : ℤ

/-- Where the pool is in its life: `thpool_init` has not returned, the pool can be used,
`thpool_destroy` was called, it has returned. -/
inductive Stage
  | starting
  | ready
  | closing
  | gone
  deriving DecidableEq

/-- `struct thpool_` with its `struct jobqueue`, the job nodes, the pending signals, and the history. -/
structure Pool (n : ℕ) (κ F A : Type) where
  numThreadsAlive : ℤ
  numThreadsWorking : ℤ
  thcountLock : Option (Tid n κ)
  rwmutex : Option (Tid n κ)
  front : Option Ptr
  rear : Option Ptr
  hasJobs : Bsem n κ
  len : ℤ
  heap : Ptr → Job F A
  next : Ptr
  signals : Finset (Fin n)
  stage : Stage
  freeing : Bool
  pushed : List Ptr
  pulled : List Ptr
  executed : List (Ptr × Fin n)
  finished : List Ptr
  added : List Ptr
  freed : List (Ptr × Option (Fin n))
  waited : List (List Ptr)

/-- The file-level variables `threads_keepalive` and `threads_on_hold`. -/
structure Flags where
  threadsKeepalive : Bool
  threadsOnHold : Bool
  deriving DecidableEq

/-- What the threads share. -/
structure Mem (n : ℕ) (κ F A : Type) where
  flags : Flags
  pool : Pool n κ F A

/-- The calls of the library on a pool. -/
inductive Api (F A : Type)
  | addWork (function : F) (arg : A)
  | wait
  | destroy
  | pause
  | resume
  deriving DecidableEq

/-- What a step leaves open. -/
structure Input (n : ℕ) (F A : Type) where
  call : Option (Api F A) := none
  wake : Finset (Fin n) := ∅
  mallocOk : Bool := true
  timeout : Bool := false
  deliver : Bool := false

/-- Where a thread is in `jobqueue_push`. -/
inductive Push
  | prev
  | switch
  | front
  | rear
  | rearPrev
  | rearNew
  | inc
  | postLock
  | post
  | ret
  deriving DecidableEq

/-- Where a thread is in `jobqueue_pull`, with `job_p` once it is set. -/
inductive Pull
  | front
  | switch (j : Option Ptr)
  | front1 (j : Option Ptr)
  | rear1 (j : Option Ptr)
  | frontPrev (j : Option Ptr)
  | dec (j : Option Ptr)
  | ifLen (j : Option Ptr)
  | postLock (j : Option Ptr)
  | post (j : Option Ptr)
  | ret (j : Option Ptr)
  deriving DecidableEq

/-- Where a thread is in `thpool_add_work`, with `newjob`. -/
inductive Add
  | lock (j : Ptr)
  | push (j : Ptr) (s : Push)
  deriving DecidableEq

/-- Where a worker is in `thread_do`. -/
inductive Pos (F A : Type)
  | aliveLock
  | aliveInc
  | aliveUnlock
  | loop
  | semLock
  | semTest
  | semBlocked
  | keep
  | workLock
  | workInc
  | workUnlock
  | pullLock
  | pull (q : Pull)
  | ifJob (j : Option Ptr)
  | func (j : Ptr)
  | arg (j : Ptr) (f : F)
  | call (j : Ptr) (f : F) (a : A)
  | run (j : Ptr) (f : F) (a : A) (c : Option Add)
  | free (j : Ptr)
  | doneLock
  | doneDec
  | doneUnlock
  | exitLock
  | exitDec
  | exitUnlock
  | exited

/-- Where a worker is in the signal handler `thread_hold`. -/
inductive Hold
  | off
  | set
  | loop
  deriving DecidableEq

/-- A worker: its place in `thread_do`, and in the handler if it was interrupted. -/
structure Worker (F A : Type) where
  pos : Pos F A
  hold : Hold

/-- The three loops of `thpool_wait`. -/
inductive Loop
  | continuous
  | exponential
  | maxPolling
  deriving DecidableEq

/-- Where a thread is in `thpool_destroy`, with the helpers it calls. -/
inductive Destroy
  | keepalive
  | poll (timed : Bool)
  | postAllLock (timed : Bool)
  | postAll (timed : Bool)
  | clearTest
  | clearPull
  | clearFront
  | clearRear
  | clearSem
  | clearLen
  | freeSem
  | freeQueue
  | freeThread (k : ℤ)
  | freeThreads
  | freePool
  deriving DecidableEq

/-- Where a client is in a call of the library. A `thpool_wait` remembers the jobs added before it. -/
inductive Call
  | outside
  | initSpin
  | add (a : Add)
  | waitLen (l : Loop) (must : List Ptr)
  | waitWorking (l : Loop) (must : List Ptr)
  | destroy (total : ℤ) (d : Destroy)
  | pause (k : ℕ)
  deriving DecidableEq

variable {n : ℕ} {κ F A : Type}

/-! ### The binary semaphore -/

/-- `bsem_init` and `bsem_reset`. -/
def Bsem.init (value : ℤ) : Bsem n κ := ⟨none, ∅, value⟩

/-- The `pthread_mutex_lock` of the semaphore. -/
def Pool.lockSem (p : Pool n κ F A) (self : Tid n κ) : Option (Pool n κ F A) :=
  if p.hasJobs.mutex = none then some { p with hasJobs := { p.hasJobs with mutex := some self } }
  else none

/-- **`bsem_post`** up to its unlock. -/
def Pool.bsemPost (p : Pool n κ F A) (x : Input n F A) : Option (Pool n κ F A) :=
  (signal x.wake p.hasJobs.cond).map fun ws =>
    { p with hasJobs := { mutex := none, cond := ws, v := 1 } }

/-- `bsem_post_all` up to its unlock. -/
def Pool.bsemPostAll (p : Pool n κ F A) : Pool n κ F A :=
  { p with hasJobs := { mutex := none, cond := ∅, v := 1 } }

/-! ### The job queue -/

/-- **`jobqueue_push`** of the node `j`. -/
def pushStep (self : Tid n κ) (x : Input n F A) (p : Pool n κ F A) (j : Ptr) :
    Push → Option (Pool n κ F A × Push)
  | .prev => some ({ p with heap := Function.update p.heap j { p.heap j with prev := none } }, .switch)
  | .switch => some (p, if p.len = 0 then .front else .rearPrev)
  | .front => some ({ p with front := some j }, .rear)
  | .rear => some ({ p with rear := some j }, .inc)
  | .rearPrev =>
    match p.rear with
    | some r =>
      some ({ p with heap := Function.update p.heap r { p.heap r with prev := some j } }, .rearNew)
    | none => none
  | .rearNew => some ({ p with rear := some j }, .inc)
  | .inc => some ({ p with len := wrap (p.len + 1), pushed := p.pushed ++ [j] }, .postLock)
  | .postLock => (p.lockSem self).map fun p' => (p', .post)
  | .post => (p.bsemPost x).map fun p' => (p', .ret)
  | .ret => none

/-- **`jobqueue_pull`.** -/
def pullStep (self : Tid n κ) (x : Input n F A) (p : Pool n κ F A) :
    Pull → Option (Pool n κ F A × Pull)
  | .front => some (p, .switch p.front)
  | .switch j =>
    some (p, if p.len = 0 then .ret none else if p.len = 1 then .front1 j else .frontPrev j)
  | .front1 j => some ({ p with front := none }, .rear1 j)
  | .rear1 j => some ({ p with rear := none }, .dec j)
  | .frontPrev j =>
    match j with
    | some r => some ({ p with front := (p.heap r).prev }, .dec j)
    | none => none
  | .dec j => some ({ p with len := wrap (p.len - 1), pulled := p.pulled ++ j.toList }, .ifLen j)
  | .ifLen j => some (p, if 0 < p.len then .postLock j else .ret j)
  | .postLock j => (p.lockSem self).map fun p' => (p', .post j)
  | .post j => (p.bsemPost x).map fun p' => (p', .ret j)
  | .ret _ => none

/-- The statements of `jobqueue_pull` in a row, and what it returns. -/
def pullRun (self : Tid n κ) (x : Input n F A) :
    ℕ → Pool n κ F A → Pull → Option (Pool n κ F A × Option Ptr)
  | 0, _, _ => none
  | k + 1, p, q =>
    match q with
    | .ret j => some (p, j)
    | q => (pullStep self x p q).bind fun r => pullRun self x k r.1 r.2

/-! ### Calls of the library -/

/-- There is memory for one node more. -/
def Pool.hasRoom (p : Pool n κ F A) : Prop := HasRoom p.next p.pulled.length

instance (p : Pool n κ F A) : Decidable p.hasRoom := inferInstanceAs (Decidable (HasRoom _ _))

/-- What `malloc` does. -/
def mallocs (x : Input n F A) (p : Pool n κ F A) : Bool := x.mallocOk && decide p.hasRoom

/-- **`thpool_add_work`** up to the lock: the node is made and filled; `none` if there is no memory. -/
def addWork (x : Input n F A) (p : Pool n κ F A) (f : F) (a : A) : Pool n κ F A × Option Add :=
  if mallocs x p then
    ({ p with
        heap := Function.update p.heap p.next { p.heap p.next with function := f, arg := a }
        next := p.next + 1 }, some (.lock p.next))
  else (p, none)

/-- `thpool_add_work` from the lock on; `none` when it has returned. -/
def addStep (self : Tid n κ) (x : Input n F A) (p : Pool n κ F A) :
    Add → Option (Pool n κ F A × Option Add)
  | .lock j =>
    if p.rwmutex = none then some ({ p with rwmutex := some self }, some (.push j .prev)) else none
  | .push j s =>
    if s = .ret then some ({ p with rwmutex := none, added := p.added ++ [j] }, none)
    else (pushStep self x p j s).map fun r => (r.1, some (.push j r.2))

/-- The loop that follows when a test of `thpool_wait` found work: exponential polling gives up in the
end. -/
def again (x : Input n F A) : Loop → Loop
  | .continuous => .continuous
  | .exponential => if x.timeout then .maxPolling else .exponential
  | .maxPolling => .maxPolling

/-- **`thpool_wait`** at a read of `len`; the first loop looks at the clock before it. -/
def waitLen (x : Input n F A) (p : Pool n κ F A) (l : Loop) (must : List Ptr) : Call :=
  if l = .continuous ∧ x.timeout then .waitLen .exponential must
  else if p.len ≠ 0 then .waitLen (again x l) must
  else .waitWorking l must

/-- `thpool_wait` at a read of `num_threads_working`, `len` having been read as `0`. -/
def waitWorking (x : Input n F A) (p : Pool n κ F A) (l : Loop) (must : List Ptr) :
    Pool n κ F A × Call :=
  if p.numThreadsWorking ≠ 0 then (p, .waitLen (again x l) must)
  else
    match l with
    | .continuous => (p, .waitLen .exponential must)
    | .exponential => (p, .waitLen .maxPolling must)
    | .maxPolling => ({ p with waited := p.waited ++ [must] }, .outside)

/-- **`thpool_destroy`** after its first line; `none` when it has returned. -/
def destroyStep (self : Tid n κ) (x : Input n F A) (m : Mem n κ F A) (total : ℤ) :
    Destroy → Option (Mem n κ F A × Option Destroy)
  | .keepalive => some ({ m with flags := { m.flags with threadsKeepalive := false } }, some (.poll true))
  | .poll timed =>
    if timed ∧ x.timeout then some (m, some (.poll false))
    else if m.pool.numThreadsAlive ≠ 0 then some (m, some (.postAllLock timed))
    else some (m, some (if timed then .poll false else .clearTest))
  | .postAllLock timed =>
    (m.pool.lockSem self).map fun p => ({ m with pool := p }, some (.postAll timed))
  | .postAll timed => some ({ m with pool := m.pool.bsemPostAll }, some (.poll timed))
  | .clearTest => some (m, some (if m.pool.len ≠ 0 then .clearPull else .clearFront))
  | .clearPull =>
    (pullRun self x 10 m.pool .front).map fun r =>
      ({ m with pool := { r.1 with
          freed := r.1.freed ++ r.2.toList.map fun j => (j, none)
          freeing := true } }, some .clearTest)
  | .clearFront => some ({ m with pool := { m.pool with front := none } }, some .clearRear)
  | .clearRear => some ({ m with pool := { m.pool with rear := none } }, some .clearSem)
  | .clearSem => some ({ m with pool := { m.pool with hasJobs := Bsem.init 0 } }, some .clearLen)
  | .clearLen => some ({ m with pool := { m.pool with len := 0 } }, some .freeSem)
  | .freeSem => some ({ m with pool := { m.pool with freeing := true } }, some .freeQueue)
  | .freeQueue => some (m, some (.freeThread 0))
  | .freeThread k => some (m, some (if k < total then .freeThread (k + 1) else .freeThreads))
  | .freeThreads => some (m, some .freePool)
  | .freePool => some ({ m with pool := { m.pool with stage := .gone } }, none)

/-- `thpool_pause` at its `k`-th thread. -/
def pauseStep (p : Pool n κ F A) (k : ℕ) : Option (Pool n κ F A × Call) :=
  if k < p.numThreadsAlive then
    if h : k < n then some ({ p with signals := insert ⟨k, h⟩ p.signals }, .pause (k + 1)) else none
  else some (p, .outside)

/-- A client makes a call. -/
def enter (x : Input n F A) (m : Mem n κ F A) : Api F A → Mem n κ F A × Call
  | .addWork f a =>
    match addWork x m.pool f a with
    | (p, some c) => ({ m with pool := p }, .add c)
    | (p, none) => ({ m with pool := p }, .outside)
  | .wait => (m, .waitLen .continuous m.pool.added)
  | .destroy =>
    ({ m with pool := { m.pool with stage := .closing } }, .destroy m.pool.numThreadsAlive .keepalive)
  | .pause => (m, .pause 0)
  | .resume => ({ m with flags := { m.flags with threadsOnHold := false } }, .outside)

/-- **The calls of the library** by the client `k`. A pool is used from the return of `thpool_init` to
the call of `thpool_destroy`. -/
def callStep (k : κ) (x : Input n F A) (m : Mem n κ F A) : Call → Option (Mem n κ F A × Call)
  | .outside =>
    match x.call with
    | none => none
    | some api => if m.pool.stage = .ready then some (enter x m api) else none
  | .initSpin =>
    if m.pool.numThreadsAlive = n then
      some ({ m with pool := { m.pool with stage := .ready } }, .outside)
    else none
  | .add c =>
    (addStep (.inr k) x m.pool c).map fun r =>
      ({ m with pool := r.1 }, match r.2 with
        | some c' => .add c'
        | none => .outside)
  | .waitLen l must => some (m, waitLen x m.pool l must)
  | .waitWorking l must =>
    let r := waitWorking x m.pool l must
    some ({ m with pool := r.1 }, r.2)
  | .destroy total d =>
    (destroyStep (.inr k) x m total d).map fun r =>
      (r.1, match r.2 with
        | some d' => .destroy total d'
        | none => .outside)
  | .pause j => (pauseStep m.pool j).map fun r => ({ m with pool := r.1 }, r.2)

/-! ### Workers -/

/-- `pthread_mutex_lock(&thpool_p->thcount_lock)`. -/
def Pool.lockCount (p : Pool n κ F A) (self : Tid n κ) : Option (Pool n κ F A) :=
  if p.thcountLock = none then some { p with thcountLock := some self } else none

/-- `pthread_mutex_unlock(&thpool_p->thcount_lock)`. -/
def Pool.unlockCount (p : Pool n κ F A) : Pool n κ F A := { p with thcountLock := none }

/-- The function of a job: it may call `thpool_add_work` again and again before it returns. -/
def runStep (i : Fin n) (x : Input n F A) (p : Pool n κ F A) (j : Ptr) (f : F) (a : A) :
    Option Add → Option (Pool n κ F A × Pos F A)
  | some c => (addStep (.inl i) x p c).map fun r => (r.1, .run j f a r.2)
  | none =>
    match x.call with
    | none => some ({ p with finished := p.finished ++ [j] }, .free j)
    | some (.addWork f' a') =>
      let r := addWork x p f' a'
      some (r.1, .run j f a r.2)
    | some _ => none

/-- **`thread_do`.** -/
def threadDo (i : Fin n) (x : Input n F A) (fl : Flags) (p : Pool n κ F A) :
    Pos F A → Option (Pool n κ F A × Pos F A)
  | .aliveLock => (p.lockCount (.inl i)).map fun p' => (p', .aliveInc)
  | .aliveInc => some ({ p with numThreadsAlive := p.numThreadsAlive + 1 }, .aliveUnlock)
  | .aliveUnlock => some (p.unlockCount, .loop)
  | .loop => some (p, if fl.threadsKeepalive then .semLock else .exitLock)
  | .semLock => (p.lockSem (.inl i)).map fun p' => (p', .semTest)
  | .semTest =>
    if p.hasJobs.v ≠ 1 then
      some ({ p with hasJobs := { p.hasJobs with mutex := none, cond := insert i p.hasJobs.cond } },
        .semBlocked)
    else some ({ p with hasJobs := { p.hasJobs with mutex := none, v := 0 } }, .keep)
  | .semBlocked =>
    -- a waiter may wake up for no reason; a woken one takes the mutex again and tests again
    if i ∈ p.hasJobs.cond then
      some ({ p with hasJobs := { p.hasJobs with cond := p.hasJobs.cond.erase i } }, .semBlocked)
    else (p.lockSem (.inl i)).map fun p' => (p', .semTest)
  | .keep => some (p, if fl.threadsKeepalive then .workLock else .loop)
  | .workLock => (p.lockCount (.inl i)).map fun p' => (p', .workInc)
  | .workInc => some ({ p with numThreadsWorking := p.numThreadsWorking + 1 }, .workUnlock)
  | .workUnlock => some (p.unlockCount, .pullLock)
  | .pullLock => if p.rwmutex = none then some ({ p with rwmutex := some (.inl i) }, .pull .front) else none
  | .pull q =>
    match q with
    | .ret j => some ({ p with rwmutex := none }, .ifJob j)
    | q => (pullStep (.inl i) x p q).map fun r => (r.1, .pull r.2)
  | .ifJob j =>
    match j with
    | some j => some (p, .func j)
    | none => some (p, .doneLock)
  | .func j => some (p, .arg j (p.heap j).function)
  | .arg j f => some (p, .call j f (p.heap j).arg)
  | .call j f a => some ({ p with executed := p.executed ++ [(j, i)] }, .run j f a none)
  | .run j f a c => runStep i x p j f a c
  | .free j => some ({ p with freed := p.freed ++ [(j, some i)] }, .doneLock)
  | .doneLock => (p.lockCount (.inl i)).map fun p' => (p', .doneDec)
  | .doneDec => some ({ p with numThreadsWorking := p.numThreadsWorking - 1 }, .doneUnlock)
  | .doneUnlock => some (p.unlockCount, .loop)
  | .exitLock => (p.lockCount (.inl i)).map fun p' => (p', .exitDec)
  | .exitDec => some ({ p with numThreadsAlive := p.numThreadsAlive - 1 }, .exitUnlock)
  | .exitUnlock => some (p.unlockCount, .exited)
  | .exited => none

/-- A worker with its signal handler: `thread_hold` sets `threads_on_hold` and loops until it is `0`. -/
def workerStep (i : Fin n) (x : Input n F A) (m : Mem n κ F A) (w : Worker F A) :
    Option (Mem n κ F A × Worker F A) :=
  match w.hold with
  | .off =>
    if x.deliver then
      if i ∈ m.pool.signals then
        some ({ m with pool := { m.pool with signals := m.pool.signals.erase i } }, { w with hold := .set })
      else none
    else
      (threadDo i x m.flags m.pool w.pos).map fun r =>
        ({ m with pool := r.1 }, { w with pos := r.2 })
  | .set => some ({ m with flags := { m.flags with threadsOnHold := true } }, { w with hold := .loop })
  | .loop => some (m, if m.flags.threadsOnHold then w else { w with hold := .off })

/-! ### The system -/

/-- The pool `thpool_init` has made when all threads are created: nothing has happened yet. The memory of
the nodes is arbitrary. -/
def Pool.created (n : ℕ) (κ : Type) {F A : Type} (heap : Ptr → Job F A) : Pool n κ F A where
  numThreadsAlive := 0
  numThreadsWorking := 0
  thcountLock := none
  rwmutex := none
  front := none
  rear := none
  hasJobs := Bsem.init 0
  len := 0
  heap := heap
  next := 0
  signals := ∅
  stage := .starting
  freeing := false
  pushed := []
  pulled := []
  executed := []
  finished := []
  added := []
  freed := []
  waited := []

/-- A configuration of the pool. -/
abbrev State (n : ℕ) (κ F A : Type) := Config (Fin n) κ (Mem n κ F A) (Worker F A) Call

/-- A worker that has just been created. -/
def Worker.created : Worker F A := ⟨.aliveLock, .off⟩

/-- The clients while `k0` is in `thpool_init`. -/
def initClients [DecidableEq κ] (k0 k : κ) : Call := if k = k0 then .initSpin else .outside

theorem initClients_cases [DecidableEq κ] (k0 k : κ) :
    (k = k0 ∧ initClients k0 k = .initSpin) ∨ (k ≠ k0 ∧ initClients k0 k = .outside) := by
  unfold initClients
  split_ifs with h
  · exact Or.inl ⟨h, rfl⟩
  · exact Or.inr ⟨h, rfl⟩

/-- At the start a client is in `thpool_init` or outside. -/
theorem initClients_forall [DecidableEq κ] {P : Call → Prop} (h1 : P .initSpin) (h2 : P .outside)
    (k0 k : κ) : P (initClients k0 k) := by
  rcases initClients_cases k0 k with ⟨-, h⟩ | ⟨-, h⟩
  · rw [h]; exact h1
  · rw [h]; exact h2

/-- **The pool with its workers and clients.** One client waits in `thpool_init` for the workers to come
alive. -/
def thpool (n : ℕ) (κ F A : Type) [DecidableEq κ] :
    Program (Fin n) κ (Mem n κ F A) (Worker F A) Call (Input n F A) where
  init c := ∃ (heap : Ptr → Job F A) (k0 : κ), c =
    ⟨⟨⟨true, false⟩, Pool.created n κ heap⟩, fun _ => Worker.created, initClients k0⟩
  workerStep := workerStep
  clientStep := callStep

/-- **One final `thpool_destroy`**: it is called when no other client is in a call. -/
def finalDestroy (c : State n κ F A) (a : Tid n κ × Input n F A) : Prop :=
  ∀ k, a.1 = .inr k → c.client k = .outside → a.2.call = some .destroy → ∀ k', c.client k' = .outside

/-- With one client every `thpool_destroy` is final. -/
theorem finalDestroy_unit (c : State n Unit F A) (a : Tid n Unit × Input n F A)
    (_ : anyTest c a = true) : finalDestroy c a :=
  fun _ _ hk _ _ => hk

/-- Steps of the threads `ts` in turn that leave nothing open. -/
def plainSteps (ts : List (Tid n κ)) : List (Tid n κ × Input n F A) := ts.map fun t => (t, {})

end PoolStudy.Thpool.Model
