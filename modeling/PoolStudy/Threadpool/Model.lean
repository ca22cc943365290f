import PoolStudy.Lib.Threads
import PoolStudy.Lib.Ring

/-! # The ring-buffer pool: data and steps

The pool of `threadpool.c`: a circular array of tasks, one mutex, one condition variable, `n` workers
running `threadpool_thread`, and any number of other threads calling `threadpool_add` and
`threadpool_destroy`. A running task may call them too.

Taking the mutex is a step of its own; what a thread then does up to the point where it gives the mutex
back (or returns without doing so) is one step. The results of the pthread calls that the code tests
are part of the action (`Input`), and so are the call a thread makes and the waiters a signal wakes;
`pthreadOk` are the steps in which the calls succeed. A thread blocked in `pthread_cond_wait` is at
`Worker.wait`; it is in `notify` as long as no wake-up is pending for it.

`Mem` holds the pool, what the kernel knows (which threads have ended, whether the pool was freed) and
the history of the run: the calls of `threadpool_add` in the order in which they held the mutex, with
what they returned, the tasks dequeued, the tasks completed, and the calls of `threadpool_destroy` that
have returned, with their flags and what they returned. -/

namespace PoolStudy.Threadpool.Model

open PoolStudy.Lib.Transition PoolStudy.Lib.Threads PoolStudy.Lib.Ring

/-- `threadpool_error_t`. -/
inductive ThreadpoolError
  | invalid
  | lockFailure
  | queueFull
  | shutdown
  | threadFailure
  deriving DecidableEq

/-- What a call returns; `none` is `0`. -/
abbrev Ret := Option ThreadpoolError

/-- `threadpool_shutdown_t`. -/
inductive Shutdown
  | immediateShutdown
  | gracefulShutdown
  deriving DecidableEq

/-- `threadpool_graceful`. -/
def threadpoolGraceful : BitVec 32 := 1#32

/-- `threadpool_task_t`. -/
structure Task (F A : Type) where
  function : F
  argument : A
  deriving DecidableEq

/-- The threads: the workers of the pool, and all others. -/
abbrev Tid (n : ℕ) := Fin n ⊕ ℕ

/-- `struct threadpool_t`. `thread_count` is the length of `threads`; `shutdown` is `none` for `0`. -/
structure Pool (n : ℕ) (F A : Type) where
  lock : Option (Tid n)
  notify : Finset (Fin n)
  threads : List (Fin n)
  queue : ℤ → Task F A
  queueSize : ℤ
  head : ℤ
  tail : ℤ
  count : ℤ
  shutdown : Option Shutdown
  started : ℤ

/-- The pool, what the kernel knows, and the history. -/
structure Mem (n : ℕ) (F A : Type) where
  pool : Pool n F A
  freed : Bool
  exited : Finset (Fin n)
  adds : List (Task F A × Ret)
  dequeued : List (Task F A)
  done : List (Task F A)
  destroys : List (BitVec 32 × Ret)

/-- The calls of the library; a function pointer may be `NULL`. -/
inductive Api (F A : Type)
  | add (function : Option F) (argument : A)
  | destroy (flags : BitVec 32)

/-- What a step leaves open: the call to make, the waiters a signal wakes, and whether
`pthread_mutex_lock`, `pthread_cond_signal` (or `broadcast`), `pthread_mutex_unlock` and `pthread_join`
succeed. -/
structure Input (n : ℕ) (F A : Type) where
  call : Option (Api F A) := none
  wake : Finset (Fin n) := ∅
  lockOk : Bool := true
  condOk : Bool := true
  unlockOk : Bool := true
  joinOk : Bool := true

/-- Where a thread is in a call of the library. -/
inductive Call (F A : Type)
  | outside
  | addLock (t : Task F A)
  | addIn (t : Task F A)
  | destroyLock (flags : BitVec 32)
  | destroyIn (flags : BitVec 32)
  | join (flags : BitVec 32) (i : ℕ) (err : Ret)
  | free (flags : BitVec 32) (err : Ret)

/-- Where a worker is in `threadpool_thread`. -/
inductive Worker (F A : Type)
  | lock
  | test
  | wait
  | run (t : Task F A) (c : Call F A)
  | exited

variable {n : ℕ} {F A : Type}

/-- `pthread_mutex_unlock` of the owner. -/
def Pool.unlock (p : Pool n F A) (x : Input n F A) : Pool n F A :=
  if x.unlockOk then { p with lock := none } else p

/-- The task written at the tail. -/
def Pool.push (p : Pool n F A) (t : Task F A) : Pool n F A :=
  { p with
    queue := Function.update p.queue p.tail t
    tail := wrap p.queueSize p.tail
    count := p.count + 1 }

/-- The task at the head removed. -/
def Pool.pop (p : Pool n F A) : Pool n F A :=
  { p with head := wrap p.queueSize p.head, count := p.count - 1 }

/-- **`threadpool_add` between lock and unlock**: the pool and `err`. -/
def addSection (p : Pool n F A) (t : Task F A) (x : Input n F A) : Option (Pool n F A × Ret) :=
  if p.count = p.queueSize then some (p, some .queueFull)
  else if p.shutdown.isSome then some (p, some .shutdown)
  else if x.condOk then
    (signal x.wake p.notify).map fun ws => ({ p.push t with notify := ws }, none)
  else some (p.push t, some .lockFailure)

/-- The value `threadpool_destroy` gives to `shutdown`. -/
def shutdownOf (flags : BitVec 32) : Shutdown :=
  if flags &&& threadpoolGraceful ≠ 0#32 then .gracefulShutdown else .immediateShutdown

/-- **`threadpool_free`**: the memory afterwards and whether the pool was released (`0`, else `-1`).
It locks the mutex before it destroys it. -/
def threadpoolFree (m : Mem n F A) : Option (Mem n F A × Bool) :=
  if 0 < m.pool.started then some (m, false)
  else if m.pool.lock = none then some ({ m with freed := true }, true)
  else none

/-- **The calls of the library**, by the thread `self`. Nothing can be called on a freed pool. -/
def callStep (self : Tid n) (x : Input n F A) (m : Mem n F A) (c : Call F A) :
    Option (Mem n F A × Call F A) :=
  if m.freed then none else
  match c with
  | .outside =>
    match x.call with
    | none => none
    | some (.add none _) => some (m, .outside)
    | some (.add (some f) a) => some (m, .addLock ⟨f, a⟩)
    | some (.destroy flags) => some (m, .destroyLock flags)
  | .addLock t =>
    if x.lockOk then
      if m.pool.lock = none then
        some ({ m with pool := { m.pool with lock := some self } }, .addIn t)
      else none
    else some ({ m with adds := m.adds ++ [(t, some .lockFailure)] }, .outside)
  | .addIn t =>
    (addSection m.pool t x).map fun r =>
      ({ m with
          pool := r.1.unlock x
          adds := m.adds ++ [(t, if x.unlockOk then r.2 else some .lockFailure)] }, .outside)
  | .destroyLock flags =>
    if x.lockOk then
      if m.pool.lock = none then
        some ({ m with pool := { m.pool with lock := some self } }, .destroyIn flags)
      else none
    else some ({ m with destroys := m.destroys ++ [(flags, some .lockFailure)] }, .outside)
  | .destroyIn flags =>
    if m.pool.shutdown.isSome then
      -- `break` leaves the block behind the unlock as well
      some ({ m with destroys := m.destroys ++ [(flags, some .shutdown)] }, .outside)
    else
      let p := { m.pool with shutdown := some (shutdownOf flags) }
      if x.condOk then
        if x.unlockOk then some ({ m with pool := { p with notify := ∅, lock := none } }, .join flags 0 none)
        else some ({ m with
          pool := { p with notify := ∅ }
          destroys := m.destroys ++ [(flags, some .lockFailure)] }, .outside)
      else some ({ m with pool := p, destroys := m.destroys ++ [(flags, some .lockFailure)] }, .outside)
  | .join flags i err =>
    match m.pool.threads[i]? with
    | none => some (m, .free flags err)
    | some w =>
      if x.joinOk then if w ∈ m.exited then some (m, .join flags (i + 1) err) else none
      else some (m, .join flags (i + 1) (some .threadFailure))
  | .free flags err =>
    match err with
    | some e => some ({ m with destroys := m.destroys ++ [(flags, some e)] }, .outside)
    | none =>
      (threadpoolFree m).map fun r =>
        ({ r.1 with destroys := r.1.destroys ++ [(flags, none)] }, .outside)

/-- The thread is not in a call. -/
def Call.isOutside : Call F A → Bool
  | .outside => true
  | _ => false

/-- **`threadpool_thread`**: the worker `i`. -/
def workerStep (i : Fin n) (x : Input n F A) (m : Mem n F A) :
    Worker F A → Option (Mem n F A × Worker F A)
  | .lock =>
    if m.pool.lock = none then
      some ({ m with pool := { m.pool with lock := some (.inl i) } }, .test)
    else none
  | .test =>
    let p := m.pool
    if p.count = 0 ∧ p.shutdown = none then
      some ({ m with pool := { p with lock := none, notify := insert i p.notify } }, .wait)
    else if p.shutdown = some .immediateShutdown ∨
        (p.shutdown = some .gracefulShutdown ∧ p.count = 0) then
      some ({ m with
        pool := { p with lock := none, started := p.started - 1 }
        exited := insert i m.exited }, .exited)
    else
      some ({ m with
        pool := { p.pop with lock := none }
        dequeued := m.dequeued ++ [p.queue p.head] }, .run (p.queue p.head) .outside)
  | .wait =>
    -- a waiter may wake up for no reason; a woken one takes the mutex again and tests again
    if i ∈ m.pool.notify then
      some ({ m with pool := { m.pool with notify := m.pool.notify.erase i } }, .wait)
    else if m.pool.lock = none then
      some ({ m with pool := { m.pool with lock := some (.inl i) } }, .test)
    else none
  | .run t c =>
    if c.isOutside ∧ x.call.isNone then some ({ m with done := m.done ++ [t] }, .lock)
    else (callStep (.inl i) x m c).map fun r => (r.1, .run t r.2)
  | .exited => none

/-- What `threadpool_create` leaves when all `n` threads were started. -/
def created (n : ℕ) (queueSize : ℤ) (queue : ℤ → Task F A) : Mem n F A where
  pool :=
    { lock := none, notify := ∅, threads := List.finRange n, queue := queue, queueSize := queueSize,
      head := 0, tail := 0, count := 0, shutdown := none, started := n }
  freed := false
  exited := ∅
  adds := []
  dequeued := []
  done := []
  destroys := []

/-- A configuration of the pool. -/
abbrev State (n : ℕ) (F A : Type) := Config (Fin n) ℕ (Mem n F A) (Worker F A) (Call F A)

/-- **The pool with its workers and clients.** -/
def threadpool (n : ℕ) (F A : Type) :
    Program (Fin n) ℕ (Mem n F A) (Worker F A) (Call F A) (Input n F A) where
  init c := ∃ (size : ℤ) (queue : ℤ → Task F A), 0 ≤ size ∧
    c = ⟨created n size queue, fun _ => .lock, fun _ => .outside⟩
  workerStep := workerStep
  clientStep k := callStep (.inr k)

/-- The pthread calls of the step succeed. -/
structure Input.Ok (x : Input n F A) : Prop where
  lock : x.lockOk = true
  cond : x.condOk = true
  unlock : x.unlockOk = true
  join : x.joinOk = true

instance (x : Input n F A) : Decidable x.Ok :=
  decidable_of_iff (x.lockOk = true ∧ x.condOk = true ∧ x.unlockOk = true ∧ x.joinOk = true)
    ⟨fun h => ⟨h.1, h.2.1, h.2.2.1, h.2.2.2⟩, fun h => ⟨h.lock, h.cond, h.unlock, h.join⟩⟩

/-- The steps in which the pthread calls succeed. -/
def pthreadOk (_ : State n F A) (a : Tid n × Input n F A) : Prop := a.2.Ok

/-- The test for such a step. -/
def okTest (_ : State n F A) (a : Tid n × Input n F A) : Bool := decide a.2.Ok

theorem pthreadOk_of_okTest (c : State n F A) (a : Tid n × Input n F A) (h : okTest c a = true) :
    pthreadOk c a := by
  simpa only [okTest, pthreadOk, decide_eq_true_eq] using h

/-- The tasks whose `threadpool_add` returned `0`, in the order of the mutex. -/
def Mem.accepted (m : Mem n F A) : List (Task F A) :=
  (m.adds.filter fun r => r.2.isNone).map Prod.fst

/-- The tasks waiting: `count` slots from `head` on, wrapping. -/
def Pool.pending (p : Pool n F A) : List (Task F A) :=
  slots p.queue p.queueSize p.head p.count.toNat

end PoolStudy.Threadpool.Model
