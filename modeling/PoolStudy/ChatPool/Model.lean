import PoolStudy.Lib.IntCounter
import PoolStudy.Lib.Threads

/-! # The pool of the chat server: data and steps

The pool of `server_epoll_pthread_pool.c`: a linked list of work items with a counter, one mutex, one
condition variable, and `n` workers running `threadRoutine`. The code that uses the pool is a parameter
(`Code`): the functions of the items and the code of all other threads, over a memory `σ` of their own. It
may call `poolAddWorker` and `poolDestroy` at any time, from an item too.

`poolAddWorker` holds the mutex while it walks the list; each step of the walk is a step here, and so are
the final part (the link, the assertion and `curQueueSize++`), the unlock and the signal. In
`threadRoutine` the two tests of `curQueueSize` and `shutdown`, the wait, and the removal of the first item
with its assertions are steps. `poolDestroy`, which takes no lock, is a step for every statement that
touches the pool. A failed assertion leads to `aborted`. A worker blocked in `pthread_cond_wait` is at
`Worker.blocked`, and in `queueReady` as long as no wake-up is pending for it.

`curQueueSize` is an `int` of 32 bits. A pointer stands for one allocation, and there is memory for fewer than
`2 ^ 31` items that have been made and not been dequeued (`Mem.hasRoom`). As long as there is, `malloc`
succeeds; `poolAddWorker` does not test what it returns, and no step is taken behind a `malloc` that fails.

`Mem` keeps the history of the run: the items added and dequeued (in the order of the mutex), the items whose
`poolAddWorker` has returned, the items whose function has returned, those that the clean-up loop has freed,
and for every call of `poolDestroy` that has returned `0` what had been added and returned when it was made. -/

namespace PoolStudy.ChatPool.Model

open PoolStudy.Lib.Transition PoolStudy.Lib.Threads PoolStudy.Lib.IntCounter

/-- The threads: the workers of the pool, and all others. -/
abbrev Tid (n : ℕ) (κ : Type) := Fin n ⊕ κ

/-- A pointer to a work item. -/
abbrev Ptr := ℕ

/-! ### The code that uses the pool -/

/-- What the code outside the pool does: go on, call the pool (and go on there when the call has returned
`0`, or `-1`), or return. -/
inductive Act (ℓ A : Type)
  | goto (l : ℓ)
  | add (a : A) (l : ℓ)
  | destroy (ok failed : ℓ)
  | ret

/-- **The code that uses the pool**: where the threads and the items start, and their steps. `A` are the
pairs `process`, `arg`; an input `I` is whatever a step leaves open. -/
structure Code (n : ℕ) (κ σ ℓ A I : Type) where
  init : σ → Prop
  main : κ → ℓ
  process : A → ℓ
  step : Tid n κ → I → σ → ℓ → Option (σ × Act ℓ A)

/-! ### Data -/

/-- `CTHREADWORKER`. -/
structure Item (A : Type) where
  arg : A
  next : Option Ptr

/-- `CTHREADPOOL`. `maxThreadNum` is `n`; `threadid` is `false` once it has been freed. -/
structure Pool (n : ℕ) (κ : Type) where
  queueLock : Option (Tid n κ)
  queueReady : Finset (Fin n)
  queueHead : Option Ptr
  shutdown : Bool
  threadid : Bool
  curQueueSize : ℤ

/-- What a call of `poolDestroy` found: the items that had been added, and those whose `poolAddWorker` had
returned. -/
structure Before where
  added : List Ptr
  returned : List Ptr
  deriving DecidableEq

/-- The pool, the memory of the code that uses it, the heap, and the history. -/
structure Mem (n : ℕ) (κ σ A : Type) where
  pool : Pool n κ
  ext : σ
  heap : Ptr → Item A
  fresh : Ptr
  exited : Finset (Fin n)
  freed : Bool
  added : List Ptr
  returned : List Ptr
  dequeued : List Ptr
  finished : List Ptr
  cleaned : List Ptr
  destroyed : List Before

/-- What a step leaves open: the waiters a signal wakes, and the input of the code. -/
structure Input (n : ℕ) (I : Type) where
  wake : Finset (Fin n) := ∅
  ext : I

/-- Where a thread is: in its own code, or in a call of the pool, with the place to go on. -/
inductive Call (ℓ : Type)
  | code (l : ℓ)
  | addLock (p : Ptr) (l : ℓ)
  | addHead (p : Ptr) (l : ℓ)
  | walk (p member : Ptr) (l : ℓ)
  | append (p : Ptr) (member : Option Ptr) (l : ℓ)
  | addUnlock (p : Ptr) (l : ℓ)
  | addSignal (p : Ptr) (l : ℓ)
  | destroyTest (d : Before) (ok failed : ℓ)
  | destroySet (d : Before) (ok : ℓ)
  | destroyCast (d : Before) (ok : ℓ)
  | join (d : Before) (i : ℕ) (ok : ℓ)
  | clean (d : Before) (ok : ℓ)
  | destroyFree (d : Before) (ok : ℓ)
  | aborted
  deriving DecidableEq

/-- Where a worker is in `threadRoutine`. -/
inductive Worker (ℓ : Type)
  | lock
  | whileTest
  | wait
  | blocked
  | ifTest
  | exitUnlock
  | take
  | unlock (p : Ptr)
  | run (p : Ptr) (c : Call ℓ)
  | free (p : Ptr)
  | exited
  | aborted
  deriving DecidableEq

variable {n : ℕ} {κ σ ℓ A I : Type}

/-! ### `poolAddWorker` -/

/-- `pthread_mutex_lock(&(pool->queueLock))`. -/
def Mem.lock (m : Mem n κ σ A) (self : Tid n κ) : Option (Mem n κ σ A) :=
  if m.pool.queueLock.isNone then some { m with pool := { m.pool with queueLock := some self } }
  else none

/-- `pthread_mutex_unlock(&(pool->queueLock))`. -/
def Mem.unlock (m : Mem n κ σ A) : Mem n κ σ A := { m with pool := { m.pool with queueLock := none } }

/-- There is memory for one item more. -/
def Mem.hasRoom (m : Mem n κ σ A) : Prop := HasRoom m.fresh m.dequeued.length

instance (m : Mem n κ σ A) : Decidable m.hasRoom := inferInstanceAs (Decidable (HasRoom _ _))

/-- The new item, filled in. -/
def Mem.newWorker (m : Mem n κ σ A) (a : A) : Mem n κ σ A :=
  { m with heap := Function.update m.heap m.fresh ⟨a, none⟩, fresh := m.fresh + 1 }

/-- The item `p` linked behind `member`, or made the head of an empty list. -/
def Mem.link (m : Mem n κ σ A) (p : Ptr) : Option Ptr → Mem n κ σ A
  | some q => { m with heap := Function.update m.heap q { m.heap q with next := some p } }
  | none => { m with pool := { m.pool with queueHead := some p } }

/-- The item counted. -/
def Mem.count (m : Mem n κ σ A) (p : Ptr) : Mem n κ σ A :=
  { m with
    pool := { m.pool with curQueueSize := wrap (m.pool.curQueueSize + 1) }
    added := m.added ++ [p] }

/-- **The end of the section of `poolAddWorker`**: the link, the assertion, the counter. -/
def appendStep (m : Mem n κ σ A) (p : Ptr) (member : Option Ptr) (l : ℓ) : Mem n κ σ A × Call ℓ :=
  let m := m.link p member
  if m.pool.queueHead.isSome then (m.count p, .addUnlock p l) else (m, .aborted)

/-! ### `poolDestroy` -/

/-- **The clean-up loop** at the item `queueHead`. -/
def cleanStep (m : Mem n κ σ A) (d : Before) (ok : ℓ) : Mem n κ σ A × Call ℓ :=
  match m.pool.queueHead with
  | some p =>
    ({ m with
        pool := { m.pool with queueHead := (m.heap p).next }
        cleaned := m.cleaned ++ [p] }, .clean d ok)
  | none => (m, .destroyFree d ok)

/-- `pthread_join` of the `i`-th thread; behind the last one, `threadid` is freed. -/
def joinStep (m : Mem n κ σ A) (d : Before) (i : ℕ) (ok : ℓ) : Option (Mem n κ σ A × Call ℓ) :=
  if h : i < n then if ⟨i, h⟩ ∈ m.exited then some (m, .join d (i + 1) ok) else none
  else some ({ m with pool := { m.pool with threadid := false } }, .clean d ok)

/-! ### Threads -/

/-- What a thread does in its own code. -/
def actStep (m : Mem n κ σ A) : Act ℓ A → Option (Mem n κ σ A × Call ℓ)
  | .goto l => some (m, .code l)
  | .add a l => if m.hasRoom then some (m.newWorker a, .addLock m.fresh l) else none
  | .destroy ok failed => some (m, .destroyTest ⟨m.added, m.returned⟩ ok failed)
  | .ret => none

/-- **A call of the pool.** Nothing can be done with a freed pool. -/
def poolStep (self : Tid n κ) (x : Input n I) (m : Mem n κ σ A) (c : Call ℓ) :
    Option (Mem n κ σ A × Call ℓ) :=
  if m.freed then none else
  match c with
  | .code _ => none
  | .addLock p l => (m.lock self).map fun m' => (m', .addHead p l)
  | .addHead p l =>
    some (m, match m.pool.queueHead with
      | some q => .walk p q l
      | none => .append p none l)
  | .walk p q l =>
    some (m, match (m.heap q).next with
      | some r => .walk p r l
      | none => .append p (some q) l)
  | .append p member l => some (appendStep m p member l)
  | .addUnlock p l => some (m.unlock, .addSignal p l)
  | .addSignal p l =>
    (signal x.wake m.pool.queueReady).map fun ws =>
      ({ m with pool := { m.pool with queueReady := ws }, returned := m.returned ++ [p] }, .code l)
  | .destroyTest d ok failed => some (m, if m.pool.shutdown then .code failed else .destroySet d ok)
  | .destroySet d ok => some ({ m with pool := { m.pool with shutdown := true } }, .destroyCast d ok)
  | .destroyCast d ok => some ({ m with pool := { m.pool with queueReady := ∅ } }, .join d 0 ok)
  | .join d i ok => joinStep m d i ok
  | .clean d ok => some (cleanStep m d ok)
  | .destroyFree d ok => some ({ m with freed := true, destroyed := m.destroyed ++ [d] }, .code ok)
  | .aborted => none

variable (C : Code n κ σ ℓ A I)

/-- **A thread in its own code or in a call.** -/
def callStep (self : Tid n κ) (x : Input n I) (m : Mem n κ σ A) (c : Call ℓ) :
    Option (Mem n κ σ A × Call ℓ) :=
  match c with
  | .code l => (C.step self x.ext m.ext l).bind fun r => actStep { m with ext := r.1 } r.2
  | c => poolStep self x m c

/-- The first item removed, after the two assertions. -/
def takeStep (m : Mem n κ σ A) : Mem n κ σ A × Worker ℓ :=
  if m.pool.curQueueSize ≠ 0 then
    match m.pool.queueHead with
    | some p =>
      ({ m with
          pool := { m.pool with
            curQueueSize := wrap (m.pool.curQueueSize - 1)
            queueHead := (m.heap p).next }
          dequeued := m.dequeued ++ [p] }, .unlock p)
    | none => (m, .aborted)
  else (m, .aborted)

/-- The function of the item returns. -/
def returns (self : Tid n κ) (x : Input n I) (m : Mem n κ σ A) : Call ℓ → Option σ
  | .code l =>
    match C.step self x.ext m.ext l with
    | some (s, .ret) => some s
    | _ => none
  | _ => none

/-- **`threadRoutine`**: the worker `i`. -/
def workerStep (i : Fin n) (x : Input n I) (m : Mem n κ σ A) (w : Worker ℓ) :
    Option (Mem n κ σ A × Worker ℓ) :=
  match w with
  | .lock => (m.lock (.inl i)).map fun m' => (m', .whileTest)
  | .whileTest =>
    some (m, if m.pool.curQueueSize = 0 ∧ m.pool.shutdown = false then .wait else .ifTest)
  | .wait =>
    some ({ m with pool := { m.pool with
      queueLock := none, queueReady := insert i m.pool.queueReady } }, .blocked)
  | .blocked =>
    -- a waiter may wake up for no reason; a woken one takes the mutex again and tests again
    if i ∈ m.pool.queueReady then
      some ({ m with pool := { m.pool with queueReady := m.pool.queueReady.erase i } }, .blocked)
    else (m.lock (.inl i)).map fun m' => (m', .whileTest)
  | .ifTest =>
    some (m, if m.pool.curQueueSize = 0 ∧ m.pool.shutdown = true then .exitUnlock else .take)
  | .exitUnlock => some ({ m.unlock with exited := insert i m.exited }, .exited)
  | .take => some (takeStep m)
  | .unlock p => some (m.unlock, .run p (.code (C.process (m.heap p).arg)))
  | .run p c =>
    match returns C (.inl i) x m c with
    | some s => some ({ m with ext := s, finished := m.finished ++ [p] }, .free p)
    | none => (callStep C (.inl i) x m c).map fun r => (r.1, .run p r.2)
  | .free _ => some (m, .lock)
  | .exited => none
  | .aborted => none

/-! ### The system -/

/-- **`poolInit`.** -/
def poolInit (n : ℕ) (κ : Type) {σ A : Type} (ext : σ) (heap : Ptr → Item A) : Mem n κ σ A where
  pool :=
    { queueLock := none, queueReady := ∅, queueHead := none, shutdown := false, threadid := true,
      curQueueSize := 0 }
  ext := ext
  heap := heap
  fresh := 0
  exited := ∅
  freed := false
  added := []
  returned := []
  dequeued := []
  finished := []
  cleaned := []
  destroyed := []

/-- A configuration of the pool and the code that uses it. -/
abbrev State (n : ℕ) (κ σ ℓ A : Type) := Config (Fin n) κ (Mem n κ σ A) (Worker ℓ) (Call ℓ)

/-- **The pool with its workers, used by `C`.** -/
def chatPool : Program (Fin n) κ (Mem n κ σ A) (Worker ℓ) (Call ℓ) (Input n I) where
  init c := ∃ (ext : σ) (heap : Ptr → Item A), C.init ext ∧
    c = ⟨poolInit n κ ext heap, fun _ => .lock, fun k => .code (C.main k)⟩
  workerStep := workerStep C
  clientStep k := callStep C (.inr k)

/-- **The most general code**: every thread and every item does what its input says. -/
def anyCode (n : ℕ) (κ : Type) : Code n κ Unit Unit ℕ (Option (Act Unit ℕ)) where
  init _ := True
  main _ := ()
  process _ := ()
  step _ x s _ := x.map fun a => (s, a)

/-- A step of the thread `t` that does not ask for an input. -/
def silent {n : ℕ} {κ : Type} (t : Tid n κ) : Tid n κ × Input n (Option (Act Unit ℕ)) :=
  (t, { ext := none })

/-- The thread `t` does `a`. -/
def does {n : ℕ} {κ : Type} (t : Tid n κ) (a : Act Unit ℕ) : Tid n κ × Input n (Option (Act Unit ℕ)) :=
  (t, { ext := some a })

end PoolStudy.ChatPool.Model
