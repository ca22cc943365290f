import PoolStudy.Lib.Threads

/-! # The Windows thread pool `TP::ThreadPool`: data and steps

`threadPool2/ThreadPool.cpp`: requests wait on a `std::list`; a semaphore with at most as many tokens as the
pool has threads wakes the workers, `m_usSemaphoreCount` mirrors its count, and requests that find no token
free are counted in `m_usPendingReqCount` until a worker that has finished passes one on.

What a thread does while it holds `m_LockWorkerThread` is one step: it contains at most one call of the
kernel, and the others touch the same data only with the lock or, as `Create` and `DestroyPool` do, in steps of
their own. `WaitForSingleObject` takes no lock and is a step of its own. The counters are `unsigned short`.

A request may be anything; a pointer is an element of `R`. `Mem.stage` and the lists `posted`, `popped` and
`executed` are history: where the pool is between a `Create` and the end of the next `Destroy`, the requests of
the `PostRequest` calls that returned true since that `Create`, those popped and those executed. -/

namespace PoolStudy.TP.Model

open PoolStudy.Lib.Transition PoolStudy.Lib.Threads

/-! ### Data -/

/-- The most threads a pool may have. -/
def maxThreads : ℕ := 64

instance : NeZero maxThreads := ⟨by decide⟩

/-- `unsigned short` addition. -/
def inc (a : ℕ) : ℕ := (a + 1) % 65536

/-- `unsigned short` subtraction of one. -/
def dec (a : ℕ) : ℕ := (a + 65535) % 65536

/-- The thread behind a handle. -/
inductive Thread
  | none
  | created
  | running
  | ended
  deriving DecidableEq

/-- A semaphore of the kernel. -/
structure Semaphore where
  count : ℕ
  max : ℕ
  deriving DecidableEq

/-- Where the pool is in its life. `failed`: `Create` could not start all threads. -/
inductive Stage
  | down
  | creating
  | up
  | destroying
  | failed
  deriving DecidableEq

/-- The fields of `ThreadPool`, the threads, and the history. `threadList` is the number of handles written
to `m_phThreadList`. -/
structure Mem (R : Type) where
  destroyed : Bool
  threadCount : ℕ
  semaphoreCount : ℕ
  activeThread : ℕ
  pendingReqCount : ℕ
  semaphore : Option Semaphore
  threadList : Option ℕ
  requestQueue : List R
  thread : ℕ → Thread
  stage : Stage
  posted : List R
  popped : List R
  executed : List R

/-- The calls of the pool. -/
inductive Api (R : Type)
  | create (usThreadCount : ℕ)
  | destroy
  | postRequest (r : R)
  deriving DecidableEq

/-- How `Execute` ends. -/
inductive Result
  | zero
  | nonZero
  | exception
  deriving DecidableEq

/-- What a step leaves open: the call to make, how `Execute` ends, whether what is asked for can be allocated,
and whether the kernel refuses what it should do. -/
structure Input (R : Type) where
  call : Option (Api R) := none
  result : Result := .zero
  alloc : Bool := true
  refuse : Bool := false

/-- Where a worker is in `ProcessRequests`. -/
inductive Worker (R : Type)
  | off
  | wait
  | woken
  | enter
  | check
  | pop
  | execute (r : R)
  | recheck
  | renotify
  | leave
  | quit
  | exit
  deriving DecidableEq

/-- Where another thread is in a call of the pool; outside of one, with what the last one returned. The flag
of the steps of `Destroy` says whether `Create` made the call. -/
inductive Client
  | out (last : Option Bool)
  | createInit (n : ℕ)
  | createList
  | createThread (usIdx : ℕ)
  | createFlag
  | destroy
  | cancel (inCreate : Bool)
  | setFlag (inCreate : Bool)
  | release (inCreate : Bool)
  | waitAll (inCreate : Bool)
  | closeThreads (inCreate : Bool)
  | closeSemaphore (inCreate : Bool)
  | clear (inCreate : Bool)
  deriving DecidableEq

variable {R : Type} [DecidableEq R]

/-! ### The semaphore -/

omit [DecidableEq R] in
/-- `ReleaseSemaphore(m_hSemaphore, k, NULL)`. -/
def releaseSemaphore (m : Mem R) (x : Input R) (k : ℕ) : Option (Mem R) :=
  match m.semaphore with
  | some s =>
    if 0 < k ∧ s.count + k ≤ s.max ∧ x.refuse = false then
      some { m with semaphore := some { s with count := s.count + k } }
    else none
  | none => none

omit [DecidableEq R] in
/-- **`NotifyThread`.** -/
def notifyThread (m : Mem R) (x : Input R) : Option (Mem R) :=
  (releaseSemaphore m x 1).map fun m => { m with semaphoreCount := inc m.semaphoreCount }

/-! ### Workers -/

/-- **`PopRequest`**: the front is read, and `remove` takes out every element equal to it. -/
def popRequest (m : Mem R) : Mem R × Option R :=
  match m.requestQueue with
  | [] => (m, none)
  | r :: q => ({ m with requestQueue := (r :: q).filter (· ≠ r), popped := m.popped ++ [r] }, some r)

omit [DecidableEq R] in
/-- The end of the loop of `ProcessRequests`: a pending request is passed on. -/
def renotify (m : Mem R) (x : Input R) : Mem R :=
  if m.pendingReqCount > 0 ∧ m.semaphoreCount < m.threadCount then
    match notifyThread m x with
    | some m => { m with pendingReqCount := dec m.pendingReqCount }
    | none => m
  else m

/-- **`ThreadProc`** and **`ProcessRequests`**: the thread of the handle `i`. -/
def workerStep (i : Fin maxThreads) (x : Input R) (m : Mem R) : Worker R → Option (Mem R × Worker R)
  | .off =>
    if m.thread i = .created then some ({ m with thread := Function.update m.thread i .running }, .wait)
    else none
  | .wait =>
    match m.semaphore with
    | some s =>
      if 0 < s.count then some ({ m with semaphore := some { s with count := s.count - 1 } }, .woken) else none
    | none => some (m, .wait)
  | .woken => some ({ m with semaphoreCount := dec m.semaphoreCount }, .enter)
  | .enter => some ({ m with activeThread := inc m.activeThread }, .check)
  | .check => some (m, if m.destroyed then .quit else .pop)
  | .pop =>
    some ((popRequest m).1, match (popRequest m).2 with
      | some r => .execute r
      | none => .leave)
  | .execute r =>
    some ({ m with executed := m.executed ++ [r] }, if x.result = .zero then .recheck else .leave)
  | .recheck => some (m, if m.destroyed then .quit else .renotify)
  | .renotify => some (renotify m x, .leave)
  | .leave => some ({ m with activeThread := dec m.activeThread }, .wait)
  | .quit => some ({ m with activeThread := dec m.activeThread }, .exit)
  | .exit => some ({ m with thread := Function.update m.thread i .ended }, .off)

/-! ### Calls -/

omit [DecidableEq R] in
/-- `m_RequestQueue.push_back(pRequest_io)`. -/
def pushBack (m : Mem R) (r : R) : Mem R := { m with requestQueue := m.requestQueue ++ [r] }

omit [DecidableEq R] in
/-- **`PostRequest`.** -/
def postRequest (m : Mem R) (x : Input R) (r : R) : Mem R × Bool :=
  if m.threadList = none then (m, false)
  else if m.semaphoreCount < m.threadCount then
    match notifyThread (pushBack m r) x with
    | some m => ({ m with posted := m.posted ++ [r] }, true)
    | none => ({ pushBack m r with pendingReqCount := inc m.pendingReqCount }, false)
  else ({ pushBack m r with pendingReqCount := inc m.pendingReqCount, posted := m.posted ++ [r] }, true)

omit [DecidableEq R] in
/-- `Destroy` past its first test. A pool that has been created is being destroyed from here on. -/
def beginDestroy (m : Mem R) (inCreate : Bool) : Mem R :=
  { m with stage := if m.stage = .failed ∨ inCreate then .failed else .destroying }

omit [DecidableEq R] in
/-- **`Create`**, **`Destroy`** and **`PostRequest`**. -/
def clientStep (x : Input R) (m : Mem R) : Client → Option (Mem R × Client)
  | .out _ =>
    match x.call with
    | none => none
    | some (.postRequest r) => some ((postRequest m x r).1, .out (some (postRequest m x r).2))
    | some (.create n) =>
      some (m, if m.threadList ≠ none ∨ n = 0 ∨ n > maxThreads then .out (some false) else .createInit n)
    | some .destroy =>
      if m.threadList = none then some (m, .out (some false))
      else some (beginDestroy m false, .cancel false)
  | .createInit n =>
    let m := { m with activeThread := 0, semaphoreCount := 0, pendingReqCount := 0 }
    if x.alloc then
      some ({ m with
        threadCount := n, semaphore := some ⟨0, n⟩, stage := .creating, posted := [], popped := [],
        executed := [] }, .createList)
    else some ({ m with threadCount := 0, semaphore := none }, .out (some false))
  | .createList =>
    if x.alloc then some ({ m with threadList := some 0 }, .createThread 0) else some (m, .destroy)
  | .createThread usIdx =>
    if usIdx < m.threadCount then
      if x.alloc then
        some ({ m with
          threadList := some (usIdx + 1), thread := Function.update m.thread usIdx .created },
          .createThread (usIdx + 1))
      else some (m, .destroy)
    else some (m, .createFlag)
  | .createFlag => some ({ m with destroyed := false, stage := .up }, .out (some true))
  -- `Create` calls `Destroy` and returns false
  | .destroy =>
    if m.threadList = none then some ({ m with stage := .down }, .out (some false))
    else some (beginDestroy m true, .cancel true)
  | .cancel b => some ({ m with requestQueue := [] }, .setFlag b)
  | .setFlag b => some ({ m with destroyed := true }, .release b)
  | .release b =>
    if m.activeThread < m.threadCount then
      match releaseSemaphore m x (m.threadCount - m.activeThread) with
      | some m => some (m, .waitAll b)
      | none => some (m, .out (some false))
    else some (m, .waitAll b)
  | .waitAll b =>
    -- a handle that was never written is not valid
    if m.threadList ≠ some m.threadCount then some (m, .out (some false))
    else if ∀ i < m.threadCount, m.thread i = .ended then some (m, .closeThreads b)
    else none
  | .closeThreads b =>
    if x.refuse then some (m, .out (some false)) else some ({ m with threadList := none }, .closeSemaphore b)
  | .closeSemaphore b =>
    if x.refuse then some (m, .out (some false)) else some ({ m with semaphore := none }, .clear b)
  | .clear b => some ({ m with requestQueue := [], stage := .down }, .out (some (!b)))

/-! ### The system -/

omit [DecidableEq R] in
/-- **The constructor.** -/
def threadPool : Mem R where
  destroyed := false
  threadCount := 0
  semaphoreCount := 0
  activeThread := 0
  pendingReqCount := 0
  semaphore := none
  threadList := none
  requestQueue := []
  thread := fun _ => .none
  stage := .down
  posted := []
  popped := []
  executed := []

/-- A configuration of the pool. -/
abbrev State (R : Type) := Config (Fin maxThreads) ℕ (Mem R) (Worker R) Client

/-- The threads: those of the pool, and all others. -/
abbrev Tid := Fin maxThreads ⊕ ℕ

/-- **The pool with its workers and the threads that use it.** -/
def pool (R : Type) [DecidableEq R] : Program (Fin maxThreads) ℕ (Mem R) (Worker R) Client (Input R) where
  init c := c = ⟨threadPool, fun _ => .off, fun _ => .out none⟩
  workerStep := workerStep
  clientStep _ := clientStep

end PoolStudy.TP.Model
