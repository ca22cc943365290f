import PoolStudy.Workqueue.Model

/-! # The threaded echo server of libevent-thread: data and steps

`echoserver_threaded.c`: the main thread runs the event loop of the listening socket. Its callback
`on_accept` accepts a connection, builds a `client_t` for it and adds a job to the work queue; a worker runs
`server_job_function` for the job, that is the event loop of this one client, and then closes it. Other
threads, or a signal handler, call `killServer` at any time.

Connections are numbered in the order in which they are accepted. A connection stands for its `client_t` and
its `job_t` too, of which it has at most one each. `fds` says which connection an open descriptor belongs to:
the kernel gives a new connection any number that is not in use, and a number is free again after `close`.

The outcomes of the allocations, of the libevent calls and of the callbacks are inputs. -/

namespace PoolStudy.EchoServer.Model

open PoolStudy.Lib.Transition PoolStudy.Lib.Threads
open PoolStudy.Workqueue.Model (Links Tid Call Worker)

/-- `NUM_THREADS`. -/
def numThreads : ℤ := 8

/-! ### Data -/

/-- `client_t`, with the pointers as what they are tested for: whether they are `NULL`. -/
structure Client where
  fd : ℤ
  evbase : Bool
  bufEv : Bool
  outputBuffer : Bool
  deriving DecidableEq

/-- The work queue, the descriptors, the clients, and the history: the connections closed, and the calls of
`close` on a descriptor that was not the connection's. -/
structure Mem (n : ℕ) where
  workqueue : Workqueue.Model.Mem n ℕ
  loopexit : Bool
  accepted : ℕ
  fds : ℤ → Option ℕ
  client : ℕ → Client
  closed : List ℕ
  wrongCloses : ℕ

/-- What a step leaves open: the outcome of a call of the kernel or of libevent. -/
inductive Event
  | ok
  | failed
  | accept (fd : ℤ)
  | read (writeFailed : Bool)
  | write
  | error
  | exit
  deriving DecidableEq

/-- The outcome, and the workers a signal wakes. -/
structure Input (n : ℕ) where
  event : Event := .ok
  wake : Finset (Fin n) := ∅

/-- Where a worker is: in `worker_function`, or in `server_job_function` of a connection. -/
inductive Pos (n : ℕ)
  | pool (w : Worker n ℕ)
  | dispatch (j : ℕ)
  | closeClient (j : ℕ)
  | freeClient (j : ℕ)
  | freeJob (j : ℕ)
  deriving DecidableEq

/-- Where the main thread is in `on_accept` and around it, and another thread in `killServer`. -/
inductive Main (n : ℕ)
  | loop
  | setnonblock (j : ℕ) (fd : ℤ)
  | close (j : ℕ) (fd : ℤ)
  | mallocClient (j : ℕ) (fd : ℤ)
  | evbufferNew (j : ℕ)
  | eventBaseNew (j : ℕ)
  | buffereventNew (j : ℕ)
  | mallocJob (j : ℕ)
  | addJob (c : Call n ℕ)
  | closeClient (j : ℕ)
  | freeClient (j : ℕ)
  | returned
  | idle
  | shutdown (c : Call n ℕ)
  deriving DecidableEq

variable {n : ℕ}

/-- The record of the connection `j` is written. -/
def Mem.setClient (m : Mem n) (j : ℕ) (r : Client) : Mem n :=
  { m with client := Function.update m.client j r }

/-! ### Closing -/

/-- `close(fd)`, meant for the connection `j`. -/
def Mem.close (m : Mem n) (j : ℕ) (fd : ℤ) : Mem n :=
  if m.fds fd = some j then { m with fds := Function.update m.fds fd none, closed := m.closed ++ [j] }
  else { m with fds := Function.update m.fds fd none, wrongCloses := m.wrongCloses + 1 }

/-- **`closeClient`.** -/
def closeClient (m : Mem n) (j : ℕ) : Mem n :=
  if (m.client j).fd ≥ 0 then
    (m.close j (m.client j).fd).setClient j { m.client j with fd := -1 }
  else m

/-- **`closeAndFreeClient`** after its `closeClient`: the pointers are freed and cleared. -/
def freeClient (m : Mem n) (j : ℕ) : Mem n :=
  m.setClient j { m.client j with bufEv := false, evbase := false, outputBuffer := false }

/-! ### The main thread -/

/-- A call of the work queue by the main thread or by a killer. -/
def queueCall (k : ℕ) (x : Input n) (m : Mem n) (c : Call n ℕ) : Option (Mem n × Call n ℕ) :=
  (Workqueue.Model.callStep (.inr k) { wake := x.wake } m.workqueue c).map fun r =>
    ({ m with workqueue := r.1 }, r.2)

/-- **`on_accept`** from its `accept` on, and the event loop around it. -/
def mainStep (k : ℕ) (x : Input n) (m : Mem n) : Main n → Option (Mem n × Main n)
  | .loop =>
    match x.event with
    | .accept fd =>
      if 0 ≤ fd ∧ m.fds fd = none then
        some ({ m with fds := Function.update m.fds fd (some m.accepted), accepted := m.accepted + 1 },
          .setnonblock m.accepted fd)
      else none
    | .failed => some (m, .loop)
    | .exit => if m.loopexit then some (m, .returned) else none
    | _ => none
  | .setnonblock j fd => some (m, if x.event = .failed then .close j fd else .mallocClient j fd)
  | .close j fd => some (m.close j fd, .loop)
  | .mallocClient j fd =>
    if x.event = .failed then some (m, .close j fd)
    else some (m.setClient j ⟨fd, false, false, false⟩, .evbufferNew j)
  | .evbufferNew j =>
    if x.event = .failed then some (m, .closeClient j)
    else some (m.setClient j { m.client j with outputBuffer := true }, .eventBaseNew j)
  | .eventBaseNew j =>
    if x.event = .failed then some (m, .closeClient j)
    else some (m.setClient j { m.client j with evbase := true }, .buffereventNew j)
  | .buffereventNew j =>
    if x.event = .failed then some (m, .closeClient j)
    else some (m.setClient j { m.client j with bufEv := true }, .mallocJob j)
  | .mallocJob j => some (m, if x.event = .failed then .closeClient j else .addJob (.addLock j))
  | .addJob c =>
    (queueCall k x m c).map fun r => (r.1, if r.2 = .outside then .loop else .addJob r.2)
  | .closeClient j => some (closeClient m j, .freeClient j)
  | .freeClient j => some (freeClient m j, .loop)
  | .returned => none
  -- `killServer`: first the event loop is told to exit, then the workers
  | .idle => some ({ m with loopexit := true }, .shutdown .head)
  | .shutdown c =>
    (queueCall k x m c).map fun r => (r.1, if r.2 = .outside then .idle else .shutdown r.2)

/-! ### The workers -/

/-- The callbacks of the client's event loop: `buffered_on_read`, `buffered_on_write`, `buffered_on_error`. -/
def callback (m : Mem n) (j : ℕ) : Event → Option (Mem n × Pos n)
  | .read writeFailed => some (if writeFailed then closeClient m j else m, .dispatch j)
  | .write => some (m, .dispatch j)
  | .error => some (closeClient m j, .dispatch j)
  | .exit => some (m, .closeClient j)
  | _ => none

/-- **`worker_function`** with **`server_job_function`** as the function of every job. -/
def workerStep (i : Fin n) (x : Input n) (m : Mem n) : Pos n → Option (Mem n × Pos n)
  | .pool (.run j _) => some (m, .dispatch j)
  | .pool w =>
    (Workqueue.Model.workerStep i { wake := x.wake } m.workqueue w).map fun r =>
      ({ m with workqueue := r.1 }, .pool r.2)
  | .dispatch j => callback m j x.event
  | .closeClient j => some (closeClient m j, .freeClient j)
  | .freeClient j => some (freeClient m j, .freeJob j)
  | .freeJob _ => some (m, .pool .lock)

/-! ### The system -/

/-- The server as `runServer` enters its event loop. -/
def serverInit (n : ℕ) (links : ℕ → Links ℕ) (client : ℕ → Client) : Mem n where
  workqueue := Workqueue.Model.workqueueInit n links
  loopexit := false
  accepted := 0
  fds := fun _ => none
  client := client
  closed := []
  wrongCloses := 0

/-- A configuration of the server. -/
abbrev State (n : ℕ) := Config (Fin n) ℕ (Mem n) (Pos n) (Main n)

/-- **The echo server**: thread 0 is the main thread, the others call `killServer`. -/
def echoServer (n : ℕ) : Program (Fin n) ℕ (Mem n) (Pos n) (Main n) (Input n) where
  init c := ∃ links client, c = ⟨serverInit n links client, fun _ => .pool .lock,
    fun k => if k = 0 then .loop else .idle⟩
  workerStep := workerStep
  clientStep := mainStep

end PoolStudy.EchoServer.Model
