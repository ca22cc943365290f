import PoolStudy.ChatServer.Steps
import PoolStudy.Lib.Sockets

/-! # The chat server: the events of a batch

The loop of `main` over the events that one call of `epoll_wait` returns. What is done for an event are the steps of
`mainStep`; here the results of `recv` come from the receive buffers of the sockets, to which the network adds at any
time, and `rest` are the events of the batch that come next. Adding an item to the pool is one step here.

A `break` leaves the loop over the events, so the rest of the batch is dropped: this is what happens when a `recv`
fails, also if there is just nothing to read. -/

namespace PoolStudy.ChatServer.Batch

open PoolStudy.Lib.Transition
open PoolStudy.Lib.Sockets hiding Event
open PoolStudy.ChatPool.Model (Act)
open PoolStudy.ChatServer.Model PoolStudy.ChatServer.Steps

/-! ### The loop -/

/-- An entry of `events`: the descriptor, and whether `EPOLLIN` is set. -/
structure Report where
  fd : ℕ
  input : Bool
  deriving DecidableEq

/-- **What was done for an event**: the result of `recv`, if it was called, and the bytes that were unread when it was
called and when it had returned. -/
structure Note where
  event : Report
  result : Option (ReadResult UInt8)
  found : Bytes
  left : Bytes

/-- `main` and the sockets: the event that is being handled, those that come next, and of the batch what was reported
and what has been handled. -/
structure State where
  server : Server
  pos : Pos
  net : Net UInt8
  event : Report
  rest : List Report
  reported : List Report
  handled : List Note

/-- What a step leaves open: what `epoll_wait` reports, the descriptor that `accept` returns, and whether the call
fails. -/
structure Input where
  reports : List Report := []
  fd : ℕ := 0
  fail : Bool := false

/-- What `recv` returns, as `main` sees it. -/
def kernelOf : ReadResult UInt8 → Kernel
  | .data l => .received l
  | .eof => .left
  | .again => .again
  | .error => .error

/-- `ret < 0`. -/
def failed : ReadResult UInt8 → Bool
  | .again | .error => true
  | _ => false

/-- Where `main` goes on; the item of an `add` is in the queue. -/
def goesTo : Act Pos Event → Pos
  | .goto l | .add _ l | .destroy l _ => l
  | .ret => .exit

/-- The bytes of a connection that have arrived and not been read. -/
def unread (k : Net UInt8) (fd : ℕ) : Bytes := ((k.file fd).map Stream.buffer).getD []

/-- The bytes that `recv` returns leave the buffer. -/
def afterRecv (k : Net UInt8) (fd : ℕ) : ReadResult UInt8 → Net UInt8
  | .data _ => k.taken fd (bufferSize - 1)
  | _ => k

def State.move (c : State) (r : Server × Act Pos Event) : State := { c with server := r.1, pos := goesTo r.2 }

/-- **One event of the batch**: `accept`, or `recv`, or nothing. -/
def dispatchOne (lfd : ℕ) (x : Input) (c : State) : Option State :=
  let e := c.event
  if e.fd = lfd then
    (c.net.accept lfd x.fd).bind fun k =>
      (mainStep (some (.accepted x.fd)) c.server .dispatch).map fun r =>
        { c.move r with net := k.register x.fd, handled := c.handled ++ [⟨e, none, [], []⟩] }
  else if e.input then
    let result := c.net.read e.fd (bufferSize - 1) x.fail
    let k := afterRecv c.net e.fd result
    (mainStep (some (kernelOf result)) c.server .dispatch).map fun r =>
      { c.move r with
        net := k
        -- `break`, which for an error comes behind the statements of `leave`
        rest := if failed result then [] else c.rest
        handled := c.handled ++ [⟨e, some result, unread c.net e.fd, unread k e.fd⟩] }
  else
    (mainStep (some .notReadable) c.server .dispatch).map fun r =>
      { c.move r with handled := c.handled ++ [⟨e, none, [], []⟩] }

/-- **`main`** with the loop over the events of a batch. -/
def batchStep (lfd : ℕ) (x : Input) (c : State) : Option State :=
  match c.pos with
  | .poll =>
    match c.rest with
    | [] =>
      if x.fail then (mainStep (some .failure) c.server .poll).map c.move
      else if x.reports.length ≤ maxEventNumber then
        some { c with rest := x.reports, reported := x.reports, handled := [] }
      else none
    | e :: rest =>
      (mainStep (some (.ready e.fd)) c.server .poll).map fun r => { c.move r with event := e, rest := rest }
  | .dispatch => dispatchOne lfd x c
  | .leave => (mainStep none c.server .leave).map fun r => { c.move r with net := c.net.close lfd c.event.fd }
  | l => (mainStep none c.server l).map c.move

/-- The network does something, or `main` takes a step. -/
inductive Action
  | net (x : Happening UInt8)
  | main (x : Input)

/-- **`main` and the network**, from the first `epoll_wait` on. -/
def system (lfd : ℕ) : Lts State Action where
  init c := ∃ m, server.init m ∧ m.listenfd = lfd ∧ c = ⟨m, .poll, Net.start, ⟨0, false⟩, [], [], []⟩
  next c
    | .net x => some { c with net := c.net.happen x }
    | .main x => batchStep lfd x c

/-! ### What a step can do -/

/-- The notes of an event for which `recv` is not called. -/
def plainNote (e : Report) : Note := ⟨e, none, [], []⟩

/-- **The outcomes of a step of `main`.** -/
inductive BatchStep (lfd : ℕ) (x : Input) (c : State) : State → Prop
  | exit (hp : c.pos = .poll) : BatchStep lfd x c { c with pos := .exit }
  | wait (hp : c.pos = .poll) (hr : c.rest = []) :
      BatchStep lfd x c { c with rest := x.reports, reported := x.reports, handled := [] }
  | ready {e : Report} {rest : List Report} (hp : c.pos = .poll) (hr : c.rest = e :: rest) :
      BatchStep lfd x c { c with
        server := { c.server with sockfd := e.fd }, pos := .dispatch, event := e, rest := rest }
  | accept {k : Net UInt8} (hp : c.pos = .dispatch) (hfd : c.event.fd = lfd) (h : c.net.accept lfd x.fd = some k) :
      BatchStep lfd x c { c with
        server := c.server.accept x.fd, pos := .fill, net := k.register x.fd
        handled := c.handled ++ [plainNote c.event] }
  | recv (p : Pos) {result : ReadResult UInt8} (hp : c.pos = .dispatch) (hfd : c.event.fd ≠ lfd)
      (hr : c.net.read c.event.fd (bufferSize - 1) x.fail = result)
      (hto : (∃ l, result = .data l ∧ p = .record l 1) ∨ ((result = .eof ∨ result = .error) ∧ p = .leave) ∨
        (result = .again ∧ p = .poll)) :
      BatchStep lfd x c { c with
        pos := p, net := afterRecv c.net c.event.fd result, rest := if failed result then [] else c.rest
        handled := c.handled ++ [⟨c.event, some result, unread c.net c.event.fd,
          unread (afterRecv c.net c.event.fd result) c.event.fd⟩] }
  | notReadable (hp : c.pos = .dispatch) :
      BatchStep lfd x c { c with pos := .poll, handled := c.handled ++ [plainNote c.event] }
  | leave (hp : c.pos = .leave) :
      BatchStep lfd x c { c with server := c.server.leave, pos := .poll, net := c.net.close lfd c.event.fd }
  | fill (hp : c.pos = .fill) : BatchStep lfd x c { c with server := c.server.fill, pos := .poll }
  | record (buf : Bytes) (i : ℕ) (hp : c.pos = .record buf i) :
      BatchStep lfd x c { c with server := c.server.record buf i, pos := .record buf (i + 1) }
  | add (buf : Bytes) (i : ℕ) (hp : c.pos = .record buf i) :
      BatchStep lfd x c { c with
        server := { c.server with received := c.server.received ++ [c.server.event buf] }, pos := .poll }

end PoolStudy.ChatServer.Batch
