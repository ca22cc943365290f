import PoolStudy.Lib.Sockets
import PoolStudy.Lib.Transition
import Mathlib.Data.Int.Notation

/-! # The epoll thread: data and steps

`epoll_loop` of `epoll/epoll_threadpool.c`, which one thread runs: it waits for events of `listenfd` and of the
connections, accepts until `accept` fails with `EAGAIN`, and for an event of a connection receives, replies and
closes. The variables `events`, `n` and `i` are global; of `events` a call of `epoll_wait` overwrites the first `n`
entries, and the others keep what they had. It is an array of 1024 entries, but `epoll_wait` is told 4096.

What `epoll_wait` reports is left open: any number of events up to 4096, with any descriptors and any bits. What
`recv` returns comes from the receive buffers, to which the network adds between any two calls.

`Handled` is history: what was done for one event. -/

namespace PoolStudy.EpollThreadpool.Model

open PoolStudy.Lib.Transition PoolStudy.Lib.Sockets

abbrev Byte := UInt8

/-- The number of entries of `events`. -/
def arraySize : ℕ := 1024

/-- The argument `maxevents` of `epoll_wait`. -/
def maxEvents : ℕ := 4096

/-- `sizeof(recvBuf)`. -/
def bufSize : ℕ := 1024

/-- `EPOLLIN` and `EPOLLOUT`. -/
def epollIn : BitVec 32 := 0x001#32
def epollOut : BitVec 32 := 0x004#32

/-- `struct epoll_event`. -/
structure EpollEvent where
  fd : ℕ
  events : BitVec 32
  deriving DecidableEq

def EpollEvent.hasIn (e : EpollEvent) : Bool := e.events &&& epollIn != 0#32

def EpollEvent.hasOut (e : EpollEvent) : Bool := e.events &&& epollOut != 0#32

/-- **What was done for an event**: the indices used on `events`, the descriptor and the result of each `recv`, the
descriptors on which the reply was sent, and those that were closed. -/
structure Handled where
  i : ℕ
  n : ℕ
  event : EpollEvent
  indices : List ℕ := []
  recvs : List (ℕ × ReadResult Byte) := []
  sends : List ℕ := []
  closes : List ℕ := []

/-- `recv(events[n].data.fd, …)`. -/
def Handled.recv (h : Handled) (fd : ℕ) (r : ReadResult Byte) : Handled :=
  { h with indices := h.indices ++ [h.n], recvs := h.recvs ++ [(fd, r)] }

/-- `send(events[i].data.fd, …)`. -/
def Handled.send (h : Handled) : Handled :=
  { h with indices := h.indices ++ [h.i], sends := h.sends ++ [h.event.fd] }

/-- `close(events[i].data.fd)`, with the `epoll_ctl` before it. -/
def Handled.close (h : Handled) : Handled :=
  { h with indices := h.indices ++ [h.i], closes := h.closes ++ [h.event.fd] }

/-- Where the thread is in `epoll_loop`; `ret` is the result of the last `recv`. -/
inductive Loc
  | wait
  | test
  | accept
  | recv
  | recvError
  | reply (ret : ℤ)
  | send
  | close
  deriving DecidableEq

/-- The sockets, the global variables, and the history: the event being handled, those of the batch that have been,
the batches before, and the descriptors that were closed though they were not open. -/
structure State where
  net : Net Byte
  events : ℕ → EpollEvent
  n : ℕ
  i : ℕ
  loc : Loc
  now : Handled
  batch : List Handled
  batches : List (List Handled)
  stale : List ℕ

/-- What a step leaves open: what `epoll_wait` reports, the descriptor that `accept` returns, the number of bytes that
`recv` returns if there are as many, whether the call fails, and whether `errno` is `EAGAIN`. -/
structure Input where
  reports : List EpollEvent := []
  fd : ℕ := 0
  count : ℕ := bufSize
  fail : Bool := false
  again : Bool := true

/-- The first entries of `events` are overwritten. -/
def overwrite (evs : List EpollEvent) (events : ℕ → EpollEvent) (k : ℕ) : EpollEvent := evs[k]?.getD (events k)

/-- The descriptor of the event is closed. -/
def State.closeFd (lfd : ℕ) (c : State) : State :=
  { c with
    net := c.net.close lfd c.now.event.fd
    stale := if (c.net.file c.now.event.fd).isSome then c.stale else c.stale ++ [c.now.event.fd]
    now := c.now.close }

/-- The event has been handled: `++i`. -/
def State.finish (c : State) : State := { c with batch := c.batch ++ [c.now], i := c.i + 1, loc := .test }

/-- The branch that is taken for an event. -/
def branch (lfd : ℕ) (e : EpollEvent) : Loc :=
  if e.fd = lfd then .accept else if e.hasIn then .recv else if e.hasOut then .send else .close

/-- One round of the loop that accepts. -/
def acceptOne (lfd : ℕ) (x : Input) (c : State) : Option State :=
  if x.fail || c.net.backlog.isEmpty then some (if x.again then c.finish else c)
  else (c.net.accept lfd x.fd).map fun k =>
    -- a descriptor 0 is taken for a failure
    if 0 < x.fd then { c with net := k.register x.fd }
    else if x.again then { c with net := k }.finish else { c with net := k }

/-- One round of the loop that receives. -/
def recvOne (x : Input) (c : State) : Option State :=
  let fd := (c.events c.n).fd
  if x.count = 0 ∨ bufSize < x.count then none
  else match c.net.read fd x.count x.fail with
    | .error => some { c with now := c.now.recv fd .error, loc := .recvError }
    | .again => some { c with now := c.now.recv fd .again, loc := .reply (-1) }
    | .eof => some { c with now := c.now.recv fd .eof, loc := .reply 0 }
    | .data l => some { c with
        net := c.net.taken fd x.count
        now := c.now.recv fd (.data l)
        loc := if l.length = bufSize then .recv else .reply l.length }

/-- **`epoll_loop`.** -/
def loopStep (lfd : ℕ) (x : Input) (c : State) : Option State :=
  match c.loc with
  | .wait =>
    -- a call that fails, or returns no event, is made again
    if x.fail ∨ x.reports = [] then some c
    else if x.reports.length ≤ maxEvents then
      some { c with events := overwrite x.reports c.events, n := x.reports.length, i := 0, loc := .test }
    else none
  | .test =>
    if c.i < c.n then
      some { c with now := ⟨c.i, c.n, c.events c.i, [c.i], [], [], []⟩, loc := branch lfd (c.events c.i) }
    else some { c with batches := c.batches ++ [c.batch], batch := [], loc := .wait }
  | .accept => acceptOne lfd x c
  | .recv => recvOne x c
  | .recvError => some { c.closeFd lfd with loc := .reply (-1) }
  | .reply ret => some { c with now := if 0 < ret then c.now.send else c.now, loc := .close }
  | .send => some { c with now := c.now.send, loc := .close }
  | .close => some (c.closeFd lfd).finish

/-- The network does something, or the thread takes a step. -/
inductive Act
  | net (x : Happening Byte)
  | loop (x : Input)

/-- `events` is zero at the start. -/
def noEvent : EpollEvent := ⟨0, 0#32⟩

/-- **The program and the network.** -/
def system (lfd : ℕ) : Lts State Act where
  init c := c = ⟨Net.start, fun _ => noEvent, 0, 0, .wait, ⟨0, 0, noEvent, [], [], [], []⟩, [], [], []⟩
  next c
    | .net x => some { c with net := c.net.happen x }
    | .loop x => loopStep lfd x c

/-! ### What a step can do -/

/-- **The outcomes of a step of the thread.** -/
inductive LoopStep (lfd : ℕ) (x : Input) (c : State) : State → Prop
  | same : LoopStep lfd x c c
  | batch (hl : c.loc = .wait) (hle : x.reports.length ≤ maxEvents) : LoopStep lfd x c
      { c with events := overwrite x.reports c.events, n := x.reports.length, i := 0, loc := .test }
  | event (hl : c.loc = .test) (hi : c.i < c.n) : LoopStep lfd x c
      { c with now := ⟨c.i, c.n, c.events c.i, [c.i], [], [], []⟩, loc := branch lfd (c.events c.i) }
  | endBatch (hl : c.loc = .test) (hi : c.n ≤ c.i) : LoopStep lfd x c
      { c with batches := c.batches ++ [c.batch], batch := [], loc := .wait }
  | noAccept (hl : c.loc = .accept) : LoopStep lfd x c c.finish
  | accept {k k' : Net Byte} (hl : c.loc = .accept) (h : c.net.accept lfd x.fd = some k)
      (hk : k' = k ∨ k' = k.register x.fd) : LoopStep lfd x c { c with net := k' }
  | acceptLast {k : Net Byte} (hl : c.loc = .accept) (h : c.net.accept lfd x.fd = some k) :
      LoopStep lfd x c { c with net := k }.finish
  | recvError (hl : c.loc = .recv) (hr : c.net.read (c.events c.n).fd x.count x.fail = .error) : LoopStep lfd x c
      { c with now := c.now.recv (c.events c.n).fd .error, loc := .recvError }
  | recvAgain (hl : c.loc = .recv) : LoopStep lfd x c
      { c with now := c.now.recv (c.events c.n).fd .again, loc := .reply (-1) }
  | recvEof (hl : c.loc = .recv) : LoopStep lfd x c
      { c with now := c.now.recv (c.events c.n).fd .eof, loc := .reply 0 }
  | recvData {l : List Byte} (hl : c.loc = .recv) (hne : l ≠ []) : LoopStep lfd x c
      { c with
        net := c.net.taken (c.events c.n).fd x.count
        now := c.now.recv (c.events c.n).fd (.data l)
        loc := if l.length = bufSize then .recv else .reply l.length }
  | closeError (hl : c.loc = .recvError) : LoopStep lfd x c { c.closeFd lfd with loc := .reply (-1) }
  | reply (ret : ℤ) (hl : c.loc = .reply ret) : LoopStep lfd x c
      { c with now := if 0 < ret then c.now.send else c.now, loc := .close }
  | send (hl : c.loc = .send) : LoopStep lfd x c { c with now := c.now.send, loc := .close }
  | close (hl : c.loc = .close) : LoopStep lfd x c (c.closeFd lfd).finish

theorem acceptOne_cases {lfd : ℕ} {x : Input} {c c' : State} (hl : c.loc = .accept)
    (h : acceptOne lfd x c = some c') : LoopStep lfd x c c' := by
  unfold acceptOne at h
  split_ifs at h with h1 h2 h3 h4
  · cases h; exact .noAccept hl
  · cases h; exact .same
  · obtain ⟨k, hk, rfl⟩ := Option.map_eq_some_iff.mp h
    exact .accept hl hk (Or.inr rfl)
  · obtain ⟨k, hk, rfl⟩ := Option.map_eq_some_iff.mp h
    exact .acceptLast hl hk
  · obtain ⟨k, hk, rfl⟩ := Option.map_eq_some_iff.mp h
    exact .accept hl hk (Or.inl rfl)

theorem recvOne_cases {lfd : ℕ} {x : Input} {c c' : State} (hl : c.loc = .recv) (h : recvOne x c = some c') :
    LoopStep lfd x c c' := by
  simp only [recvOne] at h
  split_ifs at h with hx
  have hread := c.net.read_cases (c.events c.n).fd x.count x.fail
  generalize hr : c.net.read (c.events c.n).fd x.count x.fail = result at h hread
  cases hread with
  | data hf hb hok =>
    cases h
    refine .recvData hl ?_
    rw [ne_eq, List.take_eq_nil_iff, not_or]
    exact ⟨by omega, hb⟩
  | eof hf hb he => cases h; exact .recvEof hl
  | again hf hb => cases h; exact .recvAgain hl
  | error he => cases h; exact .recvError hl hr

theorem loopStep_cases {lfd : ℕ} {x : Input} {c c' : State} (h : loopStep lfd x c = some c') :
    LoopStep lfd x c c' := by
  unfold loopStep at h
  split at h
  · next hl =>
    split_ifs at h with h1 h2
    · cases h; exact .same
    · cases h; exact .batch hl h2
  · next hl =>
    split_ifs at h with h1
    · cases h; exact .event hl h1
    · cases h; exact .endBatch hl (Nat.le_of_not_lt h1)
  · next hl => exact acceptOne_cases hl h
  · next hl => exact recvOne_cases hl h
  · next hl => cases h; exact .closeError hl
  · next ret hl => cases h; exact .reply ret hl
  · next hl => cases h; exact .send hl
  · next hl => cases h; exact .close hl

end PoolStudy.EpollThreadpool.Model
