import PoolStudy.Lib.Sockets
import PoolStudy.Lib.Transition
import Mathlib.Data.Int.Notation

/-! # The epoll echo server: data and steps

`epoll/server.c`: one thread waits for events of `listen_fd` and of the connections, all of them edge-triggered.
For an event of `listen_fd` it accepts one connection, for an event of a connection it reads once, up to `MAXLINE`
bytes, and writes them back. `cur_fds` counts the descriptors registered, and `setrlimit` has limited the numbers of
descriptors to those below `MAXEPOLL`.

The connections are blocking, so a `read` with nothing to read, and no end, is not a step; the number of bytes it
returns is that of the buffer, up to `MAXLINE`. `epoll_ctl(EPOLL_CTL_DEL)` on a descriptor just closed does
nothing. The loop starts when `listen_fd` has been registered. -/

namespace PoolStudy.EpollServer.Model

open PoolStudy.Lib.Transition PoolStudy.Lib.Sockets

abbrev Byte := UInt8

/-- `MAXEPOLL`. -/
def maxEpoll : ℕ := 10000

/-- `MAXLINE`. -/
def maxLine : ℕ := 1024

/-- `listen_fd` and `epoll_fd`. -/
structure Fds where
  listenFd : ℕ
  epollFd : ℕ
  ne : listenFd ≠ epollFd
  listen_lt : listenFd < maxEpoll
  epoll_lt : epollFd < maxEpoll

/-- Where the loop is; `rest` are the events of the batch that come next. -/
inductive Loc
  | wait
  | events (rest : List Event)
  | ctlAdd (connFd : ℕ) (rest : List Event)
  | write (fd : ℕ) (buf : List Byte) (rest : List Event)
  | exited
  deriving DecidableEq

/-- The sockets, `cur_fds`, and where the loop is. -/
structure State where
  net : Net Byte
  curFds : ℤ
  loc : Loc

/-- What a step leaves open: the descriptors that `epoll_wait` takes off the ready list, the descriptor that
`accept` returns, and whether the call fails. -/
structure Input where
  picked : List ℕ := []
  fd : ℕ := 0
  fail : Bool := false

/-- `exit( EXIT_FAILURE )`. -/
def exitFailure (c : State) : State := { c with net := c.net.ended, loc := .exited }

/-- The part of the loop for an event of `listen_fd`. -/
def acceptOne (fds : Fds) (x : Input) (c : State) (rest : List Event) : Option State :=
  if x.fail || c.net.backlog.isEmpty then some (exitFailure c)
  else if x.fd < maxEpoll ∧ x.fd ≠ fds.epollFd then
    (c.net.accept fds.listenFd x.fd).map fun k => { c with net := k, loc := .ctlAdd x.fd rest }
  else none

/-- The part of the loop for any other event. -/
def readOnce (fds : Fds) (x : Input) (c : State) (fd : ℕ) (rest : List Event) : Option State :=
  match c.net.read fd maxLine x.fail with
  | .error => some ⟨c.net.close fds.listenFd fd, c.curFds - 1, .events rest⟩
  | .eof => some ⟨c.net.close fds.listenFd fd, c.curFds - 1, .events rest⟩
  | .again => none
  | .data buf => some { c with net := c.net.taken fd maxLine, loc := .write fd buf rest }

/-- **The event loop of `main`.** -/
def loopStep (fds : Fds) (x : Input) (c : State) : Option State :=
  match c.loc with
  | .wait =>
    if x.fail ∨ c.curFds ≤ 0 then some (exitFailure c)
    else (c.net.epollWait fds.listenFd c.curFds.toNat x.picked).map fun r =>
      { c with net := r.1, loc := if r.2.isEmpty then .wait else .events r.2 }
  | .events [] => some { c with loc := .wait }
  | .events (e :: rest) =>
    if e.fd = fds.listenFd ∧ c.curFds < maxEpoll then acceptOne fds x c rest else readOnce fds x c e.fd rest
  | .ctlAdd connFd rest =>
    if x.fail then some (exitFailure c)
    else some ⟨c.net.register connFd, c.curFds + 1, .events rest⟩
  | .write fd buf rest => some { c with net := c.net.serve fd buf, loc := .events rest }
  | .exited => none

/-- The network does something, or the loop takes a step. -/
inductive Act
  | net (x : Happening Byte)
  | loop (x : Input)

/-- **The program and the network.** -/
def system (fds : Fds) : Lts State Act where
  init c := c = ⟨Net.start, 1, .wait⟩
  next c
    | .net x => some { c with net := c.net.happen x }
    | .loop x => loopStep fds x c

/-! ### What a step can do -/

/-- **The outcomes of a step of the loop.** -/
inductive LoopStep (fds : Fds) (x : Input) (c : State) : State → Prop
  | exit : LoopStep fds x c (exitFailure c)
  | batch {k : Net Byte} {evs : List Event} (l : Loc) (hl : c.loc = .wait)
      (h : c.net.epollWait fds.listenFd c.curFds.toNat x.picked = some (k, evs))
      (hw : l = .events evs ∨ l = .wait ∧ evs = []) : LoopStep fds x c { c with net := k, loc := l }
  | endBatch (hl : c.loc = .events []) : LoopStep fds x c { c with loc := .wait }
  | accept {k : Net Byte} {e : Event} {rest : List Event} (hl : c.loc = .events (e :: rest))
      (he : e.fd = fds.listenFd) (hlt : x.fd < maxEpoll) (hne : x.fd ≠ fds.epollFd)
      (h : c.net.accept fds.listenFd x.fd = some k) :
      LoopStep fds x c { c with net := k, loc := .ctlAdd x.fd rest }
  | done {e : Event} {rest : List Event} (hl : c.loc = .events (e :: rest))
      (hmax : e.fd = fds.listenFd → maxEpoll ≤ c.curFds)
      (h : ∀ s, c.net.file e.fd = some s → s.error = true ∧ x.fail = true ∨ s.buffer = []) :
      LoopStep fds x c ⟨c.net.close fds.listenFd e.fd, c.curFds - 1, .events rest⟩
  | data {s : Stream Byte} {e : Event} {rest : List Event} (hl : c.loc = .events (e :: rest))
      (h : c.net.file e.fd = some s) (hok : ¬ (s.error = true ∧ x.fail = true)) :
      LoopStep fds x c
        { c with net := c.net.taken e.fd maxLine, loc := .write e.fd (s.buffer.take maxLine) rest }
  | ctlAdd {connFd : ℕ} {rest : List Event} (hl : c.loc = .ctlAdd connFd rest) :
      LoopStep fds x c ⟨c.net.register connFd, c.curFds + 1, .events rest⟩
  | write {fd : ℕ} {buf : List Byte} {rest : List Event} (hl : c.loc = .write fd buf rest) :
      LoopStep fds x c { c with net := c.net.serve fd buf, loc := .events rest }

theorem acceptOne_cases {fds : Fds} {x : Input} {c c' : State} {e : Event} {rest : List Event}
    (hl : c.loc = .events (e :: rest)) (he : e.fd = fds.listenFd) (h : acceptOne fds x c rest = some c') :
    LoopStep fds x c c' := by
  unfold acceptOne at h
  split_ifs at h with hf hx
  · cases h; exact .exit
  · obtain ⟨k, hk, rfl⟩ := Option.map_eq_some_iff.mp h
    exact .accept hl he hx.1 hx.2 hk

theorem readOnce_cases {fds : Fds} {x : Input} {c c' : State} {e : Event} {rest : List Event}
    (hl : c.loc = .events (e :: rest)) (hmax : e.fd = fds.listenFd → maxEpoll ≤ c.curFds)
    (h : readOnce fds x c e.fd rest = some c') : LoopStep fds x c c' := by
  unfold readOnce at h
  have hread := c.net.read_cases e.fd maxLine x.fail
  generalize c.net.read e.fd maxLine x.fail = result at h hread
  cases hread with
  | data hf _ hok => cases h; exact .data hl hf hok
  | eof hf hb _ =>
    cases h
    exact .done hl hmax fun s hs => Or.inr (by rw [Option.some.inj (hs.symm.trans hf)]; exact hb)
  | again _ _ => cases h
  | error he =>
    cases h
    exact .done hl hmax fun s hs => (he s hs).2.imp_left fun hfail => ⟨(he s hs).1, hfail⟩

theorem loopStep_cases {fds : Fds} {x : Input} {c c' : State} (h : loopStep fds x c = some c') :
    LoopStep fds x c c' := by
  unfold loopStep at h
  split at h
  · next hl =>
    split_ifs at h
    · cases h; exact .exit
    · obtain ⟨⟨k, evs⟩, hw, rfl⟩ := Option.map_eq_some_iff.mp h
      cases evs with
      | nil => exact .batch _ hl hw (Or.inr ⟨rfl, rfl⟩)
      | cons e rest => exact .batch _ hl hw (Or.inl rfl)
  · next hl => cases h; exact .endBatch hl
  · next e rest hl =>
    split_ifs at h with he
    · exact acceptOne_cases hl he.1 h
    · exact readOnce_cases hl (fun hfd => by omega) h
  · next hl =>
    split_ifs at h
    · cases h; exact .exit
    · cases h; exact .ctlAdd hl
  · next hl => cases h; exact .write hl
  · cases h

end PoolStudy.EpollServer.Model
