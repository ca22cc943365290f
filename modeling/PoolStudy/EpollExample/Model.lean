import PoolStudy.Lib.Sockets
import PoolStudy.Lib.Transition

/-! # The epoll example: data and steps

`epoll/epoll-example.c`: one thread waits for events of the listening socket and of the connections, all of them
edge-triggered. It accepts until `accept` fails, and reads a connection until `read` fails or the stream ends,
writing what it reads to standard output. Every system call is a step, so that anything can arrive between two of
them; a `read` returns what the kernel chooses to, up to the size of the buffer.

The loop starts when the listening socket has been registered. -/

namespace PoolStudy.EpollExample.Model

open PoolStudy.Lib.Transition PoolStudy.Lib.Sockets

abbrev Byte := UInt8

/-- `MAXEVENTS`. -/
def maxEvents : ℕ := 64

/-- `sizeof buf`. -/
def bufSize : ℕ := 512

/-- Where the loop is; `rest` are the events of the batch that come next. -/
inductive Loc
  | wait
  | events (rest : List Event)
  | accept (rest : List Event)
  | nonBlocking (infd : ℕ) (rest : List Event)
  | ctlAdd (infd : ℕ) (rest : List Event)
  | read (fd : ℕ) (rest : List Event)
  | write (fd : ℕ) (buf : List Byte) (rest : List Event)
  | close (fd : ℕ) (rest : List Event)
  | aborted
  deriving DecidableEq

/-- What a step leaves open: the descriptors that `epoll_wait` takes off the ready list, the descriptor that
`accept` returns, the number of bytes that `read` returns if there are as many, and whether the call fails. -/
structure Input where
  picked : List ℕ := []
  fd : ℕ := 0
  count : ℕ := bufSize
  fail : Bool := false

/-- **The event loop of `main`.** -/
def loopStep (sfd : ℕ) (x : Input) (k : Net Byte) : Loc → Option (Net Byte × Loc)
  | .wait =>
    -- a call that fails returns -1, and the loop over the events is empty
    if x.fail then some (k, .wait)
    else (k.epollWait sfd maxEvents x.picked).map fun r => (r.1, if r.2.isEmpty then .wait else .events r.2)
  | .events [] => some (k, .wait)
  | .events (e :: rest) =>
    if e.mask.err || e.mask.hup || !e.mask.input then some (k.close sfd e.fd, .events rest)
    else if sfd = e.fd then some (k, .accept rest)
    else some (k, .read e.fd rest)
  | .accept rest =>
    if x.fail || !k.listening || k.backlog.isEmpty then some (k, .events rest)
    else (k.accept sfd x.fd).map fun k => (k, .nonBlocking x.fd rest)
  | .nonBlocking infd rest => if x.fail then some (k.ended, .aborted) else some (k, .ctlAdd infd rest)
  | .ctlAdd infd rest => if x.fail then some (k.ended, .aborted) else some (k.register infd, .accept rest)
  | .read fd rest =>
    if x.count = 0 ∨ x.count > bufSize then none
    else match k.read fd x.count x.fail with
      | .error => some (k, .close fd rest)
      | .again => some (k, .events rest)
      | .eof => some (k, .close fd rest)
      | .data buf => some (k.taken fd x.count, .write fd buf rest)
  | .write fd buf rest => if x.fail then some (k.ended, .aborted) else some (k.serve fd buf, .read fd rest)
  | .close fd rest => some (k.close sfd fd, .events rest)
  | .aborted => none

/-- The sockets, and where the loop is. -/
structure State where
  net : Net Byte
  loc : Loc

/-- The network does something, or the loop takes a step. -/
inductive Act
  | net (x : Happening Byte)
  | loop (x : Input)

/-- **The program and the network.** -/
def system (sfd : ℕ) : Lts State Act where
  init c := c = ⟨Net.start, .wait⟩
  next c
    | .net x => some { c with net := c.net.happen x }
    | .loop x => (loopStep sfd x c.net c.loc).map fun r => ⟨r.1, r.2⟩

/-! ### What a step can do -/

/-- **The outcomes of a step of the loop.** -/
inductive LoopStep (sfd : ℕ) (x : Input) (k : Net Byte) : Loc → Net Byte → Loc → Prop
  | interrupted : LoopStep sfd x k .wait k .wait
  | idle {k' : Net Byte} (h : k.epollWait sfd maxEvents x.picked = some (k', [])) : LoopStep sfd x k .wait k' .wait
  | batch {k' : Net Byte} {evs : List Event} (h : k.epollWait sfd maxEvents x.picked = some (k', evs)) :
      LoopStep sfd x k .wait k' (.events evs)
  | endBatch : LoopStep sfd x k (.events []) k .wait
  | epollError (e : Event) (rest : List Event) :
      LoopStep sfd x k (.events (e :: rest)) (k.close sfd e.fd) (.events rest)
  | incoming (e : Event) (rest : List Event) (h : sfd = e.fd) :
      LoopStep sfd x k (.events (e :: rest)) k (.accept rest)
  | readable (e : Event) (rest : List Event) : LoopStep sfd x k (.events (e :: rest)) k (.read e.fd rest)
  | noAccept (rest : List Event) : LoopStep sfd x k (.accept rest) k (.events rest)
  | accept {k' : Net Byte} (rest : List Event) (h : k.accept sfd x.fd = some k') :
      LoopStep sfd x k (.accept rest) k' (.nonBlocking x.fd rest)
  | nonBlocking (infd : ℕ) (rest : List Event) : LoopStep sfd x k (.nonBlocking infd rest) k (.ctlAdd infd rest)
  | ctlAdd (infd : ℕ) (rest : List Event) :
      LoopStep sfd x k (.ctlAdd infd rest) (k.register infd) (.accept rest)
  | done (fd : ℕ) (rest : List Event)
      (h : ∀ s, k.file fd = some s → s.error = true ∨ s.eof = true ∧ s.buffer = []) :
      LoopStep sfd x k (.read fd rest) k (.close fd rest)
  | again {s : Stream Byte} (fd : ℕ) (rest : List Event) (h : k.file fd = some s) (hb : s.buffer = []) :
      LoopStep sfd x k (.read fd rest) k (.events rest)
  | data {s : Stream Byte} (fd : ℕ) (rest : List Event) (h : k.file fd = some s) :
      LoopStep sfd x k (.read fd rest) (k.taken fd x.count) (.write fd (s.buffer.take x.count) rest)
  | write (fd : ℕ) (buf : List Byte) (rest : List Event) :
      LoopStep sfd x k (.write fd buf rest) (k.serve fd buf) (.read fd rest)
  | close (fd : ℕ) (rest : List Event) : LoopStep sfd x k (.close fd rest) (k.close sfd fd) (.events rest)
  | abort (l : Loc) : LoopStep sfd x k l k.ended .aborted

theorem loopStep_cases {sfd : ℕ} {x : Input} {k : Net Byte} {l : Loc} {r : Net Byte × Loc}
    (h : loopStep sfd x k l = some r) : LoopStep sfd x k l r.1 r.2 := by
  cases l with
  | wait =>
    simp only [loopStep] at h
    split_ifs at h
    · cases h; exact .interrupted
    · obtain ⟨⟨k', evs⟩, hw, rfl⟩ := Option.map_eq_some_iff.mp h
      cases evs with
      | nil => exact .idle hw
      | cons e rest => exact .batch hw
  | events rest =>
    cases rest with
    | nil => cases h; exact .endBatch
    | cons e rest =>
      simp only [loopStep] at h
      split_ifs at h with he hs
      · cases h; exact .epollError e rest
      · cases h; exact .incoming e rest hs
      · cases h; exact .readable e rest
  | accept rest =>
    simp only [loopStep] at h
    split_ifs at h
    · cases h; exact .noAccept rest
    · obtain ⟨k', hk, rfl⟩ := Option.map_eq_some_iff.mp h
      exact .accept rest hk
  | nonBlocking infd rest =>
    simp only [loopStep] at h
    split_ifs at h
    · cases h; exact .abort _
    · cases h; exact .nonBlocking infd rest
  | ctlAdd infd rest =>
    simp only [loopStep] at h
    split_ifs at h
    · cases h; exact .abort _
    · cases h; exact .ctlAdd infd rest
  | read fd rest =>
    simp only [loopStep] at h
    split_ifs at h
    have hread := k.read_cases fd x.count x.fail
    generalize k.read fd x.count x.fail = result at h hread
    cases hread with
    | data hf _ _ => cases h; exact .data fd rest hf
    | eof hf hb he =>
      cases h
      exact .done fd rest fun s hs => Or.inr (by rw [Option.some.inj (hs.symm.trans hf)]; exact ⟨he, hb⟩)
    | again hf hb => cases h; exact .again fd rest hf hb
    | error he => cases h; exact .done fd rest fun s hs => Or.inl (he s hs).1
  | write fd buf rest =>
    simp only [loopStep] at h
    split_ifs at h
    · cases h; exact .abort _
    · cases h; exact .write fd buf rest
  | close fd rest => cases h; exact .close fd rest
  | aborted => cases h

end PoolStudy.EpollExample.Model
