import PoolStudy.Lib.Pieces
import PoolStudy.Lib.Sockets
import PoolStudy.Lib.Transition

/-! # The client of the epoll server: data and steps

`send_and_recv` of `epoll/client.c`: `select` waits for `stdin` and for the connection; what comes from the connection
is written to `stdout`, and for an announcement of `stdin` one call of `fgets` is made and what it returns is sent,
without its last character. `select` looks at the descriptor, `fgets` at the buffer of the `FILE`: it takes its bytes
from there, and fills it, up to `bufSize` bytes at a time, when it is empty.

`stdin` and the connection are streams of `Lib.Sockets`. A `read` that the buffer of the `FILE` makes blocks as long
as there is nothing to read; how many bytes it returns is left open, as is whether a call on a stream in error fails.
`send` and `recv` are arrays of `MAXLINE` bytes, cleared before they are filled. An access outside of them leads to
`outside`, where nothing is known any more: for `send` if the line begins with a zero, for `recv` if it holds none.
What `write` returns is not looked at. `taken` and `sent` are history. -/

namespace PoolStudy.EpollClient.Model

open PoolStudy.Lib.Transition PoolStudy.Lib.Sockets PoolStudy.Lib.Pieces

abbrev Byte := UInt8

/-- `MAXLINE`. -/
def maxLine : ℕ := 1024

/-- `'\n'`. -/
def newline : Byte := 10

/-- Where the loop is. At `recv` the connection is in `rset`, and `stdin` is if the flag says so; at `got`, `fgets` has
returned something, at `ended` it has not. -/
inductive Loc
  | select
  | recv (stdin : Bool)
  | fgets (buf : List Byte)
  | got (buf : List Byte)
  | quit (buf : List Byte)
  | closed
  | ended
  | exited
  | outside
  deriving DecidableEq

/-- `stdin` and the buffer of its `FILE`, the connection, and where the loop is. -/
structure State where
  stdin : Stream Byte
  file : List Byte
  conn : Stream Byte
  loc : Loc
  taken : List (List Byte)
  sent : List (List Byte)
  shown : List (List Byte)

/-- What a step leaves open: how many bytes a `read` for the `FILE` returns, and whether the call fails. -/
structure Input where
  count : ℕ := 0
  fail : Bool := false

/-- `fgets` has what it was asked for. -/
def full (buf : List Byte) : Bool := buf.getLast? = some newline || buf.length = maxLine - 1

/-- The string in an array that holds `buf` and zeros behind it. -/
def string (buf : List Byte) : List Byte := buf.takeWhile (· ≠ 0)

/-- The line that is sent. -/
def message (buf : List Byte) : List Byte := (string buf).dropLast

/-- `"q"`. -/
def quitLine : List Byte := [113]

/-- **`select`.** -/
def selectStep (x : Input) (c : State) : Option State :=
  if x.fail then some { c with loc := .exited }
  else if c.conn.mask.any then some { c with loc := .recv c.stdin.mask.any }
  else if c.stdin.mask.any then some { c with loc := .fgets [] }
  else none

/-- What was read is written to `stdout`, the whole array of it. -/
def display (c : State) (stdin : Bool) (buf : List Byte) : State :=
  { c with
    conn := { c.conn with buffer := c.conn.buffer.drop maxLine }
    shown := c.shown ++ [buf ++ List.replicate (maxLine - buf.length) 0]
    loc := if stdin then .fgets [] else .select }

/-- **The connection is in `rset`.** -/
def recvStep (x : Input) (c : State) (stdin : Bool) : Option State :=
  if c.conn.error && x.fail then some { c with loc := .closed }
  else if c.conn.buffer = [] then (if c.conn.eof then some { c with loc := .closed } else none)
  else if 0 ∈ c.conn.buffer.take maxLine ∨ c.conn.buffer.length < maxLine then
    some (display c stdin (c.conn.buffer.take maxLine))
  else some { c with loc := .outside }

/-- `fgets` with an empty `FILE`. -/
def fill (bufSize : ℕ) (x : Input) (c : State) (buf : List Byte) : Option State :=
  if c.stdin.error && x.fail then some { c with loc := .ended }
  else if c.stdin.buffer = [] then
    if c.stdin.eof then some { c with loc := if buf = [] then .ended else .got buf } else none
  else if 0 < x.count ∧ x.count ≤ bufSize then
    some { c with
      file := c.stdin.buffer.take x.count
      stdin := { c.stdin with buffer := c.stdin.buffer.drop x.count } }
  else none

/-- **`fgets`**, byte by byte. -/
def fgetsStep (bufSize : ℕ) (x : Input) (c : State) (buf : List Byte) : Option State :=
  match c.file with
  | b :: file => some { c with
      file := file
      loc := if full (buf ++ [b]) then .got (buf ++ [b]) else .fgets (buf ++ [b]) }
  | [] => fill bufSize x c buf

/-- **The line is sent**, or the loop is left. -/
def sendStep (c : State) (buf : List Byte) : State :=
  if string buf = [] then { c with loc := .outside }
  else if message buf = quitLine then { c with loc := .quit buf }
  else { c with taken := c.taken ++ [buf], sent := c.sent ++ [message buf], loc := .select }

/-- **`send_and_recv`.** -/
def loopStep (bufSize : ℕ) (x : Input) (c : State) : Option State :=
  match c.loc with
  | .select => selectStep x c
  | .recv stdin => recvStep x c stdin
  | .fgets buf => fgetsStep bufSize x c buf
  | .got buf => some (sendStep c buf)
  | _ => none

/-- Something happens on `stdin` or on the connection, or the loop takes a step. -/
inductive Act
  | stdin (a : Arrival Byte)
  | conn (a : Arrival Byte)
  | loop (x : Input)

/-- **The client.** -/
def client (bufSize : ℕ) : Lts State Act where
  init c := c = ⟨{}, [], {}, .select, [], [], []⟩
  next c
    | .stdin a => some { c with stdin := c.stdin.arrive a }
    | .conn a => some { c with conn := c.conn.arrive a }
    | .loop x => loopStep bufSize x c

/-! ### What a step can do -/

/-- **The outcomes of a step of the loop**, as far as `stdin` is concerned. -/
inductive LoopStep (x : Input) (c : State) : State → Prop
  | stop {l : Loc} (h : l = .closed ∨ l = .exited ∨ l = .outside) : LoopStep x c { c with loc := l }
  | announced (hl : c.loc = .select ∨ ∃ b, c.loc = .recv b) {l : Loc} {conn : Stream Byte}
      {shown : List (List Byte)} (hl' : l = .select ∨ (∃ b, l = .recv b) ∨ l = .fgets []) :
      LoopStep x c { c with conn := conn, shown := shown, loc := l }
  | take {buf file : List Byte} {b : Byte} (hl : c.loc = .fgets buf) (hf : c.file = b :: file) :
      LoopStep x c { c with
        file := file
        loc := if full (buf ++ [b]) then .got (buf ++ [b]) else .fgets (buf ++ [b]) }
  | failed (he : c.stdin.error = true) : LoopStep x c { c with loc := .ended }
  | ended (hl : c.loc = .fgets []) (hf : c.file = []) (hb : c.stdin.buffer = []) (he : c.stdin.eof = true) :
      LoopStep x c { c with loc := .ended }
  | last {buf : List Byte} (hl : c.loc = .fgets buf) (hf : c.file = []) (hb : c.stdin.buffer = [])
      (he : c.stdin.eof = true) (hne : buf ≠ []) : LoopStep x c { c with loc := .got buf }
  | fill {buf : List Byte} (hl : c.loc = .fgets buf) (hf : c.file = []) :
      LoopStep x c { c with
        file := c.stdin.buffer.take x.count
        stdin := { c.stdin with buffer := c.stdin.buffer.drop x.count } }
  | quit {buf : List Byte} (hl : c.loc = .got buf) (hs : string buf ≠ []) (hq : message buf = quitLine) :
      LoopStep x c { c with loc := .quit buf }
  | send {buf : List Byte} (hl : c.loc = .got buf) (hs : string buf ≠ []) (hq : message buf ≠ quitLine) :
      LoopStep x c { c with taken := c.taken ++ [buf], sent := c.sent ++ [message buf], loc := .select }

theorem selectStep_cases {x : Input} {c c' : State} (hl : c.loc = .select) (h : selectStep x c = some c') :
    LoopStep x c c' := by
  unfold selectStep at h
  split_ifs at h
  · cases h; exact .stop (Or.inr (Or.inl rfl))
  · cases h; exact .announced (Or.inl hl) (Or.inr (Or.inl ⟨_, rfl⟩))
  · cases h; exact .announced (Or.inl hl) (Or.inr (Or.inr rfl))

theorem recvStep_cases {x : Input} {c c' : State} {b : Bool} (hl : c.loc = .recv b)
    (h : recvStep x c b = some c') : LoopStep x c c' := by
  unfold recvStep at h
  split_ifs at h with he hb heof hz
  · cases h; exact .stop (Or.inl rfl)
  · cases h; exact .stop (Or.inl rfl)
  · cases h
    refine .announced (Or.inr ⟨b, hl⟩) ?_
    cases b with
    | true => exact Or.inr (Or.inr rfl)
    | false => exact Or.inl rfl
  · cases h; exact .stop (Or.inr (Or.inr rfl))

theorem fgetsStep_cases {bufSize : ℕ} {x : Input} {c c' : State} {buf : List Byte} (hl : c.loc = .fgets buf)
    (h : fgetsStep bufSize x c buf = some c') : LoopStep x c c' := by
  unfold fgetsStep at h
  split at h
  · next b file hf => cases h; exact .take hl hf
  · next hf =>
    unfold Model.fill at h
    split_ifs at h with he hb heof hne hcount
    · cases h
      rw [Bool.and_eq_true] at he
      exact .failed he.1
    · cases h
      subst hne
      exact .ended hl hf hb heof
    · cases h; exact .last hl hf hb heof hne
    · cases h; exact .fill hl hf

theorem loopStep_cases {bufSize : ℕ} {x : Input} {c c' : State} (h : loopStep bufSize x c = some c') :
    LoopStep x c c' := by
  unfold loopStep at h
  split at h
  · next hl => exact selectStep_cases hl h
  · next b hl => exact recvStep_cases hl h
  · next buf hl => exact fgetsStep_cases hl h
  · next buf hl =>
    rw [Option.some.injEq] at h
    subst h
    unfold sendStep
    split_ifs with hs hq
    · exact .stop (Or.inr (Or.inr rfl))
    · exact .quit hl hs hq
    · exact .send hl hs hq
  · cases h

end PoolStudy.EpollClient.Model
