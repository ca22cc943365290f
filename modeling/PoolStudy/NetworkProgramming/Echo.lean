import Mathlib.Data.List.GetD
import Mathlib.Data.List.TakeWhile
import Mathlib.Tactic.Common

/-! # The TCP echo servers of network_programming

`connection_handler` of `multi_server.c` greets its client and then writes back what `recv` has put into
`client_message`, up to the first zero byte: the length is that of `strlen`, not what `recv` returned. `main` of
`server.c` runs the same loop for one client, behind a greeting of its own. A chunk is what one `recv` delivers; the
loop ends when `recv` returns `0` or fails.

`client_message` is not initialised, and `strlen` reads on behind it if it holds no zero byte. The memory from
`client_message` on is a list of bytes of any length, behind whose end there are zeros.

The servers repeat exactly what they have received if and only if no chunk holds a zero byte, no chunk is shorter than
an earlier one, and the byte behind every chunk is zero initially (`echo_iff`). -/

namespace PoolStudy.NetworkProgramming.Echo

/-! ### The servers -/

abbrev Bytes := List UInt8

/-- The size of `client_message`. -/
def messageSize : ℕ := 2000

/-- What one `recv` delivers. -/
structure Chunk where
  bytes : Bytes
  pos : 0 < bytes.length
  le : bytes.length ≤ messageSize

/-- **`recv`** into `client_message`: the rest of the memory stays. -/
def recv (memory : Bytes) (c : Chunk) : Bytes := c.bytes ++ memory.drop c.bytes.length

/-- **`strlen`.** -/
def strlen (memory : Bytes) : ℕ := (memory.takeWhile (· ≠ 0)).length

/-- `write` of the first `n` bytes. -/
def write (memory : Bytes) (n : ℕ) : Bytes := memory.take n

/-- **The loop** of both servers: what they write for the chunks, one `write` after the other. -/
def echoLoop : Bytes → List Chunk → List Bytes
  | _, [] => []
  | memory, c :: cs => write (recv memory c) (strlen (recv memory c)) :: echoLoop (recv memory c) cs

/-- The bytes of a string literal. -/
def literal (s : String) : Bytes := s.toUTF8.toList

/-- **`connection_handler`**: what it writes, with `client_message` at the start of `memory`. -/
def connectionHandler (memory : Bytes) (cs : List Chunk) : List Bytes :=
  literal "Greetings! I am your connection handler\n" ::
    literal "Now type something and I shall repeat what you type \n" :: echoLoop memory cs

/-- **`main`** of `server.c`. It sends 37 bytes of a string of 35: the zero at its end, and the byte behind. -/
def serverMain (behind : UInt8) (memory : Bytes) (cs : List Chunk) : List Bytes :=
  (literal "This is a test string from server!\n" ++ [0, behind]) :: echoLoop memory cs

/-! ### One chunk -/

/-- The byte at index `k`. -/
def byteAt (memory : Bytes) (k : ℕ) : UInt8 := memory.getD k 0

/-- What is written is what stands before the first zero. -/
theorem write_strlen (memory : Bytes) : write memory (strlen memory) = memory.takeWhile (· ≠ 0) :=
  (List.prefix_iff_eq_take.mp (List.takeWhile_prefix _)).symm

/-- What is written holds no zero. -/
theorem zero_notMem_write (memory : Bytes) : (0 : UInt8) ∉ write memory (strlen memory) := by
  rw [write_strlen]
  intro h
  simpa using List.mem_takeWhile_imp h

/-- A chunk without a zero is written, and what stands behind it up to the first zero. -/
theorem write_recv {c : Chunk} (hc : (0 : UInt8) ∉ c.bytes) (memory : Bytes) :
    write (recv memory c) (strlen (recv memory c)) =
      c.bytes ++ (memory.drop c.bytes.length).takeWhile (· ≠ 0) := by
  rw [write_strlen, recv, List.takeWhile_append_of_pos]
  intro b hb
  simpa using fun h0 : b = 0 => hc (h0 ▸ hb)

/-- Nothing more is written exactly if the byte behind the chunk is zero. -/
theorem takeWhile_drop_eq_nil_iff (memory : Bytes) (k : ℕ) :
    (memory.drop k).takeWhile (· ≠ 0) = [] ↔ byteAt memory k = 0 := by
  have hk : byteAt memory k = (memory.drop k).head?.getD 0 := by
    rw [byteAt, List.getD_eq_getElem?_getD, List.head?_drop]
  rw [hk]
  cases memory.drop k with
  | nil => simp
  | cons b l =>
    by_cases hb : b = 0
    · simp [hb]
    · simp [hb]

/-- A chunk changes the bytes it covers. -/
theorem byteAt_recv (memory : Bytes) (c : Chunk) (k : ℕ) :
    byteAt (recv memory c) k = if k < c.bytes.length then byteAt c.bytes k else byteAt memory k := by
  unfold byteAt recv
  split_ifs with hk
  · rw [List.getD_append _ _ _ _ hk]
  · rw [List.getD_append_right _ _ _ _ (by omega), List.getD_eq_getElem?_getD, List.getElem?_drop,
      List.getD_eq_getElem?_getD]
    congr 2
    omega

/-- The bytes of a chunk without a zero are not zero. -/
theorem byteAt_ne_zero {c : Chunk} (hc : (0 : UInt8) ∉ c.bytes) {k : ℕ} (hk : k < c.bytes.length) :
    byteAt c.bytes k ≠ 0 := by
  rw [byteAt, List.getD_eq_getElem _ _ hk]
  exact fun h0 => hc (h0 ▸ List.getElem_mem hk)

/-! ### The loop -/

/-- The bytes of all chunks. -/
def received (cs : List Chunk) : Bytes := (cs.map Chunk.bytes).flatten

/-- **The byte behind every chunk is zero when the chunk has arrived.** -/
def Ends : Bytes → List Chunk → Prop
  | _, [] => True
  | memory, c :: cs => byteAt memory c.bytes.length = 0 ∧ Ends (recv memory c) cs

theorem zero_notMem_echoLoop : ∀ (cs : List Chunk) (memory : Bytes), (0 : UInt8) ∉ (echoLoop memory cs).flatten
  | [], memory => by simp [echoLoop]
  | c :: cs, memory => by
    rw [echoLoop, List.flatten_cons, List.mem_append, not_or]
    exact ⟨zero_notMem_write _, zero_notMem_echoLoop cs _⟩

/-- At least what was received is written. -/
theorem received_le : ∀ (cs : List Chunk) (memory : Bytes), (∀ c ∈ cs, (0 : UInt8) ∉ c.bytes) →
    (received cs).length ≤ (echoLoop memory cs).flatten.length
  | [], memory, _ => by simp [received]
  | c :: cs, memory, h => by
    have ih := received_le cs (recv memory c) fun d hd => h d (List.mem_cons_of_mem _ hd)
    have hc := write_recv (h c List.mem_cons_self) memory
    rw [echoLoop, List.flatten_cons, hc]
    simp only [received, List.map_cons, List.flatten_cons, List.length_append] at ih ⊢
    omega

/-- **What is written is what was received** if nothing more is written for any chunk, and only then. -/
theorem echoLoop_eq_iff : ∀ (cs : List Chunk) (memory : Bytes), (∀ c ∈ cs, (0 : UInt8) ∉ c.bytes) →
    ((echoLoop memory cs).flatten = received cs ↔ Ends memory cs)
  | [], memory, _ => by simp [echoLoop, received, Ends]
  | c :: cs, memory, h => by
    have hcs : ∀ d ∈ cs, (0 : UInt8) ∉ d.bytes := fun d hd => h d (List.mem_cons_of_mem _ hd)
    have ih := echoLoop_eq_iff cs (recv memory c) hcs
    have hle := received_le cs (recv memory c) hcs
    have hrec : received (c :: cs) = c.bytes ++ received cs := by simp [received]
    rw [echoLoop, List.flatten_cons, write_recv (h c List.mem_cons_self), hrec, List.append_assoc,
      List.append_cancel_left_eq, Ends, ← ih, ← takeWhile_drop_eq_nil_iff]
    refine ⟨fun heq => ?_, fun ⟨hnil, heq⟩ => by rw [hnil, List.nil_append, heq]⟩
    -- the rest alone is at least as long as what is left to be written
    have hnil : (memory.drop c.bytes.length).takeWhile (· ≠ 0) = [] := by
      have hlen := congrArg List.length heq
      rw [List.length_append] at hlen
      exact List.length_eq_zero_iff.mp (by omega)
    rw [hnil, List.nil_append] at heq
    exact ⟨hnil, heq⟩

/-- The chunks grow, and the byte behind each of them is zero from the start. -/
theorem ends_iff : ∀ (cs : List Chunk) (memory : Bytes), (∀ c ∈ cs, (0 : UInt8) ∉ c.bytes) →
    (Ends memory cs ↔ cs.Pairwise (fun c d => c.bytes.length ≤ d.bytes.length) ∧
      ∀ c ∈ cs, byteAt memory c.bytes.length = 0)
  | [], memory, _ => by simp [Ends]
  | c :: cs, memory, h => by
    have hcs : ∀ d ∈ cs, (0 : UInt8) ∉ d.bytes := fun d hd => h d (List.mem_cons_of_mem _ hd)
    have hbehind : ∀ d : Chunk, byteAt (recv memory c) d.bytes.length = 0 ↔
        c.bytes.length ≤ d.bytes.length ∧ byteAt memory d.bytes.length = 0 := by
      intro d
      rw [byteAt_recv]
      split_ifs with hlt
      · exact iff_of_false (byteAt_ne_zero (h c List.mem_cons_self) hlt) (by omega)
      · simp [Nat.le_of_not_lt hlt]
    rw [Ends, ends_iff cs _ hcs, List.pairwise_cons, List.forall_mem_cons]
    simp only [hbehind]
    constructor
    · rintro ⟨hc, hpair, hall⟩
      exact ⟨⟨fun d hd => (hall d hd).1, hpair⟩, hc, fun d hd => (hall d hd).2⟩
    · rintro ⟨⟨hle, hpair⟩, hc, hall⟩
      exact ⟨hc, hpair, fun d hd => ⟨hle d hd, hall d hd⟩⟩

/-! ### The result -/

/-- **No chunk holds a zero byte or is shorter than an earlier one, and the byte behind each is zero initially.** -/
structure Repeats (memory : Bytes) (cs : List Chunk) : Prop where
  noZero : ∀ c ∈ cs, (0 : UInt8) ∉ c.bytes
  grow : cs.Pairwise fun c d => c.bytes.length ≤ d.bytes.length
  behind : ∀ c ∈ cs, byteAt memory c.bytes.length = 0

theorem echoLoop_flatten_iff (memory : Bytes) (cs : List Chunk) :
    (echoLoop memory cs).flatten = received cs ↔ Repeats memory cs := by
  have hzero : (echoLoop memory cs).flatten = received cs → ∀ c ∈ cs, (0 : UInt8) ∉ c.bytes := by
    intro heq c hc h0
    refine zero_notMem_echoLoop cs memory ?_
    rw [heq]
    exact List.mem_flatten_of_mem (List.mem_map_of_mem hc) h0
  constructor
  · intro heq
    obtain ⟨hgrow, hbehind⟩ := (ends_iff cs memory (hzero heq)).mp ((echoLoop_eq_iff cs memory (hzero heq)).mp heq)
    exact ⟨hzero heq, hgrow, hbehind⟩
  · intro h
    exact (echoLoop_eq_iff cs memory h.noZero).mpr ((ends_iff cs memory h.noZero).mpr ⟨h.grow, h.behind⟩)

/-- **The servers repeat what they have received**, behind their greetings, exactly if no chunk holds a zero byte or
is shorter than an earlier one, and the byte behind each is zero initially. -/
theorem echo_iff (memory : Bytes) (behind : UInt8) (cs : List Chunk) :
    (((connectionHandler memory cs).drop 2).flatten = received cs ↔ Repeats memory cs) ∧
    (((serverMain behind memory cs).drop 1).flatten = received cs ↔ Repeats memory cs) :=
  ⟨echoLoop_flatten_iff memory cs, echoLoop_flatten_iff memory cs⟩

/-- **The end of an earlier chunk is sent again**: after `hello`, the chunk `a` is answered by `aello`. -/
theorem echo_repeats_earlier : ∃ c d : Chunk, c.bytes = [104, 101, 108, 108, 111] ∧ d.bytes = [97] ∧
    (connectionHandler [] [c, d]).drop 2 = [[104, 101, 108, 108, 111], [97, 101, 108, 108, 111]] ∧
    ((connectionHandler [] [c, d]).drop 2).flatten ≠ received [c, d] :=
  ⟨⟨[104, 101, 108, 108, 111], by decide, by decide⟩, ⟨[97], by decide, by decide⟩, rfl, rfl, by decide, by decide⟩

end PoolStudy.NetworkProgramming.Echo
