import Mathlib.Tactic.Ring

/-! # The threaded echo server of libevent-thread: what it echoes

`buffered_on_read` moves the input of the connection to the output buffer of its client, in chunks of 4096 bytes, and
then queues the output buffer for sending. The length of the input is a `size_t`; the loop reads it into an `int`
before every chunk. So an input of `2 ^ 31` bytes or more is not moved as a whole (`copyLoop_eq`): the loop ends as soon
as the length, taken modulo `2 ^ 32`, is zero or has its highest bit set. -/

namespace PoolStudy.EchoServer.Reading

abbrev Bytes := List UInt8

/-- `bev->input` and `bev->output`, and `client->output_buffer`. -/
structure Buffers where
  input : Bytes
  output : Bytes
  outputBuffer : Bytes

/-- A `size_t` as an `int`. -/
def toInt (len : ℕ) : ℤ := (BitVec.ofNat 32 len).toInt

/-- `evbuffer_remove`: the first `n` bytes go to the front of `data`. -/
def evbufferRemove (buf data : Bytes) (n : ℕ) : Bytes × Bytes :=
  (buf.drop n, buf.take n ++ data.drop (buf.take n).length)

/-- `evbuffer_add` of the first `n` bytes of `data`. -/
def evbufferAdd (buf data : Bytes) (n : ℕ) : Bytes := buf ++ data.take n

/-- The size of `data`. -/
def dataSize : ℕ := 4096

/-- The size of the next chunk, for a positive `nbytes`. -/
def chunk (nbytes : ℤ) : ℕ := if nbytes > dataSize then dataSize else nbytes.toNat

theorem chunk_pos {nbytes : ℤ} (h : nbytes > 0) : 0 < chunk nbytes := by
  unfold chunk dataSize
  split_ifs <;> omega

/-- **The loop of `buffered_on_read`**; `data` holds what the last chunk left there. -/
def copyLoop (data : Bytes) (b : Buffers) : Buffers :=
  if _h : toInt b.input.length > 0 then
    let n := chunk (toInt b.input.length)
    let r := evbufferRemove b.input data n
    copyLoop r.2 { b with input := r.1, outputBuffer := evbufferAdd b.outputBuffer r.2 n }
  else b
termination_by b.input.length
decreasing_by
  have hpos : 0 < b.input.length := by
    by_contra h0
    have h0 : b.input.length = 0 := by omega
    rw [h0] at _h
    exact absurd _h (by decide)
  have hn := chunk_pos _h
  simp only [evbufferRemove, List.length_drop]
  omega

/-- **`buffered_on_read`**: the buffers afterwards, and whether the client is closed because
`bufferevent_write_buffer` failed. -/
def bufferedOnRead (data : Bytes) (b : Buffers) (writeFailed : Bool) : Buffers × Bool :=
  let b := copyLoop data b
  if writeFailed then (b, true) else ({ b with output := b.output ++ b.outputBuffer, outputBuffer := [] }, false)

/-! ### The conversion -/

/-- The number of bytes that the loop moves. -/
def moved (len : ℕ) : ℕ := if len % 2 ^ 32 < 2 ^ 31 then len % 2 ^ 32 else 0

theorem toInt_eq (len : ℕ) :
    toInt len = if len % 2 ^ 32 < 2 ^ 31 then ((len % 2 ^ 32 : ℕ) : ℤ) else ((len % 2 ^ 32 : ℕ) : ℤ) - 2 ^ 32 := by
  unfold toInt
  rw [BitVec.toInt_eq_toNat_cond, BitVec.toNat_ofNat]
  split_ifs <;> omega

/-- The loop goes on as long as there is something it will move. -/
theorem toInt_pos_iff (len : ℕ) : toInt len > 0 ↔ 0 < moved len := by
  rw [toInt_eq, moved]
  split_ifs <;> omega

theorem toInt_of_pos {len : ℕ} (h : toInt len > 0) : toInt len = moved len := by
  rw [toInt_eq] at h ⊢
  unfold moved
  split_ifs at h ⊢ <;> omega

theorem moved_le (len : ℕ) : moved len ≤ len := by
  unfold moved
  split_ifs
  · exact Nat.mod_le _ _
  · exact Nat.zero_le _

/-- A chunk is part of what the loop moves, and the rest is moved later. -/
theorem moved_sub {len : ℕ} (h : 0 < moved len) :
    chunk (moved len) ≤ moved len ∧ moved (len - chunk (moved len)) = moved len - chunk (moved len) := by
  unfold chunk dataSize
  unfold moved at h ⊢
  split_ifs at h ⊢ <;> omega

/-- The bytes of a chunk go from the input to the output buffer, whatever `data` held. -/
theorem evbufferAdd_remove {input : Bytes} {n : ℕ} (hn : n ≤ input.length) (out data : Bytes) :
    evbufferAdd out (evbufferRemove input data n).2 n = out ++ input.take n := by
  have hlen : (input.take n).length = n := List.length_take_of_le hn
  rw [evbufferAdd, evbufferRemove, List.take_left' hlen]

/-! ### The loop -/

/-- **What the loop moves.** -/
theorem copyLoop_eq (data : Bytes) (b : Buffers) :
    copyLoop data b = { b with
      input := b.input.drop (moved b.input.length)
      outputBuffer := b.outputBuffer ++ b.input.take (moved b.input.length) } := by
  induction data, b using copyLoop.induct with
  | case1 data b h n r ih =>
    have hpos := (toInt_pos_iff _).mp h
    have hn : n = chunk (moved b.input.length) := by
      show chunk (toInt b.input.length) = _
      rw [toInt_of_pos h]
    obtain ⟨hle, hsub⟩ := moved_sub hpos
    rw [← hn] at hle hsub
    have hr : r.1 = b.input.drop n := rfl
    have hadd : evbufferAdd b.outputBuffer r.2 n = b.outputBuffer ++ b.input.take n :=
      evbufferAdd_remove (Nat.le_trans hle (moved_le _)) _ _
    rw [copyLoop, dif_pos h]
    refine ih.trans ?_
    simp only [hr, hadd, List.length_drop, hsub, List.drop_drop, List.append_assoc]
    rw [Nat.add_sub_cancel' hle, ← List.take_add, Nat.add_sub_cancel' hle]
  | case2 data b h =>
    have hzero : moved b.input.length = 0 := by
      have := (toInt_pos_iff b.input.length).not.mp h
      omega
    rw [copyLoop, dif_neg h, hzero]
    simp

/-- The loop moves everything exactly if the length fits an `int`. -/
theorem le_moved_iff (len : ℕ) : len ≤ moved len ↔ len < 2 ^ 31 := by
  unfold moved
  split_ifs <;> omega

/-- What is left of the input. -/
theorem bufferedOnRead_input (data : Bytes) (b : Buffers) :
    (bufferedOnRead data b false).1.input = b.input.drop (moved b.input.length) := by
  simp [bufferedOnRead, copyLoop_eq]

/-- What is queued for sending. -/
theorem bufferedOnRead_output (data : Bytes) (b : Buffers) :
    (bufferedOnRead data b false).1.output =
      b.output ++ (b.outputBuffer ++ b.input.take (moved b.input.length)) := by
  simp [bufferedOnRead, copyLoop_eq]

/-- **`buffered_on_read` echoes the whole input exactly if it has fewer than `2 ^ 31` bytes.** -/
theorem echoes_iff (data : Bytes) (b : Buffers) :
    ((bufferedOnRead data b false).1.input = [] ∧
      (bufferedOnRead data b false).1.output = b.output ++ (b.outputBuffer ++ b.input)) ↔
    b.input.length < 2 ^ 31 := by
  rw [bufferedOnRead_input, bufferedOnRead_output, List.drop_eq_nil_iff, ← le_moved_iff]
  refine ⟨fun h => h.1, fun h => ⟨h, ?_⟩⟩
  rw [List.take_of_length_le h]

/-- **An input of `2 ^ 31` bytes stays where it is**: its length is negative as an `int`. -/
theorem input_stays : (bufferedOnRead [] ⟨List.replicate (2 ^ 31) 0, [], []⟩ false).1.input ≠ [] ∧
    (bufferedOnRead [] ⟨List.replicate (2 ^ 31) 0, [], []⟩ false).1.output = [] := by
  have hlen : (List.replicate (2 ^ 31) (0 : UInt8)).length = 2 ^ 31 := List.length_replicate
  have hmoved : moved (2 ^ 31) = 0 := by decide
  generalize List.replicate (2 ^ 31) (0 : UInt8) = input at hlen ⊢
  rw [bufferedOnRead_input, bufferedOnRead_output, hlen, hmoved, List.drop_zero]
  refine ⟨fun h => ?_, rfl⟩
  have h : input = [] := h
  rw [h] at hlen
  exact absurd hlen (by decide)

end PoolStudy.EchoServer.Reading
