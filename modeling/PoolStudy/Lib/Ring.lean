import Mathlib.Data.Int.ModEq
import Mathlib.Data.List.Range
import Mathlib.Logic.Function.Basic
import Mathlib.Tactic.Ring

/-! # Ring buffers

`slots buf size i k` are the `k` entries of a buffer of `size` entries that start at index `i` and wrap
around. Writing behind the last of them appends (`slots_write`), advancing the start drops the first
(`slots_succ`); the test a program uses to wrap an index agrees with the remainder (`wrap_eq`). -/

namespace PoolStudy.Lib.Ring

variable {α : Type}

/-- The next index, wrapped by comparison. -/
def wrap (size i : ℤ) : ℤ := if i + 1 = size then 0 else i + 1

/-- `k` entries from index `i` on, wrapping. -/
def slots (buf : ℤ → α) (size i : ℤ) (k : ℕ) : List α :=
  (List.range k).map fun j : ℕ => buf ((i + (j : ℤ)) % size)

@[simp] theorem length_slots (buf : ℤ → α) (size i : ℤ) (k : ℕ) :
    (slots buf size i k).length = k := by simp [slots]

theorem wrap_eq {size i : ℤ} (h0 : 0 ≤ i) (h : i < size) : wrap size i = (i + 1) % size := by
  unfold wrap
  split_ifs with hi
  · rw [hi, Int.emod_self]
  · rw [Int.emod_eq_of_lt (by omega) (by omega)]

/-- Two offsets below the size do not meet. -/
theorem offset_inj {size i : ℤ} {j k : ℕ} (hj : j < size) (hk : k < size)
    (h : (i + j) % size = (i + k) % size) : j = k := by
  have hmod : (j : ℤ) ≡ k [ZMOD size] := Int.ModEq.add_left_cancel' i h
  have hjk : (j : ℤ) = k := by
    rw [← Int.emod_eq_of_lt (Int.natCast_nonneg j) hj, ← Int.emod_eq_of_lt (Int.natCast_nonneg k) hk]
    exact hmod
  exact_mod_cast hjk

/-- **Appending**: an entry written behind the last one. -/
theorem slots_write {buf : ℤ → α} {size i : ℤ} {k : ℕ} (hk : k < size) (x : α) :
    slots (Function.update buf ((i + k) % size) x) size i (k + 1) = slots buf size i k ++ [x] := by
  unfold slots
  rw [List.range_succ, List.map_append]
  congr 1
  · refine List.map_congr_left fun j hj => ?_
    have hj := List.mem_range.mp hj
    rw [Function.update_of_ne]
    intro h
    have := offset_inj (by omega) hk h
    omega
  · simp

/-- **Dropping the first**: the start moves on by one. -/
theorem slots_succ (buf : ℤ → α) (size i : ℤ) (k : ℕ) :
    slots buf size i (k + 1) = buf (i % size) :: slots buf size ((i + 1) % size) k := by
  unfold slots
  rw [List.range_succ_eq_map, List.map_cons, List.map_map]
  congr 1
  · simp
  · refine List.map_congr_left fun j _ => ?_
    simp only [Function.comp, Int.emod_add_emod]
    congr 2
    push_cast
    ring

end PoolStudy.Lib.Ring
