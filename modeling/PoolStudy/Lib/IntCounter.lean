import Mathlib.Data.List.Perm.Subperm
import Mathlib.Data.List.Range
import Mathlib.Tactic.NormNum

/-! # An `int` beside a queue

A queue takes elements that are numbered in the order in which they were made, and an `int` is raised for every element
put in and lowered for every element taken out. `wrap` is what an `int` of 32 bits makes of a number. If only so many
elements are made that fewer than `2 ^ 31` have not been taken out (`Fits`), the `int` does not overflow: it is the
length of the queue after every step (`wrap_raise`, `wrap_lower`). -/

namespace PoolStudy.Lib.IntCounter

/-- The greatest `int`. -/
def intMax : ℕ := 2 ^ 31 - 1

/-- **The `int` that `z` is stored as**: the lowest 32 bits, read with their sign. -/
def wrap (z : ℤ) : ℤ := z.bmod (2 ^ 32)

@[simp] theorem wrap_zero : wrap 0 = 0 := rfl

theorem wrap_natCast {k : ℕ} (h : k ≤ intMax) : wrap k = k := by
  unfold intMax at h
  refine Int.bmod_eq_of_le ?_ ?_
  · norm_num
  · norm_num
    omega

theorem wrap_le {z : ℤ} (h : 0 ≤ z) : wrap z ≤ z := by
  have hle : z % ((2 ^ 32 : ℕ) : ℤ) ≤ z := by omega
  rw [wrap, Int.bmod_eq_emod]
  omega

/-- Of the elements below `next`, `gone` have been taken out, and the others are not too many to be counted. -/
def Fits (next gone : ℕ) : Prop := next ≤ gone + intMax

/-- There may be one element more. -/
def HasRoom (next gone : ℕ) : Prop := next < gone + intMax

instance (next gone : ℕ) : Decidable (HasRoom next gone) := inferInstanceAs (Decidable (_ < _))

theorem Fits.of_hasRoom {next gone : ℕ} (h : HasRoom next gone) : Fits (next + 1) gone := h

theorem Fits.mono {next gone gone' : ℕ} (h : Fits next gone) (hg : gone ≤ gone') : Fits next gone' :=
  le_trans h (Nat.add_le_add_right hg intMax)

section Queue

variable {gone queue : List ℕ} {next j : ℕ}

/-- Distinct numbers below `next` are at most `next` many. -/
theorem length_le_of_lt {l : List ℕ} (hn : l.Nodup) (hb : ∀ j ∈ l, j < next) : l.length ≤ next := by
  have hsub : l ⊆ List.range next := fun j hj => List.mem_range.mpr (hb j hj)
  simpa only [List.length_range] using (List.subperm_of_subset hn hsub).length_le

/-- The queue is not longer than the `int` can count. -/
theorem Fits.length_le (h : Fits next gone.length) (hn : (gone ++ queue).Nodup)
    (hb : ∀ j ∈ gone ++ queue, j < next) : queue.length ≤ intMax := by
  have hle := length_le_of_lt hn hb
  rw [List.length_append] at hle
  unfold Fits at h
  omega

/-- **The `int` is raised** for a new element `j`. -/
theorem wrap_raise (h : Fits next gone.length) (hn : (gone ++ (queue ++ [j])).Nodup)
    (hb : ∀ i ∈ gone ++ (queue ++ [j]), i < next) : wrap ((queue.length : ℤ) + 1) = (queue ++ [j]).length := by
  have hle := h.length_le hn hb
  rw [← wrap_natCast hle, List.length_append, List.length_singleton, Nat.cast_add, Nat.cast_one]

/-- **The `int` is lowered** for the first element `j`. -/
theorem wrap_lower (h : Fits next gone.length) (hn : (gone ++ j :: queue).Nodup)
    (hb : ∀ i ∈ gone ++ j :: queue, i < next) : wrap (((j :: queue).length : ℤ) - 1) = queue.length := by
  have hle := h.length_le hn hb
  have hsub : ((j :: queue).length : ℤ) - 1 = (queue.length : ℤ) := by simp
  rw [hsub, wrap_natCast (le_trans (Nat.le_succ _) hle)]

end Queue

end PoolStudy.Lib.IntCounter
