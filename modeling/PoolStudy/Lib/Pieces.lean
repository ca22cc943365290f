import Mathlib.Data.List.Basic
import Mathlib.Tactic.Common

/-! # Cutting a stream into pieces

A reader takes the elements of a stream one by one, and hands out what it has collected when that is `full`. `cut` is
the whole of it: the pieces handed out, and what is collected at the end. It does not matter in which portions the
stream comes (`cut_append`).

`Reading full l ps acc rest`: of the stream `l` the pieces `ps` have been handed out, `acc` has been collected, and
`rest` is to come. -/

namespace PoolStudy.Lib.Pieces

variable {α : Type} {full : List α → Bool}

/-- **The pieces** of a stream, behind what has been collected. -/
def cut (full : List α → Bool) : List α → List α → List (List α) × List α
  | acc, [] => ([], acc)
  | acc, a :: l =>
    if full (acc ++ [a]) then ((acc ++ [a]) :: (cut full [] l).1, (cut full [] l).2) else cut full (acc ++ [a]) l

/-- **The portions do not matter.** -/
theorem cut_append (acc l m : List α) : cut full acc (l ++ m) =
    ((cut full acc l).1 ++ (cut full (cut full acc l).2 m).1, (cut full (cut full acc l).2 m).2) := by
  induction l generalizing acc with
  | nil => simp [cut]
  | cons a l ih =>
    simp only [List.cons_append, cut]
    split_ifs with h
    · rw [ih []]
      rfl
    · exact ih _

/-- Nothing is lost. -/
theorem cut_flatten (acc l : List α) : (cut full acc l).1.flatten ++ (cut full acc l).2 = acc ++ l := by
  induction l generalizing acc with
  | nil => simp [cut]
  | cons a l ih =>
    simp only [cut]
    split_ifs with h
    · rw [List.flatten_cons, List.append_assoc, ih []]
      simp
    · rw [ih]
      simp

/-- A piece is full. -/
theorem full_of_mem {acc l p : List α} (h : p ∈ (cut full acc l).1) : full p = true := by
  induction l generalizing acc with
  | nil => simp [cut] at h
  | cons a l ih =>
    simp only [cut] at h
    split_ifs at h with hf
    · rcases List.mem_cons.mp h with rfl | h
      · exact hf
      · exact ih h
    · exact ih h

/-- **Where a reader is** in the stream `l`. -/
structure Reading (full : List α → Bool) (l : List α) (ps : List (List α)) (acc rest : List α) : Prop where
  stream : l = ps.flatten ++ acc ++ rest
  taken : cut full [] (ps.flatten ++ acc) = (ps, acc)

variable {l acc rest : List α} {ps : List (List α)}

theorem Reading.start (l : List α) : Reading full l [] [] l := ⟨rfl, rfl⟩

/-- More of the stream comes. -/
theorem Reading.arrive (h : Reading full l ps acc rest) (m : List α) :
    Reading full (l ++ m) ps acc (rest ++ m) :=
  ⟨by rw [h.stream]; simp, h.taken⟩

/-- **One element is taken.** -/
theorem Reading.take {a : α} (h : Reading full l ps acc (a :: rest)) :
    (full (acc ++ [a]) = true → Reading full l (ps ++ [acc ++ [a]]) [] rest) ∧
      (full (acc ++ [a]) = false → Reading full l ps (acc ++ [a]) rest) := by
  have hcut : cut full [] (ps.flatten ++ (acc ++ [a])) =
      (ps ++ (cut full acc [a]).1, (cut full acc [a]).2) := by
    rw [← List.append_assoc, cut_append, h.taken]
  refine ⟨fun hf => ⟨?_, ?_⟩, fun hf => ⟨?_, ?_⟩⟩
  · rw [h.stream]
    simp
  · simp only [cut, hf, if_true] at hcut
    simpa using hcut
  · rw [h.stream]
    simp
  · simpa only [cut, hf, Bool.false_eq_true, if_false, List.append_nil] using hcut

/-- What is handed out and what is to come are the pieces of the stream. -/
theorem Reading.pieces (h : Reading full l ps acc rest) :
    cut full [] l = (ps ++ (cut full acc rest).1, (cut full acc rest).2) := by
  rw [h.stream, cut_append, h.taken]

end PoolStudy.Lib.Pieces
