import PoolStudy.Lib.Transition
import Mathlib.Data.ENat.Basic

/-! # Bounded first-in-first-out queues

The abstract queue keeps its whole history: `inp`, what was ever accepted, `out`, what was ever handed
out, and `items`, what waits. It accepts an item while fewer than `cap` wait (`cap = ⊤`: always) and
hands out the oldest one. That nothing is lost, duplicated or reordered is the equation
`inp = out ++ items`, which every reachable queue satisfies (`fifo_history`). -/

namespace PoolStudy.Lib.Fifo

open PoolStudy.Lib.Transition

/-- A queue with its history. -/
structure Queue (α : Type) where
  inp : List α
  out : List α
  items : List α

/-- What can be done to a queue. -/
inductive Op (α : Type)
  | push (x : α)
  | pop

variable {α : Type}

/-- **The bounded queue.** -/
def fifo (α : Type) (cap : ℕ∞) : Lts (Queue α) (Op α) where
  init q := q = ⟨[], [], []⟩
  next q
    | .push x => if q.items.length < cap then some ⟨q.inp ++ [x], q.out, q.items ++ [x]⟩ else none
    | .pop =>
      match q.items with
      | [] => none
      | x :: l => some ⟨q.inp, q.out ++ [x], l⟩

/-- **Nothing is lost, duplicated or reordered, and the bound is kept.** -/
theorem fifo_history {cap : ℕ∞} {q : Queue α} (h : Reach (fifo α cap) anyStep q) :
    q.inp = q.out ++ q.items ∧ q.items.length ≤ cap := by
  refine h.induct (I := fun q => q.inp = q.out ++ q.items ∧ (q.items.length : ℕ∞) ≤ cap)
    (fun q hq => ?_) ?_
  · subst hq; simp
  · rintro q (x | -) q' - ⟨hh, hl⟩ - hs
    · simp only [fifo, Option.ite_none_right_eq_some, Option.some.injEq] at hs
      obtain ⟨hlt, rfl⟩ := hs
      refine ⟨by simp [hh], ?_⟩
      simpa using Order.add_one_le_of_lt hlt
    · simp only [fifo] at hs
      split at hs
      · cases hs
      · next x l hi =>
        simp only [Option.some.injEq] at hs
        subst hs
        rw [hi] at hh hl
        refine ⟨by simpa using hh, le_trans ?_ hl⟩
        simp

/-- An accepting step. -/
theorem fifo_push {cap : ℕ∞} {q : Queue α} {x : α} (h : q.items.length < cap) :
    Runs (fifo α cap) anyStep q ⟨q.inp ++ [x], q.out, q.items ++ [x]⟩ :=
  .single ⟨.push x, trivial, if_pos h⟩

/-- A step that hands out the oldest item. -/
theorem fifo_pop {cap : ℕ∞} {inp out l : List α} {x : α} :
    Runs (fifo α cap) anyStep ⟨inp, out, x :: l⟩ ⟨inp, out ++ [x], l⟩ :=
  .single ⟨.pop, trivial, rfl⟩

end PoolStudy.Lib.Fifo
