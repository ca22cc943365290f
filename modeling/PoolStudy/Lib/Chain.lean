import Mathlib.Data.List.Basic
import Mathlib.Logic.Function.Basic

/-! # Linked chains

`Linked next p l`: following `next` from `p` visits the nodes `l` in turn and ends at a null pointer. A
chain depends only on the links of its own nodes (`Linked.congr`) and grows at its end when the last node
is linked to a new one (`Linked.snoc`). The last node is the one without a link (`Linked.getLast?`), and a
node that loses its link becomes the last (`Linked.cut`).
`Ahead next p x`: the chain from `p` comes to `x`. A walk along a chain ends: each link leaves fewer nodes before it
(`Linked.nodesFrom_lt`). -/

namespace PoolStudy.Lib.Chain

variable {α : Type}

/-- The nodes visited from `p` on, up to the null pointer. -/
def Linked (next : α → Option α) : Option α → List α → Prop
  | p, [] => p = none
  | p, x :: l => p = some x ∧ Linked next (next x) l

variable {next next' : α → Option α} {p : Option α} {l : List α} {x y : α}

/-- Only the links of the chain matter. -/
theorem Linked.congr (h : Linked next p l) (hl : ∀ x ∈ l, next' x = next x) : Linked next' p l := by
  induction l generalizing p with
  | nil => exact h
  | cons x l ih =>
    obtain ⟨hp, h⟩ := h
    refine ⟨hp, ?_⟩
    rw [hl x List.mem_cons_self]
    exact ih h fun y hy => hl y (List.mem_cons_of_mem x hy)

/-- A chain that starts at a node. -/
theorem Linked.uncons (h : Linked next (some x) l) : ∃ l', l = x :: l' ∧ Linked next (next x) l' := by
  cases l with
  | nil => cases h
  | cons y l =>
    obtain ⟨hy, h⟩ := h
    cases hy
    exact ⟨l, rfl, h⟩

theorem Linked.eq_nil (h : Linked next none l) : l = [] := by
  cases l with
  | nil => rfl
  | cons y l => cases h.1

/-- The nodes visited are determined. -/
theorem Linked.unique {l' : List α} (h : Linked next p l) (h' : Linked next p l') : l = l' := by
  induction l generalizing p l' with
  | nil =>
    rw [show p = none from h] at h'
    exact h'.eq_nil.symm
  | cons x l ih =>
    obtain ⟨rfl, h⟩ := h
    obtain ⟨l'', rfl, h''⟩ := h'.uncons
    rw [ih h h'']

/-- The link of a node of the chain leads to a node of the chain. -/
theorem Linked.mem_next (h : Linked next p l) (hx : x ∈ l) (hn : next x = some y) : y ∈ l := by
  induction l generalizing p with
  | nil => cases hx
  | cons z l ih =>
    obtain ⟨-, h⟩ := h
    rcases List.mem_cons.mp hx with rfl | hx
    · rw [hn] at h
      obtain ⟨l', rfl, -⟩ := h.uncons
      simp
    · exact List.mem_cons_of_mem z (ih h hx)

/-- A chain starts at every node of a chain. -/
theorem Linked.of_mem (h : Linked next p l) (hx : x ∈ l) : ∃ l', Linked next (some x) l' := by
  induction l generalizing p with
  | nil => cases hx
  | cons z l ih =>
    obtain ⟨-, h⟩ := h
    rcases List.mem_cons.mp hx with rfl | hx
    · exact ⟨x :: l, rfl, h⟩
    · exact ih h hx

/-! ### Nodes ahead -/

/-- Following `next` from `p` visits `x`. -/
def Ahead (next : α → Option α) (p : Option α) (x : α) : Prop := ∃ l, Linked next p l ∧ x ∈ l

theorem Linked.ahead_iff (h : Linked next p l) : Ahead next p x ↔ x ∈ l := by
  refine ⟨fun ⟨l', hl', hx⟩ => ?_, fun hx => ⟨l, h, hx⟩⟩
  rwa [h.unique hl']

theorem not_ahead_none : ¬ Ahead next none x := by
  rintro ⟨l, hl, hx⟩
  rw [hl.eq_nil] at hx
  cases hx

/-- From `y` on, `y` is visited and then what its link leads to. -/
theorem Ahead.uncons (h : Ahead next (some y) x) : x = y ∨ Ahead next (next y) x := by
  obtain ⟨l, hl, hx⟩ := h
  obtain ⟨l', rfl, hl'⟩ := hl.uncons
  rcases List.mem_cons.mp hx with hx | hx
  · exact Or.inl hx
  · exact Or.inr ⟨l', hl', hx⟩

theorem Ahead.cons (h : Ahead next (next y) x) : Ahead next (some y) x := by
  obtain ⟨l, hl, hx⟩ := h
  exact ⟨y :: l, ⟨rfl, hl⟩, List.mem_cons_of_mem y hx⟩

/-- A node that is visited starts a chain. -/
theorem Ahead.self (h : Ahead next p x) : Ahead next (some x) x := by
  obtain ⟨l, hl, hx⟩ := h
  obtain ⟨l', hl'⟩ := hl.of_mem hx
  obtain ⟨l'', rfl, -⟩ := hl'.uncons
  exact ⟨x :: l'', hl', List.mem_cons_self⟩

/-! ### A walk along a chain -/

/-- The number of nodes from `x` on. -/
def nodesFrom [DecidableEq α] (l : List α) (x : α) : ℕ := (l.dropWhile (· ≠ x)).length

theorem nodesFrom_le [DecidableEq α] (l : List α) (x : α) : nodesFrom l x ≤ l.length :=
  (List.dropWhile_sublist _).length_le

/-- **A link brings a walk closer to the end.** -/
theorem Linked.nodesFrom_lt [DecidableEq α] (h : Linked next p l) (hn : l.Nodup) (hx : x ∈ l)
    (hy : next x = some y) : nodesFrom l y < nodesFrom l x := by
  induction l generalizing p with
  | nil => cases hx
  | cons z l ih =>
    obtain ⟨-, h⟩ := h
    obtain ⟨hz, hn⟩ := List.nodup_cons.mp hn
    have hskip : ∀ w ∈ l, nodesFrom (z :: l) w = nodesFrom l w := by
      intro w hw
      have hne : z ≠ w := by
        rintro rfl
        exact hz hw
      simp [nodesFrom, hne]
    rcases List.mem_cons.mp hx with rfl | hx
    · rw [hy] at h
      obtain ⟨l', rfl, -⟩ := h.uncons
      rw [hskip y List.mem_cons_self]
      have hall : nodesFrom (x :: y :: l') x = (y :: l').length + 1 := by simp [nodesFrom]
      have := nodesFrom_le (y :: l') y
      omega
    · rw [hskip x hx, hskip y (h.mem_next hx hy)]
      exact ih h hn hx

/-! ### The end of a chain -/

/-- The node without a link is the last. -/
theorem Linked.getLast? (h : Linked next p l) (hx : x ∈ l) (hn : next x = none) :
    l.getLast? = some x := by
  induction l generalizing p with
  | nil => cases hx
  | cons z l ih =>
    obtain ⟨-, h⟩ := h
    rcases List.mem_cons.mp hx with rfl | hx
    · rw [hn] at h
      rw [h.eq_nil]
      rfl
    · have hl := ih h hx
      cases l with
      | nil => cases hx
      | cons w l => rw [List.getLast?_cons_cons, hl]

/-- **Growing**: the last node `y` is linked to `x`, which ends the chain. -/
theorem Linked.snoc [DecidableEq α] (h : Linked next p l) (hy : l.getLast? = some y) (hn : l.Nodup)
    (hx : x ∉ l) (hend : next x = none) :
    Linked (Function.update next y (some x)) p (l ++ [x]) := by
  induction l generalizing p with
  | nil => cases hy
  | cons z l ih =>
    obtain ⟨hp, h⟩ := h
    refine ⟨hp, ?_⟩
    have hxz : x ≠ z := fun hxz => hx (hxz ▸ List.mem_cons_self)
    cases l with
    | nil =>
      obtain rfl : z = y := by simpa using hy
      rw [Function.update_self]
      refine ⟨rfl, ?_⟩
      rw [Function.update_of_ne hxz]
      exact hend
    | cons w l =>
      have hy' : (w :: l).getLast? = some y := by simpa [List.getLast?_cons_cons] using hy
      have hzy : z ≠ y := by
        rintro rfl
        exact (List.nodup_cons.mp hn).1 (List.mem_of_getLast? hy')
      rw [Function.update_of_ne hzy]
      exact ih h hy' (List.nodup_cons.mp hn).2 fun hm => hx (List.mem_cons_of_mem z hm)

/-- **Cutting**: a node that loses its link ends the chain. -/
theorem Linked.cut [DecidableEq α] {r : List α} (h : Linked next p (l ++ x :: r)) (hx : x ∉ l) :
    Linked (Function.update next x none) p (l ++ [x]) := by
  induction l generalizing p with
  | nil =>
    refine ⟨h.1, ?_⟩
    rw [Function.update_self]
    rfl
  | cons z l ih =>
    obtain ⟨hp, h⟩ := h
    have hzx : z ≠ x := fun hzx => hx (hzx ▸ List.mem_cons_self)
    refine ⟨hp, ?_⟩
    rw [Function.update_of_ne hzx]
    exact ih h fun hm => hx (List.mem_cons_of_mem z hm)

end PoolStudy.Lib.Chain
