import PoolStudy.Lib.Transition

/-! # Programs that use a system

A program that calls a library runs together with it: it has a state of its own (`υ`), it takes part in the steps
of the system (`part`: which of them its code allows now, and what they do to its state), and it makes steps of
its own (`own`), which leave the system alone. Everything proved about the system holds of the system inside the
program (`User.reach`), whatever else the program does.

* `User.invariant`: one obligation for the steps of the system, one for the steps of the program.
* `family`: any number of systems side by side. -/

namespace PoolStudy.Lib.Hosting

open PoolStudy.Lib.Transition

/-- What a program adds to a system with states `σ` and actions `α`. -/
structure User (σ α υ β : Type) where
  init : υ → Prop
  part : σ → υ → α → Option υ
  own : σ → υ → β → Option υ

variable {σ α υ β : Type}

/-- **The system inside the program.** -/
def User.lts (U : User σ α υ β) (S : Lts σ α) : Lts (σ × υ) (α ⊕ β) where
  init c := S.init c.1 ∧ U.init c.2
  next c
    | .inl a => (U.part c.1 c.2 a).bind fun u => (S.next c.1 a).map fun s => (s, u)
    | .inr b => (U.own c.1 c.2 b).map fun u => (c.1, u)

section User

variable {U : User σ α υ β} {S : Lts σ α} {ok : σ × υ → α ⊕ β → Prop}

/-- A step is a step of both or of the program alone. -/
theorem User.next_cases {c c' : σ × υ} {a : α ⊕ β} (h : (U.lts S).next c a = some c') :
    (∃ b, a = .inl b ∧ U.part c.1 c.2 b = some c'.2 ∧ S.next c.1 b = some c'.1) ∨
      ∃ b, a = .inr b ∧ U.own c.1 c.2 b = some c'.2 ∧ c'.1 = c.1 := by
  cases a with
  | inl b =>
    obtain ⟨u, hu, h⟩ := Option.bind_eq_some_iff.mp h
    obtain ⟨s, hs, rfl⟩ := Option.map_eq_some_iff.mp h
    exact Or.inl ⟨b, rfl, hu, hs⟩
  | inr b =>
    obtain ⟨u, hu, rfl⟩ := Option.map_eq_some_iff.mp h
    exact Or.inr ⟨b, rfl, hu, rfl⟩

/-- **What the program leaves of the system.** If the program takes part in allowed steps only, the state of the
system is one that allowed steps reach. -/
theorem User.reach {ok' : σ → α → Prop}
    (hpart : ∀ s u a u', ok (s, u) (.inl a) → U.part s u a = some u' → ok' s a) {c : σ × υ}
    (h : Reach (U.lts S) ok c) : Reach S ok' c.1 := by
  refine Reach.induct (I := fun c => Reach S ok' c.1) ?_ ?_ h
  · rintro c ⟨hc, -⟩
    exact .init hc
  intro c a c' _ hr hok hn
  rcases User.next_cases hn with ⟨b, rfl, hu, hs⟩ | ⟨b, rfl, -, hs⟩
  · exact hr.next (hpart c.1 c.2 b c'.2 hok hu) hs
  · rw [hs]
    exact hr

/-- **Invariants of a program that uses a system.** -/
theorem User.invariant {I : σ → υ → Prop} (h0 : ∀ s u, S.init s → U.init u → I s u)
    (hpart : ∀ s u a s' u', Reach (U.lts S) ok (s, u) → I s u → ok (s, u) (.inl a) → U.part s u a = some u' →
      S.next s a = some s' → I s' u')
    (hown : ∀ s u b u', Reach (U.lts S) ok (s, u) → I s u → ok (s, u) (.inr b) → U.own s u b = some u' → I s u')
    {c : σ × υ} (h : Reach (U.lts S) ok c) : I c.1 c.2 := by
  refine Reach.induct (I := fun c => I c.1 c.2) ?_ ?_ h
  · rintro c ⟨hc, hu⟩
    exact h0 c.1 c.2 hc hu
  intro c a c' hr hi hok hn
  rcases User.next_cases hn with ⟨b, rfl, hu, hs⟩ | ⟨b, rfl, hu, hs⟩
  · exact hpart c.1 c.2 b c'.1 c'.2 hr hi hok hu hs
  · rw [hs]
    exact hown c.1 c.2 b c'.2 hr hi hok hu

end User

/-! ### Several systems -/

section Family

variable {π : Type} [DecidableEq π] {S : Lts σ α}

/-- **Systems side by side**, one for each element of `π`; a step is a step of one of them. -/
def family (π : Type) [DecidableEq π] (S : Lts σ α) : Lts (π → σ) (π × α) where
  init c := ∀ q, S.init (c q)
  next c a := (S.next (c a.1) a.2).map (Function.update c a.1)

/-- Each of them is in a state that it reaches on its own. -/
theorem family_reach {ok : (π → σ) → π × α → Prop} {ok' : σ → α → Prop}
    (hok : ∀ c a, ok c a → ok' (c a.1) a.2) {c : π → σ} (h : Reach (family π S) ok c) (q : π) :
    Reach S ok' (c q) := by
  refine Reach.induct (I := fun c => ∀ q, Reach S ok' (c q)) ?_ ?_ h q
  · intro c hc q
    exact .init (hc q)
  intro c a c' _ hr ha hn q
  obtain ⟨s, hs, rfl⟩ := Option.map_eq_some_iff.mp hn
  by_cases hq : q = a.1
  · subst hq
    rw [Function.update_self]
    exact (hr a.1).next (hok c a ha) hs
  · rw [Function.update_of_ne hq]
    exact hr q

end Family

end PoolStudy.Lib.Hosting
