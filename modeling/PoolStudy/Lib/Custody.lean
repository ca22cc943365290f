import Mathlib.Data.List.Nodup
import Mathlib.Logic.Function.Basic

/-! # Custody

Items are in the hands of holders, at most one item each, or wait on a list. `Sole hold q`: no item is in
two places. The moves of an item (`give`, `drop`, `push`, `pop`) keep this, and `Keeps.*` says where the other
items are afterwards. -/

namespace PoolStudy.Lib.Custody

variable {τ α : Type} {hold : τ → Option α} {q : List α} {t : τ} {x y : α} {o : Option τ}

/-- No item is twice on the list, in two hands, or on the list and in a hand. -/
structure Sole (hold : τ → Option α) (q : List α) : Prop where
  nodup : q.Nodup
  inj : ∀ {t t' x}, hold t = some x → hold t' = some x → t = t'
  apart : ∀ {t x}, hold t = some x → x ∉ q

/-- The places of an item: a holder, or the list. -/
def Keeps (hold : τ → Option α) (q : List α) : Option τ → α → Prop
  | some t, x => hold t = some x
  | none, x => x ∈ q

/-- **An item that is somewhere is in exactly one place.** -/
theorem Sole.unique (h : Sole hold q) (hx : ∃ o, Keeps hold q o x) : ∃! o, Keeps hold q o x := by
  obtain ⟨o, ho⟩ := hx
  refine ⟨o, ho, fun o' ho' => ?_⟩
  rcases o with - | t <;> rcases o' with - | t'
  · rfl
  · exact absurd ho (h.apart ho')
  · exact absurd ho' (h.apart ho)
  · rw [h.inj ho ho']

variable [DecidableEq τ]

/-- A new item comes into the hand of `t`. -/
theorem Sole.give (h : Sole hold q) (hx : ∀ o, ¬ Keeps hold q o x) :
    Sole (Function.update hold t (some x)) q := by
  have hother : ∀ {t' y}, t' ≠ t → Function.update hold t (some x) t' = some y → hold t' = some y := by
    intro t' y ht' hy
    rwa [Function.update_of_ne ht'] at hy
  have hself : ∀ {y}, Function.update hold t (some x) t = some y → y = x := by
    intro y hy
    rw [Function.update_self] at hy
    exact (Option.some.inj hy).symm
  refine ⟨h.nodup, fun {a b y} ha hb => ?_, fun {a y} ha => ?_⟩
  · by_cases hat : a = t <;> by_cases hbt : b = t
    · rw [hat, hbt]
    · rw [hat] at ha
      exact absurd (hself ha ▸ hother hbt hb) (hx (some b))
    · rw [hbt] at hb
      exact absurd (hself hb ▸ hother hat ha) (hx (some a))
    · exact h.inj (hother hat ha) (hother hbt hb)
  · by_cases hat : a = t
    · rw [hat] at ha
      exact hself ha ▸ hx none
    · exact h.apart (hother hat ha)

/-- The hand of `t` is emptied. -/
theorem Sole.drop (h : Sole hold q) : Sole (Function.update hold t none) q := by
  have hother : ∀ {t' y}, Function.update hold t none t' = some y → hold t' = some y := by
    intro t' y hy
    by_cases ht' : t' = t
    · rw [ht', Function.update_self] at hy
      cases hy
    · rwa [Function.update_of_ne ht'] at hy
  exact ⟨h.nodup, fun ha hb => h.inj (hother ha) (hother hb), fun ha => h.apart (hother ha)⟩

theorem Keeps.drop (h : Keeps hold q o y) (hne : hold t ≠ some y) : Keeps (Function.update hold t none) q o y := by
  rcases o with - | t'
  · exact h
  · have ht' : t' ≠ t := by
      rintro rfl
      exact hne h
    exact (Function.update_of_ne ht' ..).trans h

theorem Keeps.give (h : Keeps hold q o y) (ht : hold t = none) :
    Keeps (Function.update hold t (some x)) q o y := by
  rcases o with - | t'
  · exact h
  · have ht' : t' ≠ t := by
      rintro rfl
      cases ht.symm.trans h
    exact (Function.update_of_ne ht' ..).trans h

/-- The item in the hand of `t` goes to the list. -/
theorem Sole.push (h : Sole hold q) (ht : hold t = some x) :
    Sole (Function.update hold t none) (x :: q) := by
  refine ⟨List.nodup_cons.mpr ⟨h.apart ht, h.nodup⟩, h.drop.inj, fun {a y} ha hy => ?_⟩
  rcases List.mem_cons.mp hy with rfl | hy
  · by_cases hat : a = t
    · rw [hat, Function.update_self] at ha
      cases ha
    · rw [Function.update_of_ne hat] at ha
      exact hat (h.inj ha ht)
  · exact h.drop.apart ha hy

theorem Keeps.push (h : Keeps hold q o y) (ht : hold t = some x) :
    ∃ o', Keeps (Function.update hold t none) (x :: q) o' y := by
  by_cases hyx : y = x
  · exact ⟨none, hyx ▸ List.mem_cons_self⟩
  · have hne : hold t ≠ some y := fun hy => hyx (Option.some.inj (hy.symm.trans ht))
    refine ⟨o, ?_⟩
    rcases o with - | t'
    · exact List.mem_cons_of_mem x h
    · exact h.drop hne

/-- The first item of the list comes into the hand of `t`. -/
theorem Sole.pop (h : Sole hold (x :: q)) : Sole (Function.update hold t (some x)) q := by
  have hq : Sole hold q :=
    ⟨(List.nodup_cons.mp h.nodup).2, h.inj, fun ha hy => h.apart ha (List.mem_cons_of_mem x hy)⟩
  refine hq.give fun o ho => ?_
  rcases o with - | t'
  · exact (List.nodup_cons.mp h.nodup).1 ho
  · exact h.apart ho List.mem_cons_self

theorem Keeps.pop (h : Keeps hold (x :: q) o y) (ht : hold t = none) :
    ∃ o', Keeps (Function.update hold t (some x)) q o' y := by
  rcases o with - | t'
  · rcases List.mem_cons.mp h with rfl | hy
    · exact ⟨some t, Function.update_self ..⟩
    · exact ⟨none, hy⟩
  · have ht' : Keeps hold q (some t') y := h
    exact ⟨some t', ht'.give ht⟩

end PoolStudy.Lib.Custody
