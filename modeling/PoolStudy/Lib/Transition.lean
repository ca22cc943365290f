import Mathlib.Logic.Relation
import Mathlib.Tactic.Common

/-! # Transition systems, runs and invariants

A system is a predicate on initial states and a partial function `next`: the action `a` taken in the
state `s` leads to `next s a`, or is not enabled there (`none`). Everything is relative to a predicate
`ok s a` that says which actions are allowed in which states: `Reach S ok` are the states reached by
runs all of whose steps are allowed, so that the same system serves statements about all runs and
statements about the runs in which something does not happen.

* `Reach.induct`: what holds initially and is kept by every allowed step holds in every reachable
  state.
* `runs_of_measure`: a system that can always go on to a smaller measure can finish.
* `reach_of_run`: a list of actions that can be evaluated from an initial state gives a reachable
  state. -/

namespace PoolStudy.Lib.Transition

/-- A transition system. -/
structure Lts (σ α : Type) where
  init : σ → Prop
  next : σ → α → Option σ

variable {σ α : Type}

/-- One allowed step. -/
def Step (S : Lts σ α) (ok : σ → α → Prop) (s s' : σ) : Prop :=
  ∃ a, ok s a ∧ S.next s a = some s'

/-- A run of allowed steps leads from the first state to the second. -/
abbrev Runs (S : Lts σ α) (ok : σ → α → Prop) : σ → σ → Prop :=
  Relation.ReflTransGen (Step S ok)

/-- The states reached from an initial state by allowed steps. -/
def Reach (S : Lts σ α) (ok : σ → α → Prop) (s : σ) : Prop :=
  ∃ s0, S.init s0 ∧ Runs S ok s0 s

/-- All actions are allowed. -/
def anyStep (_ : σ) (_ : α) : Prop := True

/-- The test that every action passes. -/
def anyTest (_ : σ) (_ : α) : Bool := true

theorem anyStep_of_test (s : σ) (a : α) (_ : anyTest s a = true) : anyStep s a := trivial

variable {S : Lts σ α} {ok ok' : σ → α → Prop}

theorem Reach.init {s : σ} (h : S.init s) : Reach S ok s := ⟨s, h, .refl⟩

theorem Reach.trans {s s' : σ} (h : Reach S ok s) (hr : Runs S ok s s') : Reach S ok s' := by
  obtain ⟨s0, h0, h⟩ := h
  exact ⟨s0, h0, h.trans hr⟩

theorem Reach.next {s s' : σ} {a : α} (h : Reach S ok s) (hok : ok s a)
    (hs : S.next s a = some s') : Reach S ok s' :=
  h.trans (.single ⟨a, hok, hs⟩)

/-- **Invariants.** What holds initially and is kept by the allowed steps holds in every reachable
state. -/
theorem Reach.induct {I : σ → Prop} (h0 : ∀ s, S.init s → I s)
    (hstep : ∀ s a s', Reach S ok s → I s → ok s a → S.next s a = some s' → I s')
    {s : σ} (h : Reach S ok s) : I s := by
  obtain ⟨s0, hi, h⟩ := h
  induction h with
  | refl => exact h0 s0 hi
  | tail hr hs ih =>
    obtain ⟨a, hok, hs⟩ := hs
    exact hstep _ a _ ⟨s0, hi, hr⟩ ih hok hs

/-- What a step keeps, a run keeps. -/
theorem Runs.keeps {P : σ → Prop}
    (hstep : ∀ s a s', P s → ok s a → S.next s a = some s' → P s') {s s' : σ}
    (h : Runs S ok s s') (hs : P s) : P s' := by
  induction h with
  | refl => exact hs
  | tail _ hst ih =>
    obtain ⟨a, hok, hst⟩ := hst
    exact hstep _ a _ ih hok hst

/-- Fewer allowed actions, fewer reachable states. -/
theorem Reach.mono (h : ∀ s a, ok s a → ok' s a) {s : σ} (hs : Reach S ok s) : Reach S ok' s := by
  refine hs.induct (fun s hi => .init hi) ?_
  intro s a s' _ hr hok hn
  exact hr.next (h s a hok) hn

/-- **Progress.** If from every state with `I` that is not final some run leads to a state with `I` and a smaller
measure, then a run leads from every state with `I` to a final one. -/
theorem runs_of_measure {I final : σ → Prop} (measure : σ → ℕ)
    (hstep : ∀ s, I s → ¬ final s → ∃ s', Runs S ok s s' ∧ I s' ∧ measure s' < measure s)
    {s : σ} (hs : I s) : ∃ s', Runs S ok s s' ∧ I s' ∧ final s' := by
  induction hk : measure s using Nat.strongRecOn generalizing s with
  | _ k ih =>
    by_cases hf : final s
    · exact ⟨s, .refl, hs, hf⟩
    · obtain ⟨s1, h1, hs1, hlt⟩ := hstep s hs hf
      obtain ⟨s', hr, hs', hf'⟩ := ih (measure s1) (hk ▸ hlt) hs1 rfl
      exact ⟨s', h1.trans hr, hs', hf'⟩

/-! ### Runs given as lists of actions -/

/-- Take the actions of a list in turn, each only if the test allows it. -/
def run (S : Lts σ α) (test : σ → α → Bool) : List α → σ → Option σ
  | [], s => some s
  | a :: as, s => if test s a then (S.next s a).bind (run S test as) else none

theorem runs_of_run {test : σ → α → Bool} (hok : ∀ s a, test s a = true → ok s a) :
    ∀ (as : List α) (s s' : σ), run S test as s = some s' → Runs S ok s s'
  | [], s, s', h => by
    simp only [run, Option.some.injEq] at h
    subst h; exact .refl
  | a :: as, s, s', h => by
    simp only [run] at h
    split_ifs at h with ht
    obtain ⟨s1, h1, h2⟩ := Option.bind_eq_some_iff.mp h
    exact (runs_of_run hok as s1 s' h2).head ⟨a, hok s a ht, h1⟩

/-- **Evaluated runs.** If the actions can be taken from an initial state and the last state passes a
test, a reachable state passes it. -/
theorem reach_of_run (S : Lts σ α) {test : σ → α → Bool} (hok : ∀ s a, test s a = true → ok s a)
    (as : List α) (p : σ → Bool) {s0 : σ} (h0 : S.init s0) (h : (run S test as s0).map p = some true) :
    ∃ s, Reach S ok s ∧ p s = true := by
  obtain ⟨s, hs, hp⟩ := Option.map_eq_some_iff.mp h
  exact ⟨s, ⟨s0, h0, runs_of_run hok as s0 s hs⟩, hp⟩

end PoolStudy.Lib.Transition
