import PoolStudy.Lib.Threads

/-! # What happens on every schedule

`Inevitable S ok P s`: from `s` on, whatever allowed steps are taken, the system comes to a state with `P`, and
until then it is never without an allowed step. No fairness is assumed, so this is a property of every
scheduler that does not stop while something can be done.

* `inevitable_of_measure`: every allowed step makes a measure smaller, and while `P` does not hold there is
  one.
* `Inevitable.keep`: what the allowed steps keep holds in that state too.
* `finite_moved`: in a reachable configuration only finitely many clients are not at rest, so that a measure can
  be a sum over them (`weigh`).
* `card_compl_insert`: the threads that do not sleep, when one goes to sleep. -/

namespace PoolStudy.Lib.Schedules

open PoolStudy.Lib.Transition PoolStudy.Lib.Threads

/-- **On every schedule** of allowed steps the system comes to a state with `P`. -/
inductive Inevitable {σ α : Type} (S : Lts σ α) (ok : σ → α → Prop) (P : σ → Prop) : σ → Prop
  | now {s : σ} (h : P s) : Inevitable S ok P s
  | later {s : σ} (hgo : ∃ s', Step S ok s s') (h : ∀ s', Step S ok s s' → Inevitable S ok P s') :
      Inevitable S ok P s

section Measure

variable {σ α : Type} {S : Lts σ α} {ok : σ → α → Prop} {P Q I : σ → Prop}

/-- **A measure.** What the allowed steps keep (`I`) allows a step as long as `P` does not hold, and every
allowed step makes the measure smaller. -/
theorem inevitable_of_measure (measure : σ → ℕ)
    (hstep : ∀ s a s', I s → ¬ P s → ok s a → S.next s a = some s' → I s' ∧ measure s' < measure s)
    (hgo : ∀ s, I s → ¬ P s → ∃ s', Step S ok s s') {s : σ} (hs : I s) : Inevitable S ok P s := by
  induction hk : measure s using Nat.strongRecOn generalizing s with
  | _ k ih =>
    by_cases hp : P s
    · exact .now hp
    · refine .later (hgo s hs hp) ?_
      rintro s' ⟨a, hok, hn⟩
      obtain ⟨hi, hlt⟩ := hstep s a s' hs hp hok hn
      exact ih (measure s') (hk ▸ hlt) hi rfl

theorem Inevitable.mono (h : ∀ s, P s → Q s) {s : σ} (hs : Inevitable S ok P s) :
    Inevitable S ok Q s := by
  induction hs with
  | now hp => exact .now (h _ hp)
  | later hgo _ ih => exact .later hgo ih

/-- What the allowed steps keep still holds then. -/
theorem Inevitable.keep (hI : ∀ s a s', I s → ok s a → S.next s a = some s' → I s') {s : σ} (hs : I s)
    (h : Inevitable S ok P s) : Inevitable S ok (fun s => P s ∧ I s) s := by
  induction h with
  | now hp => exact .now ⟨hp, hs⟩
  | later hgo _ ih =>
    refine .later hgo fun s' hs' => ?_
    obtain ⟨a, ha, hn⟩ := id hs'
    exact ih s' hs' (hI _ a s' hs ha hn)

end Measure

/-! ### Clients -/

section Clients

variable {ι κ μ ω χ α : Type} [DecidableEq ι] [DecidableEq κ] {P : Program ι κ μ ω χ α}

/-- **Only finitely many clients are not at rest** (`Q`), if it is so at the start. -/
theorem finite_moved {Q : χ → Prop} {ok : Config ι κ μ ω χ → (ι ⊕ κ) × α → Prop}
    (h0 : ∀ c, P.init c → ∃ K : Finset κ, ∀ k ∉ K, Q (c.client k)) {c : Config ι κ μ ω χ}
    (h : Reach P.lts ok c) : ∃ K : Finset κ, ∀ k ∉ K, Q (c.client k) := by
  refine Program.invariant (I := fun c => ∃ K : Finset κ, ∀ k ∉ K, Q (c.client k)) h0 ?_ ?_ h
  · rintro c i x r - ⟨K, hK⟩ - -
    exact ⟨K, hK⟩
  · rintro c k x r - ⟨K, hK⟩ - -
    refine ⟨insert k K, fun k' hk' => ?_⟩
    rw [Finset.mem_insert, not_or] at hk'
    rw [moveClient_other c hk'.1]
    exact hK k' hk'.2

omit [DecidableEq ι] in
/-- The clients that move are among those that were not at rest. -/
theorem moved_stay {Q : χ → Prop} {K : Finset κ} {c : Config ι κ μ ω χ} (hK : ∀ k ∉ K, Q (c.client k)) {k : κ}
    (hk : ¬ Q (c.client k)) (r : μ × χ) : k ∈ K ∧ ∀ k' ∉ K, Q ((c.moveClient k r).client k') := by
  have hkK : k ∈ K := by
    by_contra hout
    exact hk (hK k hout)
  refine ⟨hkK, fun k' hk' => ?_⟩
  have hne : k' ≠ k := by
    rintro rfl
    exact hk' hkK
  rw [moveClient_other c hne]
  exact hK k' hk'

variable [Fintype ι] (v : ω → ℕ) (u : χ → ℕ) (K : Finset κ)

/-- The weight of the workers and of the clients in `K`. -/
def weigh (c : Config ι κ μ ω χ) : ℕ := ∑ i, v (c.worker i) + ∑ k ∈ K, u (c.client k)

omit [DecidableEq κ] in
theorem weigh_moveWorker (c : Config ι κ μ ω χ) (i : ι) (r : μ × ω) :
    weigh v u K (c.moveWorker i r) + v (c.worker i) = weigh v u K c + v r.2 := by
  have hs := sum_update (fun _ => v) c.worker i r.2
  simp only [weigh, Config.moveWorker]
  omega

omit [DecidableEq ι] in
theorem weigh_moveClient (c : Config ι κ μ ω χ) {k : κ} (hk : k ∈ K) (r : μ × χ) :
    weigh v u K (c.moveClient k r) + u (c.client k) = weigh v u K c + u r.2 := by
  have hcomp : (fun j => u (Function.update c.client k r.2 j)) =
      Function.update (fun j => u (c.client j)) k (u r.2) := by
    funext j
    by_cases hj : j = k
    · subst hj; simp
    · simp [hj]
  have hnew : ∑ j ∈ K, u (Function.update c.client k r.2 j) = u r.2 + ∑ j ∈ K \ {k}, u (c.client j) := by
    rw [hcomp, Finset.sum_update_of_mem hk]
  have hold := Finset.sum_sdiff (f := fun j => u (c.client j)) (Finset.singleton_subset_iff.mpr hk)
  rw [Finset.sum_singleton] at hold
  simp only [weigh, Config.moveClient]
  omega

end Clients

/-! ### Threads that do not sleep -/

section Awake

variable {n : ℕ}

theorem card_compl_le (s : Finset (Fin n)) : sᶜ.card ≤ n := by
  simpa using Finset.card_le_univ sᶜ

/-- One more thread sleeps. -/
theorem card_compl_insert {s : Finset (Fin n)} {i : Fin n} (hi : i ∉ s) :
    (insert i s)ᶜ.card + 1 = sᶜ.card := by
  have h1 := Finset.card_add_card_compl (insert i s)
  have h2 := Finset.card_add_card_compl s
  rw [Finset.card_insert_of_notMem hi] at h1
  omega

end Awake

end PoolStudy.Lib.Schedules
