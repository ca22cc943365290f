import PoolStudy.Lib.Transition
import Mathlib.Algebra.BigOperators.Pi
import Mathlib.Algebra.Order.BigOperators.Group.Finset
import Mathlib.Tactic.Abel

/-! # Workers and clients over a shared memory

A program is a family of workers (one for every element of `ι`) and a family of clients (`κ`), each at
a position of its own code, over one shared memory `μ`. A step is a step of one thread: it reads and
writes the memory and its own position, and nothing else; the action names the thread and carries
whatever the step leaves open (`α`). Every interleaving is a run of the resulting system.

* `Program.invariant`: an invariant is what holds initially and is kept by every step of a worker and
  every step of a client.
* `Config.view`: what the threads show of their positions; a step changes it at the moving thread.
* `Owned`, `MutexStep`: a mutex (`Option` of the thread that owns it) is owned by the thread whose
  position says so. Whether this stays true is a matter of the moving thread alone.
* `Guarded`: the data behind a mutex satisfy an assertion that depends on where the owner is.
* `sum_update`, `le_sum`, `ledger_move`: sums over all workers, and what they do when one of them moves.
* `signal`: a condition variable is the set of the threads blocked on it with no wake-up pending. A
  thread that has left the set but not yet its wait has been woken. -/

namespace PoolStudy.Lib.Threads

open PoolStudy.Lib.Transition

/-- The shared memory and the position of every thread. -/
structure Config (ι κ μ ω χ : Type) where
  mem : μ
  worker : ι → ω
  client : κ → χ

/-- Where the program starts and what the threads do. -/
structure Program (ι κ μ ω χ α : Type) where
  init : Config ι κ μ ω χ → Prop
  workerStep : ι → α → μ → ω → Option (μ × ω)
  clientStep : κ → α → μ → χ → Option (μ × χ)

variable {ι κ μ ω χ α : Type} [DecidableEq ι] [DecidableEq κ]

/-- The configuration after worker `i` moved to `w` and left the memory `m`. -/
def Config.moveWorker (c : Config ι κ μ ω χ) (i : ι) (r : μ × ω) : Config ι κ μ ω χ :=
  ⟨r.1, Function.update c.worker i r.2, c.client⟩

/-- The configuration after client `k` moved. -/
def Config.moveClient (c : Config ι κ μ ω χ) (k : κ) (r : μ × χ) : Config ι κ μ ω χ :=
  ⟨r.1, c.worker, Function.update c.client k r.2⟩

omit [DecidableEq κ] in
/-- Only the last of two steps of a worker counts. -/
theorem moveWorker_moveWorker (c : Config ι κ μ ω χ) (i : ι) (r r' : μ × ω) :
    (c.moveWorker i r).moveWorker i r' = c.moveWorker i r' := by
  simp [Config.moveWorker]

omit [DecidableEq ι] in
theorem moveClient_moveClient (c : Config ι κ μ ω χ) (k : κ) (r r' : μ × χ) :
    (c.moveClient k r).moveClient k r' = c.moveClient k r' := by
  simp [Config.moveClient]

omit [DecidableEq κ] in
theorem moveWorker_self (c : Config ι κ μ ω χ) (i : ι) (r : μ × ω) : (c.moveWorker i r).worker i = r.2 :=
  Function.update_self ..

omit [DecidableEq ι] in
theorem moveClient_self (c : Config ι κ μ ω χ) (k : κ) (r : μ × χ) : (c.moveClient k r).client k = r.2 :=
  Function.update_self ..

omit [DecidableEq ι] in
theorem moveClient_other (c : Config ι κ μ ω χ) {k k' : κ} (hk : k' ≠ k) (r : μ × χ) :
    (c.moveClient k r).client k' = c.client k' :=
  Function.update_of_ne hk ..

omit [DecidableEq ι] in
/-- Where a client is after a step of the client `k`. -/
theorem moveClient_cases (c : Config ι κ μ ω χ) (k : κ) (r : μ × χ) (k' : κ) :
    (k' = k ∧ (c.moveClient k r).client k' = r.2) ∨
      (k' ≠ k ∧ (c.moveClient k r).client k' = c.client k') := by
  by_cases hk : k' = k
  · subst hk
    exact Or.inl ⟨rfl, Function.update_self ..⟩
  · exact Or.inr ⟨hk, Function.update_of_ne hk _ _⟩

omit [DecidableEq ι] in
/-- What holds of the new position and of the other clients holds of all clients. -/
theorem forall_moveClient {P : κ → χ → Prop} {c : Config ι κ μ ω χ} {k : κ} {r : μ × χ} (hr : P k r.2)
    (h : ∀ k', k' ≠ k → P k' (c.client k')) (k' : κ) : P k' ((c.moveClient k r).client k') := by
  rcases moveClient_cases c k r k' with ⟨rfl, hk⟩ | ⟨hne, hk⟩
  · rw [hk]; exact hr
  · rw [hk]; exact h k' hne

omit [DecidableEq ι] in
/-- A position that the moving client is not at afterwards was there before. -/
theorem moveClient_of_ne {c : Config ι κ μ ω χ} {k k' : κ} {r : μ × χ} {l : χ}
    (h : (c.moveClient k r).client k' = l) (hr : r.2 ≠ l) : c.client k' = l := by
  rcases moveClient_cases c k r k' with ⟨-, hk⟩ | ⟨-, hk⟩
  · exact absurd (hk.symm.trans h) hr
  · exact hk.symm.trans h

omit [DecidableEq κ] in
/-- Where a worker is after a step of the worker `i`. -/
theorem moveWorker_cases (c : Config ι κ μ ω χ) (i : ι) (r : μ × ω) (j : ι) :
    (j = i ∧ (c.moveWorker i r).worker j = r.2) ∨
      (j ≠ i ∧ (c.moveWorker i r).worker j = c.worker j) := by
  by_cases hj : j = i
  · subst hj
    exact Or.inl ⟨rfl, Function.update_self ..⟩
  · exact Or.inr ⟨hj, Function.update_of_ne hj _ _⟩

omit [DecidableEq κ] in
theorem forall_moveWorker {P : ι → ω → Prop} {c : Config ι κ μ ω χ} {i : ι} {r : μ × ω} (hr : P i r.2)
    (h : ∀ j, j ≠ i → P j (c.worker j)) (j : ι) : P j ((c.moveWorker i r).worker j) := by
  rcases moveWorker_cases c i r j with ⟨rfl, hj⟩ | ⟨hne, hj⟩
  · rw [hj]; exact hr
  · rw [hj]; exact h j hne

namespace Program

variable (P : Program ι κ μ ω χ α)

/-- **The interleaving of all threads.** -/
def lts : Lts (Config ι κ μ ω χ) ((ι ⊕ κ) × α) where
  init := P.init
  next c
    | (.inl i, x) => (P.workerStep i x c.mem (c.worker i)).map (c.moveWorker i)
    | (.inr k, x) => (P.clientStep k x c.mem (c.client k)).map (c.moveClient k)

variable {P}

theorem next_worker {c : Config ι κ μ ω χ} {i : ι} {x : α} {r : μ × ω}
    (h : P.workerStep i x c.mem (c.worker i) = some r) : P.lts.next c (.inl i, x) = some (c.moveWorker i r) := by
  simp [lts, h]

theorem next_client {c : Config ι κ μ ω χ} {k : κ} {x : α} {r : μ × χ}
    (h : P.clientStep k x c.mem (c.client k) = some r) : P.lts.next c (.inr k, x) = some (c.moveClient k r) := by
  simp [lts, h]

/-- A step is the step of a worker or of a client. -/
theorem next_cases {c c' : Config ι κ μ ω χ} {a : (ι ⊕ κ) × α} (h : P.lts.next c a = some c') :
    (∃ i x r, a = (.inl i, x) ∧ P.workerStep i x c.mem (c.worker i) = some r ∧
      c' = c.moveWorker i r) ∨
    ∃ k x r, a = (.inr k, x) ∧ P.clientStep k x c.mem (c.client k) = some r ∧
      c' = c.moveClient k r := by
  obtain ⟨i | k, x⟩ := a
  · obtain ⟨r, hr, rfl⟩ := Option.map_eq_some_iff.mp h
    exact Or.inl ⟨i, x, r, rfl, hr, rfl⟩
  · obtain ⟨r, hr, rfl⟩ := Option.map_eq_some_iff.mp h
    exact Or.inr ⟨k, x, r, rfl, hr, rfl⟩

/-- **Invariants of a program**: one obligation for the workers, one for the clients. -/
theorem invariant {ok : Config ι κ μ ω χ → (ι ⊕ κ) × α → Prop} {I : Config ι κ μ ω χ → Prop}
    (h0 : ∀ c, P.init c → I c)
    (hw : ∀ c i x r, Reach P.lts ok c → I c → ok c (.inl i, x) →
      P.workerStep i x c.mem (c.worker i) = some r → I (c.moveWorker i r))
    (hc : ∀ c k x r, Reach P.lts ok c → I c → ok c (.inr k, x) →
      P.clientStep k x c.mem (c.client k) = some r → I (c.moveClient k r))
    {c : Config ι κ μ ω χ} (h : Reach P.lts ok c) : I c := by
  refine h.induct h0 ?_
  intro c a c' hr hi hok hn
  rcases next_cases hn with ⟨i, x, r, rfl, hs, rfl⟩ | ⟨k, x, r, rfl, hs, rfl⟩
  · exact hw c i x r hr hi hok hs
  · exact hc c k x r hr hi hok hs

end Program

/-! ### What the threads show -/

/-- What every thread shows of its position. -/
def Config.view {β : Type} (fw : ω → β) (fc : χ → β) (c : Config ι κ μ ω χ) : ι ⊕ κ → β :=
  Sum.elim (fun i => fw (c.worker i)) fun k => fc (c.client k)

section View

variable {β : Type} (fw : ω → β) (fc : χ → β) (c : Config ι κ μ ω χ)

omit [DecidableEq ι] [DecidableEq κ] in
@[simp] theorem view_inl (i : ι) : c.view fw fc (.inl i) = fw (c.worker i) := rfl

omit [DecidableEq ι] [DecidableEq κ] in
@[simp] theorem view_inr (k : κ) : c.view fw fc (.inr k) = fc (c.client k) := rfl

theorem view_moveWorker (i : ι) (r : μ × ω) :
    (c.moveWorker i r).view fw fc = Function.update (c.view fw fc) (.inl i) (fw r.2) := by
  funext t
  rcases t with j | k
  · by_cases hj : j = i
    · subst hj; simp [Config.moveWorker]
    · have hne : (Sum.inl j : ι ⊕ κ) ≠ .inl i := by simpa using hj
      rw [Function.update_of_ne hne]
      simp [Config.moveWorker, hj]
  · rw [Function.update_of_ne (by simp)]
    rfl

theorem view_moveClient (k : κ) (r : μ × χ) :
    (c.moveClient k r).view fw fc = Function.update (c.view fw fc) (.inr k) (fc r.2) := by
  funext t
  rcases t with i | j
  · rw [Function.update_of_ne (by simp)]
    rfl
  · by_cases hj : j = k
    · subst hj; simp [Config.moveClient]
    · have hne : (Sum.inr j : ι ⊕ κ) ≠ .inr k := by simpa using hj
      rw [Function.update_of_ne hne]
      simp [Config.moveClient, hj]

end View

/-! ### Mutexes -/

/-- The mutex is owned by the thread whose position holds it. -/
structure Owned (lock : Option (ι ⊕ κ)) (holdsW : ω → Prop) (holdsC : χ → Prop)
    (c : Config ι κ μ ω χ) : Prop where
  worker : ∀ i, holdsW (c.worker i) ↔ lock = some (.inl i)
  client : ∀ k, holdsC (c.client k) ↔ lock = some (.inr k)

/-- **What a step of the thread `t` may do to a mutex**: leave it alone, take it when it is free, or
give it back. -/
def MutexStep {τ : Type} (t : τ) (lock lock' : Option τ) (holds holds' : Prop) : Prop :=
  (lock' = lock ∧ (holds' ↔ holds)) ∨ (lock = none ∧ lock' = some t ∧ holds') ∨
    (holds ∧ lock' = none ∧ ¬ holds')

/-- Whoever holds the mutex owns it, also after a step of `t`. -/
theorem MutexStep.owner {τ : Type} [DecidableEq τ] {lock lock' : Option τ} {holds : τ → Prop} {t : τ}
    {p : Prop} (ho : ∀ s, holds s ↔ lock = some s) (hs : MutexStep t lock lock' (holds t) p) (s : τ) :
    Function.update holds t p s ↔ lock' = some s := by
  by_cases hst : s = t
  · subst hst
    rw [Function.update_self]
    rcases hs with ⟨rfl, h⟩ | ⟨-, rfl, h⟩ | ⟨-, rfl, h⟩
    · rw [h, ho]
    · simp [h]
    · simp [h]
  · rw [Function.update_of_ne hst, ho]
    rcases hs with ⟨rfl, -⟩ | ⟨rfl, rfl, -⟩ | ⟨h, rfl, -⟩
    · rfl
    · simp [Ne.symm hst]
    · rw [(ho t).mp h]; simp [Ne.symm hst]

section Owned

variable {lock lock' : Option (ι ⊕ κ)} {holdsW : ω → Prop} {holdsC : χ → Prop}
  {c : Config ι κ μ ω χ}

omit [DecidableEq ι] [DecidableEq κ] in
theorem owned_iff :
    Owned lock holdsW holdsC c ↔ ∀ t, c.view holdsW holdsC t ↔ lock = some t := by
  refine ⟨fun h t => ?_, fun h => ⟨fun i => h (.inl i), fun k => h (.inr k)⟩⟩
  rcases t with i | k
  · exact h.worker i
  · exact h.client k

theorem Owned.moveWorker (ho : Owned lock holdsW holdsC c) {i : ι} {r : μ × ω}
    (hs : MutexStep (Sum.inl i) lock lock' (holdsW (c.worker i)) (holdsW r.2)) :
    Owned lock' holdsW holdsC (c.moveWorker i r) := by
  rw [owned_iff, view_moveWorker]
  exact MutexStep.owner (owned_iff.mp ho) hs

theorem Owned.moveClient (ho : Owned lock holdsW holdsC c) {k : κ} {r : μ × χ}
    (hs : MutexStep (Sum.inr k) lock lock' (holdsC (c.client k)) (holdsC r.2)) :
    Owned lock' holdsW holdsC (c.moveClient k r) := by
  rw [owned_iff, view_moveClient]
  exact MutexStep.owner (owned_iff.mp ho) hs

end Owned

/-! ### What a mutex guards -/

/-- Where the guarded data stand: at the position of the owner in its section, or at rest. -/
def standing {τ β : Type} (out : β) (acc : τ → β) : Option τ → β
  | none => out
  | some t => acc t

/-- **A mutex guards data.** The thread that owns the mutex is the one in a section (`acc t ≠ out`), and
the data satisfy the assertion `R` of its position there; while the mutex is free, the assertion of
`out`. -/
structure Guarded {τ β : Type} (lock : Option τ) (out : β) (acc : τ → β) (R : β → Prop) : Prop where
  owned : ∀ t, acc t ≠ out ↔ lock = some t
  data : R (standing out acc lock)

section Guarded

variable {τ β : Type} [DecidableEq τ] {lock lock' : Option τ} {out : β} {acc : τ → β} {R R' : β → Prop}
  {t : τ} {a : β}

/-- A step outside the sections: the assertions are kept. -/
theorem Guarded.stay (h : Guarded lock out acc R) (ha : a = acc t) (hR : ∀ b, R b → R' b) :
    Guarded lock out (Function.update acc t a) R' := by
  rw [ha, Function.update_eq_self]
  exact ⟨h.owned, hR _ h.data⟩

omit [DecidableEq τ] in
/-- A thread that owns the mutex or finds it free knows the assertion of its position. -/
theorem Guarded.mine (h : Guarded lock out acc R) (hfree : acc t = out → lock = none) : R (acc t) := by
  by_cases ht : acc t = out
  · rw [ht]
    simpa only [hfree ht, standing] using h.data
  · simpa only [(h.owned t).mp ht, standing] using h.data

/-- **A step into, inside or out of a section.** -/
theorem Guarded.act (h : Guarded lock out acc R) (hfree : acc t = out → lock = none)
    (hl : (a = out ∧ lock' = none) ∨ (a ≠ out ∧ lock' = some t)) (hR : R (acc t) → R' a) :
    Guarded lock' out (Function.update acc t a) R' := by
  have hother : ∀ s, s ≠ t → acc s = out := by
    intro s hs
    by_contra hne
    have hlock := (h.owned s).mp hne
    by_cases ht : acc t = out
    · rw [hfree ht] at hlock; cases hlock
    · rw [(h.owned t).mp ht] at hlock
      exact hs (Option.some.inj hlock).symm
  have hdata := hR (h.mine hfree)
  refine ⟨fun s => ?_, ?_⟩
  · by_cases hst : s = t
    · subst hst
      rw [Function.update_self]
      rcases hl with ⟨ha, rfl⟩ | ⟨ha, rfl⟩ <;> simp [ha]
    · rw [Function.update_of_ne hst, hother s hst]
      rcases hl with ⟨-, rfl⟩ | ⟨-, rfl⟩
      · simp
      · simp [Ne.symm hst]
  · rcases hl with ⟨ha, rfl⟩ | ⟨-, rfl⟩
    · simpa only [standing, ← ha] using hdata
    · simpa only [standing, Function.update_self] using hdata

end Guarded

/-! ### Sums over the workers -/

section Sums

variable {M : Type} [Fintype ι] (v : ι → ω → M) (f : ι → ω) (i : ι) (x : ω)

omit [DecidableEq κ] in
/-- **One worker moves.** The sum changes by what the moving worker contributes. -/
theorem sum_update [AddCommMonoid M] :
    ∑ j, v j (Function.update f i x j) + v i (f i) = ∑ j, v j (f j) + v i x := by
  have h : (fun j => v j (Function.update f i x j)) =
      Function.update (fun j => v j (f j)) i (v i x) := by
    funext j
    by_cases hj : j = i
    · subst hj; simp
    · simp [hj]
  rw [h, Finset.sum_update_of_mem (Finset.mem_univ i),
    ← Finset.add_sum_erase Finset.univ (fun j => v j (f j)) (Finset.mem_univ i),
    Finset.sdiff_singleton_eq_erase]
  abel

omit [DecidableEq ι] [DecidableEq κ] in
/-- What one worker contributes is part of the sum. -/
theorem le_sum (v : ι → ω → ℕ) : v i (f i) ≤ ∑ j, v j (f j) :=
  Finset.single_le_sum (f := fun j => v j (f j)) (fun _ _ => Nat.zero_le _) (Finset.mem_univ i)

omit [DecidableEq κ] in
/-- **A ledger**, `D` split into what is entered (`E`) and what the workers hold, when one of them
moves. -/
theorem ledger_move [AddCancelCommMonoid M] {f : ι → ω} {i : ι} {x : ω} {D D' E E' : M}
    (h : D = E + ∑ j, v j (f j)) (hm : D' + E + v i (f i) = D + E' + v i x) :
    D' = E' + ∑ j, v j (Function.update f i x j) := by
  have hs := sum_update v f i x
  refine add_right_cancel (b := E + v i (f i)) ?_
  calc D' + (E + v i (f i)) = D + E' + v i x := by rw [← add_assoc, hm]
    _ = E + E' + (∑ j, v j (f j) + v i x) := by rw [h]; abel
    _ = E' + ∑ j, v j (Function.update f i x j) + (E + v i (f i)) := by rw [← hs]; abel

end Sums

/-! ### Condition variables -/

/-- **`signal`** wakes the threads `W`: some of those that wait, and at least one if any does. -/
def signal (W waiting : Finset ι) : Option (Finset ι) :=
  if W ⊆ waiting ∧ (waiting.Nonempty → W.Nonempty) then some (waiting \ W) else none

theorem signal_some {W waiting waiting' : Finset ι} (h : signal W waiting = some waiting') :
    waiting' ⊆ waiting ∧ (waiting.Nonempty → waiting'.card < waiting.card) := by
  unfold signal at h
  split_ifs at h with hW
  obtain ⟨hsub, hne⟩ := hW
  simp only [Option.some.injEq] at h
  subst h
  refine ⟨Finset.sdiff_subset, fun hn => ?_⟩
  refine Finset.card_lt_card ((Finset.ssubset_iff_of_subset Finset.sdiff_subset).mpr ?_)
  obtain ⟨x, hx⟩ := hne hn
  exact ⟨x, hsub hx, by simp [hx]⟩

end PoolStudy.Lib.Threads
