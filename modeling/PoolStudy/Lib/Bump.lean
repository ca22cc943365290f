import PoolStudy.Lib.Threads

/-! # A variable behind a mutex

Threads that execute `lock; x += d; unlock`, where `x += d` is a read and a write and any thread may run between the
two. `writes` counts the writes. As long as every access is between a lock and an unlock, no write is lost: the
value is the first one plus `d` for every write (`Counter.Inv`).

* `Counter.step`: one statement of the thread `t`; `Counter.enter`: the thread begins; `Counter.look`: it has read
  the variable and does not write it; `Counter.pass`: it does not even read it.
* `Counter.Inv.step`, `Counter.step_cases`: what a statement keeps, and what it does to the count of the threads
  that have written (`bumped`). -/

namespace PoolStudy.Lib.Bump

open PoolStudy.Lib.Threads

/-- Where a thread is in `lock; x += d; unlock`. -/
inductive Bumping
  | lock
  | read
  | write (v : ℤ)
  | unlock
  | ret
  deriving DecidableEq

/-- The variable, its mutex, and where the threads are. -/
structure Counter (τ : Type) where
  value : ℤ
  mutex : Option τ
  pos : τ → Bumping
  writes : ℕ

/-- The thread is between the lock and the unlock. -/
def Bumping.locked : Bumping → Prop
  | .read | .write _ | .unlock => True
  | _ => False

/-- The thread has written. -/
def Bumping.bumped : Bumping → ℕ
  | .unlock | .ret => 1
  | _ => 0

variable {τ : Type} [DecidableEq τ] {d v0 : ℤ} {c c' : Counter τ} {t : τ}

/-- The value `v0` before all threads. -/
def Counter.init (v0 : ℤ) : Counter τ := ⟨v0, none, fun _ => .ret, 0⟩

/-- The thread `t` begins. -/
def Counter.enter (c : Counter τ) (t : τ) : Counter τ := { c with pos := Function.update c.pos t .lock }

/-- **One statement** of the thread `t`. -/
def Counter.step (d : ℤ) (c : Counter τ) (t : τ) : Option (Counter τ) :=
  match c.pos t with
  | .lock =>
    if c.mutex = none then some { c with mutex := some t, pos := Function.update c.pos t .read } else none
  | .read => some { c with pos := Function.update c.pos t (.write c.value) }
  | .write v => some { c with
      value := v + d
      writes := c.writes + 1
      pos := Function.update c.pos t .unlock }
  | .unlock => some { c with mutex := none, pos := Function.update c.pos t .ret }
  | .ret => none

/-- The thread `t` has read the variable and goes on to the unlock. -/
def Counter.look (c : Counter τ) (t : τ) : Option (Counter τ × ℤ) :=
  match c.pos t with
  | .write v => some ({ c with pos := Function.update c.pos t .unlock }, v)
  | _ => none

/-- The thread `t` does something else with the mutex and goes on to the unlock. -/
def Counter.pass (c : Counter τ) (t : τ) : Option (Counter τ) :=
  match c.pos t with
  | .read => some { c with pos := Function.update c.pos t .unlock }
  | _ => none

/-- **No write is lost.** -/
structure Counter.Inv (d v0 : ℤ) (c : Counter τ) : Prop where
  owned : ∀ t, (c.pos t).locked ↔ c.mutex = some t
  wrote : ∀ t v, c.pos t = .write v → v = c.value
  value : c.value = v0 + d * c.writes

omit [DecidableEq τ] in
theorem Counter.inv_init : (Counter.init v0 : Counter τ).Inv d v0 := by
  refine ⟨fun t => ?_, fun t v h => (by cases h), by simp [Counter.init]⟩
  simp [Counter.init, Bumping.locked]

/-- Who owns the mutex after the thread `t` has moved to `l`. -/
theorem Counter.Inv.owner (h : c.Inv d v0) {l : Bumping} {lock' : Option τ}
    (hm : MutexStep t c.mutex lock' (c.pos t).locked l.locked) (s : τ) :
    (Function.update c.pos t l s).locked ↔ lock' = some s := by
  rw [← MutexStep.owner h.owned hm s]
  by_cases hs : s = t
  · subst hs; simp
  · simp [hs]

/-- The values read by the threads, after the thread `t` has moved to `l`. -/
theorem Counter.Inv.reads (h : c.Inv d v0) {l : Bumping} (hl : ∀ v, l = .write v → v = c.value) (s : τ) (v : ℤ)
    (hs : Function.update c.pos t l s = .write v) : v = c.value := by
  by_cases hst : s = t
  · subst hst
    rw [Function.update_self] at hs
    exact hl v hs
  · rw [Function.update_of_ne hst] at hs
    exact h.wrote s v hs

theorem Counter.Inv.enter (h : c.Inv d v0) (ht : c.pos t = .ret) : (c.enter t).Inv d v0 :=
  ⟨h.owner (Or.inl ⟨rfl, by simp [ht, Bumping.locked]⟩), h.reads (by simp), h.value⟩

/-- **A statement loses no write.** -/
theorem Counter.Inv.step (h : c.Inv d v0) (hs : c.step d t = some c') : c'.Inv d v0 := by
  unfold Counter.step at hs
  split at hs
  · next ht =>
    split_ifs at hs with hm
    cases hs
    exact ⟨h.owner (l := .read) (Or.inr (Or.inl ⟨hm, rfl, trivial⟩)), h.reads (by simp), h.value⟩
  · next ht =>
    cases hs
    refine ⟨h.owner (l := .write c.value) (Or.inl ⟨rfl, by simp [ht, Bumping.locked]⟩), h.reads ?_, h.value⟩
    intro v hv
    exact (Bumping.write.inj hv).symm
  · next v ht =>
    cases hs
    have hmine : c.mutex = some t := (h.owned t).mp (by simp [ht, Bumping.locked])
    refine ⟨h.owner (l := .unlock) (Or.inl ⟨rfl, by simp [ht, Bumping.locked]⟩), fun s v' hs => ?_, ?_⟩
    · -- nobody else is between its read and its write
      change Function.update c.pos t .unlock s = .write v' at hs
      have hst : s ≠ t := by
        rintro rfl
        simp at hs
      rw [Function.update_of_ne hst] at hs
      have hother := (h.owned s).mp (by simp [hs, Bumping.locked])
      rw [hmine, Option.some.injEq] at hother
      exact absurd hother.symm hst
    · show v + d = v0 + d * ((c.writes + 1 : ℕ) : ℤ)
      rw [h.wrote t v ht, h.value, Nat.cast_add, Nat.cast_one, mul_add, mul_one, add_assoc]
  · next ht =>
    cases hs
    exact ⟨h.owner (l := .ret) (Or.inr (Or.inr ⟨by simp [ht, Bumping.locked], rfl, id⟩)), h.reads (by simp), h.value⟩
  · cases hs

/-- A thread that has written has written. -/
theorem Counter.step_bumped (hs : c.step d t = some c') : (c.pos t).bumped ≤ (c'.pos t).bumped := by
  unfold Counter.step at hs
  split at hs
  · next ht => simp [ht, Bumping.bumped]
  · next ht => simp [ht, Bumping.bumped]
  · next v ht => simp [ht, Bumping.bumped]
  · next ht => cases hs; simp [Bumping.bumped, ht]
  · cases hs

theorem Counter.look_cases {v : ℤ} (hs : c.look t = some (c', v)) :
    c.pos t = .write v ∧ c' = { c with pos := Function.update c.pos t .unlock } := by
  unfold Counter.look at hs
  split at hs
  · next w ht =>
    cases hs
    exact ⟨ht, rfl⟩
  · cases hs

/-- A thread that always looks does not write. -/
theorem Counter.step_looks (hl : c.look t = none) (hs : c.step d t = some c') : c'.writes = c.writes := by
  unfold Counter.step at hs
  unfold Counter.look at hl
  split at hs
  · split_ifs at hs
    cases hs
    rfl
  · cases hs; rfl
  · next v ht => rw [ht] at hl; cases hl
  · cases hs; rfl
  · cases hs

/-- A thread that looks sees the value and changes nothing. -/
theorem Counter.Inv.look (h : c.Inv d v0) {v : ℤ} (hs : c.look t = some (c', v)) : c'.Inv d v0 ∧ v = c.value := by
  obtain ⟨ht, rfl⟩ := Counter.look_cases hs
  refine ⟨⟨h.owner (l := .unlock) (Or.inl ⟨rfl, by simp [ht, Bumping.locked]⟩), h.reads (by simp), h.value⟩, ?_⟩
  exact h.wrote t v ht

theorem Counter.pass_cases (hs : c.pass t = some c') :
    c.pos t = .read ∧ c' = { c with pos := Function.update c.pos t .unlock } := by
  unfold Counter.pass at hs
  split at hs
  · next ht =>
    cases hs
    exact ⟨ht, rfl⟩
  · cases hs

theorem Counter.Inv.pass (h : c.Inv d v0) (hs : c.pass t = some c') : c'.Inv d v0 := by
  obtain ⟨ht, rfl⟩ := Counter.pass_cases hs
  exact ⟨h.owner (l := .unlock) (Or.inl ⟨rfl, by simp [ht, Bumping.locked]⟩), h.reads (by simp), h.value⟩

/-- **A statement moves its thread only**, and the writes are those of the threads that have written. -/
theorem Counter.step_cases (hs : c.step d t = some c') :
    ∃ l, c'.pos = Function.update c.pos t l ∧ c.pos t ≠ .ret ∧
      c'.writes + (c.pos t).bumped = c.writes + l.bumped := by
  unfold Counter.step at hs
  split at hs
  · next ht =>
    split_ifs at hs with hm
    cases hs
    exact ⟨_, rfl, by simp [ht], by simp [ht, Bumping.bumped]⟩
  · next ht => cases hs; exact ⟨_, rfl, by simp [ht], by simp [ht, Bumping.bumped]⟩
  · next v ht => cases hs; exact ⟨_, rfl, by simp [ht], by simp [ht, Bumping.bumped]⟩
  · next ht => cases hs; exact ⟨_, rfl, by simp [ht], by simp [ht, Bumping.bumped]⟩
  · cases hs

end PoolStudy.Lib.Bump
