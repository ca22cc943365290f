import PoolStudy.Thpool.Steps

/-! # Pausing the linked-queue pool

`thpool_pause` sends every worker a signal and returns; the worker runs the handler `thread_hold` whenever
the signal is delivered, between any two of its steps. So the worker may own a mutex when it is held, and
the handler may set `threads_on_hold` after a `thpool_resume` that was meant to clear it.

* A held worker owns neither `rwmutex` nor the mutex of `has_jobs`, so that work can be added meanwhile, as
  long as no signal is delivered to a worker that owns one of them, and only as long (`hold_owner_iff`).
* After a `thpool_resume` the flag stays clear and nobody is held up to the next `thpool_pause` if and only if
  no signal was pending and no worker was about to set it when `thpool_resume` was called
  (`resume_undoes_iff`). -/

namespace PoolStudy.Thpool.Pause

open PoolStudy.Lib.Transition PoolStudy.Lib.Threads
open PoolStudy.Thpool.Model PoolStudy.Thpool.Steps

variable {n : ℕ} {κ F A : Type}

/-! ### Held workers and the two mutexes -/

/-- The worker is inside `thread_hold`. -/
def inHold (w : Worker F A) : Prop := w.hold ≠ .off

/-- The thread owns `rwmutex` or the mutex of `has_jobs`. -/
def Owns (p : Pool n κ F A) (t : Tid n κ) : Prop := p.rwmutex = some t ∨ p.hasJobs.mutex = some t

/-- **No held worker owns a mutex** that `thpool_add_work` takes. -/
def HeldOwnsNone (c : State n κ F A) : Prop := ∀ i, inHold (c.worker i) → ¬ Owns c.mem.pool (.inl i)

/-- The step does not deliver a signal to a worker that owns one of the two mutexes. -/
def deliversClear (c : State n κ F A) (a : Tid n κ × Input n F A) : Prop :=
  ∀ i, a.1 = .inl i → (c.worker i).hold = .off → a.2.deliver = true → ¬ Owns c.mem.pool (.inl i)

/-- A step gives the two mutexes to nobody but the thread that takes it. -/
def KeepsOwners (t : Tid n κ) (p p' : Pool n κ F A) : Prop := ∀ s, s ≠ t → Owns p' s → Owns p s

theorem KeepsOwners.of_same {t : Tid n κ} {p p' : Pool n κ F A} (h1 : p'.rwmutex = p.rwmutex)
    (h2 : p'.hasJobs.mutex = p.hasJobs.mutex) : KeepsOwners t p p' := by
  intro s _ h
  rwa [Owns, h1, h2] at h

/-- A step that takes or gives back one of the mutexes. -/
theorem KeepsOwners.of_take {t : Tid n κ} {p p' : Pool n κ F A}
    (h1 : p'.rwmutex = p.rwmutex ∨ p'.rwmutex = none ∨ p'.rwmutex = some t)
    (h2 : p'.hasJobs.mutex = p.hasJobs.mutex ∨ p'.hasJobs.mutex = none ∨ p'.hasJobs.mutex = some t) :
    KeepsOwners t p p' := by
  have hlock : ∀ {l l' : Option (Tid n κ)} {s : Tid n κ}, l' = l ∨ l' = none ∨ l' = some t → s ≠ t →
      l' = some s → l = some s := by
    rintro l l' s (rfl | rfl | rfl) hs h
    · exact h
    · cases h
    · exact absurd (Option.some.inj h).symm hs
  rintro s hs (h | h)
  · exact Or.inl (hlock h1 hs h)
  · exact Or.inr (hlock h2 hs h)

theorem pushStep_owners {self : Tid n κ} {x : Input n F A} {p p' : Pool n κ F A} {j : Ptr} {s s' : Push}
    (h : PushStep self x p j s p' s') : KeepsOwners self p p' := by
  cases h with
  | postLock _ => exact .of_take (Or.inl rfl) (Or.inr (Or.inr rfl))
  | post ws _ => exact .of_take (Or.inl rfl) (Or.inr (Or.inl rfl))
  | _ => exact .of_same rfl rfl

theorem pullStep_owners {self : Tid n κ} {x : Input n F A} {p p' : Pool n κ F A} {q q' : Pull}
    (h : PullStep self x p q p' q') : KeepsOwners self p p' := by
  cases h with
  | postLock j _ => exact .of_take (Or.inl rfl) (Or.inr (Or.inr rfl))
  | post j ws _ => exact .of_take (Or.inl rfl) (Or.inr (Or.inl rfl))
  | _ => exact .of_same rfl rfl

theorem addStep_owners {self : Tid n κ} {x : Input n F A} {p p' : Pool n κ F A} {c : Add}
    {c' : Option Add} (h : AddStep self x p c p' c') : KeepsOwners self p p' := by
  cases h with
  | lock j _ => exact .of_take (Or.inr (Or.inr rfl)) (Or.inl rfl)
  | push j h => exact pushStep_owners h
  | unlock j => exact .of_take (Or.inr (Or.inl rfl)) (Or.inl rfl)

theorem posStep_owners {i : Fin n} {x : Input n F A} {fl : Flags} {p p' : Pool n κ F A} {w w' : Pos F A}
    (h : PosStep i x fl p w p' w') : KeepsOwners (.inl i) p p' := by
  cases h with
  | semLock _ _ => exact .of_take (Or.inl rfl) (Or.inr (Or.inr rfl))
  | semBlock _ => exact .of_take (Or.inl rfl) (Or.inr (Or.inl rfl))
  | semTake _ => exact .of_take (Or.inl rfl) (Or.inr (Or.inl rfl))
  | pullLock _ => exact .of_take (Or.inr (Or.inr rfl)) (Or.inl rfl)
  | pull h => exact pullStep_owners h
  | pullUnlock j => exact .of_take (Or.inr (Or.inl rfl)) (Or.inl rfl)
  | add j f a h => exact addStep_owners h
  | _ => exact .of_same rfl rfl

/-- The statements of `jobqueue_pull` in `jobqueue_clear`. -/
theorem pullRun_owners {self : Tid n κ} {x : Input n F A} {k : ℕ} {p : Pool n κ F A}
    {r : Pool n κ F A × Option Ptr} (h : pullRun self x k p .front = some r) :
    KeepsOwners self p r.1 :=
  pullRun_induct (I := fun p' _ => KeepsOwners self p p')
    (fun _ _ _ _ hf hs t ht ho => hf t ht (pullStep_owners hs t ht ho)) k p .front r h (.of_same rfl rfl)

theorem callStep_owners {k : κ} {x : Input n F A} {m m' : Mem n κ F A} {c c' : Call}
    (h : CallStep k x m c m' c') : KeepsOwners (.inr k) m.pool m'.pool := by
  have hdestroy : ∀ {total : ℤ} {d : Destroy} {d' : Option Destroy},
      DestroyStep (.inr k) x m total d m' d' → KeepsOwners (.inr k) m.pool m'.pool := by
    intro total d d' hs
    cases hs with
    | postAllLock _ _ => exact .of_take (Or.inl rfl) (Or.inr (Or.inr rfl))
    | postAll _ => exact .of_take (Or.inl rfl) (Or.inr (Or.inl rfl))
    | clearPull hp => exact pullRun_owners hp
    | clearSem => exact .of_take (Or.inl rfl) (Or.inr (Or.inl rfl))
    | _ => exact .of_same rfl rfl
  cases h with
  | add h => exact addStep_owners h
  | addReturn h => exact addStep_owners h
  | destroy h => exact hdestroy h
  | destroyReturn h => exact hdestroy h
  | _ => exact .of_same rfl rfl

variable [DecidableEq κ]

/-- **One step**: whether a held worker owns a mutex afterwards is decided by the deliveries. -/
theorem next_heldOwnsNone {c c' : State n κ F A} {a : Tid n κ × Input n F A} (hi : HeldOwnsNone c)
    (hs : (thpool n κ F A).lts.next c a = some c') : HeldOwnsNone c' ↔ deliversClear c a := by
  rcases Program.next_cases hs with ⟨i, x, r, rfl, hr, rfl⟩ | ⟨k, x, r, rfl, hr, rfl⟩
  · have hw := workerStep_cases hr
    obtain ⟨m', w'⟩ := r
    -- a step of `i` that leaves it as held as it was, or not held
    have hother : KeepsOwners (.inl i) c.mem.pool m'.pool → (inHold w' → ¬ Owns m'.pool (.inl i)) →
        HeldOwnsNone (c.moveWorker i (m', w')) := by
      intro hk hw'
      refine forall_moveWorker (P := fun j (w : Worker F A) => inHold w → ¬ Owns m'.pool (.inl j)) hw' ?_
      intro j hj hh ho
      exact hi j hh (hk (.inl j) (by simpa using hj) ho)
    cases hw with
    | deliver hsig hh =>
      have hx : x.deliver = true := by
        by_contra hx
        simp only [thpool, workerStep, hh, hx] at hr
        obtain ⟨r', -, h'⟩ := Option.map_eq_some_iff.mp hr
        exact absurd (congrArg (fun r => r.2.hold) h') (by simp)
      constructor
      · rintro hc' j hj - -
        obtain rfl : i = j := Sum.inl.inj hj
        have hheld := hc' i
        simpa [Config.moveWorker, inHold, Owns] using hheld
      · intro hok
        exact hother (.of_same rfl rfl) fun _ => hok i rfl hh hx
    | holdSet hh =>
      refine ⟨fun _ j hj hoff => ?_, fun _ => hother (.of_same rfl rfl) fun _ => ?_⟩
      · obtain rfl : i = j := Sum.inl.inj hj
        rw [hh] at hoff; cases hoff
      · exact hi i (by simp [inHold, hh])
    | holdLoop _ hh =>
      refine ⟨fun _ j hj hoff => ?_, fun _ => hother (.of_same rfl rfl) (hi i)⟩
      obtain rfl : i = j := Sum.inl.inj hj
      rw [hh] at hoff; cases hoff
    | holdEnd _ hh =>
      refine ⟨fun _ j hj hoff => ?_, fun _ => hother (.of_same rfl rfl) fun h => absurd rfl h⟩
      obtain rfl : i = j := Sum.inl.inj hj
      rw [hh] at hoff; cases hoff
    | move hh hx hp =>
      refine ⟨fun _ j hj _ hd => ?_, fun _ => hother (posStep_owners hp) fun h => absurd hh h⟩
      rw [hx] at hd; cases hd
  · have hk := callStep_owners (callStep_cases hr)
    refine ⟨fun _ j hj => ?_, fun _ i hh ho => hi i hh (hk (.inl i) (by simp) ho)⟩
    cases hj

/-- **Work can be added to a paused pool exactly as long as no signal hits an owner.** In every run in
which no signal is delivered to a worker that owns `rwmutex` or the mutex of `has_jobs`, no held worker
owns one of them, so that `thpool_add_work` does not wait for a held worker; and from every state of such a
run the next step keeps this if and only if it is no such delivery. -/
theorem hold_owner_iff {c : State n κ F A} (h : Reach (thpool n κ F A).lts deliversClear c) :
    HeldOwnsNone c ∧ ∀ a c', (thpool n κ F A).lts.next c a = some c' →
      (HeldOwnsNone c' ↔ deliversClear c a) := by
  have hi : HeldOwnsNone c := by
    refine h.induct ?_ fun c a c' _ hi hok hs => (next_heldOwnsNone hi hs).mpr hok
    rintro _ ⟨heap, k0, rfl⟩ i hh
    exact absurd rfl hh
  exact ⟨hi, fun a c' hs => next_heldOwnsNone hi hs⟩

/-- The worker is held while it owns `rwmutex`, and the client waits for `rwmutex` in `thpool_add_work`. -/
def holdBlocks (c : State 1 Unit ℕ ℕ) : Prop :=
  c.mem.flags.threadsOnHold = true ∧ c.mem.pool.rwmutex = some (.inl (Fin.last 0)) ∧
    (c.worker (Fin.last 0)).hold = .loop ∧ c.client () = .add (.lock 1)

instance (c : State 1 Unit ℕ ℕ) : Decidable (holdBlocks c) :=
  inferInstanceAs (Decidable (_ ∧ _ ∧ _ ∧ _))

/-- Nothing happens any more. -/
theorem next_holdBlocks {c c' : State 1 Unit ℕ ℕ} {a : Tid 1 Unit × Input 1 ℕ ℕ} (h : holdBlocks c)
    (hs : (thpool 1 Unit ℕ ℕ).lts.next c a = some c') : holdBlocks c' := by
  obtain ⟨hflag, hlock, hhold, hcl⟩ := h
  rcases Program.next_cases hs with ⟨i, x, r, rfl, hr, rfl⟩ | ⟨k, x, r, rfl, hr, rfl⟩
  · obtain rfl : i = Fin.last 0 := Subsingleton.elim _ _
    have hw := workerStep_cases hr
    obtain ⟨m', w'⟩ := r
    cases hw with
    | holdLoop _ _ => exact ⟨hflag, hlock, by simpa [Config.moveWorker] using hhold, hcl⟩
    | holdEnd hf _ => rw [hflag] at hf; cases hf
    | holdSet hh => rw [hhold] at hh; cases hh
    | deliver _ hh => rw [hhold] at hh; cases hh
    | move hh _ _ => rw [hhold] at hh; cases hh
  · obtain rfl : k = () := rfl
    simp [thpool, hcl, callStep, addStep, hlock] at hr

/-- One worker; the client adds a job and pauses the pool. The signal is delivered when the worker has just
taken `rwmutex`; then the client adds another job. -/
def pauseRun : List (Tid 1 Unit × Input 1 ℕ ℕ) :=
  let w : Tid 1 Unit := .inl (Fin.last 0)
  let d : Tid 1 Unit := .inr ()
  plainSteps [w, w, w, d] ++ [(d, { call := some (.addWork 7 0) })] ++ plainSteps (List.replicate 9 d) ++
    plainSteps (List.replicate 8 w) ++ [(d, { call := some .pause })] ++ plainSteps [d, d] ++
    [(w, { deliver := true })] ++ plainSteps [w] ++ [(d, { call := some (.addWork 8 0) })]

/-- **Pausing, adding work and resuming can hang.** The held worker owns `rwmutex` for ever, so the client
never gets out of `thpool_add_work` to call `thpool_resume`. -/
theorem hold_blocks_pauseRun : ∃ c : State 1 Unit ℕ ℕ, Reach (thpool 1 Unit ℕ ℕ).lts anyStep c ∧
    ¬ HeldOwnsNone c ∧ ∀ c', Runs (thpool 1 Unit ℕ ℕ).lts anyStep c c' → c'.client () = .add (.lock 1) := by
  obtain ⟨c, hc, hp⟩ := reach_of_run (thpool 1 Unit ℕ ℕ).lts anyStep_of_test pauseRun
    (fun c => decide (holdBlocks c)) ⟨fun _ => ⟨none, 0, 0⟩, (), rfl⟩ (by decide)
  have hb : holdBlocks c := of_decide_eq_true hp
  refine ⟨c, hc, fun hno => ?_, fun c' hrun => ?_⟩
  · exact hno (Fin.last 0) (by rw [inHold, hb.2.2.1]; decide) (Or.inl hb.2.1)
  · have hb' := Runs.keeps (P := holdBlocks) (fun s a s' hP _ hn => next_holdBlocks hP hn) hrun hb
    exact hb'.2.2.2

instance (p : Pool n κ F A) (t : Tid n κ) : Decidable (Owns p t) := inferInstanceAs (Decidable (_ ∨ _))

/-- The test for a step that delivers no signal to an owner. -/
def deliversClearTest (c : State n κ F A) (a : Tid n κ × Input n F A) : Bool :=
  match a.1 with
  | .inl i => !a.2.deliver || !decide (Owns c.mem.pool (.inl i))
  | .inr _ => true

theorem deliversClear_of_test (c : State n κ F A) (a : Tid n κ × Input n F A)
    (h : deliversClearTest c a = true) : deliversClear c a := by
  intro i hi _ hd
  rw [deliversClearTest, hi] at h
  simpa [hd] using h

/-- One worker; the client pauses the pool while the worker is between two jobs. -/
def holdRun : List (Tid 1 Unit × Input 1 ℕ ℕ) :=
  let w : Tid 1 Unit := .inl (Fin.last 0)
  let d : Tid 1 Unit := .inr ()
  plainSteps [w, w, w, d] ++ [(d, { call := some .pause })] ++ plainSteps [d, d] ++
    [(w, { deliver := true })] ++ plainSteps [w]

theorem hold_owner_iff_holdRun : ∃ c : State 1 Unit ℕ ℕ,
    Reach (thpool 1 Unit ℕ ℕ).lts deliversClear c ∧ inHold (c.worker (Fin.last 0)) ∧
      ¬ Owns c.mem.pool (.inl (Fin.last 0)) := by
  obtain ⟨c, hc, hp⟩ := reach_of_run (thpool 1 Unit ℕ ℕ).lts deliversClear_of_test holdRun
    (fun c => decide ((c.worker (Fin.last 0)).hold = .loop)) ⟨fun _ => ⟨none, 0, 0⟩, (), rfl⟩ (by decide)
  have hh : inHold (c.worker (Fin.last 0)) := by
    rw [inHold, of_decide_eq_true hp]
    decide
  exact ⟨c, hc, hh, (hold_owner_iff hc).1 (Fin.last 0) hh⟩

/-! ### Resuming -/

/-- Only the client `k0` calls `thpool_pause` and `thpool_resume`, and nobody calls `thpool_destroy`. -/
def pausesBy (k0 : κ) (_ : State n κ F A) (a : Tid n κ × Input n F A) : Prop :=
  a.2.call ≠ some .destroy ∧
    ∀ k, a.1 = .inr k → a.2.call = some .pause ∨ a.2.call = some .resume → k = k0

/-- Nobody calls `thpool_pause` or `thpool_destroy`. -/
def noPause (_ : State n κ F A) (a : Tid n κ × Input n F A) : Prop :=
  a.2.call ≠ some .destroy ∧ a.2.call ≠ some .pause

/-- Nobody is in `thpool_pause`, no signal is pending, no worker is about to set `threads_on_hold`, and the
flag is clear. -/
structure Resumed (c : State n κ F A) : Prop where
  clients : ∀ k j, c.client k ≠ .pause j
  signals : c.mem.pool.signals = ∅
  workers : ∀ i, (c.worker i).hold ≠ .set
  flag : c.mem.flags.threadsOnHold = false

omit [DecidableEq κ] in
/-- `thread_do` leaves the pending signals alone. -/
theorem posStep_signals {i : Fin n} {x : Input n F A} {fl : Flags} {p p' : Pool n κ F A} {w w' : Pos F A}
    (h : PosStep i x fl p w p' w') : p'.signals = p.signals := by
  cases h with
  | pull h => cases h <;> rfl
  | add j f a h =>
    cases h with
    | push j h => cases h <;> rfl
    | _ => rfl
  | _ => rfl

omit [DecidableEq κ] in
/-- A client gets into `thpool_pause` by calling it. -/
theorem callStep_pause {k : κ} {x : Input n F A} {m : Mem n κ F A} {c : Call} {r : Mem n κ F A × Call}
    (h : callStep k x m c = some r) (hc : ∀ j, c ≠ .pause j) {j : ℕ} (hr : r.2 = .pause j) :
    x.call = some .pause := by
  have hs := callStep_cases h
  obtain ⟨m', c'⟩ := r
  obtain rfl : c' = .pause j := hr
  cases hs with
  | pause hstage =>
    simp only [callStep] at h
    split at h
    · cases h
    · next api hx =>
      rw [if_pos hstage] at h
      cases api with
      | addWork f a =>
        rcases addWork_cases x m'.pool f a with hw | hw <;> simp [enter, hw] at h
      | pause => exact hx
      | _ => simp [enter] at h
  | waitMove hw => cases hw
  | kill j _ _ => exact absurd rfl (hc j)

omit [DecidableEq κ] in
/-- Calls other than `thpool_pause` leave the pending signals alone, and none sets the flag. -/
theorem callStep_signals {k : κ} {x : Input n F A} {m m' : Mem n κ F A} {c c' : Call}
    (h : CallStep k x m c m' c') (hc : ∀ j, c ≠ .pause j) :
    m'.pool.signals = m.pool.signals ∧
      (m.flags.threadsOnHold = false → m'.flags.threadsOnHold = false) := by
  have hpush : ∀ {p p' : Pool n κ F A} {a : Add} {a' : Option Add}, AddStep (.inr k) x p a p' a' →
      p'.signals = p.signals := by
    intro p p' a a' h
    cases h with
    | push j h => cases h <;> rfl
    | _ => rfl
  have hdestroy : ∀ {total : ℤ} {d : Destroy} {d' : Option Destroy},
      DestroyStep (.inr k) x m total d m' d' → m'.pool.signals = m.pool.signals ∧
        (m.flags.threadsOnHold = false → m'.flags.threadsOnHold = false) := by
    intro total d d' hs
    cases hs with
    | clearPull hp =>
      refine ⟨?_, id⟩
      refine pullRun_induct (I := fun p' _ => p'.signals = m.pool.signals) ?_ _ _ _ _ hp rfl
      intro p q p' q' hp hs
      cases hs <;> exact hp
    | _ => exact ⟨rfl, id⟩
  cases h with
  | add h => exact ⟨hpush h, id⟩
  | addReturn h => exact ⟨hpush h, id⟩
  | destroy h => exact hdestroy h
  | destroyReturn h => exact hdestroy h
  | resume _ => exact ⟨rfl, fun _ => rfl⟩
  | kill j _ _ => exact absurd rfl (hc j)
  | _ => exact ⟨rfl, id⟩

/-- Nothing but a call of `thpool_pause` disturbs a resumed pool. -/
theorem next_resumed {c c' : State n κ F A} {a : Tid n κ × Input n F A} (h : Resumed c)
    (hok : noPause c a) (hs : (thpool n κ F A).lts.next c a = some c') : Resumed c' := by
  rcases Program.next_cases hs with ⟨i, x, r, rfl, hr, rfl⟩ | ⟨k, x, r, rfl, hr, rfl⟩
  · have hw := workerStep_cases hr
    obtain ⟨m', w'⟩ := r
    have hall : w'.hold ≠ .set → ∀ j, ((c.moveWorker i (m', w')).worker j).hold ≠ .set := fun hne =>
      forall_moveWorker (P := fun _ (w : Worker F A) => w.hold ≠ .set) hne fun j _ => h.workers j
    cases hw with
    | deliver hsig _ => rw [h.signals] at hsig; exact absurd hsig (Finset.notMem_empty i)
    | holdSet hh => exact absurd hh (h.workers i)
    | holdLoop _ hh => exact ⟨h.clients, h.signals, hall (h.workers i), h.flag⟩
    | holdEnd _ hh => exact ⟨h.clients, h.signals, hall (by simp), h.flag⟩
    | move hh _ hp =>
      exact ⟨h.clients, (posStep_signals hp).trans h.signals, hall (h.workers i), h.flag⟩
  · obtain ⟨hsig, hflag⟩ := callStep_signals (callStep_cases hr) (h.clients k)
    refine ⟨?_, hsig.trans h.signals, h.workers, hflag h.flag⟩
    refine forall_moveClient (P := fun _ (l : Call) => ∀ j, l ≠ .pause j) ?_ fun k' _ => h.clients k'
    exact fun j hj => hok.2 (callStep_pause hr (h.clients k) hj)

/-- The clients other than `k0` are never in `thpool_pause`. -/
theorem pause_reach {k0 : κ} {c : State n κ F A} (h : Reach (thpool n κ F A).lts (pausesBy k0) c) :
    ∀ k, k ≠ k0 → ∀ j, c.client k ≠ .pause j := by
  refine Program.invariant (I := fun c : State n κ F A => ∀ k, k ≠ k0 → ∀ j, c.client k ≠ .pause j)
    ?_ ?_ ?_ h
  · rintro _ ⟨heap, k1, rfl⟩ k -
    exact initClients_forall (P := fun l => ∀ j, l ≠ .pause j) (by simp) (by simp) k1 k
  · intro c i x r _ hi _ _
    exact hi
  · intro c k x r _ hi hok hr
    refine forall_moveClient (P := fun k' (l : Call) => k' ≠ k0 → ∀ j, l ≠ .pause j) ?_ fun k' _ => hi k'
    exact fun hk j hj => hk (hok.2 k rfl (Or.inl (callStep_pause hr (hi k hk) hj)))

/-- A pending signal is delivered, or a worker in the handler goes on: the flag can be set. -/
theorem hold_sets {c : State n κ F A} {i : Fin n}
    (h : i ∈ c.mem.pool.signals ∨ (c.worker i).hold = .set) :
    ∃ c', Runs (thpool n κ F A).lts noPause c c' ∧ c'.mem.flags.threadsOnHold = true := by
  have hstep : ∀ {c : State n κ F A} {x : Input n F A} {r : Mem n κ F A × Worker F A},
      x.call = none → workerStep i x c.mem (c.worker i) = some r →
      Step (thpool n κ F A).lts noPause c (c.moveWorker i r) := by
    intro c x r hx hr
    exact ⟨(.inl i, x), ⟨by simp [hx], by simp [hx]⟩, Program.next_worker hr⟩
  -- in the handler
  have hset : ∀ {c : State n κ F A}, (c.worker i).hold = .set →
      ∃ c', Runs (thpool n κ F A).lts noPause c c' ∧ c'.mem.flags.threadsOnHold = true := by
    intro c hh
    have hr : workerStep i {} c.mem (c.worker i) =
        some ({ c.mem with flags := { c.mem.flags with threadsOnHold := true } },
          { c.worker i with hold := .loop }) := by
      simp [workerStep, hh]
    exact ⟨_, .single (hstep rfl hr), rfl⟩
  -- outside the handler, with the signal pending
  have hoff : ∀ {c : State n κ F A}, i ∈ c.mem.pool.signals → (c.worker i).hold = .off →
      ∃ c', Runs (thpool n κ F A).lts noPause c c' ∧ c'.mem.flags.threadsOnHold = true := by
    intro c hsig hh
    have hr : workerStep i { deliver := true } c.mem (c.worker i) =
        some ({ c.mem with pool := { c.mem.pool with signals := c.mem.pool.signals.erase i } },
          { c.worker i with hold := .set }) := by
      simp [workerStep, hh, hsig]
    have hnext := hstep (c := c) rfl hr
    obtain ⟨c', hrun, hc'⟩ := hset (c := c.moveWorker i ({ c.mem with pool := { c.mem.pool with
      signals := c.mem.pool.signals.erase i } }, { c.worker i with hold := .set }))
      (by simp [Config.moveWorker])
    exact ⟨c', hrun.head hnext, hc'⟩
  rcases h with hsig | hh
  · cases hh : (c.worker i).hold with
    | off => exact hoff hsig hh
    | set => exact hset hh
    | loop =>
      cases hf : c.mem.flags.threadsOnHold with
      | true => exact ⟨c, .refl, hf⟩
      | false =>
        have hr : workerStep i {} c.mem (c.worker i) =
            some (c.mem, { c.worker i with hold := .off }) := by
          simp [workerStep, hh, hf]
        obtain ⟨c', hrun, hc'⟩ := hoff (c := c.moveWorker i (c.mem, { c.worker i with hold := .off }))
          hsig (by simp [Config.moveWorker])
        exact ⟨c', hrun.head (hstep rfl hr), hc'⟩
  · exact hset hh

/-- **Nobody is held any more**: `threads_on_hold` is clear, no worker has entered `thread_hold`, and a worker
that is still in its loop leaves it with its next step. -/
structure NoneHeld (c : State n κ F A) : Prop where
  flag : c.mem.flags.threadsOnHold = false
  enters : ∀ i, (c.worker i).hold ≠ .set
  leaves : ∀ i x, (c.worker i).hold = .loop →
    ∃ c', (thpool n κ F A).lts.next c (.inl i, x) = some c' ∧ (c'.worker i).hold = .off

theorem Resumed.noneHeld {c : State n κ F A} (h : Resumed c) : NoneHeld c := by
  refine ⟨h.flag, h.workers, fun i x hl => ?_⟩
  have hr : (thpool n κ F A).workerStep i x c.mem (c.worker i) = some (c.mem, { c.worker i with hold := .off }) := by
    simp [thpool, workerStep, hl, h.flag]
  exact ⟨_, Program.next_worker hr, by simp [Config.moveWorker]⟩

/-- **`thpool_resume` undoes the earlier pauses exactly when they have taken effect.** In every run in which
one client pauses and resumes the pool, for every call of `thpool_resume`: `threads_on_hold` stays `0` up to
the next `thpool_pause` and nobody is held, in every continuation, if and only if no signal was pending and no
worker was between its entry into `thread_hold` and its store when `thpool_resume` was called. -/
theorem resume_undoes_iff {k0 : κ} {c c' : State n κ F A} {x : Input n F A}
    (h : Reach (thpool n κ F A).lts (pausesBy k0) c) (hk : c.client k0 = .outside)
    (hx : x.call = some .resume) (hs : (thpool n κ F A).lts.next c (.inr k0, x) = some c') :
    (∀ c'', Runs (thpool n κ F A).lts noPause c' c'' → NoneHeld c'') ↔
      c.mem.pool.signals = ∅ ∧ ∀ i, (c.worker i).hold ≠ .set := by
  have hc' : c' = c.moveClient k0
      ({ c.mem with flags := { c.mem.flags with threadsOnHold := false } }, .outside) := by
    rcases Program.next_cases hs with ⟨i, x', r, he, -, -⟩ | ⟨k, x', r, he, hr, rfl⟩
    · cases he
    · cases he
      simp only [thpool, hk, callStep, hx] at hr
      split_ifs at hr
      cases hr
      rfl
  subst hc'
  constructor
  · intro hall
    have hno : ∀ i, ¬ (i ∈ c.mem.pool.signals ∨ (c.worker i).hold = .set) := by
      intro i hi
      obtain ⟨c'', hrun, hf⟩ := hold_sets (c := c.moveClient k0
        ({ c.mem with flags := { c.mem.flags with threadsOnHold := false } }, .outside)) (i := i) hi
      rw [(hall c'' hrun).flag] at hf
      cases hf
    refine ⟨Finset.eq_empty_of_forall_notMem fun i hi => hno i (Or.inl hi), fun i hi => ?_⟩
    exact hno i (Or.inr hi)
  · rintro ⟨hsig, hset⟩ c'' hrun
    refine (Runs.keeps (P := Resumed) (fun s a s' hP hok hn => next_resumed hP hok hn) hrun ?_).noneHeld
    refine ⟨?_, hsig, hset, rfl⟩
    exact forall_moveClient (P := fun _ (l : Call) => ∀ j, l ≠ .pause j) (by simp)
      fun k hne => pause_reach h k hne

/-- One worker; the client pauses the pool, and the signal is not delivered yet. -/
def lateRun : List (Tid 1 Unit × Input 1 ℕ ℕ) :=
  let w : Tid 1 Unit := .inl (Fin.last 0)
  let d : Tid 1 Unit := .inr ()
  plainSteps [w, w, w, d] ++ [(d, { call := some .pause })] ++ plainSteps [d, d]

/-- The test for a step that is not the call of `thpool_destroy`, with one client. -/
def pausesByTest (_ : State n Unit ℕ ℕ) (a : Tid n Unit × Input n ℕ ℕ) : Bool :=
  decide (a.2.call ≠ some .destroy)

theorem pausesBy_of_test (c : State n Unit ℕ ℕ) (a : Tid n Unit × Input n ℕ ℕ)
    (h : pausesByTest c a = true) : pausesBy () c a :=
  ⟨of_decide_eq_true (p := a.2.call ≠ some .destroy) h, fun _ _ _ => rfl⟩

/-- **A late signal pauses a resumed pool.** `thpool_resume` returns before the signal of the earlier
`thpool_pause` is delivered; then the handler sets `threads_on_hold`, and nobody clears it. -/
theorem resume_misses_lateRun : ∃ c c' c'' : State 1 Unit ℕ ℕ,
    Reach (thpool 1 Unit ℕ ℕ).lts (pausesBy ()) c ∧
      (thpool 1 Unit ℕ ℕ).lts.next c (.inr (), { call := some .resume }) = some c' ∧
      c.client () = .outside ∧ Runs (thpool 1 Unit ℕ ℕ).lts noPause c' c'' ∧
      c''.mem.flags.threadsOnHold = true := by
  obtain ⟨c, hc, hp⟩ := reach_of_run (thpool 1 Unit ℕ ℕ).lts pausesBy_of_test lateRun
    (fun c => decide (Fin.last 0 ∈ c.mem.pool.signals) && decide (c.client () = .outside) &&
      ((thpool 1 Unit ℕ ℕ).lts.next c (.inr (), { call := some .resume })).any
        fun c' : State 1 Unit ℕ ℕ => decide (Fin.last 0 ∈ c'.mem.pool.signals))
    ⟨fun _ => ⟨none, 0, 0⟩, (), rfl⟩ (by decide)
  simp only [Bool.and_eq_true, decide_eq_true_eq, Option.any_eq_true] at hp
  obtain ⟨⟨-, hk⟩, c', hs, hsig⟩ := hp
  obtain ⟨c'', hrun, hf⟩ := hold_sets (Or.inl hsig)
  exact ⟨c, c', c'', hc, hs, hk, hrun, hf⟩

/-- When the handler has set the flag before, `thpool_resume` clears it for good. -/
theorem resume_undoes_iff_holdRun : ∃ c c' : State 1 Unit ℕ ℕ,
    Reach (thpool 1 Unit ℕ ℕ).lts (pausesBy ()) c ∧ c.mem.flags.threadsOnHold = true ∧
      (thpool 1 Unit ℕ ℕ).lts.next c (.inr (), { call := some .resume }) = some c' ∧
      ∀ c'', Runs (thpool 1 Unit ℕ ℕ).lts noPause c' c'' → NoneHeld c'' := by
  obtain ⟨c, hc, hp⟩ := reach_of_run (thpool 1 Unit ℕ ℕ).lts pausesBy_of_test holdRun
    (fun c => c.mem.flags.threadsOnHold && decide (c.mem.pool.signals = ∅) &&
      decide ((c.worker (Fin.last 0)).hold = .loop) && decide (c.client () = .outside) &&
      ((thpool 1 Unit ℕ ℕ).lts.next c (.inr (), { call := some .resume })).isSome)
    ⟨fun _ => ⟨none, 0, 0⟩, (), rfl⟩ (by decide)
  simp only [Bool.and_eq_true, decide_eq_true_eq, Option.isSome_iff_exists] at hp
  obtain ⟨⟨⟨⟨hf, hsig⟩, hh⟩, hk⟩, c', hs⟩ := hp
  refine ⟨c, c', hc, hf, hs, (resume_undoes_iff hc hk rfl hs).mpr ⟨hsig, fun i hi => ?_⟩⟩
  rw [Subsingleton.elim i (Fin.last 0), hh] at hi
  cases hi

end PoolStudy.Thpool.Pause
