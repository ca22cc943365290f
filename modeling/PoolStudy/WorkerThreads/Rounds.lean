import PoolStudy.WorkerThreads.Places

/-! # The round barrier of `WorkerThreads.c`

The last worker to signal holds `StartWorkMutex` until it waits, so `main` cannot broadcast before: when `main` has
`StartWorkMutex`, all workers wait. The steps of the workers and of `main` keep the places of the workers
(`workerStep_self`, `workerStep_other`, `mainStep_worker`), and `Inv` puts them together with the mutexes, the
claims and the books of `main`.

`round_barrier` reads the contract off the invariant. -/

namespace PoolStudy.WorkerThreads.Rounds

open PoolStudy.Lib.Transition PoolStudy.Lib.Threads
open PoolStudy.WorkerThreads.Model PoolStudy.WorkerThreads.Steps PoolStudy.WorkerThreads.Places

variable {N R : ℕ}

/-! ### The workers -/

theorem mainHoldsStart_of_woken {p : Main} (h : phase p = .woken) : mainHoldsStart p := by
  cases p with
  | unlockStart X | finalUnlock => trivial
  | _ => cases h

theorem roundAt_of_round {p : Main} (h : phase p = .round) :
    roundAt p = some (rounds R p + 1) ∧ workOnAt p = some true := by
  cases p with
  | setWaiting X Y | wait X Y | blocked X Y | read X Y | unlockComplete X => exact ⟨rfl, rfl⟩
  | _ => cases h

theorem workOnAt_of_ending {p : Main} (h : phase p = .ending) : workOnAt p = some false := by
  cases p with
  | join X => rfl
  | _ => cases h

/-- The numbers of the batches begun, when the next one begins. -/
theorem range_next (X : ℕ) : List.range' 1 X ++ [X + 1] = List.range' 1 (X + 1) := by
  rw [List.range'_concat]
  simp [Nat.add_comm]

/-- **The worker that moves.** -/
theorem workerStep_self {i : Fin N} {m m' : Mem N} {w w' : Worker} {p : Main}
    (hs : WorkerStep i m w m' w') (h : WorkerOk (phase p) (rounds R p) m i w) (hm : MainOk R m p)
    (hc : Claim m p i w) (hl : mainHoldsStart p → m.startWorkMutex ≠ none) :
    WorkerOk (phase p) (rounds R p) m' i w' := by
  obtain ⟨e, he, hb, hx, hsent⟩ := h
  have hplace : ∀ {m'' : Mem N} {e' : Entry}, m''.startWorkCondition = m.startWorkCondition →
      Place (sleeps m i) (phase p) w' e' → Place (sleeps m'' i) (phase p) w' e' := by
    intro m'' e' h1 hp
    rwa [sleeps, h1]
  -- a worker that moves within its phase and does not enter anything into the books
  have hgo : ∀ {m'' : Mem N}, m''.startWorkCondition = m.startWorkCondition → m''.begun = m.begun →
      m''.executed = m.executed → m''.sent = m.sent → Place (sleeps m i) (phase p) w' e →
      WorkerOk (phase p) (rounds R p) m'' i w' := by
    intro m'' h1 h2 h3 h4 hp
    exact ⟨e, hplace h1 hp, by rw [h2, hb], by rw [h3, hx], by rw [h4, hsent]⟩
  generalize hph : phase p = ph at he hplace hgo ⊢
  generalize hsl : sleeps m i = s at he hplace hgo
  cases hs with
  | waitStart =>
    have hs' : sleeps { m with startWorkMutex := none, startWorkCondition := insert i m.startWorkCondition } i =
        true := by simp [sleeps]
    cases he with
    | startWait => exact ⟨_, hs' ▸ .startAsleep, hb, hx, hsent⟩
    | restWait => exact ⟨_, hs' ▸ .restAsleep, hb, hx, hsent⟩
    | roundWait => exact ⟨_, hs' ▸ .roundAsleep, hb, hx, hsent⟩
  | wake hi hlock =>
    cases he with
    | woken => exact absurd hlock (hl (mainHoldsStart_of_woken hph))
    | roundWoken => exact hgo rfl rfl rfl rfl .test
    | endWoken => exact hgo rfl rfl rfl rfl .endTest
    | startAsleep | restAsleep | quiet | roundAsleep => exact absurd (of_decide_eq_true hsl) hi
  | begin hw =>
    cases he with
    | test =>
      have hround := hm.round _ (roundAt_of_round (R := R) hph).1
      refine ⟨⟨1, 0, false⟩, hplace rfl .unlockWork, ?_, hx, hsent⟩
      simp only [Function.update_self]
      rw [hb, hround]
      exact range_next _
    | endTest =>
      rw [hm.workOn _ (workOnAt_of_ending hph)] at hw
      cases hw
  | leave hw =>
    cases he with
    | test =>
      rw [hm.workOn _ (roundAt_of_round (R := R) hph).2] at hw
      cases hw
    | endTest => exact hgo rfl rfl rfl rfl .endUnlock
  | work =>
    cases he
    refine ⟨⟨1, 1, false⟩, hplace rfl .lockComplete, hb, ?_, hsent⟩
    simp only [Function.update_self]
    rw [hx]
    rfl
  | signal =>
    cases he
    refine ⟨⟨1, 1, true⟩, hplace rfl .unlockComplete, hb, hx, ?_⟩
    simp [hc.2.2]
  | _ =>
    cases he
    exact hgo rfl rfl rfl rfl (by constructor)

/-- **The others.** -/
theorem workerStep_other {i j : Fin N} {m m' : Mem N} {w w' v : Worker} {ph : Phase} {X : ℕ} {p : Main}
    (hs : WorkerStep i m w m' w') (hne : j ≠ i) (h : WorkerOk ph X m j v) (hc : Claim m p i w) :
    WorkerOk ph X m' j v := by
  cases hs with
  | waitStart => exact h.congr (by simp [hne]) rfl rfl Iff.rfl
  | begin hw => exact h.congr Iff.rfl (Function.update_of_ne hne _ _) rfl Iff.rfl
  | work => exact h.congr Iff.rfl rfl (Function.update_of_ne hne _ _) Iff.rfl
  | signal =>
    refine h.congr Iff.rfl rfl rfl ?_
    rw [List.mem_append, List.mem_singleton, hc.2.2]
    exact or_iff_left fun he => hne (Fin.ext he)
  | _ => exact h.congr Iff.rfl rfl rfl Iff.rfl

/-- What `main` needs to know about a worker at `w` when it moves on: what the mutexes say, and that only a
thread that has ended can be joined. -/
structure MainView (m : Mem N) (p : Main) (i : Fin N) (w : Worker) : Prop where
  start : m.startWorkMutex = none → ¬ holdsStart w
  complete : mainHoldsComplete p → ¬ holdsComplete w
  exited : i ∈ m.exited → w = .exited

theorem phase_roundTop (R X : ℕ) : phase (roundTop R X) = .resting := by
  unfold roundTop
  split_ifs <;> rfl

theorem phase_waitTop (N X Y : ℕ) : phase (waitTop N X Y) = .round := by
  unfold waitTop
  split_ifs <;> rfl

theorem rounds_roundTop {X : ℕ} (h : X ≤ R) : rounds R (roundTop R X) = X := by
  unfold roundTop
  split_ifs with hX
  · rfl
  · simp only [rounds]
    omega

theorem rounds_waitTop (X Y : ℕ) : rounds R (waitTop N X Y) = X := by
  unfold waitTop
  split_ifs <;> rfl

/-- **A step of `main`, seen by a worker.** -/
theorem mainStep_worker {m m' : Mem N} {p p' : Main} {i : Fin N} {w : Worker} (hs : MainStep R m p m' p')
    (h : WorkerOk (phase p) (rounds R p) m i w) (hm : MainOk R m p) (hv : MainView m p i w) :
    WorkerOk (phase p') (rounds R p') m' i w := by
  obtain ⟨e, he, hb, hx, hsent⟩ := h
  generalize hsl : sleeps m i = s at he
  have hkeep : ∀ {m'' : Mem N}, m''.startWorkCondition = m.startWorkCondition → sleeps m'' i = s := by
    intro m'' h1
    rw [← hsl, sleeps, sleeps, h1]
  cases hs with
  | sleep hu =>
    rw [phase_roundTop, rounds_roundTop (Nat.zero_le R)]
    cases he with
    | startLock | startWait => simp [sleeps, hu] at hsl
    | startAsleep => exact ⟨_, hkeep rfl ▸ .restAsleep, hb, hx, hsent⟩
  | lockStart X hl | finalLock hl =>
    cases he with
    | restWait => exact absurd trivial (hv.start hl)
    | restAsleep => exact ⟨_, hkeep rfl ▸ .quiet, hb, hx, hsent⟩
  | broadcast X | finalBroadcast =>
    have hs' : sleeps { m with startWorkCondition := ∅ } i = false := by simp [sleeps]
    cases he
    exact ⟨_, hs' ▸ .woken, hb, hx, hsent⟩
  | unlockStart X =>
    rw [phase_waitTop, rounds_waitTop]
    cases he
    exact ⟨_, hkeep rfl ▸ .roundWoken, hb, hx, hsent⟩
  | finalUnlock =>
    cases he
    exact ⟨_, hkeep rfl ▸ .endWoken, hb, hx, hsent⟩
  | read X Y =>
    rw [phase_waitTop, rounds_waitTop]
    exact ⟨e, hkeep rfl ▸ he, hb, hx, hsent⟩
  | unlockComplete X =>
    rw [phase_roundTop, rounds_roundTop (show X + 1 ≤ R from hm.loops)]
    obtain ⟨-, -, h3, h4⟩ := hm.at_
    -- all completions of the round have been received, this one too
    have hin : i.val ∈ m.sent := by
      rw [(perm_range hm.nodup hm.bound (by rw [h3, h4])).mem_iff, List.mem_range]
      exact i.isLt
    have hdone := hsent.mp hin
    cases he with
    | unlockComplete => exact absurd trivial (hv.complete trivial)
    | roundWait => exact ⟨⟨0, 0, false⟩, hkeep rfl ▸ .restWait, hb, hx, by simp⟩
    | roundAsleep => exact ⟨⟨0, 0, false⟩, hkeep rfl ▸ .restAsleep, hb, hx, by simp⟩
    | _ => cases hdone
  | joinEnd hX =>
    have hw := hv.exited (hm.joined i (Nat.lt_of_lt_of_le i.isLt hX))
    subst hw
    cases he
    exact ⟨_, hkeep rfl ▸ .over, hb, hx, hsent⟩
  | _ => exact ⟨e, hkeep rfl ▸ he, hb, hx, hsent⟩

/-! ### The claims of the workers -/

/-- Whoever changes the variables of the hand-shake holds `CompleteMutex`. -/
theorem workerStep_shake {i : Fin N} {m m' : Mem N} {w w' : Worker} (hs : WorkerStep i m w m' w') :
    holdsComplete w ∨ (m'.mainThreadWaiting = m.mainThreadWaiting ∧
      m'.completeCondition = m.completeCondition ∧ m'.theCompletedBatch = m.theCompletedBatch) := by
  cases hs with
  | setFalse | setBatch | signal => exact Or.inl trivial
  | _ => exact Or.inr ⟨rfl, rfl, rfl⟩

theorem workerStep_claim {i : Fin N} {m m' : Mem N} {w w' : Worker} {p : Main}
    (hs : WorkerStep i m w m' w') (hm : MainOk R m p) (hc : Claim m p i w)
    (hl : holdsComplete w → ¬ mainHoldsComplete p) : Claim m' p i w' := by
  cases hs with
  | claim hw => exact (hm.asleep_of_waiting hw).resolve_left (hl trivial)
  | setFalse => exact ⟨hc, rfl⟩
  | setBatch => exact ⟨hc.1, hc.2, rfl⟩
  | lockNext h => exact hc
  | _ => trivial

/-- A worker that has taken the flag goes on to its signal; the flag is only taken to go there. -/
theorem workerStep_claims {i : Fin N} {m m' : Mem N} {w w' : Worker} (hs : WorkerStep i m w m' w') :
    claims w' ∨ m'.completeCondition = false ∨ (¬ claims w ∧
      m'.mainThreadWaiting = m.mainThreadWaiting ∧ m'.completeCondition = m.completeCondition) := by
  cases hs with
  | setFalse | setBatch | lockNext h => exact Or.inl trivial
  | signal => exact Or.inr (Or.inl rfl)
  | _ => exact Or.inr (Or.inr ⟨id, rfl, rfl⟩)

/-- While a worker completes, `main` does not move. -/
theorem mainStep_claim {m m' : Mem N} {p p' : Main} {i : Fin N} {w : Worker} (hs : MainStep R m p m' p')
    (h : Claim m p i w) : Claim m' p' i w := by
  have hstuck : ¬ mainAsleep m p := by
    rintro ⟨⟨X, Y, rfl⟩, hcc⟩
    cases hs with
    | wake _ _ hc hl =>
      rw [hcc] at hc
      cases hc
  cases w with
  | setFalse => exact absurd h hstuck
  | setBatch | lockNext | signal => exact absurd h.1 hstuck
  | _ => trivial

/-- `main` goes to sleep with `MainThreadWaiting` set. -/
theorem mainStep_asleep {m m' : Mem N} {p p' : Main} (hs : MainStep R m p m' p') (hm : MainOk R m p)
    (h : mainAsleep m' p') : m'.mainThreadWaiting = true := by
  obtain ⟨⟨X, Y, hp⟩, -⟩ := h
  cases hs with
  | wait X Y => exact hm.at_.2.1
  | sleep hu | unlockComplete X =>
    unfold roundTop at hp
    split_ifs at hp
  | unlockStart X | read X Y =>
    unfold waitTop at hp
    split_ifs at hp
  | _ => cases hp

/-! ### Threads that have ended -/

theorem workerStep_exited {i : Fin N} {m m' : Mem N} {w w' : Worker} (hs : WorkerStep i m w m' w') (j : Fin N) :
    j ∈ m'.exited ↔ j ∈ m.exited ∨ (j = i ∧ w' = .exited) := by
  cases hs with
  | unlockExit => simp [or_comm]
  | _ => simp

theorem workerStep_not_exited {i : Fin N} {m m' : Mem N} {w' : Worker} :
    ¬ WorkerStep i m .exited m' w' := by
  intro hs
  cases hs

theorem mainStep_exited {m m' : Mem N} {p p' : Main} (hs : MainStep R m p m' p') : m'.exited = m.exited := by
  cases hs <;> rfl

/-! ### The invariant -/

/-- **The invariant of the rounds.** -/
structure Inv (R : ℕ) (c : State N) : Prop where
  start : Owned c.mem.startWorkMutex holdsStart mainHoldsStart c
  complete : Owned c.mem.completeMutex holdsComplete mainHoldsComplete c
  workers : ∀ i, WorkerOk (phase (mainAt c)) (rounds R (mainAt c)) c.mem i (c.worker i)
  claim : ∀ i, Claim c.mem (mainAt c) i (c.worker i)
  claimed : mainAsleep c.mem (mainAt c) → c.mem.mainThreadWaiting = false → ∃ i, claims (c.worker i)
  main : MainOk R c.mem (mainAt c)
  exits : ∀ i, i ∈ c.mem.exited ↔ c.worker i = .exited

theorem inv_init (c : State N) (h : (workerThreads N R).init c) : Inv R c := by
  subst h
  have hmain : MainOk R (Mem.init N) .sleep :=
    ⟨trivial, ⟨rfl, rfl, rfl, rfl⟩, fun v hv => Option.some.inj hv, fun b hb => (by cases hb),
      List.nodup_nil, by simp [Mem.init], rfl, by simp [Mem.init], trivial⟩
  refine ⟨⟨fun i => ?_, fun k => ?_⟩, ⟨fun i => ?_, fun k => ?_⟩, fun i => ?_, fun i => trivial, ?_, hmain, ?_⟩
  · simp [holdsStart, Mem.init]
  · simp [mainHoldsStart, Mem.init]
  · simp [holdsComplete, Mem.init]
  · simp [mainHoldsComplete, Mem.init]
  · exact ⟨_, .startLock, rfl, rfl, by simp [Mem.init]⟩
  · rintro ⟨⟨X, Y, hp⟩, -⟩
    cases hp
  · simp [Mem.init]

/-- Two threads do not hold a mutex together. -/
theorem owned_unique {lock : Option (Tid N)} {holdsW : Worker → Prop} {holdsC : Main → Prop} {c : State N}
    (ho : Owned lock holdsW holdsC c) {i : Fin N} (hi : holdsW (c.worker i)) :
    ¬ holdsC (mainAt c) ∧ ∀ j, j ≠ i → ¬ holdsW (c.worker j) := by
  have hlock := (ho.worker i).mp hi
  refine ⟨fun hm => ?_, fun j hj hw => ?_⟩
  · rw [(ho.client ()).mp hm] at hlock
    cases hlock
  · rw [(ho.worker j).mp hw] at hlock
    exact hj (Sum.inl.inj (Option.some.inj hlock))

theorem inv_worker {c : State N} (h : Inv R c) {i : Fin N} {r : Mem N × Worker}
    (hs : WorkerStep i c.mem (c.worker i) r.1 r.2) : Inv R (c.moveWorker i r) := by
  have hlock : mainHoldsStart (mainAt c) → c.mem.startWorkMutex ≠ none := by
    intro hm hnone
    rw [(h.start.client ()).mp hm] at hnone
    cases hnone
  have hsignal : c.worker i = .signal → i.val ∉ c.mem.sent := by
    intro hw
    obtain ⟨e, he, -, -, hsent⟩ := h.workers i
    rw [hw] at he
    rw [hsent, he.not_sent]
    simp
  have hcomplete : holdsComplete (c.worker i) → ¬ mainHoldsComplete (mainAt c) := by
    intro hw
    exact (owned_unique h.complete hw).1
  refine ⟨h.start.moveWorker (workerStep_start hs), h.complete.moveWorker (workerStep_complete hs), ?_, ?_, ?_,
    workerStep_mainOk hs h.main (h.claim i) hsignal, ?_⟩
  · refine forall_moveWorker (P := fun j w => WorkerOk _ _ r.1 j w) ?_ fun j hj => ?_
    · exact workerStep_self hs (h.workers i) h.main (h.claim i) hlock
    · exact workerStep_other hs hj (h.workers j) (h.claim i)
  · refine forall_moveWorker (P := fun j w => Claim r.1 (mainAt c) j w) ?_ fun j hj => ?_
    · exact workerStep_claim hs h.main (h.claim i) hcomplete
    · rcases workerStep_shake hs with hw | ⟨h1, h2, h3⟩
      · exact .of_not_holds ((owned_unique h.complete hw).2 j hj)
      · exact (h.claim j).same h1 h2 h3
  · intro hasleep hflag
    rcases workerStep_claims hs with hw | hcc | ⟨hno, h1, h2⟩
    · exact ⟨i, by simpa [Config.moveWorker] using hw⟩
    · exact absurd (hasleep.2.symm.trans hcc) (by simp)
    · obtain ⟨j, hj⟩ := h.claimed ⟨hasleep.1, h2 ▸ hasleep.2⟩ (h1 ▸ hflag)
      have hne : j ≠ i := by
        rintro rfl
        exact hno hj
      exact ⟨j, by simpa [Config.moveWorker, hne] using hj⟩
  · refine forall_moveWorker (P := fun j (w : Worker) => j ∈ r.1.exited ↔ w = .exited) ?_ fun j hj => ?_
    · have hstay : i ∉ c.mem.exited := fun hx => workerStep_not_exited ((h.exits i).mp hx ▸ hs)
      simp [workerStep_exited hs, hstay]
    · simp [workerStep_exited hs, hj, h.exits j]

theorem inv_main {c : State N} (h : Inv R c) {r : Mem N × Main}
    (hs : MainStep R c.mem (mainAt c) r.1 r.2) : Inv R (c.moveClient () r) := by
  have hview : ∀ i, MainView c.mem (mainAt c) i (c.worker i) := by
    intro i
    refine ⟨fun hfree hw => ?_, fun hm hw => (owned_unique h.complete hw).1 hm, (h.exits i).mp⟩
    rw [(h.start.worker i).mp hw] at hfree
    cases hfree
  have hmoved : mainAt (c.moveClient () r) = r.2 := by simp [mainAt, Config.moveClient]
  refine ⟨h.start.moveClient (mainStep_start hs), h.complete.moveClient (mainStep_complete hs), fun i => ?_,
    fun i => ?_, ?_, hmoved ▸ mainStep_ok hs h.main, ?_⟩
  · rw [hmoved]
    exact mainStep_worker hs (h.workers i) h.main (hview i)
  · rw [hmoved]
    exact mainStep_claim hs (h.claim i)
  · rw [hmoved]
    intro hasleep hflag
    exact absurd (hflag.symm.trans (mainStep_asleep hs h.main hasleep)) (by simp)
  · intro i
    exact (mainStep_exited hs) ▸ h.exits i

theorem inv_reach {c : State N} (h : Reach (workerThreads N R).lts anyStep c) : Inv R c := by
  refine Program.invariant inv_init ?_ ?_ h
  · intro c i x r _ hi _ hs
    exact inv_worker hi (workerStep_cases hs)
  · intro c k x r _ hi _ hs
    exact inv_main hi (mainStep_cases hs)

/-! ### The contract -/

/-- **A batch begins** in a round that `main` has started, and only there. -/
theorem begins_in_round {c c' : State N} (h : Inv R c) {a : Tid N × Unit} {i : Fin N}
    (hs : (workerThreads N R).lts.next c a = some c') (hb : c'.mem.begun i ≠ c.mem.begun i) :
    c'.mem.begun i = c.mem.begun i ++ [c.mem.round] ∧ c.mem.round = c.mem.past.length + 1 ∧
      c.mem.begun i = List.range' 1 c.mem.past.length ∧ c.mem.executed i = c.mem.past.length := by
  rcases Program.next_cases hs with ⟨j, x, r, -, hw, rfl⟩ | ⟨k, x, r, -, hm, rfl⟩
  · have hstep := workerStep_cases hw
    have hok := h.workers j
    have hmain := h.main
    generalize c.worker j = w at hstep hok
    obtain ⟨m', w'⟩ := r
    simp only [Config.moveWorker] at hb ⊢
    cases hstep with
    | begin hon =>
      by_cases hij : i = j
      · subst hij
        obtain ⟨e, he, hbegun, hx, -⟩ := hok
        generalize hph : phase (mainAt c) = ph at he
        generalize sleeps c.mem i = s at he
        cases he with
        | test =>
          have hround := hmain.round _ (roundAt_of_round (R := R) hph).1
          rw [hmain.finished]
          exact ⟨Function.update_self .., hround, hbegun, hx⟩
        | endTest =>
          rw [hmain.workOn _ (workOnAt_of_ending hph)] at hon
          cases hon
      · exact absurd (Function.update_of_ne hij _ _) hb
    | _ => exact absurd rfl hb
  · have hstep := mainStep_cases hm
    generalize c.client k = p at hstep
    obtain ⟨m', p'⟩ := r
    simp only [Config.moveClient] at hb
    cases hstep <;> exact absurd rfl hb

/-- **The round barrier.** In every state reached by `N` workers and `main` with `R` rounds:
in every finished round `main` has read the numbers of all workers, each once, and in the current round it has
read no number twice and only numbers of workers that have executed their batch; every worker has begun the
batches `1, 2, …` in turn, and has executed as many batches as rounds have been finished or one more, the one
of the current round; a batch begins with the number of the current round, after all completions of the rounds
before; between the rounds every worker has executed one batch per round, and when `main` is done all workers
have left, after `R` batches. -/
theorem round_barrier {c : State N} (hc : Reach (workerThreads N R).lts anyStep c) :
    (∀ l ∈ c.mem.past, l.Perm (List.range N)) ∧
    (c.mem.reads.Nodup ∧ ∀ v ∈ c.mem.reads, ∃ i : Fin N, v = i ∧ c.mem.executed i = c.mem.past.length + 1) ∧
    (∀ i, ∃ k, c.mem.begun i = List.range' 1 k ∧ c.mem.past.length ≤ c.mem.executed i ∧
      c.mem.executed i ≤ k ∧ k ≤ c.mem.past.length + 1) ∧
    (∀ i a c', (workerThreads N R).lts.next c a = some c' → c'.mem.begun i ≠ c.mem.begun i →
      c'.mem.begun i = c.mem.begun i ++ [c.mem.round] ∧ c.mem.round = c.mem.past.length + 1 ∧
        c.mem.begun i = List.range' 1 c.mem.past.length ∧ c.mem.executed i = c.mem.past.length) ∧
    (phase (mainAt c) ≠ .round →
      ∀ i, c.mem.begun i = List.range' 1 c.mem.past.length ∧ c.mem.executed i = c.mem.past.length) ∧
    (mainAt c = .done → c.mem.past.length = R ∧ ∀ i, c.worker i = .exited ∧ c.mem.executed i = R) := by
  have h := inv_reach hc
  have hfin := h.main.finished
  have hbetween : phase (mainAt c) ≠ .round →
      ∀ i, c.mem.begun i = List.range' 1 c.mem.past.length ∧ c.mem.executed i = c.mem.past.length := by
    intro hph i
    obtain ⟨e, he, hb, hx, -⟩ := h.workers i
    rw [he.entry.2.2.2 hph] at hb hx
    rw [hfin]
    exact ⟨hb, hx⟩
  refine ⟨h.main.past, ⟨h.main.nodup.sublist h.main.reads_sent, fun v hv => ?_⟩, fun i => ?_,
    fun i a c' hs hb => begins_in_round h hs hb, hbetween, fun hdone => ?_⟩
  · have hsent := h.main.reads_sent.subset hv
    obtain ⟨e, he, -, hx, hs⟩ := h.workers ⟨v, h.main.bound v hsent⟩
    refine ⟨⟨v, h.main.bound v hsent⟩, rfl, ?_⟩
    rw [hx, he.entry.2.2.1 (hs.mp hsent), hfin]
  · obtain ⟨e, he, hb, hx, -⟩ := h.workers i
    obtain ⟨h1, h2, -⟩ := he.entry
    exact ⟨_, hb, by omega, by omega, by omega⟩
  · have hR : c.mem.past.length = R := by
      rw [hfin, hdone]
      rfl
    have hjoined := h.main.joined
    rw [hdone] at hjoined
    refine ⟨hR, fun i => ⟨(h.exits i).mp (hjoined i), ?_⟩⟩
    rw [(hbetween (by rw [hdone]; nofun) i).2, hR]

/-- Two workers and one round: the workers complete in the order `b`, `a`, are told to leave and are joined. -/
def oneRoundRun (a b : Fin 2) : List (Tid 2 × Unit) :=
  let w (i : Fin 2) (k : ℕ) : List (Tid 2 × Unit) := List.replicate k (.inl i, ())
  let main (k : ℕ) : List (Tid 2 × Unit) := List.replicate k (.inr (), ())
  w a 2 ++ w b 2 ++ main 9 ++ w a 4 ++ w b 12 ++ main 4 ++ w a 8 ++ main 7 ++ w b 3 ++ w a 3 ++ main 3

theorem round_barrier_oneRoundRun : ∃ c : State 2, Reach (workerThreads 2 1).lts anyStep c ∧
    c.mem.past = [[1, 0]] ∧ mainAt c = .done ∧ ∀ i, c.worker i = .exited ∧ c.mem.executed i = 1 := by
  obtain ⟨c, hc, hp⟩ := reach_of_run (workerThreads 2 1).lts anyStep_of_test (oneRoundRun 0 1)
    (fun c => decide (c.mem.past = [[1, 0]]) && decide (mainAt c = .done)) rfl (by decide)
  simp only [Bool.and_eq_true, decide_eq_true_eq] at hp
  exact ⟨c, hc, hp.1, hp.2, ((round_barrier hc).2.2.2.2.2 hp.2).2⟩

end PoolStudy.WorkerThreads.Rounds
