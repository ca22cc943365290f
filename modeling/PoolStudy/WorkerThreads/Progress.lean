import PoolStudy.WorkerThreads.Rounds
import Mathlib.Algebra.Order.BigOperators.Group.Finset
import Mathlib.Data.Fintype.Card

/-! # `WorkerThreads.c` can always finish

Whoever holds `StartWorkMutex` can move on, apart from `main` when it asks for `CompleteMutex`, and at that moment
all workers wait for the broadcast: so the opposite lock orders never meet. Whoever holds `CompleteMutex` can
move on as soon as `StartWorkMutex` is free. So either `main` can move, or a worker that brings the round
forward (`exists_smaller`).

The measure counts the steps `main` has left (`rank`), and below that the steps of the workers up to their next
wait (`weight`). A worker that retries because `main` does not wait goes back in its code; `weight` makes up for
it by counting a failed test more than the retry, and such a test is never begun in the run that is built here.

`no_deadlock` is the result. -/

namespace PoolStudy.WorkerThreads.Progress

open PoolStudy.Lib.Transition PoolStudy.Lib.Threads
open PoolStudy.WorkerThreads.Model PoolStudy.WorkerThreads.Steps PoolStudy.WorkerThreads.Places
open PoolStudy.WorkerThreads.Rounds

variable {N R : ℕ}

/-! ### The measure -/

/-- What is left of the run with `k` rounds to go. -/
def roundsLeft (N k : ℕ) : ℕ := k * (4 * N + 7) + (N + 5)

/-- **The steps `main` has left.** -/
def rank (N R : ℕ) : Main → ℕ
  | .sleep => roundsLeft N R + 1
  | .lockStart X => roundsLeft N (R - (X + 1)) + (4 * N + 7)
  | .setOn X => roundsLeft N (R - (X + 1)) + (4 * N + 6)
  | .incRound X => roundsLeft N (R - (X + 1)) + (4 * N + 5)
  | .lockComplete X => roundsLeft N (R - (X + 1)) + (4 * N + 4)
  | .broadcast X => roundsLeft N (R - (X + 1)) + (4 * N + 3)
  | .unlockStart X => roundsLeft N (R - (X + 1)) + (4 * N + 2)
  | .setWaiting X Y => roundsLeft N (R - (X + 1)) + (4 * (N - Y) + 1)
  | .wait X Y => roundsLeft N (R - (X + 1)) + 4 * (N - Y)
  | .blocked X Y => roundsLeft N (R - (X + 1)) + (4 * (N - Y) - 1)
  | .read X Y => roundsLeft N (R - (X + 1)) + (4 * (N - Y) - 2)
  | .unlockComplete X => roundsLeft N (R - (X + 1)) + 1
  | .finalLock => N + 5
  | .finalOff => N + 4
  | .finalBroadcast => N + 3
  | .finalUnlock => N + 2
  | .join X => N - X + 1
  | .done => 0

theorem rank_roundTop {X : ℕ} (h : X ≤ R) : rank N R (roundTop R X) = roundsLeft N (R - X) := by
  unfold roundTop
  split_ifs with hX
  · obtain ⟨k, rfl⟩ := Nat.exists_eq_add_of_lt hX
    simp only [rank, roundsLeft, show X + k + 1 - X = k + 1 by omega, show X + k + 1 - (X + 1) = k by omega,
      Nat.add_mul]
    omega
  · simp [rank, roundsLeft, Nat.sub_eq_zero_of_le (Nat.le_of_not_lt hX)]

theorem rank_waitTop {X Y : ℕ} :
    rank N R (waitTop N X Y) = roundsLeft N (R - (X + 1)) + (4 * (N - Y) + 1) := by
  unfold waitTop
  split_ifs with hY
  · rfl
  · simp [rank, Nat.sub_eq_zero_of_le (Nat.le_of_not_lt hY)]

/-- Every step of `main` is progress. -/
theorem mainStep_rank {m m' : Mem N} {p p' : Main} (hs : MainStep R m p m' p') (h : InLoops N R p) :
    rank N R p' < rank N R p := by
  cases hs with
  | sleep hu =>
    rw [rank_roundTop (Nat.zero_le R)]
    exact Nat.lt_succ_self _
  | unlockComplete X =>
    rw [rank_roundTop (show X + 1 ≤ R from h)]
    exact Nat.lt_succ_self _
  | unlockStart X =>
    rw [rank_waitTop]
    simp only [rank]
    omega
  | read X Y =>
    have hY : Y < N := h.2
    rw [rank_waitTop]
    simp only [rank]
    omega
  | wait X Y | wake X Y hc hl =>
    have hY : Y < N := h.2
    simp only [rank]
    omega
  | joinOne i hi =>
    have hi := i.isLt
    simp only [rank]
    omega
  | _ => simp only [rank]; omega

/-- **The steps of a worker up to its next wait**; `waiting` is `MainThreadWaiting`, `asleep` whether the worker
sleeps. -/
def weight (waiting asleep : Bool) : Worker → ℕ
  | .blocked => if asleep then 0 else 12
  | .test => 11
  | .unlockWork => 10
  | .work => 9
  | .lockComplete => 8
  | .testWaiting => if waiting then 7 else 10
  | .unlockRetry => 9
  | .setFalse => 6
  | .setBatch => 5
  | .lockNext => 4
  | .signal => 3
  | .unlockComplete => 2
  | .lockStart => 2
  | .waitStart => 1
  | .unlockExit => 1
  | .exited => 0

theorem weight_le (waiting asleep : Bool) (w : Worker) : weight waiting asleep w ≤ 12 := by
  cases w <;> cases waiting <;> cases asleep <;> decide

/-- The weight of the worker `i` at `w`. -/
def weightAt (m : Mem N) (i : Fin N) (w : Worker) : ℕ := weight m.mainThreadWaiting (sleeps m i) w

/-- **The measure.** -/
def measure (R : ℕ) (c : State N) : ℕ :=
  (12 * N + 1) * rank N R (mainAt c) + ∑ i, weightAt c.mem i (c.worker i)

theorem weights_le (m : Mem N) (f : Fin N → Worker) : ∑ i, weightAt m i (f i) ≤ 12 * N := by
  calc ∑ i, weightAt m i (f i) ≤ ∑ _i : Fin N, 12 := Finset.sum_le_sum fun i _ => weight_le _ _ _
    _ = 12 * N := by simp [Nat.mul_comm]

/-- A step of a worker is progress, unless it begins a test that will fail. -/
theorem workerStep_weight {i : Fin N} {m m' : Mem N} {w w' : Worker} (hs : WorkerStep i m w m' w')
    (h : w = .lockComplete → m.mainThreadWaiting = true) : weightAt m' i w' < weightAt m i w := by
  cases hs with
  | waitStart => simp [weightAt, weight, sleeps]
  | wake hi hl => simp [weightAt, weight, sleeps, hi]
  | lockComplete hl => simp [weightAt, weight, h rfl]
  | claim hw => simp [weightAt, weight, hw]
  | retry hw => simp [weightAt, weight, hw]
  | _ => simp [weightAt, weight]

/-- The others keep their weights: only a worker that holds `CompleteMutex` can see `MainThreadWaiting`. -/
theorem workerStep_weight_other {i j : Fin N} {m m' : Mem N} {w w' v : Worker}
    (hs : WorkerStep i m w m' w') (hne : j ≠ i) (h : holdsComplete w → ¬ holdsComplete v) :
    weightAt m' j v = weightAt m j v := by
  cases hs with
  | waitStart => simp [weightAt, sleeps, hne]
  | setFalse =>
    cases v with
    | testWaiting => exact absurd trivial (h trivial)
    | _ => rfl
  | _ => rfl

/-! ### Who can move -/

/-- A smaller measure after one step. -/
def Smaller (R : ℕ) (c : State N) : Prop :=
  ∃ a c', (workerThreads N R).lts.next c a = some c' ∧ measure R c' < measure R c

theorem smaller_of_main {c : State N} (h : Inv R c) {m' : Mem N} {p p' : Main} (hp : mainAt c = p)
    (hs : MainStep R c.mem p m' p') : Smaller R c := by
  subst hp
  refine ⟨_, _, next_of_main hs, ?_⟩
  have hrank : rank N R p' + 1 ≤ rank N R (mainAt c) := mainStep_rank hs h.main.loops
  have hmoved : mainAt (c.moveClient () (m', p')) = p' := by simp [mainAt, Config.moveClient]
  have hsum := weights_le m' c.worker
  have hmul := Nat.mul_le_mul_left (12 * N + 1) hrank
  unfold measure
  rw [hmoved]
  show (12 * N + 1) * rank N R p' + ∑ i, weightAt m' i (c.worker i) < _
  rw [Nat.mul_add, Nat.mul_one] at hmul
  omega

theorem smaller_of_worker {c : State N} (h : Inv R c) {i : Fin N} {m' : Mem N} {w' : Worker}
    (hs : WorkerStep i c.mem (c.worker i) m' w')
    (hw : c.worker i = .lockComplete → c.mem.mainThreadWaiting = true) : Smaller R c := by
  refine ⟨_, _, next_of_worker hs, ?_⟩
  have hself := workerStep_weight hs hw
  have hother : ∀ j, j ≠ i → weightAt m' j (c.worker j) = weightAt c.mem j (c.worker j) := by
    intro j hj
    exact workerStep_weight_other hs hj fun hi => (owned_unique h.complete hi).2 j hj
  refine Nat.add_lt_add_left (Finset.sum_lt_sum (fun j _ => ?_) ⟨i, Finset.mem_univ i, ?_⟩) _
  · refine forall_moveWorker (P := fun j w => weightAt m' j w ≤ weightAt c.mem j (c.worker j)) hself.le
      (fun j hj => (hother j hj).le) j
  · simpa [Config.moveWorker] using hself

/-- The worker can take a step at `w`, given the mutex it asks for. -/
theorem worker_moves {i : Fin N} {m : Mem N} {w : Worker}
    (hstart : m.startWorkMutex = none ∨ holdsStart w) (hcomplete : w = .lockComplete → m.completeMutex = none)
    (hasleep : w = .blocked → i ∉ m.startWorkCondition) (hexit : w ≠ .exited) :
    ∃ m' w', WorkerStep i m w m' w' := by
  cases w with
  | lockStart => exact ⟨_, _, .lockStart (hstart.resolve_right id)⟩
  | waitStart => exact ⟨_, _, .waitStart⟩
  | blocked => exact ⟨_, _, .wake (hasleep rfl) (hstart.resolve_right id)⟩
  | test =>
    cases hw : m.workOn with
    | true => exact ⟨_, _, .begin hw⟩
    | false => exact ⟨_, _, .leave hw⟩
  | unlockWork => exact ⟨_, _, .unlockWork⟩
  | unlockExit => exact ⟨_, _, .unlockExit⟩
  | work => exact ⟨_, _, .work⟩
  | lockComplete => exact ⟨_, _, .lockComplete (hcomplete rfl)⟩
  | testWaiting =>
    cases hw : m.mainThreadWaiting with
    | true => exact ⟨_, _, .claim hw⟩
    | false => exact ⟨_, _, .retry hw⟩
  | unlockRetry => exact ⟨_, _, .unlockRetry⟩
  | setFalse => exact ⟨_, _, .setFalse⟩
  | setBatch => exact ⟨_, _, .setBatch⟩
  | lockNext => exact ⟨_, _, .lockNext (hstart.resolve_right id)⟩
  | signal => exact ⟨_, _, .signal⟩
  | unlockComplete => exact ⟨_, _, .unlockComplete⟩
  | exited => exact absurd rfl hexit

/-- A worker that holds a mutex does not ask for `CompleteMutex` and does not sleep. -/
theorem smaller_of_holder {c : State N} (h : Inv R c) {i : Fin N}
    (hi : holdsStart (c.worker i) ∨ (holdsComplete (c.worker i) ∧ c.mem.startWorkMutex = none)) :
    Smaller R c := by
  have hne : ∀ w, w = .lockComplete ∨ w = .blocked ∨ w = .exited → c.worker i ≠ w := by
    rintro w hw hi'
    rw [hi'] at hi
    rcases hw with rfl | rfl | rfl <;> simp [holdsStart, holdsComplete] at hi
  obtain ⟨m', w', hs⟩ : ∃ m' w', WorkerStep i c.mem (c.worker i) m' w' := by
    refine worker_moves (hi.symm.imp_left And.right) (fun hw => absurd hw ?_) (fun hw => absurd hw ?_) ?_
    · exact hne _ (Or.inl rfl)
    · exact hne _ (Or.inr (Or.inl rfl))
    · exact hne _ (Or.inr (Or.inr rfl))
  exact smaller_of_worker h hs fun hw => absurd hw (hne _ (Or.inl rfl))

/-- **`StartWorkMutex` does not stay with a worker.** -/
theorem start_free {c : State N} (h : Inv R c) (hm : ¬ mainHoldsStart (mainAt c)) :
    c.mem.startWorkMutex = none ∨ Smaller R c := by
  cases hl : c.mem.startWorkMutex with
  | none => exact Or.inl rfl
  | some t =>
    rcases t with i | u
    · exact Or.inr (smaller_of_holder h (Or.inl ((h.start.worker i).mpr hl)))
    · exact absurd ((h.start.client ()).mpr hl) hm

/-- **`CompleteMutex` does not stay with a worker**, once `StartWorkMutex` is free. -/
theorem complete_free {c : State N} (h : Inv R c) (hm : ¬ mainHoldsComplete (mainAt c))
    (hfree : c.mem.startWorkMutex = none) : c.mem.completeMutex = none ∨ Smaller R c := by
  cases hl : c.mem.completeMutex with
  | none => exact Or.inl rfl
  | some t =>
    rcases t with i | u
    · exact Or.inr (smaller_of_holder h (Or.inr ⟨(h.complete.worker i).mpr hl, hfree⟩))
    · exact absurd ((h.complete.client ()).mpr hl) hm

/-- Where a worker is that may have to move before `main` can. -/
theorem starting_awake {s : Bool} {w : Worker} {e : Entry} (h : Place s .starting w e) (hs : s = false) :
    w ≠ .exited ∧ w ≠ .lockComplete := by
  cases h <;> simp_all

theorem unsent_awake {s : Bool} {w : Worker} {e : Entry} (h : Place s .round w e) (he : e.sent = false) :
    s = false ∧ w ≠ .exited := by
  cases h <;> simp_all

theorem ending_awake {s : Bool} {w : Worker} {e : Entry} (h : Place s .ending w e) :
    s = false ∧ w ≠ .lockComplete := by
  cases h <;> simp

/-- A worker that is awake can move when the mutexes are free. -/
theorem smaller_of_awake {c : State N} (h : Inv R c) {i : Fin N} (hstart : c.mem.startWorkMutex = none)
    (hawake : sleeps c.mem i = false) (hexit : c.worker i ≠ .exited)
    (hcomplete : c.worker i = .lockComplete →
      c.mem.completeMutex = none ∧ c.mem.mainThreadWaiting = true) : Smaller R c := by
  obtain ⟨m', w', hstep⟩ : ∃ m' w', WorkerStep i c.mem (c.worker i) m' w' :=
    worker_moves (Or.inl hstart) (fun hw => (hcomplete hw).1) (fun _ => of_decide_eq_false hawake) hexit
  exact smaller_of_worker h hstep fun hw => (hcomplete hw).2

theorem holds_of_claims {w : Worker} (h : claims w) : holdsComplete w := by
  cases w with
  | setBatch | lockNext | signal => trivial
  | _ => exact h.elim

/-- While `main` holds `StartWorkMutex` and asks for `CompleteMutex`, all workers wait. -/
theorem lockComplete_waiting {c : State N} (h : Inv R c) {X : ℕ} (hp : mainAt c = .lockComplete X) (i : Fin N) :
    c.worker i = .blocked := by
  obtain ⟨e, he, -⟩ := h.workers i
  rw [hp] at he
  generalize hw : c.worker i = w at he
  generalize sleeps c.mem i = s at he
  cases he
  rfl

/-- `main` sleeps and can be woken: a worker that has not signalled moves. -/
theorem smaller_of_unsent {c : State N} (h : Inv R c) {X Y : ℕ} (hp : mainAt c = .blocked X Y)
    (hstart : c.mem.startWorkMutex = none) (hcomplete : c.mem.completeMutex = none)
    (hwaiting : c.mem.mainThreadWaiting = true) (hcond : c.mem.completeCondition = true) : Smaller R c := by
  have hmain := h.main
  rw [hp] at hmain
  obtain ⟨hlen, hd⟩ := hmain.at_
  have hsent : c.mem.sent = c.mem.reads := by
    rcases hd with hd | hd
    · exact hd.2
    · rw [hcond] at hd
      cases hd.1
  -- fewer than `N` completions have been signalled
  obtain ⟨i, hi⟩ : ∃ i : Fin N, i.val ∉ c.mem.sent := by
    by_contra hall
    push Not at hall
    have hsub : (List.range N).Subperm c.mem.sent :=
      List.subperm_of_subset List.nodup_range fun v hv => hall ⟨v, List.mem_range.mp hv⟩
    have hle := hsub.length_le
    rw [List.length_range, hsent, hlen] at hle
    exact absurd hmain.loops.2 (Nat.not_lt.mpr hle)
  obtain ⟨e, he, -, -, hs⟩ := h.workers i
  rw [hp] at he
  obtain ⟨hawake, hexit⟩ := unsent_awake he (by simpa [hi] using hs)
  exact smaller_of_awake h hstart hawake hexit fun _ => ⟨hcomplete, hwaiting⟩

/-- **Somebody brings the run forward**, until `main` is done. -/
theorem exists_smaller {c : State N} (h : Inv R c) (hdone : mainAt c ≠ .done) : Smaller R c := by
  cases hp : mainAt c with
  | done => exact absurd hp hdone
  | sleep =>
    by_cases hu : c.mem.startWorkCondition = Finset.univ
    · exact smaller_of_main h hp (.sleep hu)
    · obtain ⟨i, hi⟩ : ∃ i, i ∉ c.mem.startWorkCondition := by simpa [Finset.eq_univ_iff_forall] using hu
      rcases start_free h (by rw [hp]; exact id) with hl | hsm
      · obtain ⟨e, he, -⟩ := h.workers i
        rw [hp] at he
        obtain ⟨hexit, hne⟩ := starting_awake he (decide_eq_false hi)
        exact smaller_of_awake h hl (decide_eq_false hi) hexit fun hw => absurd hw hne
      · exact hsm
  | lockStart X =>
    rcases start_free h (by rw [hp]; exact id) with hl | hsm
    · exact smaller_of_main h hp (.lockStart X hl)
    · exact hsm
  | finalLock =>
    rcases start_free h (by rw [hp]; exact id) with hl | hsm
    · exact smaller_of_main h hp (.finalLock hl)
    · exact hsm
  | lockComplete X =>
    refine smaller_of_main h hp (.lockComplete X ?_)
    cases hl : c.mem.completeMutex with
    | none => rfl
    | some t =>
      rcases t with i | u
      · have hi := (h.complete.worker i).mpr hl
        rw [lockComplete_waiting h hp i] at hi
        exact hi.elim
      · have hm : mainHoldsComplete (mainAt c) := (h.complete.client ()).mpr hl
        rw [hp] at hm
        exact hm.elim
  | blocked X Y =>
    rcases start_free h (by rw [hp]; exact id) with hl | hsm
    · rcases complete_free h (by rw [hp]; exact id) hl with hl' | hsm
      · cases hcc : c.mem.completeCondition with
        | false => exact smaller_of_main h hp (.wake X Y hcc hl')
        | true =>
          cases hw : c.mem.mainThreadWaiting with
          | true => exact smaller_of_unsent h hp hl hl' hw hcc
          | false =>
            -- whoever has taken the flag holds `CompleteMutex`
            obtain ⟨i, hi⟩ := h.claimed ⟨⟨X, Y, hp⟩, hcc⟩ hw
            rw [(h.complete.worker i).mp (holds_of_claims hi)] at hl'
            cases hl'
      · exact hsm
    · exact hsm
  | join X =>
    by_cases hX : X < N
    · by_cases hx : (⟨X, hX⟩ : Fin N) ∈ c.mem.exited
      · exact smaller_of_main h hp (.joinOne ⟨X, hX⟩ hx)
      · rcases start_free h (by rw [hp]; exact id) with hl | hsm
        · obtain ⟨e, he, -⟩ := h.workers ⟨X, hX⟩
          rw [hp] at he
          obtain ⟨hawake, hne⟩ := ending_awake he
          exact smaller_of_awake h hl hawake (fun hw => hx ((h.exits _).mpr hw)) fun hw => absurd hw hne
        · exact hsm
    · exact smaller_of_main h hp (.joinEnd (Nat.le_of_not_lt hX))
  | setOn X => exact smaller_of_main h hp (.setOn X)
  | incRound X => exact smaller_of_main h hp (.incRound X)
  | broadcast X => exact smaller_of_main h hp (.broadcast X)
  | unlockStart X => exact smaller_of_main h hp (.unlockStart X)
  | setWaiting X Y => exact smaller_of_main h hp (.setWaiting X Y)
  | wait X Y => exact smaller_of_main h hp (.wait X Y)
  | read X Y => exact smaller_of_main h hp (.read X Y)
  | unlockComplete X => exact smaller_of_main h hp (.unlockComplete X)
  | finalOff => exact smaller_of_main h hp (.finalOff)
  | finalBroadcast => exact smaller_of_main h hp (.finalBroadcast)
  | finalUnlock => exact smaller_of_main h hp (.finalUnlock)

/-! ### The contract -/

/-- **No deadlock and no lost signal.** From every state reached by `N` workers and `main` with `R` rounds, the
run can be continued until `main` and all workers have ended; `main` never asks for `CompleteMutex` with
`StartWorkMutex` in its hands while a worker does the opposite; and `CompleteCondition` is signalled only while
`main` sleeps on it. -/
theorem no_deadlock {c : State N} (hc : Reach (workerThreads N R).lts anyStep c) :
    (∃ c', Runs (workerThreads N R).lts anyStep c c' ∧ mainAt c' = .done ∧ ∀ i, c'.worker i = .exited) ∧
    (∀ X i, mainAt c = .lockComplete X → c.worker i ≠ .lockNext) ∧
    (∀ i, c.worker i = .signal → mainAsleep c.mem (mainAt c)) := by
  refine ⟨?_, fun X i hp hw => ?_, fun i hw => ?_⟩
  · obtain ⟨c', hr, hc', hdone⟩ : ∃ c', Runs (workerThreads N R).lts anyStep c c' ∧
        Reach (workerThreads N R).lts anyStep c' ∧ mainAt c' = .done := by
      refine runs_of_measure (measure R) (fun c hc hnot => ?_) hc
      obtain ⟨a, c', hn, hlt⟩ := exists_smaller (inv_reach hc) hnot
      exact ⟨c', .single ⟨a, trivial, hn⟩, hc.next trivial hn, hlt⟩
    have h := inv_reach hc'
    have hjoined := h.main.joined
    rw [hdone] at hjoined
    exact ⟨c', hr, hdone, fun i => (h.exits i).mp (hjoined i)⟩
  · rw [lockComplete_waiting (inv_reach hc) hp i] at hw
    cases hw
  · have hclaim := (inv_reach hc).claim i
    rw [hw] at hclaim
    exact hclaim.1

/-- Two workers, one round: `a` has taken the flag and is about to signal, `b` is at its batch. -/
def signalRun (a b : Fin 2) : List (Tid 2 × Unit) :=
  let w (i : Fin 2) (k : ℕ) : List (Tid 2 × Unit) := List.replicate k (.inl i, ())
  w a 2 ++ w b 2 ++ List.replicate 9 (.inr (), ()) ++ w b 3 ++ w a 9

theorem no_deadlock_signalRun : ∃ c : State 2, Reach (workerThreads 2 1).lts anyStep c ∧ c.worker 0 = .signal ∧
    mainAsleep c.mem (mainAt c) ∧ ∃ c', Runs (workerThreads 2 1).lts anyStep c c' ∧ mainAt c' = .done ∧
      ∀ i, c'.worker i = .exited := by
  obtain ⟨c, hc, hp⟩ := reach_of_run (workerThreads 2 1).lts anyStep_of_test (signalRun 0 1)
    (fun c => decide (c.worker 0 = .signal)) rfl (by decide)
  rw [decide_eq_true_eq] at hp
  have h := no_deadlock hc
  exact ⟨c, hc, hp, h.2.2 0 hp, h.1⟩

end PoolStudy.WorkerThreads.Progress
