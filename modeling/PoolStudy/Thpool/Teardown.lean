import PoolStudy.Thpool.Steps
import Mathlib.Algebra.BigOperators.Ring.Finset
import Mathlib.Algebra.Order.Ring.Int
import Mathlib.Algebra.Order.BigOperators.Group.Finset

/-! # The linked-queue pool: counters, and tearing the pool down

`num_threads_alive` and `num_threads_working` count the workers between the two statements that change
them (`CountInv`), and `thcount_lock` is owned by the worker between its lock and its unlock. The workers
are detached: `thpool_destroy` takes `num_threads_alive = 0` for the end of all of them. But the worker
that brings the counter to `0` still has to unlock `thcount_lock`, which is a field of the pool.

`StageInv` follows the pool from `thpool_init` to `thpool_destroy`: behind the polling loops every worker
has passed its `num_threads_alive --`, so it is at that unlock or has ended. Whether the teardown is safe
is then decided by the mutex: from the first `free` on no worker has a step left if and only if
`thcount_lock` is free at that moment (`teardown_iff`). -/

namespace PoolStudy.Thpool.Teardown

open PoolStudy.Lib.Transition PoolStudy.Lib.Threads
open PoolStudy.Thpool.Model PoolStudy.Thpool.Steps

variable {n : ℕ} {κ F A : Type}

/-! ### The counters -/

/-- The worker is between its `num_threads_alive += 1` and its `num_threads_alive --`. -/
def isAlive : Pos F A → ℤ
  | .aliveLock | .aliveInc | .exitUnlock | .exited => 0
  | _ => 1

/-- The worker is between its `num_threads_working++` and its `num_threads_working--`. -/
def isWorking : Pos F A → ℤ
  | .workUnlock | .pullLock | .pull _ | .ifJob _ | .func _ | .arg _ _ | .call _ _ _ | .run _ _ _ _
  | .free _ | .doneLock | .doneDec => 1
  | _ => 0

/-- **The counters count.** -/
structure CountInv (p : Pool n κ F A) (f : Fin n → Worker F A) : Prop where
  alive : p.numThreadsAlive = ∑ i, isAlive (f i).pos
  working : p.numThreadsWorking = ∑ i, isWorking (f i).pos

/-- A step of `thread_do` changes the counters by what the worker contributes. -/
theorem posStep_counts {i : Fin n} {x : Input n F A} {fl : Flags} {p p' : Pool n κ F A} {w w' : Pos F A}
    (h : PosStep i x fl p w p' w') :
    p'.numThreadsAlive + isAlive w = p.numThreadsAlive + isAlive w' ∧
      p'.numThreadsWorking + isWorking w = p.numThreadsWorking + isWorking w' := by
  cases h with
  | countLock hw _ => cases hw <;> exact ⟨rfl, rfl⟩
  | countUnlock hw => cases hw <;> exact ⟨rfl, rfl⟩
  | silent hw => cases hw <;> exact ⟨rfl, rfl⟩
  | aliveInc => simp [isAlive, isWorking]
  | exitDec => simp [isAlive, isWorking]
  | workInc => simp [isAlive, isWorking]
  | doneDec => simp [isAlive, isWorking]
  | semLock hw _ => rcases hw with rfl | ⟨rfl, -⟩ <;> exact ⟨rfl, rfl⟩
  | pull h => rw [h.frame.alive, h.frame.working]; exact ⟨rfl, rfl⟩
  | add j f a h => rw [h.frame.alive, h.frame.working]; exact ⟨rfl, rfl⟩
  | _ => exact ⟨rfl, rfl⟩

theorem CountInv.move {p p' : Pool n κ F A} {f : Fin n → Worker F A} (h : CountInv p f) {i : Fin n}
    {w : Worker F A}
    (ha : p'.numThreadsAlive + isAlive (f i).pos = p.numThreadsAlive + isAlive w.pos)
    (hw : p'.numThreadsWorking + isWorking (f i).pos = p.numThreadsWorking + isWorking w.pos) :
    CountInv p' (Function.update f i w) := by
  have hsa := sum_update (fun _ (v : Worker F A) => isAlive v.pos) f i w
  have hsw := sum_update (fun _ (v : Worker F A) => isWorking v.pos) f i w
  have h1 := h.alive
  have h2 := h.working
  refine ⟨?_, ?_⟩ <;> omega

theorem CountInv.worker {m m' : Mem n κ F A} {f : Fin n → Worker F A} {i : Fin n} {x : Input n F A}
    {w : Worker F A} (h : CountInv m.pool f) (hs : WorkerStep i x m (f i) m' w) :
    CountInv m'.pool (Function.update f i w) := by
  cases hs with
  | move hh _ hp =>
    obtain ⟨ha, hw⟩ := posStep_counts hp
    exact h.move ha hw
  | _ => exact h.move rfl rfl

/-- The clients do not touch the counters and their mutex. -/
theorem callStep_counts {k : κ} {x : Input n F A} {m m' : Mem n κ F A} {c c' : Call}
    (h : CallStep k x m c m' c') :
    m'.pool.numThreadsAlive = m.pool.numThreadsAlive ∧
      m'.pool.numThreadsWorking = m.pool.numThreadsWorking ∧
      m'.pool.thcountLock = m.pool.thcountLock := by
  cases h with
  | add h => exact ⟨h.frame.alive, h.frame.working, h.frame.count⟩
  | addReturn h => exact ⟨h.frame.alive, h.frame.working, h.frame.count⟩
  | destroy h =>
    cases h with
    | clearPull h =>
      have hf := pullRun_frame h
      exact ⟨hf.alive, hf.working, hf.count⟩
    | _ => exact ⟨rfl, rfl, rfl⟩
  | destroyReturn h => cases h; exact ⟨rfl, rfl, rfl⟩
  | _ => exact ⟨rfl, rfl, rfl⟩

theorem isAlive_le_one (w : Pos F A) : isAlive w ≤ 1 := by cases w <;> simp [isAlive]

theorem isAlive_nonneg (w : Pos F A) : 0 ≤ isAlive w := by cases w <;> simp [isAlive]

theorem isWorking_nonneg (w : Pos F A) : 0 ≤ isWorking w := by cases w <;> simp [isWorking]

/-- All `n` workers alive: every one of them is. -/
theorem CountInv.all_alive {p : Pool n κ F A} {f : Fin n → Worker F A} (h : CountInv p f)
    (ha : p.numThreadsAlive = n) (i : Fin n) : isAlive (f i).pos = 1 := by
  have hsum : ∑ i, isAlive (f i).pos = ∑ _i : Fin n, (1 : ℤ) := by
    rw [← h.alive, ha]; simp
  exact (Finset.sum_eq_sum_iff_of_le fun i _ => isAlive_le_one (f i).pos).mp hsum i (Finset.mem_univ i)

theorem CountInv.none_alive {p : Pool n κ F A} {f : Fin n → Worker F A} (h : CountInv p f)
    (ha : p.numThreadsAlive = 0) (i : Fin n) : isAlive (f i).pos = 0 := by
  have hsum : ∑ i, isAlive (f i).pos = 0 := by rw [← h.alive, ha]
  exact (Finset.sum_eq_zero_iff_of_nonneg fun i _ => isAlive_nonneg (f i).pos).mp hsum i
    (Finset.mem_univ i)

theorem CountInv.none_working {p : Pool n κ F A} {f : Fin n → Worker F A} (h : CountInv p f)
    (hw : p.numThreadsWorking = 0) (i : Fin n) : isWorking (f i).pos = 0 := by
  have hsum : ∑ i, isWorking (f i).pos = 0 := by rw [← h.working, hw]
  exact (Finset.sum_eq_zero_iff_of_nonneg fun i _ => isWorking_nonneg (f i).pos).mp hsum i
    (Finset.mem_univ i)

variable [DecidableEq κ]

theorem countInv_reach {ok : State n κ F A → Tid n κ × Input n F A → Prop} {c : State n κ F A}
    (h : Reach (thpool n κ F A).lts ok c) : CountInv c.mem.pool c.worker := by
  refine Program.invariant (I := fun c : State n κ F A => CountInv c.mem.pool c.worker) ?_ ?_ ?_ h
  · rintro _ ⟨heap, k0, rfl⟩
    constructor <;> simp [Pool.created, Worker.created, isAlive, isWorking]
  · intro c i x r _ hi _ hs
    exact hi.worker (workerStep_cases hs)
  · intro c k x r _ hi _ hs
    obtain ⟨ha, hw, -⟩ := callStep_counts (callStep_cases hs)
    exact ⟨ha.trans hi.alive, hw.trans hi.working⟩

/-! ### The mutex of the counters -/

/-- The worker is between the lock and the unlock of `thcount_lock`. -/
def holdsCount (w : Worker F A) : Prop :=
  match w.pos with
  | .aliveInc | .aliveUnlock | .workInc | .workUnlock | .doneDec | .doneUnlock | .exitDec
  | .exitUnlock => True
  | _ => False

omit [DecidableEq κ] in
theorem posStep_count {i : Fin n} {x : Input n F A} {fl : Flags} {p p' : Pool n κ F A} {w w' : Pos F A}
    {hd hd' : Hold} (h : PosStep i x fl p w p' w') :
    MutexStep (Sum.inl i) p.thcountLock p'.thcountLock (holdsCount ⟨w, hd⟩) (holdsCount ⟨w', hd'⟩) := by
  cases h with
  | countLock hw hl => cases hw <;> exact Or.inr (Or.inl ⟨hl, rfl, trivial⟩)
  | countUnlock hw => cases hw <;> exact Or.inr (Or.inr ⟨trivial, rfl, not_false⟩)
  | silent hw => cases hw <;> exact Or.inl ⟨rfl, Iff.rfl⟩
  | semLock hw _ => rcases hw with rfl | ⟨rfl, -⟩ <;> exact Or.inl ⟨rfl, Iff.rfl⟩
  | pull h => exact Or.inl ⟨h.frame.count, Iff.rfl⟩
  | add j f a h => exact Or.inl ⟨h.frame.count, Iff.rfl⟩
  | _ => exact Or.inl ⟨rfl, Iff.rfl⟩

/-- **`thcount_lock` is owned by the worker between its lock and its unlock.** -/
theorem count_owned {ok : State n κ F A → Tid n κ × Input n F A → Prop} {c : State n κ F A}
    (h : Reach (thpool n κ F A).lts ok c) :
    Owned c.mem.pool.thcountLock holdsCount (fun _ => False) c := by
  refine Program.invariant (I := fun c : State n κ F A =>
    Owned c.mem.pool.thcountLock holdsCount (fun _ => False) c) ?_ ?_ ?_ h
  · rintro _ ⟨heap, k0, rfl⟩
    constructor <;> simp [Pool.created, Worker.created, holdsCount]
  · intro c i x r _ hi _ hs
    refine hi.moveWorker ?_
    obtain ⟨m', w'⟩ := r
    cases workerStep_cases hs with
    | move hh _ hp => exact posStep_count hp
    | _ => exact Or.inl ⟨rfl, Iff.rfl⟩
  · intro c k x r _ hi _ hs
    obtain ⟨-, -, hl⟩ := callStep_counts (callStep_cases hs)
    exact hi.moveClient (Or.inl ⟨hl, Iff.rfl⟩)

/-! ### From `thpool_init` to `thpool_destroy` -/

/-- The worker has passed its `num_threads_alive += 1`. -/
def started : Pos F A → Prop
  | .aliveLock | .aliveInc => False
  | _ => True

/-- The worker has passed its `num_threads_alive --`. -/
def left : Pos F A → Prop
  | .exitUnlock | .exited => True
  | _ => False

/-- `thpool_destroy` is behind its polling loops. -/
def polled : Destroy → Prop
  | .keepalive | .poll _ | .postAllLock _ | .postAll _ => False
  | _ => True

omit [DecidableEq κ] in
theorem posStep_started {i : Fin n} {x : Input n F A} {fl : Flags} {p p' : Pool n κ F A}
    {w w' : Pos F A} (h : PosStep i x fl p w p' w') (hw : started w) : started w' := by
  cases h with
  | countLock h _ => cases h <;> trivial
  | countUnlock h => cases h <;> trivial
  | silent h => cases h <;> trivial
  | _ => trivial

omit [DecidableEq κ] in
theorem posStep_left {i : Fin n} {x : Input n F A} {fl : Flags} {p p' : Pool n κ F A}
    {w w' : Pos F A} (h : PosStep i x fl p w p' w') (hw : left w) :
    w = .exitUnlock ∧ w' = .exited ∧ p' = { p with thcountLock := none } := by
  cases h with
  | countLock h _ => cases h <;> exact hw.elim
  | countUnlock h => cases h <;> first | exact hw.elim | exact ⟨rfl, rfl, rfl⟩
  | silent h => cases h <;> exact hw.elim
  | semLock h _ => rcases h with rfl | ⟨rfl, -⟩ <;> exact hw.elim
  | _ => exact hw.elim

theorem started_of_alive {w : Pos F A} (h : isAlive w = 1) : started w := by
  cases w <;> simp_all [isAlive, started]

theorem left_of_not_alive {w : Pos F A} (h : isAlive w = 0) (hs : started w) : left w := by
  cases w <;> simp_all [isAlive, started, left]

/-- **The life of the pool.** -/
structure StageInv (c : State n κ F A) : Prop where
  init : ∀ k, c.client k = .initSpin → c.mem.pool.stage = .starting ∧ ∀ k' ≠ k, c.client k' = .outside
  alive : c.mem.pool.stage ≠ .starting → ∀ i, started (c.worker i).pos
  alone : ∀ k total d, c.client k = .destroy total d →
    c.mem.pool.stage = .closing ∧ ∀ k' ≠ k, c.client k' = .outside
  dead : ∀ k total d, c.client k = .destroy total d → polled d → ∀ i, left (c.worker i).pos
  gone : c.mem.pool.stage = .gone → (∀ k, c.client k = .outside) ∧ ∀ i, left (c.worker i).pos
  freeing : c.mem.pool.freeing = true → ∀ i, left (c.worker i).pos

omit [DecidableEq κ] in
/-- The workers move the stage neither on nor back. -/
theorem workerStep_stage {i : Fin n} {x : Input n F A} {m m' : Mem n κ F A} {w w' : Worker F A}
    (h : WorkerStep i x m w m' w') :
    m'.pool.stage = m.pool.stage ∧ m'.pool.freeing = m.pool.freeing ∧
      (started w.pos → started w'.pos) ∧ (left w.pos → left w'.pos) := by
  cases h with
  | move hh _ hp =>
    have hstage : ∀ {p' : Pool n κ F A} {v v' : Pos F A}, PosStep i x m.flags m.pool v p' v' →
        p'.stage = m.pool.stage ∧ p'.freeing = m.pool.freeing := by
      intro p' v v' hp
      cases hp with
      | pull h => exact ⟨h.frame.stage, h.frame.freeing⟩
      | add j f a h => exact ⟨h.frame.stage, h.frame.freeing⟩
      | _ => exact ⟨rfl, rfl⟩
    refine ⟨(hstage hp).1, (hstage hp).2, posStep_started hp, fun hl => ?_⟩
    rw [show _ = Pos.exited from (posStep_left hp hl).2.1]
    trivial
  | _ => exact ⟨rfl, rfl, id, id⟩

omit [DecidableEq κ] in
theorem StageInv.worker {c : State n κ F A} {i : Fin n} {x : Input n F A}
    {r : Mem n κ F A × Worker F A} (hi : StageInv c) (h : WorkerStep i x c.mem (c.worker i) r.1 r.2) :
    StageInv (c.moveWorker i r) := by
  obtain ⟨hs, hf, hst, hl⟩ := workerStep_stage h
  -- a property of positions that the moving worker keeps is kept by all
  have hall : ∀ P : Pos F A → Prop, (P (c.worker i).pos → P r.2.pos) → (∀ j, P (c.worker j).pos) →
      ∀ j, P ((c.moveWorker i r).worker j).pos := by
    intro P hP hc
    exact forall_moveWorker (P := fun _ (w : Worker F A) => P w.pos) (hP (hc i)) fun j _ => hc j
  have hs' : (c.moveWorker i r).mem.pool.stage = c.mem.pool.stage := hs
  have hf' : (c.moveWorker i r).mem.pool.freeing = c.mem.pool.freeing := hf
  refine ⟨fun k hk => ?_, fun h' => ?_, fun k total d hk => ?_, fun k total d hk hd => ?_,
    fun h' => ?_, fun h' => ?_⟩
  · rw [hs']; exact hi.init k hk
  · rw [hs'] at h'; exact hall started hst (hi.alive h')
  · rw [hs']; exact hi.alone k total d hk
  · exact hall left hl (hi.dead k total d hk hd)
  · rw [hs'] at h'; exact ⟨(hi.gone h').1, hall left hl (hi.gone h').2⟩
  · rw [hf'] at h'; exact hall left hl (hi.freeing h')

omit [DecidableEq κ] in
/-- A client in a call other than `thpool_destroy`: no other client is in `thpool_init` or
`thpool_destroy`. -/
theorem StageInv.inCall {c : State n κ F A} (hi : StageInv c) {k : κ} (hk : c.client k ≠ .outside)
    (hd : ∀ total d, c.client k ≠ .destroy total d) (hs : c.client k ≠ .initSpin) :
    c.mem.pool.stage ≠ .gone ∧ (∀ k', c.client k' ≠ .initSpin) ∧
      ∀ k' total d, c.client k' ≠ .destroy total d := by
  refine ⟨fun h => hk ((hi.gone h).1 k), fun k' h => ?_, fun k' total d h => ?_⟩
  · by_cases hkk : k = k'
    · exact hs (hkk ▸ h)
    · exact hk ((hi.init k' h).2 k hkk)
  · by_cases hkk : k = k'
    · exact hd total d (hkk ▸ h)
    · exact hk ((hi.alone k' total d h).2 k hkk)

omit [DecidableEq κ] in
/-- While the pool can be used, no client is in `thpool_init` or `thpool_destroy`. -/
theorem StageInv.inUse {c : State n κ F A} (hi : StageInv c) (h : c.mem.pool.stage = .ready) :
    c.mem.pool.stage ≠ .gone ∧ (∀ k', c.client k' ≠ .initSpin) ∧
      ∀ k' total d, c.client k' ≠ .destroy total d := by
  refine ⟨by simp [h], fun k' hk => ?_, fun k' total d hk => ?_⟩
  · have := (hi.init k' hk).1; simp [h] at this
  · have := (hi.alone k' total d hk).1; simp [h] at this

/-- A step of a client that keeps the stage, from and to outside `thpool_init` and `thpool_destroy`. -/
theorem StageInv.plain {c : State n κ F A} (hi : StageInv c) {k : κ} {r : Mem n κ F A × Call}
    (hg : c.mem.pool.stage ≠ .gone ∧ (∀ k', c.client k' ≠ .initSpin) ∧
      ∀ k' total d, c.client k' ≠ .destroy total d)
    (hs : r.1.pool.stage = c.mem.pool.stage) (hf : r.1.pool.freeing = c.mem.pool.freeing)
    (hr : r.2 ≠ .initSpin) (hr' : ∀ total d, r.2 ≠ .destroy total d) :
    StageInv (c.moveClient k r) := by
  obtain ⟨hg, hin, hde⟩ := hg
  have hin' := forall_moveClient (P := fun _ (l : Call) => l ≠ .initSpin) (k := k) hr
    fun k' _ => hin k'
  have hde' := forall_moveClient (P := fun _ (l : Call) => ∀ total d, l ≠ .destroy total d) (k := k) hr'
    fun k' _ => hde k'
  have hs' : (c.moveClient k r).mem.pool.stage = c.mem.pool.stage := hs
  have hf' : (c.moveClient k r).mem.pool.freeing = c.mem.pool.freeing := hf
  refine ⟨fun k' h => absurd h (hin' k'), fun h => ?_, fun k' total d h => absurd h (hde' k' total d),
    fun k' total d h => absurd h (hde' k' total d), fun h => ?_, fun h => ?_⟩
  · rw [hs'] at h; exact hi.alive h
  · rw [hs'] at h; exact absurd h hg
  · rw [hf'] at h; exact hi.freeing h

omit [DecidableEq κ] in
/-- What a step of `thpool_destroy` does to the stage: behind the loops it stays there, and only behind
them something is freed. -/
theorem destroyStep_stage {self : Tid n κ} {x : Input n F A} {m m' : Mem n κ F A} {total : ℤ}
    {d : Destroy} {d' : Option Destroy} {f : Fin n → Worker F A} (hc : CountInv m.pool f)
    (hst : ∀ i, started (f i).pos) (hl : polled d → ∀ i, left (f i).pos)
    (h : DestroyStep self x m total d m' d') :
    (m'.pool.freeing = true → m.pool.freeing = true ∨ ∀ i, left (f i).pos) ∧
      (∀ e, d' = some e → m'.pool.stage = m.pool.stage ∧ (polled e → ∀ i, left (f i).pos)) ∧
      (d' = none → m'.pool.stage = .gone ∧ ∀ i, left (f i).pos) := by
  cases h with
  | pollEnd ha =>
    refine ⟨Or.inl, fun e he => ⟨rfl, fun _ i => ?_⟩, fun he => by cases he⟩
    exact left_of_not_alive (hc.none_alive ha i) (hst i)
  | clearPull hp =>
    refine ⟨fun _ => Or.inr (hl trivial), fun e he => ⟨(pullRun_frame hp).stage, fun _ => hl trivial⟩,
      fun he => by cases he⟩
  | freeSem => exact ⟨fun _ => Or.inr (hl trivial), fun e he => ⟨rfl, fun _ => hl trivial⟩,
      fun he => by cases he⟩
  | freePool => exact ⟨Or.inl, fun e he => (by cases he), fun _ => ⟨rfl, hl trivial⟩⟩
  | _ =>
    -- a step inside the loops, or one behind them
    refine ⟨Or.inl, fun e he => ⟨rfl, fun hp => ?_⟩, fun he => by cases he⟩
    cases he
    first | exact hl trivial | exact hp.elim

/-- A step of `thpool_destroy`, which is alone. -/
theorem StageInv.destroy {c : State n κ F A} (hi : StageInv c) (hc : CountInv c.mem.pool c.worker)
    {k : κ} {x : Input n F A} {total : ℤ} {d : Destroy} {d' : Option Destroy} {r : Mem n κ F A × Call}
    (hk : c.client k = .destroy total d) (h : DestroyStep (.inr k) x c.mem total d r.1 d')
    (hr : ∀ e, d' = some e → r.2 = .destroy total e) (hr' : d' = none → r.2 = .outside) :
    StageInv (c.moveClient k r) := by
  obtain ⟨hclosing, hothers⟩ := hi.alone k total d hk
  have hst : ∀ i, started (c.worker i).pos := hi.alive (by simp [hclosing])
  obtain ⟨hfree, hsome, hnone⟩ := destroyStep_stage hc hst (hi.dead k total d hk) h
  have hout : ∀ k', k' ≠ k → (c.moveClient k r).client k' = .outside := by
    intro k' hk'
    simpa [Config.moveClient, hk'] using hothers k' hk'
  have hme : (c.moveClient k r).client k = r.2 := by simp [Config.moveClient]
  have hfreeing : (c.moveClient k r).mem.pool.freeing = true →
      ∀ i, left ((c.moveClient k r).worker i).pos := by
    intro h'
    rcases hfree h' with h' | h'
    · exact hi.freeing h'
    · exact h'
  -- every other client is outside, so whoever is in a call is `k`
  have hself : ∀ k', (c.moveClient k r).client k' ≠ .outside → k' = k := by
    intro k' hne
    by_contra hk'
    exact hne (hout k' hk')
  have hspin : ∀ k', (c.moveClient k r).client k' ≠ .initSpin := by
    intro k' h'
    have hk' := hself k' (by simp [h'])
    subst hk'
    rw [hme] at h'
    cases d' with
    | some e => rw [hr e rfl] at h'; cases h'
    | none => rw [hr' rfl] at h'; cases h'
  cases d' with
  | some e =>
    obtain ⟨hs, hp⟩ := hsome e rfl
    have hs' : (c.moveClient k r).mem.pool.stage = .closing := hs.trans hclosing
    refine ⟨fun k' h' => absurd h' (hspin k'), fun _ => hst, fun k' t' e' h' => ?_,
      fun k' t' e' h' hp' => ?_, fun h' => by simp [hs'] at h', hfreeing⟩
    · have hk' := hself k' (by simp [h'])
      subst hk'
      exact ⟨hs', hout⟩
    · have hk' := hself k' (by simp [h'])
      subst hk'
      rw [hme, hr e rfl] at h'
      cases h'
      exact hp hp'
  | none =>
    obtain ⟨hs, hp⟩ := hnone rfl
    have hall : ∀ k', (c.moveClient k r).client k' = .outside :=
      forall_moveClient (P := fun _ (l : Call) => l = .outside) (hr' rfl) hothers
    exact ⟨fun k' h' => absurd h' (hspin k'), fun _ => hst, fun k' t' e' h' => by simp [hall] at h',
      fun k' t' e' h' => by simp [hall] at h', fun _ => ⟨hall, hp⟩, hfreeing⟩

theorem StageInv.client {c : State n κ F A} (hi : StageInv c) (hc : CountInv c.mem.pool c.worker)
    {k : κ} {x : Input n F A} {r : Mem n κ F A × Call} (hok : finalDestroy c (.inr k, x))
    (h : CallStep k x c.mem (c.client k) r.1 r.2) : StageInv (c.moveClient k r) := by
  obtain ⟨m', l'⟩ := r
  generalize hk : c.client k = l at h
  -- a client in a call that is neither of the two
  have hcall : l ≠ .outside → (∀ total d, l ≠ .destroy total d) → l ≠ .initSpin → _ :=
    fun h1 h2 h3 => hi.inCall (k := k) (by rwa [hk]) (by rwa [hk]) (by rwa [hk])
  cases h with
  | initReady ha =>
    obtain ⟨-, hothers⟩ := hi.init k hk
    have hall : ∀ k', (c.moveClient k ({ c.mem with pool := { c.mem.pool with stage := .ready } },
        .outside)).client k' = .outside := by
      exact forall_moveClient (P := fun _ (l : Call) => l = .outside) rfl hothers
    refine ⟨fun k' h' => by simp [hall] at h', fun _ i => started_of_alive (hc.all_alive ha i),
      fun k' t' e' h' => by simp [hall] at h', fun k' t' e' h' => by simp [hall] at h',
      fun h' => by simp [Config.moveClient] at h', hi.freeing⟩
  | destroyEnter hx hs =>
    have hall : ∀ k', c.client k' = .outside := hok k rfl hk hx
    have hst := hi.alive (by simp [hs])
    have hother : ∀ k', k' ≠ k → (c.moveClient k ({ c.mem with pool := { c.mem.pool with
        stage := .closing } }, .destroy c.mem.pool.numThreadsAlive .keepalive)).client k' = .outside := by
      intro k' hk'
      simpa [Config.moveClient, hk'] using hall k'
    refine ⟨fun k' h' => ?_, fun _ => hst, fun k' t' e' h' => ⟨rfl, fun k'' hk'' => ?_⟩,
      fun k' t' e' h' hp => ?_, fun h' => by simp [Config.moveClient] at h', hi.freeing⟩
    · by_cases hk' : k' = k
      · subst hk'; simp [Config.moveClient] at h'
      · rw [hother k' hk'] at h'; cases h'
    · by_cases hk' : k' = k
      · subst hk'; exact hother k'' hk''
      · rw [hother k' hk'] at h'; cases h'
    · by_cases hk' : k' = k
      · subst hk'
        simp only [Config.moveClient, Function.update_self, Call.destroy.injEq] at h'
        rw [← h'.2] at hp
        exact hp.elim
      · rw [hother k' hk'] at h'; cases h'
  | destroy h => exact hi.destroy hc hk h (fun e he => by cases he; rfl) (fun he => by cases he)
  | destroyReturn h => exact hi.destroy hc hk h (fun e he => by cases he) (fun _ => rfl)
  | malloc f a hx hs => exact hi.plain (hi.inUse hs) rfl rfl (by simp) (by simp)
  | addFail hs => exact hi.plain (hi.inUse hs) rfl rfl (by simp) (by simp)
  | wait hx hs => exact hi.plain (hi.inUse hs) rfl rfl (by simp) (by simp)
  | pause hs => exact hi.plain (hi.inUse hs) rfl rfl (by simp) (by simp)
  | resume hs => exact hi.plain (hi.inUse hs) rfl rfl (by simp) (by simp)
  | add h =>
    exact hi.plain (hcall (by simp) (by simp) (by simp)) h.frame.stage h.frame.freeing (by simp)
      (by simp)
  | addReturn h =>
    exact hi.plain (hcall (by simp) (by simp) (by simp)) h.frame.stage h.frame.freeing (by simp)
      (by simp)
  | waitMove h =>
    cases h <;>
      exact hi.plain (hcall (by simp) (by simp) (by simp)) rfl rfl (by simp) (by simp)
  | waitReturn must hw =>
    exact hi.plain (hcall (by simp) (by simp) (by simp)) rfl rfl (by simp) (by simp)
  | kill j hj hlt =>
    exact hi.plain (hcall (by simp) (by simp) (by simp)) rfl rfl (by simp) (by simp)
  | pauseReturn j =>
    exact hi.plain (hcall (by simp) (by simp) (by simp)) rfl rfl (by simp) (by simp)

theorem stageInv_reach {c : State n κ F A} (h : Reach (thpool n κ F A).lts finalDestroy c) :
    StageInv c := by
  refine Program.invariant ?_ ?_ ?_ h
  · rintro _ ⟨heap, k0, rfl⟩
    have hne : ∀ k total d, initClients k0 k ≠ .destroy total d :=
      initClients_forall (P := fun l => ∀ total d, l ≠ .destroy total d) (by simp) (by simp) k0
    refine ⟨fun k hk => ⟨rfl, fun k' hk' => ?_⟩, fun h' => absurd rfl h',
      fun k total d hk => absurd hk (hne k total d), fun k total d hk => absurd hk (hne k total d),
      fun h' => (by cases h'), fun h' => (by cases h')⟩
    have hk : initClients k0 k = .initSpin := hk
    rcases initClients_cases k0 k with ⟨rfl, -⟩ | ⟨-, h1⟩
    · exact if_neg hk'
    · rw [h1] at hk; cases hk
  · intro c i x r _ hi _ hs
    exact hi.worker (workerStep_cases hs)
  · intro c k x r hr hi hok hs
    exact hi.client (countInv_reach hr) hok (callStep_cases hs)

/-! ### The first `free` -/

/-- The worker is executing a job. -/
def executing : Pos F A → Prop
  | .run _ _ _ _ => True
  | _ => False

/-- The worker has a step of `thread_do` left; the last one unlocks `thcount_lock`. -/
def stepLeft : Pos F A → Prop
  | .exited => False
  | _ => True

/-- **No worker is executing a job or will touch the pool again.** -/
def WorkersGone (c : State n κ F A) : Prop :=
  ∀ i, ¬ executing (c.worker i).pos ∧ ¬ stepLeft (c.worker i).pos

omit [DecidableEq κ] in
theorem workersGone_iff {c : State n κ F A} : WorkersGone c ↔ ∀ i, (c.worker i).pos = .exited := by
  refine forall_congr' fun i => ?_
  cases (c.worker i).pos <;> simp [executing, stepLeft]

/-- A worker that has ended does not come back. -/
theorem next_gone {c c' : State n κ F A} {a : Tid n κ × Input n F A}
    (h : (thpool n κ F A).lts.next c a = some c') (hc : WorkersGone c) : WorkersGone c' := by
  rw [workersGone_iff] at hc ⊢
  rcases Program.next_cases h with ⟨i, x, r, rfl, hr, rfl⟩ | ⟨k, x, r, rfl, hr, rfl⟩
  · refine forall_moveWorker (P := fun _ (w : Worker F A) => w.pos = .exited) ?_ fun j _ => hc j
    have hw := workerStep_cases hr
    obtain ⟨m', w'⟩ := r
    cases hw with
    | move hh _ hp =>
      have hl := posStep_left hp (by rw [hc i]; trivial)
      rw [hc i] at hl
      exact absurd hl.1 (by simp)
    | _ => exact hc i
  · exact hc

/-- A step that frees for the first time is a step of a client: the workers stand still. -/
theorem next_firstFree {c c' : State n κ F A} {a : Tid n κ × Input n F A}
    (h : (thpool n κ F A).lts.next c a = some c') (h0 : c.mem.pool.freeing = false)
    (h1 : c'.mem.pool.freeing = true) : c'.worker = c.worker := by
  rcases Program.next_cases h with ⟨i, x, r, rfl, hr, rfl⟩ | ⟨k, x, r, rfl, hr, rfl⟩
  · have hf : r.1.pool.freeing = c.mem.pool.freeing := (workerStep_stage (workerStep_cases hr)).2.1
    rw [show (c.moveWorker i r).mem = r.1 from rfl, hf, h0] at h1
    cases h1
  · rfl

/-- When all workers have passed their `num_threads_alive --`, the mutex tells whether they have ended. -/
theorem gone_iff_unlocked {c : State n κ F A} (h : Reach (thpool n κ F A).lts finalDestroy c)
    (hl : ∀ i, left (c.worker i).pos) : WorkersGone c ↔ c.mem.pool.thcountLock = none := by
  have hown := count_owned h
  rw [workersGone_iff]
  constructor
  · intro hex
    cases hlock : c.mem.pool.thcountLock with
    | none => rfl
    | some t =>
      rcases t with i | k
      · have hi := (hown.worker i).mpr hlock
        simp [holdsCount, hex i] at hi
      · exact ((hown.client k).mpr hlock).elim
  · intro hlock i
    have hl := hl i
    have hi := (hown.worker i).not.mpr (by simp [hlock])
    cases hpos : (c.worker i).pos <;> simp_all [left, holdsCount]

/-- **The teardown is safe exactly when `thcount_lock` is free at the first `free`.** For every run in
which `thpool_destroy` is the last call: at the first `free` and ever after no worker is executing a job
or has a step left, if and only if no worker holds `thcount_lock` when it is performed. -/
theorem teardown_iff {c c' : State n κ F A} {a : Tid n κ × Input n F A}
    (h : Reach (thpool n κ F A).lts finalDestroy c) (hok : finalDestroy c a)
    (hs : (thpool n κ F A).lts.next c a = some c') (h0 : c.mem.pool.freeing = false)
    (h1 : c'.mem.pool.freeing = true) :
    (WorkersGone c ∧ ∀ c'', Runs (thpool n κ F A).lts finalDestroy c' c'' → WorkersGone c'') ↔
      c.mem.pool.thcountLock = none := by
  have hw := next_firstFree hs h0 h1
  have hl : ∀ i, left (c.worker i).pos := by
    have := (stageInv_reach (h.next hok hs)).freeing h1
    rwa [hw] at this
  rw [← gone_iff_unlocked h hl]
  refine ⟨fun hg => hg.1, fun hg => ⟨hg, fun c'' hrun => ?_⟩⟩
  exact Runs.keeps (P := WorkersGone) (fun s b s' hP _ hn => next_gone hn hP) hrun (next_gone hs hg)

/-- One worker comes alive, the client calls `thpool_destroy`, the worker leaves its loop and brings
`num_threads_alive` to `0`; the destroyer sees it and clears the empty queue. -/
def pollRun : List (Tid 1 Unit × Input 1 ℕ ℕ) :=
  let w : Tid 1 Unit := .inl (Fin.last 0)
  let d : Tid 1 Unit := .inr ()
  plainSteps [w, w, w, d] ++ [(d, { call := some .destroy })] ++ plainSteps [d, w, w, w] ++
    plainSteps [d, d, d, d, d, d, d]

/-- The semaphore is freed while the worker is still to unlock `thcount_lock` in the pool. -/
theorem teardown_races_pollRun : ∃ c : State 1 Unit ℕ ℕ,
    Reach (thpool 1 Unit ℕ ℕ).lts finalDestroy c ∧ c.mem.pool.freeing = true ∧
      ∃ i, stepLeft (c.worker i).pos := by
  obtain ⟨c, hc, hp⟩ := reach_of_run (thpool 1 Unit ℕ ℕ).lts finalDestroy_unit
    (pollRun ++ plainSteps [.inr ()])
    (fun c => c.mem.pool.freeing && match (c.worker (Fin.last 0)).pos with
      | .exitUnlock => true
      | _ => false)
    ⟨fun _ => ⟨none, 0, 0⟩, (), rfl⟩ (by decide)
  simp only [Bool.and_eq_true] at hp
  refine ⟨c, hc, hp.1, Fin.last 0, ?_⟩
  cases hpos : (c.worker (Fin.last 0)).pos <;> simp_all [stepLeft]

/-- In the same run with the unlock before the first `free`, all is well. -/
theorem teardown_iff_pollRun : ∃ c c' : State 1 Unit ℕ ℕ,
    Reach (thpool 1 Unit ℕ ℕ).lts finalDestroy c ∧ c.mem.pool.freeing = false ∧
      (thpool 1 Unit ℕ ℕ).lts.next c (.inr (), {}) = some c' ∧ c'.mem.pool.freeing = true ∧
      ∀ c'', Runs (thpool 1 Unit ℕ ℕ).lts finalDestroy c' c'' → WorkersGone c'' := by
  obtain ⟨c, hc, hp⟩ := reach_of_run (thpool 1 Unit ℕ ℕ).lts finalDestroy_unit
    (pollRun ++ plainSteps [.inl (Fin.last 0)])
    (fun c => c.mem.pool.thcountLock.isNone && (!c.mem.pool.freeing &&
      decide (((thpool 1 Unit ℕ ℕ).lts.next c (.inr (), {})).map (fun c' => c'.mem.pool.freeing) =
        some true)))
    ⟨fun _ => ⟨none, 0, 0⟩, (), rfl⟩ (by decide)
  simp only [Bool.and_eq_true, Option.isNone_iff_eq_none, Bool.not_eq_true', decide_eq_true_eq] at hp
  obtain ⟨hlock, h0, hn⟩ := hp
  obtain ⟨c', hs, h1⟩ := Option.map_eq_some_iff.mp hn
  have hok := finalDestroy_unit c (.inr (), {}) rfl
  exact ⟨c, c', hc, h0, hs, h1, ((teardown_iff hc hok hs h0 h1).mpr hlock).2⟩

end PoolStudy.Thpool.Teardown
