import PoolStudy.Threadpool.Steps

/-! # The ring-buffer pool: who owns the mutex

`threadpool_add` leaves its block with `break` and unlocks behind it. `threadpool_destroy` unlocks in the
middle of its block: it returns with the mutex still locked when it finds `shutdown` already set, and
when `pthread_cond_broadcast` or `pthread_mutex_unlock` fails. These are the only ways to abandon the
mutex: as long as every step `unlocks` (no call of `threadpool_destroy` gets the mutex after `shutdown`
was set, and these calls succeed), the mutex is owned by the thread that is between its lock and its
unlock (`owned_reach`), and the first step that does not abandons it (`lock_abandoned_iff`). -/

namespace PoolStudy.Threadpool.Lock

open PoolStudy.Lib.Transition PoolStudy.Lib.Threads
open PoolStudy.Threadpool.Model PoolStudy.Threadpool.Steps

variable {n : ℕ} {F A : Type}

/-- The call is between its lock and its unlock. -/
def Call.holds : Call F A → Prop
  | .addIn _ | .destroyIn _ => True
  | _ => False

/-- The worker is between its lock and its unlock, or the task it runs is. -/
def Worker.holds : Worker F A → Prop
  | .test => True
  | .run _ c => Call.holds c
  | _ => False

/-- The thread is outside the code of the pool: it is in no call, or it has ended. -/
def outsideCode (c : State n F A) : Tid n → Bool
  | .inl i =>
    match c.worker i with
    | .run _ l => l.isOutside
    | .exited => true
    | _ => false
  | .inr k => (c.client k).isOutside

/-- The step of a call reaches the unlock, and the unlock succeeds. -/
def callUnlocks (m : Mem n F A) (x : Input n F A) : Call F A → Bool
  | .addIn _ => x.unlockOk
  | .destroyIn _ => m.pool.shutdown.isNone && x.condOk && x.unlockOk
  | _ => true

/-- **The steps that give the mutex back**: no `threadpool_destroy` enters its section after `shutdown`
was set, and the broadcast and the unlock of a call succeed. -/
def unlocks (c : State n F A) (a : Tid n × Input n F A) : Bool :=
  match a.1 with
  | .inl i =>
    match c.worker i with
    | .run _ l => callUnlocks c.mem a.2 l
    | _ => true
  | .inr k => callUnlocks c.mem a.2 (c.client k)

/-- All steps of the run give the mutex back. -/
def Unlocks (c : State n F A) (a : Tid n × Input n F A) : Prop := unlocks c a = true

theorem not_holds_of_isOutside {c : Call F A} (h : c.isOutside = true) : ¬ Call.holds c := by
  cases c with
  | outside => exact id
  | _ => cases h

theorem unlock_lock {x : Input n F A} (hu : x.unlockOk = true) (p : Pool n F A) :
    (p.unlock x).lock = none := by
  simp [Pool.unlock, hu]

theorem unlock_fails {x : Input n F A} (hu : ¬ x.unlockOk = true) (p : Pool n F A) :
    p.unlock x = p := by
  simp [Pool.unlock, hu]

/-! ### Steps that unlock -/

theorem callStep_mutex {self : Tid n} {x : Input n F A} {m m' : Mem n F A} {c c' : Call F A}
    (h : CallStep self x m c m' c') (hu : callUnlocks m x c = true) :
    MutexStep self m.pool.lock m'.pool.lock (Call.holds c) (Call.holds c') := by
  cases h with
  | enter hc =>
    refine Or.inl ⟨rfl, ?_⟩
    rcases hc with rfl | ⟨t, rfl⟩ | ⟨f, rfl⟩ <;> simp [Call.holds]
  | addLock t hl => exact Or.inr (Or.inl ⟨hl, rfl, trivial⟩)
  | addFull t hc => exact Or.inr (Or.inr ⟨trivial, unlock_lock hu _, id⟩)
  | addShut t hc hs => exact Or.inr (Or.inr ⟨trivial, unlock_lock hu _, id⟩)
  | addPush t ws hc hs hw => exact Or.inr (Or.inr ⟨trivial, unlock_lock hu _, id⟩)
  | addNoSignal t hc hs hx => exact Or.inr (Or.inr ⟨trivial, unlock_lock hu _, id⟩)
  | destroyLock f hl => exact Or.inr (Or.inl ⟨hl, rfl, trivial⟩)
  | destroyAgain f hs => simp [callUnlocks, hs] at hu
  | destroySet f hs hx hu' => exact Or.inr (Or.inr ⟨trivial, rfl, id⟩)
  | destroyNoUnlock f hs hx => simp [callUnlocks, hx] at hu
  | destroyNoCast f hs hx => simp [callUnlocks, hx] at hu
  | _ => exact Or.inl ⟨rfl, Iff.rfl⟩

theorem workerStep_mutex {i : Fin n} {x : Input n F A} {m m' : Mem n F A} {w w' : Worker F A}
    (h : WorkerStep i x m w m' w') (hu : ∀ t c, w = .run t c → callUnlocks m x c = true) :
    MutexStep (.inl i) m.pool.lock m'.pool.lock (Worker.holds w) (Worker.holds w') := by
  cases h with
  | lock hl => exact Or.inr (Or.inl ⟨hl, rfl, trivial⟩)
  | sleep hc hs => exact Or.inr (Or.inr ⟨trivial, rfl, id⟩)
  | leave hs => exact Or.inr (Or.inr ⟨trivial, rfl, id⟩)
  | grab hc hs => exact Or.inr (Or.inr ⟨trivial, rfl, id⟩)
  | spurious hin => exact Or.inl ⟨rfl, Iff.rfl⟩
  | wake hin hl => exact Or.inr (Or.inl ⟨hl, rfl, trivial⟩)
  | finish t => exact Or.inl ⟨rfl, Iff.rfl⟩
  | call t hf hs => exact callStep_mutex hs (hu t _ rfl)

theorem callUnlocks_of_unlocks {c : State n F A} {i : Fin n} {x : Input n F A}
    (hu : Unlocks c (.inl i, x)) : ∀ t l, c.worker i = .run t l → callUnlocks c.mem x l = true := by
  intro t l hw
  simpa only [Unlocks, unlocks, hw] using hu

/-- **The mutex is owned by the thread that is between its lock and its unlock.** -/
theorem owned_reach {c : State n F A} (h : Reach (threadpool n F A).lts Unlocks c) :
    Owned c.mem.pool.lock Worker.holds Call.holds c := by
  refine Program.invariant (I := fun c : State n F A =>
    Owned c.mem.pool.lock Worker.holds Call.holds c) ?_ ?_ ?_ h
  · rintro _ ⟨size, queue, -, rfl⟩
    exact ⟨fun i => by simp [Worker.holds, created], fun k => by simp [Call.holds, created]⟩
  · intro c i x r _ ho hu hs
    exact ho.moveWorker (workerStep_mutex (workerStep_cases hs) (callUnlocks_of_unlocks hu))
  · intro c k x r _ ho hu hs
    exact ho.moveClient (callStep_mutex (callStep_cases hs).2 hu)

theorem not_abandoned_of_owned {c : State n F A}
    (ho : Owned c.mem.pool.lock Worker.holds Call.holds c) :
    ∀ t, outsideCode c t = true → c.mem.pool.lock ≠ some t := by
  rintro (i | k) ht hl
  · have hh := (ho.worker i).mpr hl
    cases hw : c.worker i with
    | run t l =>
      simp only [outsideCode, hw] at ht
      rw [hw] at hh
      exact not_holds_of_isOutside ht hh
    | test => simp [outsideCode, hw] at ht
    | _ => simp [hw, Worker.holds] at hh
  · exact not_holds_of_isOutside ht ((ho.client k).mpr hl)

/-! ### The other steps abandon it -/

/-- **A step of a call that does not unlock** returns with the mutex as it was. -/
theorem callStep_abandons {self : Tid n} {x : Input n F A} {m m' : Mem n F A} {c c' : Call F A}
    (h : CallStep self x m c m' c') (hu : ¬ callUnlocks m x c = true) :
    Call.holds c ∧ m'.pool.lock = m.pool.lock ∧ c'.isOutside = true := by
  cases h with
  | addFull t hc => exact ⟨trivial, by rw [unlock_fails hu], rfl⟩
  | addShut t hc hs => exact ⟨trivial, by rw [unlock_fails hu], rfl⟩
  | addPush t ws hc hs hw => exact ⟨trivial, by rw [unlock_fails hu]; rfl, rfl⟩
  | addNoSignal t hc hs hx => exact ⟨trivial, by rw [unlock_fails hu]; rfl, rfl⟩
  | destroyAgain f hs => exact ⟨trivial, rfl, rfl⟩
  | destroySet f hs hx hu' => simp [callUnlocks, hs, hx, hu'] at hu
  | destroyNoUnlock f hs hx => exact ⟨trivial, rfl, rfl⟩
  | destroyNoCast f hs hx => exact ⟨trivial, rfl, rfl⟩
  | _ => exact absurd rfl hu

/-- The step that does not unlock leaves the mutex to a thread outside the code of the pool. -/
theorem abandoned_of_not_unlocks {c c' : State n F A} {a : Tid n × Input n F A}
    (ho : Owned c.mem.pool.lock Worker.holds Call.holds c)
    (hs : (threadpool n F A).lts.next c a = some c') (hu : ¬ Unlocks c a) :
    ∃ t, outsideCode c' t = true ∧ c'.mem.pool.lock = some t := by
  rcases Program.next_cases hs with ⟨i, x, r, rfl, hr, rfl⟩ | ⟨k, x, r, rfl, hr, rfl⟩
  · have hw := workerStep_cases hr
    obtain ⟨m', w'⟩ := r
    generalize he : c.worker i = w at hw
    simp only [Unlocks, unlocks, he] at hu
    cases hw with
    | call t hf hc =>
      obtain ⟨hh, hl, hout⟩ := callStep_abandons hc hu
      refine ⟨.inl i, ?_, ?_⟩
      · simp [outsideCode, Config.moveWorker, hout]
      · show m'.pool.lock = _
        rw [hl, ← ho.worker, he]
        exact hh
    | _ => exact absurd rfl hu
  · obtain ⟨hh, hl, hout⟩ := callStep_abandons (callStep_cases hr).2 hu
    refine ⟨.inr k, ?_, ?_⟩
    · simp [outsideCode, Config.moveClient, hout]
    · show r.1.pool.lock = _
      rw [hl, ← ho.client]
      exact hh

/-- **When the mutex is abandoned.** In a run all of whose steps unlock, no thread outside the code of
the pool owns the mutex; and the next step keeps it so exactly if it unlocks. -/
theorem lock_abandoned_iff {c : State n F A} (h : Reach (threadpool n F A).lts Unlocks c) :
    (∀ t, outsideCode c t = true → c.mem.pool.lock ≠ some t) ∧
    ∀ a c', (threadpool n F A).lts.next c a = some c' →
      ((∀ t, outsideCode c' t = true → c'.mem.pool.lock ≠ some t) ↔ Unlocks c a) := by
  have ho := owned_reach h
  refine ⟨not_abandoned_of_owned ho, fun a c' hs => ⟨fun hall => ?_, fun hu => ?_⟩⟩
  · by_contra hu
    obtain ⟨t, ht, hl⟩ := abandoned_of_not_unlocks ho hs hu
    exact hall t ht hl
  · exact not_abandoned_of_owned (owned_reach (h.next hu hs))

/-- One worker; two clients call `threadpool_destroy`, the second while the first is joining. -/
def secondDestroyRun : List (Tid 1 × Input 1 ℕ ℕ) :=
  [(.inr 0, { call := some (.destroy 0#32) }), (.inr 0, {}), (.inr 0, {}),
   (.inr 1, { call := some (.destroy 0#32) }), (.inr 1, {}), (.inr 1, {})]

/-- The second call has returned, with every pthread call successful, and its thread owns the mutex. -/
theorem lock_abandoned_secondDestroyRun : ∃ c : State 1 ℕ ℕ,
    Reach (threadpool 1 ℕ ℕ).lts pthreadOk c ∧ c.mem.freed = false ∧
      c.mem.destroys = [(0#32, some .shutdown)] ∧ outsideCode c (.inr 1) = true ∧
      c.mem.pool.lock = some (.inr 1) := by
  obtain ⟨c, hc, hp⟩ := reach_of_run (threadpool 1 ℕ ℕ).lts pthreadOk_of_okTest secondDestroyRun
    (fun c => decide (c.mem.freed = false) && decide (c.mem.destroys = [(0#32, some .shutdown)]) &&
      outsideCode c (.inr 1) && decide (c.mem.pool.lock = some (.inr 1)))
    ⟨1, fun _ => ⟨0, 0⟩, by decide, rfl⟩ (by decide)
  simp only [Bool.and_eq_true, decide_eq_true_eq] at hp
  exact ⟨c, hc, hp.1.1.1, hp.1.1.2, hp.1.2, hp.2⟩

/-- Up to the last step of that run the mutex is not abandoned. -/
theorem lock_abandoned_iff_secondDestroyRun : ∃ c : State 1 ℕ ℕ,
    Reach (threadpool 1 ℕ ℕ).lts Unlocks c ∧ c.mem.pool.lock = some (.inr 1) ∧
      ∀ t, outsideCode c t = true → c.mem.pool.lock ≠ some t := by
  obtain ⟨c, hc, hp⟩ := reach_of_run (threadpool 1 ℕ ℕ).lts
    (fun c a (h : unlocks c a = true) => h) secondDestroyRun.dropLast
    (fun c => decide (c.mem.pool.lock = some (.inr 1)))
    ⟨1, fun _ => ⟨0, 0⟩, by decide, rfl⟩ (by decide)
  exact ⟨c, hc, by simpa using hp, (lock_abandoned_iff hc).1⟩

end PoolStudy.Threadpool.Lock
