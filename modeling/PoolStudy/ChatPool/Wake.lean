import PoolStudy.ChatPool.Queue

/-! # The broadcast of `poolDestroy`

`poolDestroy` sets `shutdown` and broadcasts without the mutex. A worker that has tested `shutdown` before it
was set and is about to call `pthread_cond_wait` misses the broadcast and sleeps, although `shutdown` is set
(`asleep_of_window`). This is the only way: if no worker stands between its test and its wait when
`poolDestroy` broadcasts, no worker sleeps ever after (`awake_of_broadcast`, `runs_awake`). -/

namespace PoolStudy.ChatPool.Wake

open PoolStudy.Lib.Transition PoolStudy.Lib.Threads
open PoolStudy.ChatPool.Model PoolStudy.ChatPool.Steps PoolStudy.ChatPool.Queue

variable {n : ℕ} {κ σ ℓ A I : Type} {C : Code n κ σ ℓ A I}

/-- The worker `i` is blocked in `pthread_cond_wait` with no wake-up pending. -/
def asleep [DecidableEq ℓ] (c : State n κ σ ℓ A) (i : Fin n) : Bool :=
  decide (c.worker i = .blocked) && decide (i ∈ c.mem.pool.queueReady)

theorem asleep_iff [DecidableEq ℓ] {c : State n κ σ ℓ A} {i : Fin n} :
    asleep c i = true ↔ c.worker i = .blocked ∧ i ∈ c.mem.pool.queueReady := by
  simp only [asleep, Bool.and_eq_true, decide_eq_true_eq]

/-! ### Behind the broadcast -/

/-- `shutdown` is set, nobody sleeps and nobody is about to. -/
structure Awake (c : State n κ σ ℓ A) : Prop where
  shutdown : c.mem.pool.shutdown = true
  ready : c.mem.pool.queueReady = ∅
  window : ∀ i, c.worker i ≠ .wait

theorem callStep_ready {self : Tid n κ} {x : Input n I} {m m' : Mem n κ σ A} {c c' : Call ℓ}
    (hs : CallStep C self x m c m' c') :
    m'.pool.queueReady ⊆ m.pool.queueReady ∧ (m.pool.shutdown = true → m'.pool.shutdown = true) := by
  cases hs with
  | addSignal p l hw => exact ⟨(signal_some hw).1, id⟩
  | cast d ok => exact ⟨Finset.empty_subset _, id⟩
  | set d ok => exact ⟨subset_rfl, fun _ => rfl⟩
  | append p member l hh | appendAbort p member l hh => cases member <;> exact ⟨subset_rfl, id⟩
  | _ => exact ⟨subset_rfl, id⟩

theorem workerStep_ready {i : Fin n} {x : Input n I} {m m' : Mem n κ σ A} {w w' : Worker ℓ}
    (hs : WorkerStep C i x m w m' w') (hd : m.pool.shutdown = true) (hw : w ≠ .wait) :
    m'.pool.queueReady ⊆ m.pool.queueReady ∧ m'.pool.shutdown = true ∧ w' ≠ .wait := by
  cases hs with
  | mustWait hz h0 => rw [hd] at h0; cases h0
  | wait => exact absurd rfl hw
  | spurious hi => exact ⟨Finset.erase_subset _ _, hd, by simp⟩
  | call p hs => exact ⟨(callStep_ready hs).1, (callStep_ready hs).2 hd, by simp⟩
  | _ => exact ⟨subset_rfl, hd, by simp⟩

variable [DecidableEq κ]

theorem next_awake {c c' : State n κ σ ℓ A} {a : Tid n κ × Input n I} (h : Awake c)
    (hs : (chatPool C).lts.next c a = some c') : Awake c' := by
  have hsub : ∀ {s : Finset (Fin n)}, s ⊆ c.mem.pool.queueReady → s = ∅ := fun hsub =>
    Finset.subset_empty.mp (h.ready ▸ hsub)
  rcases Program.next_cases hs with ⟨i, x, r, rfl, hr, rfl⟩ | ⟨k, x, r, rfl, hr, rfl⟩
  · obtain ⟨h1, h2, h3⟩ := workerStep_ready (workerStep_cases hr) h.shutdown (h.window i)
    exact ⟨h2, hsub h1, forall_moveWorker (P := fun _ (w : Worker ℓ) => w ≠ .wait) h3 fun j _ => h.window j⟩
  · obtain ⟨h1, h2⟩ := callStep_ready (callStep_cases hr)
    exact ⟨h2 h.shutdown, hsub h1, h.window⟩

/-! ### Before it -/

/-- Behind `pool->shutdown = 1`. -/
def shutDown : Call ℓ → Prop
  | .destroyCast _ _ | .join _ _ _ | .clean _ _ | .destroyFree _ _ => True
  | _ => False

omit [DecidableEq κ] in
theorem callStep_shutDown {self : Tid n κ} {x : Input n I} {m m' : Mem n κ σ A} {c c' : Call ℓ}
    (hs : CallStep C self x m c m' c') (h : shutDown c → m.pool.shutdown = true) :
    shutDown c' → m'.pool.shutdown = true := by
  cases hs with
  | set d ok => exact fun _ => rfl
  | cast d ok | joinOne d ok i hi | joinEnd d ok hi | cleanOne d ok hp | cleanEnd d ok hp =>
    exact fun _ => h trivial
  | _ => exact fun hc => hc.elim

theorem next_shutdown {c c' : State n κ σ ℓ A} {a : Tid n κ × Input n I}
    (hs : (chatPool C).lts.next c a = some c') (h : c.mem.pool.shutdown = true) :
    c'.mem.pool.shutdown = true := by
  rcases Program.next_cases hs with ⟨i, x, r, rfl, hr, rfl⟩ | ⟨k, x, r, rfl, hr, rfl⟩
  · have hw := workerStep_cases hr
    show r.1.pool.shutdown = true
    generalize c.worker i = w, r.1 = m', r.2 = w' at hw ⊢
    cases hw with
    | call p hs => exact (callStep_ready hs).2 h
    | _ => exact h
  · exact (callStep_ready (callStep_cases hr)).2 h

theorem shutdown_of_behind {ok : State n κ σ ℓ A → Tid n κ × Input n I → Prop} {c : State n κ σ ℓ A}
    (h : Reach (chatPool C).lts ok c) :
    ∀ t d, callAt c t = some d → shutDown d → c.mem.pool.shutdown = true := by
  refine h.induct (I := fun c => ∀ t d, callAt c t = some d → shutDown d → c.mem.pool.shutdown = true)
    ?_ ?_
  · rintro _ ⟨e, heap, -, rfl⟩ (i | k) d hd
    · cases hd
    · cases hd
      exact fun hc => hc.elim
  · intro c a c' _ hi _ hs
    exact next_calls (P := fun d => shutDown d → c.mem.pool.shutdown = true) hs hi
      (fun d hd hb => next_shutdown hs (hd hb)) (fun l hb => hb.elim)
      fun d d' hst => callStep_shutDown hst

/-! ### The broadcast -/

omit [DecidableEq κ] in
theorem workerCall_some {w : Worker ℓ} {d : Call ℓ} (h : workerCall w = some d) : ∃ p, w = .run p d := by
  cases w <;> simp only [workerCall, Option.some.injEq, reduceCtorEq] at h
  subst h
  exact ⟨_, rfl⟩

/-- The broadcast empties the set of sleepers and moves no other worker. -/
theorem broadcast_step {c c' : State n κ σ ℓ A} {t : Tid n κ} {x : Input n I} {d : Before} {ok : ℓ}
    (ht : callAt c t = some (.destroyCast d ok)) (hs : (chatPool C).lts.next c (t, x) = some c') :
    c'.mem = withReady c.mem ∅ ∧ ∀ i, c'.worker i = .wait ↔ c.worker i = .wait := by
  rcases Program.next_cases hs with ⟨i, x', r, he, hr, rfl⟩ | ⟨k, x', r, he, hr, rfl⟩
  · cases he
    obtain ⟨p, hw⟩ := workerCall_some ht
    have hr' : r.1 = withReady c.mem ∅ ∧ r.2 ≠ .wait := by
      have hst := workerStep_cases hr
      rw [hw] at hst
      generalize r.1 = m', r.2 = w' at hst ⊢
      cases hst with
      | call p hst =>
        cases hst
        exact ⟨rfl, by simp⟩
    refine ⟨hr'.1, fun j => ?_⟩
    rcases moveWorker_cases c i r j with ⟨rfl, hj⟩ | ⟨-, hj⟩
    · rw [hj, hw]
      simp [hr'.2]
    · rw [hj]
  · cases he
    have hk : c.client k = .destroyCast d ok := Option.some.inj ht
    have hst := callStep_cases hr
    rw [hk] at hst
    obtain ⟨m', w'⟩ := r
    cases hst
    exact ⟨rfl, fun j => Iff.rfl⟩

/-- **A broadcast that reaches every worker**: if nobody stands between the test and the wait, nobody sleeps
from then on. -/
theorem awake_of_broadcast {c c' : State n κ σ ℓ A} {t : Tid n κ} {x : Input n I} {d : Before} {ok : ℓ}
    (h : Reach (chatPool C).lts anyStep c) (ht : callAt c t = some (.destroyCast d ok))
    (hs : (chatPool C).lts.next c (t, x) = some c') (hwin : ∀ i, c.worker i ≠ .wait) : Awake c' := by
  obtain ⟨hm, hw⟩ := broadcast_step ht hs
  refine ⟨?_, by rw [hm]; rfl, fun i hi => hwin i ((hw i).mp hi)⟩
  rw [hm]
  exact shutdown_of_behind h t _ ht trivial

theorem runs_awake {c c' : State n κ σ ℓ A} (h : Awake c) (hr : Runs (chatPool C).lts anyStep c c') : Awake c' :=
  Runs.keeps (P := Awake) (fun _ _ _ hi _ hn => next_awake hi hn) hr h

/-- A worker between the test and the wait goes to sleep. -/
theorem asleep_of_window [DecidableEq ℓ] {c : State n κ σ ℓ A} {i : Fin n} (x : Input n I)
    (hi : c.worker i = .wait) : ∃ c', Runs (chatPool C).lts anyStep c c' ∧ asleep c' i = true := by
  have hstep : (chatPool C).workerStep i x c.mem (c.worker i) =
      some ({ c.mem with pool := { c.mem.pool with
        queueLock := none, queueReady := insert i c.mem.pool.queueReady } }, .blocked) := by
    simp only [chatPool, workerStep, hi]
  refine ⟨_, .single ⟨_, trivial, Program.next_worker hstep⟩, ?_⟩
  simp [asleep, Config.moveWorker]

end PoolStudy.ChatPool.Wake
