import PoolStudy.Workqueue.Jobs

/-! # The work queue: workers leave with the mutex

Both `break`s of `worker_function` are taken with `jobs_mutex` locked, and nothing after the loop unlocks it.
So the first worker that sees `terminate` ends up as the owner of the mutex for ever (`left_owns_forever`):
no other thread gets it again, and no other worker leaves its loop. The mutex is not lost as long as no worker
finds `terminate` set at the test that ends its loop (`mutex_lost_iff`). -/

namespace PoolStudy.Workqueue.Exit

open PoolStudy.Lib.Transition PoolStudy.Lib.Threads
open PoolStudy.Workqueue.Model PoolStudy.Workqueue.Steps PoolStudy.Workqueue.Jobs

variable {n : ℕ} {J : Type} [DecidableEq J]

/-! ### The owner of the mutex -/

theorem guarded_reach {ok : State n J → Tid n × Input n J → Prop} {c : State n J}
    (h : Reach (workqueue n J).lts ok c) :
    Guarded c.mem.queue.jobsMutex .out (c.view workerSection callSection) (Knows c.mem) := by
  refine Program.invariant (I := fun c : State n J =>
    Guarded c.mem.queue.jobsMutex .out (c.view workerSection callSection) (Knows c.mem)) ?_ ?_ ?_ h
  · rintro _ ⟨links, rfl⟩
    refine ⟨?_, fun he => by cases he⟩
    rintro (i | k) <;> simp [workerSection, callSection, workqueueInit]
  · intro c i x r _ hi _ hs
    rw [view_moveWorker]
    exact workerStep_guarded (workerStep_cases hs) hi rfl
  · intro c k x r _ hi _ hs
    rw [view_moveClient]
    exact callStep_guarded (callStep_cases hs) hi rfl

/-! ### Workers that have left their loop -/

/-- The worker has left the loop of `worker_function`. -/
def left : Worker n J → Bool
  | .free | .exit | .exited => true
  | _ => false

/-- The mutex is owned by a worker that has left its loop. -/
def mutexLost (c : State n J) : Prop := ∃ i, left (c.worker i) = true ∧ c.mem.queue.jobsMutex = some (.inl i)

/-- **No worker finds `terminate` set** at the test that ends its loop. -/
def staysIn (c : State n J) (a : Tid n × Input n J) : Prop :=
  ∀ i, a.1 = .inl i → c.worker i = .terminate → c.mem.terminate i = false

/-- A worker that has left owns the mutex. -/
theorem left_owns {ok : State n J → Tid n × Input n J → Prop} {c : State n J}
    (h : Reach (workqueue n J).lts ok c) {i : Fin n} (hi : left (c.worker i) = true) :
    c.mem.queue.jobsMutex = some (.inl i) := by
  refine ((guarded_reach h).owned (.inl i)).mp ?_
  rw [view_inl]
  generalize c.worker i = w at hi
  cases w with
  | free | exit | exited => simp [workerSection]
  | _ => cases hi

theorem mutexLost_iff {ok : State n J → Tid n × Input n J → Prop} {c : State n J}
    (h : Reach (workqueue n J).lts ok c) : mutexLost c ↔ ∃ i, left (c.worker i) = true := by
  refine ⟨fun ⟨i, hi, _⟩ => ⟨i, hi⟩, fun ⟨i, hi⟩ => ⟨i, hi, left_owns h hi⟩⟩

/-- A worker leaves its loop by the test of `terminate` alone. -/
theorem workerStep_left {i : Fin n} {x : Input n J} {m m' : Mem n J} {w w' : Worker n J}
    (hs : WorkerStep i x m w m' w') :
    left w' = true ↔ left w = true ∨ (w = .terminate ∧ m.terminate i = true) := by
  cases hs with
  | break2 h => simp [left, h]
  | stay h => simp [left, h]
  | _ => simp [left]

theorem left_moveWorker {c : State n J} {i j : Fin n} {x : Input n J} {r : Mem n J × Worker n J}
    (hs : workerStep i x c.mem (c.worker i) = some r) :
    left ((c.moveWorker i r).worker j) = true ↔
      left (c.worker j) = true ∨ (j = i ∧ c.worker i = .terminate ∧ c.mem.terminate i = true) := by
  rcases moveWorker_cases c i r j with ⟨rfl, hj⟩ | ⟨hne, hj⟩
  · rw [hj, workerStep_left (workerStep_cases hs)]
    simp
  · rw [hj]
    simp [hne]

/-- **One step**: a worker has left after it iff one had left before or the step breaks the condition. -/
theorem left_next {c c' : State n J} {a : Tid n × Input n J} (hs : (workqueue n J).lts.next c a = some c') :
    (∃ i, left (c'.worker i) = true) ↔ (∃ i, left (c.worker i) = true) ∨ ¬ staysIn c a := by
  rcases Program.next_cases hs with ⟨i, x, r, rfl, hr, rfl⟩ | ⟨k, x, r, rfl, hr, rfl⟩
  · simp only [left_moveWorker hr, exists_or]
    refine or_congr Iff.rfl ?_
    simp only [staysIn, Sum.inl.injEq, forall_eq', not_forall, Bool.not_eq_false]
    constructor
    · rintro ⟨j, rfl, hw, ht⟩
      exact ⟨hw, ht⟩
    · rintro ⟨hw, ht⟩
      exact ⟨i, rfl, hw, ht⟩
  · have hk : staysIn c (.inr k, x) := by
      intro i hi
      cases hi
    simp only [hk, not_true_eq_false, or_false]
    rfl

/-- A worker that has left stays away. -/
theorem left_runs {c c' : State n J} {i : Fin n} (h : Runs (workqueue n J).lts anyStep c c')
    (hi : left (c.worker i) = true) : left (c'.worker i) = true := by
  refine Runs.keeps (P := fun c : State n J => left (c.worker i) = true) ?_ h hi
  intro c a c' hi _ hs
  rcases Program.next_cases hs with ⟨j, x, r, rfl, hr, rfl⟩ | ⟨k, x, r, rfl, hr, rfl⟩
  · exact (left_moveWorker hr).mpr (Or.inl hi)
  · exact hi

/-- **The mutex is lost for ever**: from the time a worker has left, it owns the mutex, and no other worker
leaves. -/
theorem left_owns_forever {c c' : State n J} {i : Fin n} (h : Reach (workqueue n J).lts anyStep c)
    (hi : left (c.worker i) = true) (hr : Runs (workqueue n J).lts anyStep c c') :
    c'.mem.queue.jobsMutex = some (.inl i) ∧ ∀ j, left (c'.worker j) = true → j = i := by
  have howns := left_owns (h.trans hr) (left_runs hr hi)
  refine ⟨howns, fun j hj => ?_⟩
  have := (left_owns (h.trans hr) hj).symm.trans howns
  simpa using this

/-- A worker that waits for the mutex waits for ever once another one has left. -/
theorem waits_forever {c c' : State n J} {i j : Fin n} (h : Reach (workqueue n J).lts anyStep c)
    (hi : left (c.worker i) = true) (hj : c.worker j = .lock) (hr : Runs (workqueue n J).lts anyStep c c') :
    c'.worker j = .lock := by
  refine (Runs.keeps (P := fun c : State n J => (Reach (workqueue n J).lts anyStep c ∧
    left (c.worker i) = true) ∧ c.worker j = .lock) ?_ hr ⟨⟨h, hi⟩, hj⟩).2
  rintro c a c' ⟨⟨hc, hi⟩, hj⟩ _ hs
  have hstep : Runs (workqueue n J).lts anyStep c c' := .single ⟨a, trivial, hs⟩
  refine ⟨⟨hc.trans hstep, left_runs hstep hi⟩, ?_⟩
  rcases Program.next_cases hs with ⟨j', x, r, rfl, hr, rfl⟩ | ⟨k, x, r, rfl, hr, rfl⟩
  · rcases moveWorker_cases c j' r j with ⟨rfl, -⟩ | ⟨-, hw⟩
    · -- the mutex is not free
      have hlock := workerStep_cases hr
      rw [hj] at hlock
      generalize r.1 = m', r.2 = w' at hlock
      cases hlock with
      | lock hfree => rw [left_owns hc hi] at hfree; cases hfree
    · rw [hw, hj]
  · exact hj

/-! ### The way out -/

/-- The worker can go on to its `pthread_exit`. -/
def Exits (c : State n J) (i : Fin n) : Prop :=
  ∃ c', Runs (workqueue n J).lts anyStep c c' ∧ c'.worker i = .exited

theorem Exits.step {c : State n J} {i : Fin n} {r : Mem n J × Worker n J}
    (hs : workerStep i {} c.mem (c.worker i) = some r) (h : Exits (c.moveWorker i r) i) : Exits c i := by
  obtain ⟨c', hr, hc'⟩ := h
  exact ⟨c', hr.head ⟨(.inl i, {}), trivial, Program.next_worker hs⟩, hc'⟩

theorem exits_of_terminate {c : State n J} {i : Fin n} (ht : c.mem.terminate i = true)
    (hw : c.worker i = .terminate) : Exits c i := by
  have h1 : workerStep i {} c.mem (c.worker i) = some (c.mem, .free) := by simp [hw, workerStep, ht]
  refine .step h1 (.step (r := ({ c.mem with freed := insert i c.mem.freed }, .exit)) ?_ ?_)
  · rw [moveWorker_self]
    rfl
  · refine .step (r := ({ c.mem with freed := insert i c.mem.freed }, .exited)) ?_ ⟨_, .refl, moveWorker_self ..⟩
    rw [moveWorker_self]
    rfl

theorem exits_of_whileTest {c : State n J} {i : Fin n} (ht : c.mem.terminate i = true)
    (hw : c.worker i = .whileTest) : Exits c i := by
  by_cases hl : c.mem.queue.waitingJobs.list = none
  · refine .step (r := (c.mem, .whileTerminate)) (by simp [hw, workerStep, hl]) ?_
    refine .step (r := (c.mem, .terminate)) ?_ (exits_of_terminate ht (moveWorker_self ..))
    rw [moveWorker_self]
    simp [workerStep, Config.moveWorker, ht]
  · exact .step (r := (c.mem, .terminate)) (by simp [hw, workerStep, hl])
      (exits_of_terminate ht (moveWorker_self ..))

/-- **A worker told to terminate can exit** if it finds the mutex free, at the top of its loop or woken from
its wait. -/
theorem exits_of_free {c : State n J} {i : Fin n} (hfree : c.mem.queue.jobsMutex = none)
    (ht : c.mem.terminate i = true)
    (hw : c.worker i = .lock ∨ (c.worker i = .blocked ∧ i ∉ c.mem.queue.jobsCond)) : Exits c i := by
  refine .step (r := (locked c.mem (.inl i), .whileTest)) ?_ (exits_of_whileTest ht (moveWorker_self ..))
  rcases hw with hw | ⟨hw, hi⟩
  · simp [hw, workerStep, Mem.lock, hfree, locked]
  · simp [hw, workerStep, hi, Mem.lock, hfree, locked]

/-! ### The condition -/

theorem no_worker_left {c : State n J} (h : Reach (workqueue n J).lts staysIn c) :
    ¬ ∃ i, left (c.worker i) = true := by
  refine h.induct (I := fun c : State n J => ¬ ∃ i, left (c.worker i) = true) ?_ ?_
  · rintro _ ⟨links, rfl⟩ ⟨i, hi⟩
    cases hi
  · intro c a c' _ hi hok hs
    rw [left_next hs]
    exact fun hor => hor.elim hi fun hno => hno hok

/-- **The mutex is not lost as long as no worker finds `terminate` set at the test that ends its loop**, and
a step that finds it set loses the mutex. While the mutex is free, every waiting worker that has been told to
terminate can exit; after the first one has left, none of the others can. -/
theorem mutex_lost_iff (numWorkers : ℤ) :
    (∀ c : State (workerCount numWorkers) J, Reach (workqueue (workerCount numWorkers) J).lts staysIn c →
      ¬ mutexLost c) ∧
    (∀ (c c' : State (workerCount numWorkers) J) (a : Tid _ × Input _ J),
      Reach (workqueue (workerCount numWorkers) J).lts anyStep c → ¬ mutexLost c →
      (workqueue (workerCount numWorkers) J).lts.next c a = some c' → (¬ mutexLost c' ↔ staysIn c a)) ∧
    (∀ (c : State (workerCount numWorkers) J) (i : Fin (workerCount numWorkers)),
      c.mem.queue.jobsMutex = none → c.mem.terminate i = true →
      (c.worker i = .lock ∨ (c.worker i = .blocked ∧ i ∉ c.mem.queue.jobsCond)) →
      ∃ c', Runs (workqueue (workerCount numWorkers) J).lts anyStep c c' ∧ c'.worker i = .exited) ∧
    (∀ (c c' : State (workerCount numWorkers) J) (i : Fin (workerCount numWorkers)),
      Reach (workqueue (workerCount numWorkers) J).lts anyStep c → left (c.worker i) = true →
      Runs (workqueue (workerCount numWorkers) J).lts anyStep c c' →
      c'.mem.queue.jobsMutex = some (.inl i) ∧ ∀ j, left (c'.worker j) = true → j = i) := by
  refine ⟨fun c h => ?_, fun c c' a h hlost hs => ?_, fun c i hfree ht hw => exits_of_free hfree ht hw,
    fun c c' i h hi hr => left_owns_forever h hi hr⟩
  · rw [mutexLost_iff h]
    exact no_worker_left h
  · rw [mutexLost_iff h] at hlost
    rw [mutexLost_iff (h.next trivial hs), left_next hs]
    simp [hlost]

/-- A client shuts the queue down, with two workers at the top of their loops. -/
def shutdownCall : List (Tid (workerCount 2) × Input (workerCount 2) ℕ) :=
  (.inr 0, { call := some .shutdown }) :: List.replicate 8 (.inr 0, {})

/-- The test for an allowed step. -/
def staysTest (c : State n J) (a : Tid n × Input n J) : Bool :=
  match a.1 with
  | .inl i => decide (c.worker i = .terminate → c.mem.terminate i = false)
  | .inr _ => true

theorem staysIn_of_test (c : State n J) (a : Tid n × Input n J) (h : staysTest c a = true) :
    staysIn c a := by
  intro i hi
  simpa only [staysTest, hi, decide_eq_true_eq] using h

/-- After the shutdown the mutex is free and worker 1 can exit; if it does, worker 0 does not leave. -/
theorem mutex_lost_iff_shutdownCall : ∃ c c' : State (workerCount 2) ℕ,
    Reach (workqueue (workerCount 2) ℕ).lts staysIn c ∧ ¬ mutexLost c ∧
      Runs (workqueue (workerCount 2) ℕ).lts anyStep c c' ∧ c'.worker 1 = .exited ∧
      ∀ j, left (c'.worker j) = true → j = 1 := by
  obtain ⟨c, hc, hp⟩ := reach_of_run (workqueue (workerCount 2) ℕ).lts staysIn_of_test shutdownCall
    (fun c => decide (c.mem.queue.jobsMutex = none) && c.mem.terminate 1 && decide (c.worker 1 = .lock))
    ⟨fun _ => ⟨none, none⟩, rfl⟩ (by decide)
  simp only [Bool.and_eq_true, decide_eq_true_eq] at hp
  obtain ⟨hlost, -, hexit, hforever⟩ := mutex_lost_iff (J := ℕ) 2
  obtain ⟨c', hr, hc'⟩ := hexit c 1 hp.1.1 hp.1.2 (Or.inl hp.2)
  have hany : Reach (workqueue (workerCount 2) ℕ).lts anyStep c' :=
    (hc.mono fun _ _ _ => trivial).trans hr
  exact ⟨c, c', hc, hlost c hc, hr, hc', (hforever c' c' 1 hany (by rw [hc']; rfl) .refl).2⟩

/-- A worker takes the mutex, finds no job and `terminate` set, and exits. -/
def leaves (i : Fin n) : List (Tid n × Input n J) := List.replicate 6 (.inl i, {})

/-- After the shutdown, worker 0 leaves. -/
def firstLeavesRun : List (Tid (workerCount 2) × Input (workerCount 2) ℕ) := shutdownCall ++ leaves ⟨0, by decide⟩

/-- **The second worker never exits.** `workqueue_shutdown` has returned and worker 0 has exited, owning the
mutex; worker 1 has been told to terminate and waits for the mutex for ever. -/
theorem second_never_exits_firstLeavesRun : ∃ c : State (workerCount 2) ℕ,
    Reach (workqueue (workerCount 2) ℕ).lts anyStep c ∧ c.client 0 = .outside ∧
      c.worker 0 = .exited ∧ mutexLost c ∧ c.mem.terminate 1 = true ∧
      ∀ c', Runs (workqueue (workerCount 2) ℕ).lts anyStep c c' → c'.worker 1 = .lock := by
  obtain ⟨c, hc, hp⟩ := reach_of_run (workqueue (workerCount 2) ℕ).lts anyStep_of_test firstLeavesRun
    (fun c => decide (c.client 0 = .outside) && decide (c.worker 0 = .exited) && c.mem.terminate 1 &&
      decide (c.worker 1 = .lock)) ⟨fun _ => ⟨none, none⟩, rfl⟩ (by decide)
  simp only [Bool.and_eq_true, decide_eq_true_eq] at hp
  have hleft : left (c.worker 0) = true := by rw [hp.1.1.2]; rfl
  exact ⟨c, hc, hp.1.1.1, hp.1.1.2, ⟨0, hleft, left_owns hc hleft⟩, hp.1.2,
    fun c' hr => waits_forever hc hleft hp.2 hr⟩

end PoolStudy.Workqueue.Exit
