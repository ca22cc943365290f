import PoolStudy.Lib.Schedules
import PoolStudy.Workqueue.Jobs

/-! # The work queue runs dry

As long as `workqueue_shutdown` is not called, every job that waits is executed, however the threads are
scheduled: once no further jobs are added, the work queue comes to a state in which all workers sleep, all
jobs added have been handed out and no job runs (`workqueue_runs_dry`).

`pthread_cond_signal` may wake more workers than there are jobs, and a busy worker may take a job before the
worker that was woken for it. `measure` counts the steps that are left: every job that waits stands for the
steps of the worker that will take it, and every worker that does not sleep for the steps to its next wait.
A worker that has found the list not empty keeps the mutex until it takes a job, so it gets one (`full_reach`). -/

namespace PoolStudy.Workqueue.Rest

open PoolStudy.Lib.Transition PoolStudy.Lib.Threads PoolStudy.Lib.Schedules PoolStudy.Lib.Chain
open PoolStudy.Workqueue.Model PoolStudy.Workqueue.Steps PoolStudy.Workqueue.Jobs

variable {n : ℕ} {J : Type} [DecidableEq J]

/-! ### Fresh jobs -/

/-- The job a call is adding. -/
def jobOf : Call n J → Option J
  | .addLock job | .addIn job => some job
  | _ => none

/-- The job every thread is adding. -/
def jobAt (c : State n J) : Tid n → Option J := c.view (fun w => jobOf (workerCall w)) jobOf

/-- `workqueue_shutdown` is not called, and every call of `workqueue_add_job` is made with a job that was not
added before and that no other thread is adding. -/
def freshCalls (c : State n J) (a : Tid n × Input n J) : Prop :=
  a.2.call ≠ some .shutdown ∧
    ∀ job, a.2.call = some (.addJob job) → job ∉ c.mem.added ∧ ∀ t, jobAt c t ≠ some job

/-- **The jobs being added** are new, and each of them is added by one thread. -/
def Adding (added : List J) (f : Tid n → Option J) : Prop :=
  ∀ t job, f t = some job → job ∉ added ∧ ∀ t', f t' = some job → t' = t

/-- What a step does to the job of its thread: nothing, or it takes one up, or it adds it, or drops it. -/
inductive JobStep (x : Input n J) : List J → Option J → List J → Option J → Prop
  | same (as : List J) (o : Option J) : JobStep x as o as o
  | call (as : List J) {job : J} (h : x.call = some (.addJob job)) : JobStep x as none as (some job)
  | add (as : List J) (job : J) : JobStep x as (some job) (as ++ [job]) none

theorem callStep_job {self : Tid n} {x : Input n J} {m m' : Mem n J} {c c' : Call n J}
    (hs : CallStep self x m c m' c') : JobStep x m.added (jobOf c) m'.added (jobOf c') := by
  cases hs with
  | callAdd h => exact .call _ h
  | addIn job hw => exact .add _ job
  | head => cases m.queue.workers.list <;> exact .same _ _
  | next w hw => cases (m.queue.workers.links w).next <;> exact .same _ _
  | _ => exact .same _ _

theorem workerStep_job {i : Fin n} {x : Input n J} {m m' : Mem n J} {w w' : Worker n J}
    (hs : WorkerStep i x m w m' w') :
    JobStep x m.added (jobOf (workerCall w)) m'.added (jobOf (workerCall w')) := by
  cases hs with
  | call job hs => exact callStep_job hs
  | _ => exact .same _ _

omit [DecidableEq J] in
theorem Adding.step {added added' : List J} {f : Tid n → Option J} {t : Tid n} {o : Option J} {x : Input n J}
    (h : Adding added f) (hs : JobStep x added (f t) added' o)
    (hx : ∀ job, x.call = some (.addJob job) → job ∉ added ∧ ∀ t', f t' ≠ some job) :
    Adding added' (Function.update f t o) := by
  generalize ho : f t = o' at hs
  cases hs with
  | same =>
    rw [← ho, Function.update_eq_self]
    exact h
  | @call job hcall =>
    obtain ⟨hnew, hother⟩ := hx job hcall
    intro s j hj
    by_cases hst : s = t
    · subst hst
      rw [Function.update_self, Option.some.injEq] at hj
      subst hj
      refine ⟨hnew, fun s' hs' => ?_⟩
      by_contra hne
      rw [Function.update_of_ne hne] at hs'
      exact hother s' hs'
    · rw [Function.update_of_ne hst] at hj
      refine ⟨(h s j hj).1, fun s' hs' => ?_⟩
      by_cases hs't : s' = t
      · subst hs't
        rw [Function.update_self, Option.some.injEq] at hs'
        subst hs'
        exact absurd hj (hother s)
      · rw [Function.update_of_ne hs't] at hs'
        exact (h s j hj).2 s' hs'
  | add job =>
    have hold : ∀ s j, Function.update f t none s = some j → s ≠ t ∧ f s = some j := by
      intro s j hj
      by_cases hst : s = t
      · subst hst
        rw [Function.update_self] at hj
        cases hj
      · rw [Function.update_of_ne hst] at hj
        exact ⟨hst, hj⟩
    intro s j hj
    obtain ⟨hst, hj⟩ := hold s j hj
    refine ⟨fun hin => ?_, fun s' hs' => (h s j hj).2 s' (hold s' j hs').2⟩
    rcases List.mem_append.mp hin with hin | hin
    · exact (h s j hj).1 hin
    · rw [List.mem_singleton] at hin
      subst hin
      exact hst ((h t j ho).2 s hj)

/-- Runs with fresh calls add every job once. -/
theorem freshJobs_reach {c : State n J} (h : Reach (workqueue n J).lts freshCalls c) :
    Reach (workqueue n J).lts freshJobs c ∧ Adding c.mem.added (jobAt c) := by
  have hfresh : ∀ {c : State n J} {a : Tid n × Input n J},
      Adding c.mem.added (jobAt c) → freshCalls c a → freshJobs c a := by
    intro c a hadd hok
    refine ⟨hok.1, fun job hj => (hadd a.1 job ?_).1⟩
    obtain ⟨i | k, x⟩ := a
    · show jobOf (callAt c (.inl i)) = some job
      rw [hj]
      rfl
    · show jobOf (callAt c (.inr k)) = some job
      rw [hj]
      rfl
  refine Program.invariant (I := fun c => Reach (workqueue n J).lts freshJobs c ∧
    Adding c.mem.added (jobAt c)) ?_ ?_ ?_ h
  · rintro _ ⟨links, rfl⟩
    refine ⟨.init ⟨links, rfl⟩, fun t job hj => ?_⟩
    rcases t with i | k <;> cases hj
  · rintro c i x r - ⟨hr, hadd⟩ hok hs
    refine ⟨hr.next (hfresh hadd hok) (Program.next_worker hs), ?_⟩
    rw [jobAt, view_moveWorker]
    exact hadd.step (t := .inl i) (workerStep_job (workerStep_cases hs)) hok.2
  · rintro c k x r - ⟨hr, hadd⟩ hok hs
    refine ⟨hr.next (hfresh hadd hok) (Program.next_client hs), ?_⟩
    rw [jobAt, view_moveClient]
    exact hadd.step (t := .inr k) (callStep_job (callStep_cases hs)) hok.2

/-! ### Workers that stay -/

/-- The worker has left its loop or is about to. -/
def leaves : Worker n J → Prop
  | .free | .exit | .exited => True
  | _ => False

/-- The worker has found the list not empty. -/
def full : Worker n J → Prop
  | .terminate | .take => True
  | _ => False

/-- **What holds of the workers before a shutdown**: none is told to leave, and one that has found the list not
empty finds a job. -/
structure Staying (c : State n J) : Prop where
  terminate : ∀ i, c.mem.terminate i = false
  stays : ∀ i, ¬ leaves (c.worker i)
  full : ∀ i, full (c.worker i) → c.mem.queue.waitingJobs.list ≠ none

theorem callStep_staying {self : Tid n} {x : Input n J} {m m' : Mem n J} {c c' : Call n J}
    (hs : CallStep self x m c m' c') (hc : ¬ shutting c) :
    m'.terminate = m.terminate ∧
      (m.queue.waitingJobs.list ≠ none → m'.queue.waitingJobs.list ≠ none) := by
  cases hs with
  | addIn job hw =>
    refine ⟨rfl, fun _ => ?_⟩
    simp [withJob, llAdd_eq]
  | mark | shutIn => exact absurd trivial hc
  | _ => exact ⟨rfl, id⟩

theorem workerStep_staying {i : Fin n} {x : Input n J} {m m' : Mem n J} {w w' : Worker n J}
    (hs : WorkerStep i x m w m' w') (hc : ¬ shutting (workerCall w)) (ht : m.terminate i = false)
    (hl : ¬ leaves w) (hf : full w → m.queue.waitingJobs.list ≠ none) :
    m'.terminate = m.terminate ∧ ¬ leaves w' ∧ (full w' → m'.queue.waitingJobs.list ≠ none) ∧
      (w ≠ .take → m.queue.waitingJobs.list ≠ none → m'.queue.waitingJobs.list ≠ none) := by
  cases hs with
  | break1 h | break2 h => rw [ht] at h; cases h
  | nonempty h => exact ⟨rfl, id, fun _ => h, fun _ => id⟩
  | stay h => exact ⟨rfl, id, fun _ => hf trivial, fun _ => id⟩
  | take h => exact ⟨rfl, id, fun he => absurd he id, fun hne => absurd rfl hne⟩
  | takeNone h => exact absurd h (hf trivial)
  | call job hs =>
    obtain ⟨h1, h2⟩ := callStep_staying hs hc
    exact ⟨h1, id, fun he => absurd he id, fun _ => h2⟩
  | free | exit => exact absurd trivial hl
  | _ => exact ⟨rfl, id, fun he => absurd he id, fun _ => id⟩

omit [DecidableEq J] in
/-- A worker at the removal of a job is alone behind the mutex. -/
theorem alone_of_take {c : State n J} (h : Inv c) {i j : Fin n} (hi : c.worker i = .take)
    (hj : full (c.worker j)) : j = i := by
  have hin : ∀ k, workerSection (c.worker k) ≠ .out → c.mem.queue.jobsMutex = some (.inl k) := fun k hk =>
    (h.guarded.owned (.inl k)).mp hk
  have h1 := hin i (by simp [hi, workerSection])
  have h2 := hin j (by cases hw : c.worker j <;> simp_all [full, workerSection])
  exact Sum.inl.inj (Option.some.inj (h2.symm.trans h1))

theorem staying_reach [NeZero n] {c : State n J} (h : Reach (workqueue n J).lts freshJobs c) : Staying c := by
  refine Program.invariant ?_ ?_ ?_ h
  · rintro _ ⟨links, rfl⟩
    exact ⟨fun i => rfl, fun i => id, fun i hf => absurd hf id⟩
  · intro c i x r hr hi hok hs
    have hinv := inv_reach hr
    obtain ⟨h1, h2, h3, h4⟩ := workerStep_staying (workerStep_cases hs) (hinv.noShutdown (.inl i))
      (hi.terminate i) (hi.stays i) (hi.full i)
    refine ⟨fun j => by rw [show (c.moveWorker i r).mem.terminate = c.mem.terminate from h1]; exact hi.terminate j,
      ?_, ?_⟩
    · exact forall_moveWorker (P := fun _ (w : Worker n J) => ¬ leaves w) h2 fun j _ => hi.stays j
    · refine forall_moveWorker (P := fun _ (w : Worker n J) => full w → r.1.queue.waitingJobs.list ≠ none) h3
        fun j hj hf => h4 (fun hw => ?_) (hi.full j hf)
      exact hj (alone_of_take hinv hw hf)
  · intro c k x r hr hi hok hs
    obtain ⟨h1, h2⟩ := callStep_staying (callStep_cases hs) ((inv_reach hr).noShutdown (.inr k))
    exact ⟨fun j => by rw [show (c.moveClient k r).mem.terminate = c.mem.terminate from h1]; exact hi.terminate j,
      hi.stays, fun j hf => h2 (hi.full j hf)⟩

/-! ### The measure -/

/-- The steps a call has left, and what it may cause: a job takes six steps of a worker, and a sleeper that is
woken four. -/
def callWeight (n : ℕ) : Call n J → ℕ
  | .addUnlock => 1
  | .addIn _ => 4 * n + 8
  | .addLock _ => 4 * n + 9
  | _ => 0

/-- The steps a worker has left to its next wait. -/
def workerWeight : Worker n J → ℕ
  | .lock | .blocked => 3
  | .whileTest => 2
  | .whileTerminate | .terminate => 1
  | .wait | .take => 0
  | .unlock _ => 5
  | .run _ c => 4 + callWeight n c
  | .free | .exit | .exited => 0

/-- What the memory stands for: the jobs that wait, and the workers that do not sleep. -/
def memWeight (m : Mem n J) : ℕ := 6 * (m.added.length - m.taken.length) + 4 * m.queue.jobsCondᶜ.card

/-- **The measure**, for the clients in `K`. -/
def measure (K : Finset ℕ) (c : State n J) : ℕ := memWeight c.mem + weigh workerWeight (callWeight n) K c

omit [DecidableEq J] in
theorem memWeight_lt {m m' : Mem n J} {a b : ℕ} (ha : m'.added = m.added) (ht : m'.taken = m.taken)
    (hc : m'.queue.jobsCond = m.queue.jobsCond) (h : a < b) : memWeight m' + a < memWeight m + b := by
  rw [memWeight, memWeight, ha, ht, hc]
  omega

omit [DecidableEq J] in
/-- The jobs handed out are among the jobs added, and if a job waits, not all of them. -/
theorem taken_le {m : Mem n J} (h : JobsInv m) : m.taken.length ≤ m.added.length ∧
    (m.queue.waitingJobs.list ≠ none → m.taken.length < m.added.length) := by
  obtain ⟨q, hq, hperm⟩ := h.jobs
  have hlen := hperm.length_eq
  rw [List.length_append] at hlen
  refine ⟨by omega, fun hl => ?_⟩
  cases q with
  | nil => exact absurd hq.linked hl
  | cons j q =>
    rw [List.length_cons] at hlen
    omega

/-- **A step of `workqueue_add_job`** makes the weights smaller. -/
theorem callStep_weight {self : Tid n} {x : Input n J} {m m' : Mem n J} {c c' : Call n J}
    (hs : CallStep self x m c m' c') (hc : ¬ shutting c) (hout : c ≠ .outside) :
    memWeight m' + callWeight n c' < memWeight m + callWeight n c := by
  cases hs with
  | callAdd | callShutdown => exact absurd rfl hout
  | addLock job hl => exact memWeight_lt rfl rfl rfl (by simp [callWeight])
  | @addIn job ws hw =>
    have hws := card_compl_le ws
    simp only [memWeight, callWeight, withJob, List.length_append, List.length_singleton]
    omega
  | addUnlock => exact memWeight_lt rfl rfl rfl (by simp [callWeight])
  | _ => exact absurd trivial hc

/-- **A step of a worker** makes the weights smaller, unless it begins a call or wakes up for no reason. -/
theorem workerStep_weight {i : Fin n} {x : Input n J} {m m' : Mem n J} {w w' : Worker n J}
    (hs : WorkerStep i x m w m' w') (h : JobsInv m) (hc : ¬ shutting (workerCall w))
    (ht : m.terminate i = false) (hl : ¬ leaves w) (hf : full w → m.queue.waitingJobs.list ≠ none)
    (hcall : ∀ job, w = .run job .outside → w' = .lock) (hi : i ∉ m.queue.jobsCond) :
    memWeight m' + workerWeight w' < memWeight m + workerWeight w := by
  cases hs with
  | wait =>
    have hcard := card_compl_insert hi
    simp only [memWeight, workerWeight, withCond, Mem.unlock]
    omega
  | spurious hin => exact absurd hin hi
  | break1 h | break2 h => rw [ht] at h; cases h
  | take hjob =>
    have hlt := (taken_le h).2 (by simp [hjob])
    simp only [memWeight, workerWeight, withoutJob, List.length_append, List.length_singleton]
    omega
  | takeNone h => exact absurd h (hf trivial)
  | @call job c c' m' hs =>
    have hout : c ≠ .outside := by
      rintro rfl
      exact absurd (hcall job rfl) (by simp)
    have := callStep_weight hs hc hout
    simp only [workerWeight]
    omega
  | free | exit => exact absurd trivial hl
  | finish job hx => exact memWeight_lt rfl rfl rfl (by simp [workerWeight, callWeight])
  | _ => exact memWeight_lt rfl rfl rfl (by simp [workerWeight, callWeight])

/-! ### Steps that are left -/

/-- **The steps that begin nothing**: no call is made, and no sleeper wakes up for no reason. -/
def settles (c : State n J) (a : Tid n × Input n J) : Prop :=
  a.2.call = none ∧ ∀ i, a.1 = .inl i → asleep c i = false

/-- A call of `workqueue_add_job` goes on, unless it waits for the mutex. -/
theorem call_goes (self : Tid n) {m : Mem n J} {c : Call n J} (hc : c ≠ .outside) (hs : ¬ shutting c)
    (hl : callSection c ≠ .out ∨ m.queue.jobsMutex = none) :
    ∃ x : Input n J, x.call = none ∧ (callStep self x m c).isSome = true := by
  cases c with
  | outside => exact absurd rfl hc
  | addLock job =>
    have hfree : m.queue.jobsMutex = none := hl.resolve_left (by simp [callSection])
    exact ⟨{}, rfl, by simp [callStep, Mem.lock, hfree]⟩
  | addIn job =>
    -- the signal may wake all that sleep
    refine ⟨{ wake := m.queue.jobsCond }, rfl, ?_⟩
    simp [callStep, addSection, signal]
  | addUnlock => exact ⟨{}, rfl, rfl⟩
  | _ => exact absurd trivial hs

/-- A worker goes on, unless it sleeps or waits for the mutex. -/
theorem worker_goes {i : Fin n} {m : Mem n J} {w : Worker n J} (hw : ¬ leaves w)
    (hs : w = .blocked → i ∉ m.queue.jobsCond) (hc : ¬ shutting (workerCall w))
    (hl : workerSection w ≠ .out ∨ m.queue.jobsMutex = none) :
    ∃ x : Input n J, x.call = none ∧ (workerStep i x m w).isSome = true := by
  cases w with
  | lock =>
    have hfree : m.queue.jobsMutex = none := hl.resolve_left (by simp [workerSection])
    exact ⟨{}, rfl, by simp [workerStep, Mem.lock, hfree]⟩
  | blocked =>
    have hfree : m.queue.jobsMutex = none := hl.resolve_left (by simp [workerSection])
    exact ⟨{}, rfl, by simp [workerStep, hs rfl, Mem.lock, hfree]⟩
  | run job c =>
    by_cases hout : c = .outside
    · exact ⟨{}, rfl, by simp [workerStep, hout]⟩
    · obtain ⟨x, hx, hr⟩ := call_goes (.inl i) hout hc hl
      exact ⟨x, hx, by simpa [workerStep, hout] using hr⟩
  | free | exit | exited => exact absurd trivial hw
  | _ => exact ⟨{}, rfl, rfl⟩

theorem settles_worker {c : State n J} {i : Fin n} (ha : asleep c i = false)
    (h : ∃ x : Input n J, x.call = none ∧ (workerStep i x c.mem (c.worker i)).isSome = true) :
    ∃ c', Step (workqueue n J).lts settles c c' := by
  obtain ⟨x, hcall, hs⟩ := h
  obtain ⟨r, hr⟩ := Option.isSome_iff_exists.mp hs
  refine ⟨_, (.inl i, x), ⟨hcall, fun j hj => ?_⟩, Program.next_worker hr⟩
  rw [← Sum.inl.inj hj]
  exact ha

theorem settles_client {c : State n J} {k : ℕ}
    (h : ∃ x : Input n J, x.call = none ∧ (callStep (.inr k) x c.mem (c.client k)).isSome = true) :
    ∃ c', Step (workqueue n J).lts settles c c' := by
  obtain ⟨x, hcall, hs⟩ := h
  obtain ⟨r, hr⟩ := Option.isSome_iff_exists.mp hs
  exact ⟨_, (.inr k, x), ⟨hcall, fun j hj => by cases hj⟩, Program.next_client hr⟩

/-! ### Rest -/

/-- **The work queue has run dry**: every worker sleeps, no call is under way, no job waits, and the jobs handed
out are the jobs added. -/
structure Dry (c : State n J) : Prop where
  asleep : ∀ i, asleep c i = true
  outside : ∀ k, c.client k = .outside
  empty : c.mem.queue.waitingJobs.list = none
  taken : c.mem.taken.Perm c.mem.added

theorem asleep_false {c : State n J} {i : Fin n} (h : asleep c i = false) (hw : c.worker i = .blocked) :
    i ∉ c.mem.queue.jobsCond := by
  simpa [asleep, hw] using h

/-- **A work queue that has not run dry can go on.** -/
theorem can_settle [NeZero n] {c : State n J} (h : Reach (workqueue n J).lts freshJobs c) (hdry : ¬ Dry c) :
    ∃ c', Step (workqueue n J).lts settles c c' := by
  have hinv := inv_reach h
  have hstay := staying_reach h
  by_contra hstuck
  -- whoever owns the mutex could go on
  have hlock : c.mem.queue.jobsMutex = none := by
    by_contra hl
    obtain ⟨i | k, hl⟩ := Option.ne_none_iff_exists'.mp hl
    · have hin : workerSection (c.worker i) ≠ .out := (hinv.guarded.owned (.inl i)).mpr hl
      have ha : Jobs.asleep c i = false := by
        cases hw : c.worker i <;> simp_all [Jobs.asleep, workerSection]
      exact hstuck (settles_worker ha (worker_goes (hstay.stays i) (asleep_false ha)
        (hinv.noShutdown (.inl i)) (Or.inl hin)))
    · have hin : callSection (c.client k) ≠ .out := (hinv.guarded.owned (.inr k)).mpr hl
      refine hstuck (settles_client (call_goes (.inr k) (fun hw => ?_) (hinv.noShutdown (.inr k)) (Or.inl hin)))
      rw [hw] at hin
      exact hin rfl
  have hworkers : ∀ i, Jobs.asleep c i = true := by
    intro i
    by_contra ha
    have ha : Jobs.asleep c i = false := by simpa using ha
    exact hstuck (settles_worker ha (worker_goes (hstay.stays i) (asleep_false ha)
      (hinv.noShutdown (.inl i)) (Or.inr hlock)))
  have hclients : ∀ k, c.client k = .outside := by
    intro k
    by_contra hk
    exact hstuck (settles_client (call_goes (.inr k) hk (hinv.noShutdown (.inr k)) (Or.inr hlock)))
  have hempty : c.mem.queue.waitingJobs.list = none := by
    by_contra hl
    obtain ⟨i, hi⟩ := hinv.jobs.awake hl
    have ha := hworkers i
    simp only [Jobs.asleep, Bool.and_eq_true, decide_eq_true_eq] at ha
    exact hi ha.2
  obtain ⟨q, hq, hperm⟩ := hinv.jobs.jobs
  have hlinked := hq.linked
  rw [hempty] at hlinked
  rw [hlinked.eq_nil, List.append_nil] at hperm
  exact hdry ⟨hworkers, hclients, hempty, hperm⟩

/-- **Every step that begins nothing makes the measure smaller.** -/
theorem measure_lt [NeZero n] {K : Finset ℕ} {c c' : State n J} {a : Tid n × Input n J}
    (h : Reach (workqueue n J).lts freshJobs c) (hK : ∀ k ∉ K, c.client k = .outside) (ha : settles c a)
    (hs : (workqueue n J).lts.next c a = some c') :
    (∀ k ∉ K, c'.client k = .outside) ∧ measure K c' < measure K c := by
  have hinv := inv_reach h
  have hstay := staying_reach h
  obtain ⟨hcall, hwake⟩ := ha
  rcases Program.next_cases hs with ⟨i, x, r, rfl, hr, rfl⟩ | ⟨k, x, r, rfl, hr, rfl⟩
  · refine ⟨hK, ?_⟩
    have hnot : i ∉ c.mem.queue.jobsCond := by
      intro hin
      have := hwake i rfl
      simp [Jobs.asleep, hinv.asleep i hin, hin] at this
    have hrun : ∀ job, c.worker i = .run job .outside → r.2 = .lock := by
      intro job hw
      change workerStep i x c.mem (c.worker i) = some r at hr
      rw [hw] at hr
      simp only [workerStep, show x.call = none from hcall, and_self, if_true, Option.some.injEq] at hr
      rw [← hr]
    have hlt := workerStep_weight (workerStep_cases hr) hinv.jobs (hinv.noShutdown (.inl i)) (hstay.terminate i)
      (hstay.stays i) (hstay.full i) hrun hnot
    have hsum := weigh_moveWorker workerWeight (callWeight n) K c i r
    show memWeight r.1 + _ < memWeight c.mem + _
    omega
  · have hout : c.client k ≠ .outside := by
      intro hk
      change callStep (.inr k) x c.mem (c.client k) = some r at hr
      rw [hk] at hr
      simp [callStep, show x.call = none from hcall] at hr
    obtain ⟨hkK, hrest⟩ := moved_stay (Q := (· = .outside)) hK hout r
    refine ⟨hrest, ?_⟩
    have hlt := callStep_weight (callStep_cases hr) (hinv.noShutdown (.inr k)) hout
    have hsum := weigh_moveClient workerWeight (callWeight n) K c hkK r
    show memWeight r.1 + _ < memWeight c.mem + _
    omega

/-- A step that begins nothing is allowed in a run with fresh calls. -/
theorem freshCalls_of_settles (c : State n J) (a : Tid n × Input n J) (ha : settles c a) : freshCalls c a :=
  ⟨by rw [ha.1]; simp, fun job hj => by rw [ha.1] at hj; cases hj⟩

/-- **The work queue runs dry on every schedule.** However many workers `workqueue_init` was asked for, in every
state reached without a shutdown and with a fresh job in every call of `workqueue_add_job`: once no further jobs
are added and nobody wakes up for no reason, the work queue runs dry, in whatever order the threads take their
steps and whichever workers the signals wake. -/
theorem workqueue_runs_dry {numWorkers : ℤ} {c : State (workerCount numWorkers) J}
    (h : Reach (workqueue (workerCount numWorkers) J).lts freshCalls c) :
    Inevitable (workqueue (workerCount numWorkers) J).lts settles Dry c := by
  obtain ⟨K, hK⟩ := finite_moved (Q := (· = .outside)) (by rintro _ ⟨links, rfl⟩; exact ⟨∅, fun _ _ => rfl⟩) h
  refine inevitable_of_measure (I := fun c => Reach (workqueue (workerCount numWorkers) J).lts freshCalls c ∧
    ∀ k ∉ K, c.client k = .outside) (measure K) ?_ ?_ ⟨h, hK⟩
  · rintro c a c' ⟨hr, hK⟩ - ha hs
    obtain ⟨hK', hlt⟩ := measure_lt (freshJobs_reach hr).1 hK ha hs
    exact ⟨⟨hr.next (freshCalls_of_settles c a ha) hs, hK'⟩, hlt⟩
  · rintro c ⟨hr, -⟩ hdry
    exact can_settle (freshJobs_reach hr).1 hdry

/-- A client is about to add the job 7, with two workers. -/
def addingState : State (workerCount 2) ℕ :=
  ⟨workqueueInit (workerCount 2) fun _ => ⟨none, none⟩, fun _ => .lock,
    Function.update (fun _ => .outside) 0 (.addLock 7)⟩

theorem reach_addingState : Reach (workqueue (workerCount 2) ℕ).lts freshCalls addingState := by
  have h0 : Reach (workqueue (workerCount 2) ℕ).lts freshCalls
      ⟨workqueueInit (workerCount 2) fun _ => ⟨none, none⟩, fun _ => .lock, fun _ => .outside⟩ :=
    .init ⟨fun _ => ⟨none, none⟩, rfl⟩
  refine h0.next (a := (.inr 0, { call := some (.addJob 7) })) ?_ rfl
  refine ⟨by simp, fun job _ => ⟨by simp [workqueueInit], ?_⟩⟩
  rintro (i | k) hj <;> cases hj

/-- The job is added, while both workers are at the mutex. -/
def addRun : List (Tid (workerCount 2) × Input (workerCount 2) ℕ) := [(.inr 0, {}), (.inr 0, {}), (.inr 0, {})]

theorem workqueue_runs_dry_addRun : ∃ c : State (workerCount 2) ℕ,
    c.mem.added = [7] ∧ c.mem.taken = [] ∧ Inevitable (workqueue (workerCount 2) ℕ).lts settles Dry c := by
  have hrun : (run (workqueue (workerCount 2) ℕ).lts (fun _ a => decide (a.2.call = none)) addRun addingState).map
      (fun c => decide (c.mem.added = [7]) && decide (c.mem.taken = [])) = some true := by decide
  obtain ⟨c, hc, hp⟩ := Option.map_eq_some_iff.mp hrun
  simp only [Bool.and_eq_true, decide_eq_true_eq] at hp
  refine ⟨c, hp.1, hp.2, workqueue_runs_dry (reach_addingState.trans (runs_of_run ?_ addRun _ c hc))⟩
  intro s a ha
  have hnone : a.2.call = none := of_decide_eq_true ha
  exact ⟨by simp [hnone], fun job hj => by rw [hnone] at hj; cases hj⟩

end PoolStudy.Workqueue.Rest
