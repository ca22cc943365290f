import PoolStudy.Workqueue.Model

/-! # The work queue: what a step can do

`CallStep` and `WorkerStep` list the outcomes of a step of a library call and of a worker, with the guards
under which they happen; `callStep_cases` and `workerStep_cases` read them off the definitions once. -/

namespace PoolStudy.Workqueue.Steps

open PoolStudy.Lib.Transition PoolStudy.Lib.Threads PoolStudy.Workqueue.Model

variable {n : ℕ} {J : Type} [DecidableEq J]

/-- The memory with the mutex taken by `self`. -/
def locked (m : Mem n J) (self : Tid n) : Mem n J :=
  { m with queue := { m.queue with jobsMutex := some self } }

/-- The memory in which `job` waits and the threads `ws` sleep. -/
def withJob (m : Mem n J) (job : J) (ws : Finset (Fin n)) : Mem n J :=
  { m with
    queue := { m.queue with waitingJobs := m.queue.waitingJobs.llAdd job, jobsCond := ws }
    added := m.added ++ [job] }

/-- The memory after the removal of `job`. -/
def withoutJob (m : Mem n J) (job : J) : Mem n J :=
  { m with
    queue := { m.queue with waitingJobs := m.queue.waitingJobs.llRemove job }
    taken := m.taken ++ [job] }

/-- The memory with other threads asleep on `jobs_cond`. -/
def withCond (m : Mem n J) (ws : Finset (Fin n)) : Mem n J :=
  { m with queue := { m.queue with jobsCond := ws } }

/-- **The outcomes of a step of a call** by `self`, from the memory `m`. -/
inductive CallStep (self : Tid n) (x : Input n J) (m : Mem n J) : Call n J → Mem n J → Call n J → Prop
  | callAdd {job : J} (h : x.call = some (.addJob job)) : CallStep self x m .outside m (.addLock job)
  | callShutdown (h : x.call = some .shutdown) : CallStep self x m .outside m .head
  | addLock (job : J) (h : m.queue.jobsMutex = none) :
      CallStep self x m (.addLock job) (locked m self) (.addIn job)
  | addIn (job : J) {ws : Finset (Fin n)} (h : signal x.wake m.queue.jobsCond = some ws) :
      CallStep self x m (.addIn job) (withJob m job ws) .addUnlock
  | addUnlock : CallStep self x m .addUnlock m.unlock .outside
  | head : CallStep self x m .head m (atWorker m.queue.workers.list)
  | mark (w : Fin n) (h : w ∉ m.freed) :
      CallStep self x m (.mark w) { m with terminate := Function.update m.terminate w true } (.next w)
  | next (w : Fin n) (h : w ∉ m.freed) :
      CallStep self x m (.next w) m (atWorker (m.queue.workers.links w).next)
  | shutLock (h : m.queue.jobsMutex = none) : CallStep self x m .shutLock (locked m self) .shutIn
  | shutIn : CallStep self x m .shutIn (shutdownSection m) .shutUnlock
  | shutUnlock : CallStep self x m .shutUnlock m.unlock .outside

omit [DecidableEq J] in
theorem lock_some {m m' : Mem n J} {self : Tid n} (h : m.lock self = some m') :
    m.queue.jobsMutex = none ∧ m' = locked m self := by
  unfold Mem.lock at h
  split_ifs at h with hl
  cases h
  exact ⟨hl, rfl⟩

theorem callStep_cases {self : Tid n} {x : Input n J} {m : Mem n J} {c : Call n J}
    {r : Mem n J × Call n J} (h : callStep self x m c = some r) : CallStep self x m c r.1 r.2 := by
  cases c with
  | outside =>
    simp only [callStep] at h
    split at h
    · cases h
    · next job hx => cases h; exact .callAdd hx
    · next hx => cases h; exact .callShutdown hx
  | addLock job =>
    obtain ⟨m', hm, rfl⟩ := Option.map_eq_some_iff.mp h
    obtain ⟨hl, rfl⟩ := lock_some hm
    exact .addLock job hl
  | addIn job =>
    obtain ⟨m', hm, rfl⟩ := Option.map_eq_some_iff.mp h
    obtain ⟨ws, hw, rfl⟩ := Option.map_eq_some_iff.mp hm
    exact .addIn job hw
  | addUnlock => cases h; exact .addUnlock
  | head => cases h; exact .head
  | mark w =>
    simp only [callStep] at h
    split_ifs at h with hw
    cases h; exact .mark w hw
  | next w =>
    simp only [callStep] at h
    split_ifs at h with hw
    cases h; exact .next w hw
  | shutLock =>
    obtain ⟨m', hm, rfl⟩ := Option.map_eq_some_iff.mp h
    obtain ⟨hl, rfl⟩ := lock_some hm
    exact .shutLock hl
  | shutIn => cases h; exact .shutIn
  | shutUnlock => cases h; exact .shutUnlock

/-- **The outcomes of a step of the worker `i`.** -/
inductive WorkerStep (i : Fin n) (x : Input n J) (m : Mem n J) :
    Worker n J → Mem n J → Worker n J → Prop
  | lock (h : m.queue.jobsMutex = none) : WorkerStep i x m .lock (locked m (.inl i)) .whileTest
  | empty (h : m.queue.waitingJobs.list = none) : WorkerStep i x m .whileTest m .whileTerminate
  | nonempty (h : m.queue.waitingJobs.list ≠ none) : WorkerStep i x m .whileTest m .terminate
  | break1 (h : m.terminate i = true) : WorkerStep i x m .whileTerminate m .terminate
  | goOn (h : m.terminate i = false) : WorkerStep i x m .whileTerminate m .wait
  | wait : WorkerStep i x m .wait (withCond m (insert i m.queue.jobsCond)).unlock .blocked
  | spurious (h : i ∈ m.queue.jobsCond) :
      WorkerStep i x m .blocked (withCond m (m.queue.jobsCond.erase i)) .blocked
  | wake (h : i ∉ m.queue.jobsCond) (hl : m.queue.jobsMutex = none) :
      WorkerStep i x m .blocked (locked m (.inl i)) .whileTest
  | break2 (h : m.terminate i = true) : WorkerStep i x m .terminate m .free
  | stay (h : m.terminate i = false) : WorkerStep i x m .terminate m .take
  | take {job : J} (h : m.queue.waitingJobs.list = some job) :
      WorkerStep i x m .take (withoutJob m job) (.unlock (some job))
  | takeNone (h : m.queue.waitingJobs.list = none) : WorkerStep i x m .take m (.unlock none)
  | unlockRun (job : J) : WorkerStep i x m (.unlock (some job)) m.unlock (.run job .outside)
  | unlockNone : WorkerStep i x m (.unlock none) m.unlock .lock
  | finish (job : J) (h : x.call = none) : WorkerStep i x m (.run job .outside) m .lock
  | call (job : J) {c c' : Call n J} {m' : Mem n J} (h : CallStep (.inl i) x m c m' c') :
      WorkerStep i x m (.run job c) m' (.run job c')
  | free : WorkerStep i x m .free { m with freed := insert i m.freed } .exit
  | exit : WorkerStep i x m .exit m .exited

theorem workerStep_cases {i : Fin n} {x : Input n J} {m : Mem n J} {w : Worker n J}
    {r : Mem n J × Worker n J} (h : workerStep i x m w = some r) : WorkerStep i x m w r.1 r.2 := by
  cases w with
  | lock =>
    obtain ⟨m', hm, rfl⟩ := Option.map_eq_some_iff.mp h
    obtain ⟨hl, rfl⟩ := lock_some hm
    exact .lock hl
  | whileTest =>
    simp only [workerStep, Option.some.injEq] at h
    subst h
    split_ifs with hj
    · exact .empty hj
    · exact .nonempty hj
  | whileTerminate =>
    simp only [workerStep, Option.some.injEq] at h
    subst h
    split_ifs with ht
    · exact .break1 ht
    · exact .goOn (by simpa using ht)
  | wait => cases h; exact .wait
  | blocked =>
    simp only [workerStep] at h
    split_ifs at h with hi
    · cases h; exact .spurious hi
    · obtain ⟨m', hm, rfl⟩ := Option.map_eq_some_iff.mp h
      obtain ⟨hl, rfl⟩ := lock_some hm
      exact .wake hi hl
  | terminate =>
    simp only [workerStep, Option.some.injEq] at h
    subst h
    split_ifs with ht
    · exact .break2 ht
    · exact .stay (by simpa using ht)
  | take =>
    simp only [workerStep, Mem.takeJob, Option.some.injEq] at h
    subst h
    split
    · next job hj => exact .take hj
    · next hj => exact .takeNone hj
  | unlock job =>
    cases h
    cases job with
    | none => exact .unlockNone
    | some job => exact .unlockRun job
  | run job c =>
    simp only [workerStep] at h
    split_ifs at h with hc
    · obtain ⟨rfl, hx⟩ := hc
      cases h; exact .finish job hx
    · obtain ⟨⟨m', c'⟩, hr, rfl⟩ := Option.map_eq_some_iff.mp h
      exact .call job (callStep_cases hr)
  | free => cases h; exact .free
  | exit => cases h; exact .exit
  | exited => cases h

end PoolStudy.Workqueue.Steps
