import PoolStudy.Lib.Chain
import PoolStudy.Workqueue.Steps

/-! # The work queue hands out every job exactly once

`LL_ADD` does not set the back link of the item that was first before, and `LL_REMOVE` uses both links of
the item it removes. What makes this harmless for the jobs is that all of them have `prev = NULL`: jobs are
only added and removed at the head (`Waiting`, `Waiting.add`, `Waiting.remove`).

A worker goes to sleep only when it has found the list empty and kept the mutex since, and every job added
wakes a sleeper (`JobsInv`). So as long as `workqueue_shutdown` is not called, the jobs taken and the jobs
waiting are the jobs added, and jobs do not wait while all workers sleep (`workqueue_exactly_once`). -/

namespace PoolStudy.Workqueue.Jobs

open PoolStudy.Lib.Transition PoolStudy.Lib.Threads PoolStudy.Lib.Chain
open PoolStudy.Workqueue.Model PoolStudy.Workqueue.Steps

variable {n : ℕ} {J : Type} [DecidableEq J]

/-! ### The list of waiting jobs -/

/-- `item->next`, for all items. -/
def nextOf {α : Type} (l : LList α) (j : α) : Option α := (l.links j).next

/-- The items `q` wait, the last added first, none of them with a back link. -/
structure Waiting {α : Type} (l : LList α) (q : List α) : Prop where
  linked : Linked (nextOf l) l.list q
  prev : ∀ j ∈ q, (l.links j).prev = none

theorem llAdd_eq {α : Type} [DecidableEq α] (l : LList α) (j : α) :
    l.llAdd j = ⟨Function.update l.links j ⟨none, l.list⟩, some j⟩ := by
  simp [LList.llAdd, LList.setPrev, LList.setNext]

/-- Only the links of the waiting items matter. -/
theorem Waiting.update {α : Type} [DecidableEq α] {l : LList α} {q : List α} {j : α} (h : Waiting l q)
    (hj : j ∉ q) (v : Links α) : Waiting ⟨Function.update l.links j v, l.list⟩ q := by
  have hlinks : ∀ i ∈ q, Function.update l.links j v i = l.links i := by
    intro i hi
    rw [Function.update_of_ne]
    rintro rfl
    exact hj hi
  refine ⟨h.linked.congr fun i hi => ?_, fun i hi => ?_⟩
  · simp only [nextOf, hlinks i hi]
  · simp only [hlinks i hi, h.prev i hi]

/-- A new item becomes the first. -/
theorem Waiting.add {α : Type} [DecidableEq α] {l : LList α} {q : List α} {j : α} (h : Waiting l q)
    (hj : j ∉ q) : Waiting (l.llAdd j) (j :: q) := by
  have hq := h.update hj ⟨none, l.list⟩
  rw [llAdd_eq]
  refine ⟨⟨rfl, ?_⟩, List.forall_mem_cons.mpr ⟨by simp, hq.prev⟩⟩
  rw [show nextOf ⟨Function.update l.links j ⟨none, l.list⟩, some j⟩ j = l.list by simp [nextOf]]
  exact hq.linked

/-- `LL_REMOVE` of the first item, when neither it nor the next one has a back link. -/
theorem llRemove_first {α : Type} [DecidableEq α] {l : LList α} {j : α} (hl : l.list = some j)
    (hp : (l.links j).prev = none) (hq : ∀ i, (l.links j).next = some i → (l.links i).prev = none)
    (hj : (l.links j).next ≠ some j) :
    l.llRemove j = ⟨Function.update l.links j ⟨none, none⟩, (l.links j).next⟩ := by
  cases hn : (l.links j).next with
  | none => simp [LList.llRemove, LList.setPrev, LList.setNext, hl, hp, hn]
  | some i =>
    have hne : j ≠ i := by
      rintro rfl
      exact hj hn
    have hi : Function.update l.links i ⟨none, (l.links i).next⟩ = l.links := by
      rw [show (⟨none, (l.links i).next⟩ : Links α) = l.links i by rw [← hq i hn]]
      exact Function.update_eq_self i l.links
    simp [LList.llRemove, LList.setPrev, LList.setNext, hl, hp, hn, hi]

/-- The first item is removed. -/
theorem Waiting.remove {α : Type} [DecidableEq α] {l : LList α} {q : List α} {j : α} (h : Waiting l q)
    (hl : l.list = some j) (hn : q.Nodup) : ∃ q', q = j :: q' ∧ Waiting (l.llRemove j) q' := by
  obtain ⟨hc, hp⟩ := h
  cases q with
  | nil => cases hl.symm.trans hc
  | cons j' q' =>
    obtain ⟨hj', hc⟩ := hc
    obtain rfl : j = j' := Option.some.inj (hl.symm.trans hj')
    have hnot := (List.nodup_cons.mp hn).1
    have hnext : ∀ i, (l.links j).next = some i → i ∈ q' := by
      intro i hi
      rw [show nextOf l j = some i from hi] at hc
      obtain ⟨q'', rfl, -⟩ := hc.uncons
      exact List.mem_cons_self
    have hrest : Waiting ⟨l.links, (l.links j).next⟩ q' :=
      ⟨hc, fun i hi => hp i (List.mem_cons_of_mem j hi)⟩
    rw [llRemove_first hl (hp j List.mem_cons_self) (fun i hi => hrest.prev i (hnext i hi))
      fun hi => hnot (hnext j hi)]
    exact ⟨q', rfl, hrest.update hnot ⟨none, none⟩⟩

/-! ### Sections -/

/-- Where a thread is with respect to the mutex; `empty`: it has found the list empty. -/
inductive Section
  | out
  | inside
  | empty
  deriving DecidableEq

/-- The section of a call. -/
def callSection : Call n J → Section
  | .addIn _ | .addUnlock | .shutIn | .shutUnlock => .inside
  | .outside | .addLock _ | .head | .mark _ | .next _ | .shutLock => .out

/-- The section of a worker. A worker that leaves its loop does so inside. -/
def workerSection : Worker n J → Section
  | .lock | .blocked => .out
  | .whileTest | .terminate | .take | .unlock _ | .free | .exit | .exited => .inside
  | .whileTerminate | .wait => .empty
  | .run _ c => callSection c

/-- What the owner of the mutex knows. -/
def Knows (m : Mem n J) (s : Section) : Prop := s = .empty → m.queue.waitingJobs.list = none

/-- The call a thread is in. -/
def workerCall : Worker n J → Call n J
  | .run _ c => c
  | _ => .outside

/-- The call is one of `workqueue_shutdown`. -/
def shutting : Call n J → Prop
  | .head | .mark _ | .next _ | .shutLock | .shutIn | .shutUnlock => True
  | .outside | .addLock _ | .addIn _ | .addUnlock => False

instance (c : Call n J) : Decidable (shutting c) := by
  cases c <;> unfold shutting <;> infer_instance

/-- The call of every thread. -/
def callAt (c : State n J) : Tid n → Call n J := c.view workerCall id

/-- Every job is added once, and `workqueue_shutdown` is not called. -/
def freshJobs (c : State n J) (a : Tid n × Input n J) : Prop :=
  a.2.call ≠ some .shutdown ∧ ∀ job, callAt c a.1 = .addIn job → job ∉ c.mem.added

/-! ### The invariant -/

/-- **What holds of the memory**: the jobs taken and the jobs waiting are the jobs added, and if jobs wait,
a worker is awake. -/
structure JobsInv (m : Mem n J) : Prop where
  jobs : ∃ q, Waiting m.queue.waitingJobs q ∧ (m.taken ++ q).Perm m.added
  nodup : m.added.Nodup
  awake : m.queue.waitingJobs.list ≠ none → ∃ i, i ∉ m.queue.jobsCond

/-- The memory is the same but for the mutex, the `terminate` fields and the freed records, and perhaps
some sleepers have been woken. -/
structure SameJobs (m m' : Mem n J) : Prop where
  jobs : m'.queue.waitingJobs = m.queue.waitingJobs
  cond : m'.queue.jobsCond ⊆ m.queue.jobsCond
  added : m'.added = m.added
  taken : m'.taken = m.taken

omit [DecidableEq J] in
theorem JobsInv.same {m m' : Mem n J} (h : JobsInv m) (hs : SameJobs m m') : JobsInv m' := by
  obtain ⟨hj, hc, ha, ht⟩ := hs
  refine ⟨by rw [hj, ha, ht]; exact h.jobs, by rw [ha]; exact h.nodup, ?_⟩
  rw [hj]
  intro hl
  obtain ⟨i, hi⟩ := h.awake hl
  exact ⟨i, fun hin => hi (hc hin)⟩

theorem JobsInv.add [NeZero n] {m : Mem n J} {x : Input n J} {job : J} {ws : Finset (Fin n)} (h : JobsInv m)
    (hj : job ∉ m.added) (hw : signal x.wake m.queue.jobsCond = some ws) : JobsInv (withJob m job ws) := by
  obtain ⟨q, hq, hperm⟩ := h.jobs
  have hjq : job ∉ q := fun hin => hj (hperm.mem_iff.mp (List.mem_append_right _ hin))
  refine ⟨⟨job :: q, hq.add hjq, ?_⟩, ?_, fun _ => ?_⟩
  · calc m.taken ++ job :: q
      _ |>.Perm (job :: (m.taken ++ q)) := List.perm_middle
      _ |>.Perm (job :: m.added) := hperm.cons job
      _ |>.Perm (m.added ++ [job]) := (List.perm_append_singleton job m.added).symm
  · exact List.nodup_append.mpr ⟨h.nodup, List.nodup_singleton job, fun a ha b hb hab => by
      rw [List.mem_singleton] at hb
      subst hab hb
      exact hj ha⟩
  · obtain ⟨hsub, hlt⟩ := signal_some hw
    by_contra hall
    push Not at hall
    have huniv : ws = Finset.univ := Finset.eq_univ_iff_forall.mpr hall
    have hcond : m.queue.jobsCond = Finset.univ := Finset.univ_subset_iff.mp (huniv ▸ hsub)
    have := hlt (by rw [hcond]; exact Finset.univ_nonempty)
    rw [hcond, huniv] at this
    exact lt_irrefl _ this

theorem JobsInv.take {m : Mem n J} {job : J} {i : Fin n} (h : JobsInv m)
    (hl : m.queue.waitingJobs.list = some job) (hi : i ∉ m.queue.jobsCond) :
    JobsInv (withoutJob m job) := by
  obtain ⟨q, hq, hperm⟩ := h.jobs
  have hnd : (m.taken ++ q).Nodup := hperm.nodup_iff.mpr h.nodup
  obtain ⟨q', rfl, hq'⟩ := hq.remove hl hnd.of_append_right
  refine ⟨⟨q', hq', ?_⟩, h.nodup, fun _ => ⟨i, hi⟩⟩
  simpa [withoutJob] using hperm

omit [DecidableEq J] in
theorem JobsInv.sleep {m : Mem n J} (h : JobsInv m) (hl : m.queue.waitingJobs.list = none)
    (ws : Finset (Fin n)) : JobsInv (withCond m ws).unlock :=
  ⟨h.jobs, h.nodup, fun hne => absurd hl hne⟩

/-! ### Steps -/

theorem callStep_jobs [NeZero n] {self : Tid n} {x : Input n J} {m m' : Mem n J} {c c' : Call n J}
    (hs : CallStep self x m c m' c') (h : JobsInv m) (hc : ¬ shutting c)
    (hf : ∀ job, c = .addIn job → job ∉ m.added) : JobsInv m' := by
  cases hs with
  | addIn job hw => exact h.add (hf job rfl) hw
  | shutIn => exact absurd trivial hc
  | _ => exact h.same ⟨rfl, subset_rfl, rfl, rfl⟩

theorem callStep_shutting {self : Tid n} {x : Input n J} {m m' : Mem n J} {c c' : Call n J}
    (hs : CallStep self x m c m' c') (hc : ¬ shutting c) (hx : x.call ≠ some .shutdown) :
    ¬ shutting c' := by
  cases hs with
  | callShutdown h => exact absurd h hx
  | callAdd h | addLock job h | addIn job h | addUnlock => exact id
  | _ => exact absurd trivial hc

theorem callStep_guarded {self : Tid n} {x : Input n J} {m m' : Mem n J} {c c' : Call n J}
    {acc : Tid n → Section} (hs : CallStep self x m c m' c')
    (h : Guarded m.queue.jobsMutex .out acc (Knows m)) (ha : acc self = callSection c) :
    Guarded m'.queue.jobsMutex .out (Function.update acc self (callSection c')) (Knows m') := by
  cases hs with
  | callAdd | callShutdown | mark => exact h.stay ha.symm fun b hb => hb
  | head =>
    refine h.stay ?_ fun b hb => hb
    rw [ha]
    cases m.queue.workers.list <;> rfl
  | next w hw =>
    refine h.stay ?_ fun b hb => hb
    rw [ha]
    cases (m.queue.workers.links w).next <;> rfl
  | addLock job hl | shutLock hl =>
    exact h.act (fun _ => hl) (Or.inr ⟨by simp [callSection], rfl⟩) fun _ he => by cases he
  | addIn job hw =>
    refine h.act (fun he => ?_) (Or.inr ⟨by simp [callSection], ?_⟩) fun _ he => by cases he
    · rw [ha] at he; cases he
    · exact (h.owned self).mp (by simp [ha, callSection])
  | shutIn =>
    refine h.act (fun he => ?_) (Or.inr ⟨by simp [callSection], ?_⟩) fun _ he => by cases he
    · rw [ha] at he; cases he
    · exact (h.owned self).mp (by simp [ha, callSection])
  | addUnlock | shutUnlock =>
    refine h.act (fun he => ?_) (Or.inl ⟨rfl, rfl⟩) fun _ he => by cases he
    rw [ha] at he; cases he

theorem workerStep_jobs [NeZero n] {i : Fin n} {x : Input n J} {m m' : Mem n J} {w w' : Worker n J}
    (hs : WorkerStep i x m w m' w') (h : JobsInv m) (hc : ¬ shutting (workerCall w))
    (hf : ∀ job, workerCall w = .addIn job → job ∉ m.added) (hk : w = .wait → m.queue.waitingJobs.list = none)
    (hi : w ≠ .blocked → i ∉ m.queue.jobsCond) : JobsInv m' := by
  cases hs with
  | wait => exact h.sleep (hk rfl) _
  | take hl => exact h.take hl (hi (by simp))
  | call job hs => exact callStep_jobs hs h hc hf
  | spurious hin => exact h.same ⟨rfl, Finset.erase_subset _ _, rfl, rfl⟩
  | _ => exact h.same ⟨rfl, subset_rfl, rfl, rfl⟩

theorem workerStep_shutting {i : Fin n} {x : Input n J} {m m' : Mem n J} {w w' : Worker n J}
    (hs : WorkerStep i x m w m' w') (hc : ¬ shutting (workerCall w)) (hx : x.call ≠ some .shutdown) :
    ¬ shutting (workerCall w') := by
  cases hs with
  | call job hs => exact callStep_shutting hs hc hx
  | _ => exact id

theorem workerStep_guarded {i : Fin n} {x : Input n J} {m m' : Mem n J} {w w' : Worker n J}
    {acc : Tid n → Section} (hs : WorkerStep i x m w m' w')
    (h : Guarded m.queue.jobsMutex .out acc (Knows m)) (ha : acc (.inl i) = workerSection w) :
    Guarded m'.queue.jobsMutex .out (Function.update acc (.inl i) (workerSection w')) (Knows m') := by
  -- inside a section the worker owns the mutex
  have howns : workerSection w ≠ .out → m.queue.jobsMutex = some (.inl i) := fun hw =>
    (h.owned (.inl i)).mp (ha ▸ hw)
  have hin : workerSection w ≠ .out → acc (.inl i) = .out → m.queue.jobsMutex = none := fun hw he =>
    absurd (ha ▸ he) hw
  cases hs with
  | lock hl | wake hi hl =>
    exact h.act (fun _ => hl) (Or.inr ⟨by simp [workerSection], rfl⟩) fun _ he => by cases he
  | empty hl =>
    exact h.act (hin (by simp [workerSection]))
      (Or.inr ⟨by simp [workerSection], howns (by simp [workerSection])⟩) fun _ _ => hl
  | goOn ht => exact h.stay (by rw [ha]; rfl) fun b hb => hb
  | spurious hi => exact h.stay ha.symm fun b hb => hb
  | finish job hx => exact h.stay (by rw [ha]; rfl) fun b hb => hb
  | wait | unlockRun job | unlockNone =>
    exact h.act (hin (by simp [workerSection])) (Or.inl ⟨rfl, rfl⟩) fun _ he => by cases he
  | call job hs => exact callStep_guarded hs h ha
  | _ =>
    exact h.act (hin (by simp [workerSection]))
      (Or.inr ⟨by simp [workerSection], howns (by simp [workerSection])⟩) fun _ he => by cases he

/-! ### Runs -/

/-- **The invariant of the runs without shutdown.** -/
structure Inv (c : State n J) : Prop where
  noShutdown : ∀ t, ¬ shutting (callAt c t)
  guarded : Guarded c.mem.queue.jobsMutex .out (c.view workerSection callSection) (Knows c.mem)
  asleep : ∀ i ∈ c.mem.queue.jobsCond, c.worker i = .blocked
  jobs : JobsInv c.mem

omit [DecidableEq J] in
/-- Sleepers are blocked, also after a step of a worker that is not asleep. -/
theorem asleep_moveWorker {c : State n J} {i : Fin n} {r : Mem n J × Worker n J}
    (h : ∀ j ∈ c.mem.queue.jobsCond, c.worker j = .blocked)
    (hr : r.2 = .blocked ∨ (i ∉ c.mem.queue.jobsCond ∧ r.1.queue.jobsCond ⊆ c.mem.queue.jobsCond))
    (hsub : r.1.queue.jobsCond ⊆ insert i c.mem.queue.jobsCond) :
    ∀ j ∈ (c.moveWorker i r).mem.queue.jobsCond, (c.moveWorker i r).worker j = .blocked := by
  intro j hj
  rcases moveWorker_cases c i r j with ⟨rfl, hw⟩ | ⟨hne, hw⟩
  · rcases hr with hr | ⟨hni, hsub'⟩
    · rw [hw, hr]
    · exact absurd (hsub' hj) hni
  · rw [hw]
    exact h j ((Finset.mem_insert.mp (hsub hj)).resolve_left hne)

theorem callStep_cond {self : Tid n} {x : Input n J} {m m' : Mem n J} {c c' : Call n J}
    (hs : CallStep self x m c m' c') : m'.queue.jobsCond ⊆ m.queue.jobsCond := by
  cases hs with
  | addIn job hw => exact (signal_some hw).1
  | shutIn => exact Finset.empty_subset _
  | _ => exact subset_rfl

theorem workerStep_cond {i : Fin n} {x : Input n J} {m m' : Mem n J} {w w' : Worker n J}
    (hs : WorkerStep i x m w m' w') (hi : w ≠ .blocked → i ∉ m.queue.jobsCond) :
    m'.queue.jobsCond ⊆ insert i m.queue.jobsCond ∧
      (w' = .blocked ∨ (i ∉ m.queue.jobsCond ∧ m'.queue.jobsCond ⊆ m.queue.jobsCond)) := by
  cases hs with
  | wait => exact ⟨subset_rfl, Or.inl rfl⟩
  | spurious hin => exact ⟨(Finset.erase_subset _ _).trans (Finset.subset_insert _ _), Or.inl rfl⟩
  | wake hni hl => exact ⟨Finset.subset_insert _ _, Or.inr ⟨hni, subset_rfl⟩⟩
  | call job hs =>
    have hsub := callStep_cond hs
    exact ⟨hsub.trans (Finset.subset_insert _ _), Or.inr ⟨hi (by simp), hsub⟩⟩
  | _ => exact ⟨Finset.subset_insert _ _, Or.inr ⟨hi (by simp), subset_rfl⟩⟩

theorem Inv.moveWorker [NeZero n] {c : State n J} {i : Fin n} {x : Input n J} {r : Mem n J × Worker n J}
    (h : Inv c) (hok : freshJobs c (.inl i, x)) (hs : WorkerStep i x c.mem (c.worker i) r.1 r.2) :
    Inv (c.moveWorker i r) := by
  have hnot : c.worker i ≠ .blocked → i ∉ c.mem.queue.jobsCond := fun hne hin => hne (h.asleep i hin)
  have hcall : ¬ shutting (workerCall (c.worker i)) := h.noShutdown (.inl i)
  obtain ⟨hsub, hcond⟩ := workerStep_cond hs hnot
  refine ⟨fun t => ?_, ?_, asleep_moveWorker h.asleep hcond hsub, ?_⟩
  · rw [callAt, view_moveWorker]
    by_cases ht : t = .inl i
    · subst ht
      rw [Function.update_self]
      exact workerStep_shutting hs hcall hok.1
    · rw [Function.update_of_ne ht]
      exact h.noShutdown t
  · rw [view_moveWorker]
    exact workerStep_guarded hs h.guarded rfl
  · refine workerStep_jobs hs h.jobs hcall hok.2 (fun hw => ?_) hnot
    have hsec : c.view workerSection callSection (.inl i) = .empty := by rw [view_inl, hw]; rfl
    exact h.guarded.mine (t := .inl i) (fun he => by rw [hsec] at he; cases he) hsec

theorem Inv.moveClient [NeZero n] {c : State n J} {k : ℕ} {x : Input n J} {r : Mem n J × Call n J}
    (h : Inv c) (hok : freshJobs c (.inr k, x)) (hs : CallStep (.inr k) x c.mem (c.client k) r.1 r.2) :
    Inv (c.moveClient k r) := by
  have hcall : ¬ shutting (c.client k) := h.noShutdown (.inr k)
  refine ⟨fun t => ?_, ?_, fun i hi => h.asleep i (callStep_cond hs hi), ?_⟩
  · rw [callAt, view_moveClient]
    by_cases ht : t = .inr k
    · subst ht
      rw [Function.update_self]
      exact callStep_shutting hs hcall hok.1
    · rw [Function.update_of_ne ht]
      exact h.noShutdown t
  · rw [view_moveClient]
    exact callStep_guarded hs h.guarded rfl
  · exact callStep_jobs hs h.jobs hcall hok.2

theorem inv_reach [NeZero n] {c : State n J} (h : Reach (workqueue n J).lts freshJobs c) : Inv c := by
  refine Program.invariant (I := Inv) ?_ ?_ ?_ h
  · rintro _ ⟨links, rfl⟩
    refine ⟨?_, ⟨?_, fun he => by cases he⟩, fun i hi => by simp [workqueueInit] at hi, ?_⟩
    · rintro (i | k) <;> exact id
    · rintro (i | k) <;> simp [workerSection, callSection, workqueueInit]
    · exact ⟨⟨[], ⟨rfl, by simp⟩, List.Perm.refl _⟩, List.nodup_nil, fun hne => absurd rfl hne⟩
  · intro c i x r _ hi hok hs
    exact hi.moveWorker hok (workerStep_cases hs)
  · intro c k x r _ hi hok hs
    exact hi.moveClient hok (callStep_cases hs)

instance (numWorkers : ℤ) : NeZero (workerCount numWorkers) :=
  ⟨by unfold workerCount; split_ifs <;> omega⟩

/-- The worker `i` is blocked in `pthread_cond_wait` with no wake-up pending. -/
def asleep (c : State n J) (i : Fin n) : Bool :=
  decide (c.worker i = .blocked) && decide (i ∈ c.mem.queue.jobsCond)

/-- **Every job is handed out exactly once.** However many workers `workqueue_init` was asked for, in every
state reached before a shutdown the jobs taken and the jobs on the list are the jobs added, none of them
twice, and it is not the case that jobs wait while every worker sleeps. -/
theorem workqueue_exactly_once {numWorkers : ℤ} {c : State (workerCount numWorkers) J}
    (h : Reach (workqueue (workerCount numWorkers) J).lts freshJobs c) :
    (∃ q, Linked (nextOf c.mem.queue.waitingJobs) c.mem.queue.waitingJobs.list q ∧
      (c.mem.taken ++ q).Perm c.mem.added ∧ (c.mem.taken ++ q).Nodup) ∧
    ¬ (c.mem.queue.waitingJobs.list ≠ none ∧ ∀ i, asleep c i = true) := by
  have hi := inv_reach h
  obtain ⟨q, hq, hperm⟩ := hi.jobs.jobs
  refine ⟨⟨q, hq.linked, hperm, hperm.nodup_iff.mpr hi.jobs.nodup⟩, fun ⟨hne, hall⟩ => ?_⟩
  obtain ⟨i, hnot⟩ := hi.jobs.awake hne
  have := hall i
  simp only [asleep, Bool.and_eq_true, decide_eq_true_eq] at this
  exact hnot this.2

/-- The test for an allowed step. -/
def freshTest (c : State n J) (a : Tid n × Input n J) : Bool :=
  decide (a.2.call ≠ some .shutdown) && match callAt c a.1 with
    | .addIn job => decide (job ∉ c.mem.added)
    | _ => true

theorem freshJobs_of_test (c : State n J) (a : Tid n × Input n J) (h : freshTest c a = true) :
    freshJobs c a := by
  simp only [freshTest, Bool.and_eq_true, decide_eq_true_eq] at h
  refine ⟨h.1, fun job hj => ?_⟩
  have := h.2
  rw [hj] at this
  simpa using this

/-- Two workers go to sleep; a client adds three jobs, the first of which wakes a worker, which takes the
last one. -/
def threeJobsRun : List (Tid (workerCount 2) × Input (workerCount 2) ℕ) :=
  [(.inl 0, {}), (.inl 0, {}), (.inl 0, {}), (.inl 0, {}), (.inl 1, {}), (.inl 1, {}), (.inl 1, {}),
   (.inl 1, {}), (.inr 0, { call := some (.addJob 7) }), (.inr 0, {}), (.inr 0, { wake := {1} }),
   (.inr 0, {}), (.inr 0, { call := some (.addJob 8) }), (.inr 0, {}), (.inr 0, { wake := {0} }),
   (.inr 0, {}), (.inr 0, { call := some (.addJob 9) }), (.inr 0, {}), (.inr 0, {}), (.inr 0, {}),
   (.inl 1, {}), (.inl 1, {}), (.inl 1, {}), (.inl 1, {}), (.inl 1, {})]

theorem workqueue_exactly_once_threeJobsRun : ∃ c : State (workerCount 2) ℕ,
    Reach (workqueue (workerCount 2) ℕ).lts freshJobs c ∧ c.mem.taken = [9] ∧
      c.mem.added = [7, 8, 9] ∧ (∃ q, Linked (nextOf c.mem.queue.waitingJobs) c.mem.queue.waitingJobs.list q ∧
        (9 :: q).Perm [7, 8, 9]) := by
  obtain ⟨c, hc, hp⟩ := reach_of_run (workqueue (workerCount 2) ℕ).lts freshJobs_of_test threeJobsRun
    (fun c => decide (c.mem.taken = [9]) && decide (c.mem.added = [7, 8, 9]))
    ⟨fun _ => ⟨none, none⟩, rfl⟩ (by decide)
  simp only [Bool.and_eq_true, decide_eq_true_eq] at hp
  obtain ⟨q, hq, hperm, -⟩ := (workqueue_exactly_once hc).1
  rw [hp.1, hp.2] at hperm
  exact ⟨c, hc, hp.1, hp.2, q, hq, hperm⟩

end PoolStudy.Workqueue.Jobs
