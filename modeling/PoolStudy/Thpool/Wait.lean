import PoolStudy.Thpool.Jobs

/-! # What `thpool_wait` waits for

`thpool_wait` takes no lock: it reads `len`, and if that was `0`, `num_threads_working`. A worker raises
the second counter before it lowers the first, so a job that is off the queue when `len` is read is in the
hands of a worker that is counted, or finished. The jobs added before the call are off the queue when `len`
is read as `0`, and they stay off it: when `num_threads_working` is then read as `0` they have finished
(`thpool_wait_covers`).

Jobs added later are another matter. A running job may push a new one after `len` was read and end before
`num_threads_working` is read, in each of the three loops; `thpool_wait` then returns with a job in the
queue (`wait_fooled_spawnRun`). This window is the only one: if no job raises `len` while the last loop is
between its two reads, everything has finished when `thpool_wait` returns (`thpool_wait_quiescent`). -/

namespace PoolStudy.Thpool.Wait

open PoolStudy.Lib.Transition PoolStudy.Lib.Threads
open PoolStudy.Thpool.Model PoolStudy.Thpool.Steps PoolStudy.Thpool.Teardown PoolStudy.Thpool.Queue
open PoolStudy.Thpool.Jobs

variable {n : ℕ} {κ F A : Type}

/-! ### Added jobs are pushed -/

/-- The node a `thpool_add_work` has pushed. -/
def addAfter : Option Add → Option Ptr
  | some (.push j s) => if Push.before s then none else some j
  | _ => none

def workerAfter (w : Worker F A) : Option Ptr :=
  match w.pos with
  | .run _ _ _ c => addAfter c
  | _ => none

def callAfter : Call → Option Ptr
  | .add c => addAfter (some c)
  | _ => none

/-- The jobs whose `thpool_add_work` has returned were pushed; `af` are those whose call is about to. -/
structure AddedInv (p : Pool n κ F A) (af : Tid n κ → Option Ptr) : Prop where
  after : ∀ t j, af t = some j → j ∈ p.pushed
  added : ∀ j ∈ p.added, j ∈ p.pushed

/-- What a step enters: the history grows, and what is new in `added` was pushed. -/
structure Grows (p p' : Pool n κ F A) : Prop where
  pushed : p.pushed ⊆ p'.pushed
  pulled : p.pulled ⊆ p'.pulled
  finished : p.finished ⊆ p'.finished
  waited : p'.waited = p.waited
  added : ∀ j ∈ p'.added, j ∈ p.added ∨ j ∈ p'.pushed

theorem Grows.of_same {p p' : Pool n κ F A} (h1 : p'.pushed = p.pushed) (h2 : p'.pulled = p.pulled)
    (h3 : p'.finished = p.finished) (h4 : p'.waited = p.waited) (h5 : p'.added = p.added) :
    Grows p p' :=
  ⟨by rw [h1]; exact List.Subset.refl _, by rw [h2]; exact List.Subset.refl _,
    by rw [h3]; exact List.Subset.refl _, h4, fun j hj => Or.inl (h5 ▸ hj)⟩

theorem AddedInv.move [DecidableEq κ] {p p' : Pool n κ F A} {af : Tid n κ → Option Ptr}
    (h : AddedInv p af) (hg : Grows p p') {t : Tid n κ} {b : Option Ptr}
    (hb : ∀ j, b = some j → j ∈ p'.pushed) : AddedInv p' (Function.update af t b) := by
  refine ⟨fun s j hj => ?_, fun j hj => ?_⟩
  · by_cases hs : s = t
    · subst hs
      rw [Function.update_self] at hj
      exact hb j hj
    · rw [Function.update_of_ne hs] at hj
      exact hg.pushed (h.after s j hj)
  · rcases hg.added j hj with hj | hj
    · exact hg.pushed (h.added j hj)
    · exact hj

theorem addStep_grows {self : Tid n κ} {x : Input n F A} {p p' : Pool n κ F A} {c : Add}
    {c' : Option Add} (h : AddStep self x p c p' c') (hc : ∀ j, addAfter (some c) = some j → j ∈ p.pushed) :
    Grows p p' ∧ ∀ j, addAfter c' = some j → j ∈ p'.pushed := by
  have hsame := List.Subset.refl p.pulled
  cases h with
  | lock j _ => exact ⟨.of_same rfl rfl rfl rfl rfl, fun i hi => by simp [addAfter, Push.before] at hi⟩
  | unlock j =>
    have hj : j ∈ p.pushed := hc j rfl
    refine ⟨⟨List.Subset.refl _, hsame, List.Subset.refl _, rfl, fun i hi => ?_⟩,
      fun i hi => by simp [addAfter] at hi⟩
    rcases List.mem_append.mp hi with hi | hi
    · exact Or.inl hi
    · rw [List.mem_singleton.mp hi]; exact Or.inr hj
  | push j hs =>
    cases hs with
    | inc =>
      refine ⟨⟨List.subset_append_left _ _, hsame, List.Subset.refl _, rfl, fun i hi => Or.inl hi⟩,
        fun i hi => ?_⟩
      have hi : j = i := by simpa [addAfter, Push.before] using hi
      simp [hi]
    | postLock _ => exact ⟨.of_same rfl rfl rfl rfl rfl, hc⟩
    | post ws _ => exact ⟨.of_same rfl rfl rfl rfl rfl, hc⟩
    | _ => exact ⟨.of_same rfl rfl rfl rfl rfl, fun i hi => by simp [addAfter, Push.before] at hi⟩

theorem posStep_grows {i : Fin n} {x : Input n F A} {fl : Flags} {p p' : Pool n κ F A} {w w' : Pos F A}
    {hd : Hold} (h : PosStep i x fl p w p' w') (hc : ∀ j, workerAfter ⟨w, hd⟩ = some j → j ∈ p.pushed) :
    Grows p p' ∧ ∀ j, workerAfter ⟨w', hd⟩ = some j → j ∈ p'.pushed := by
  cases h with
  | countLock hw _ => cases hw <;> exact ⟨.of_same rfl rfl rfl rfl rfl, fun j hj => by cases hj⟩
  | countUnlock hw => cases hw <;> exact ⟨.of_same rfl rfl rfl rfl rfl, fun j hj => by cases hj⟩
  | silent hw => cases hw <;> exact ⟨.of_same rfl rfl rfl rfl rfl, fun j hj => by cases hj⟩
  | pull hs =>
    refine ⟨?_, fun j hj => by cases hj⟩
    cases hs with
    | dec j =>
      exact ⟨List.Subset.refl _, List.subset_append_left _ _, List.Subset.refl _, rfl,
        fun i hi => Or.inl hi⟩
    | _ => exact .of_same rfl rfl rfl rfl rfl
  | add j f a hs => exact addStep_grows hs hc
  | finish j f a =>
    refine ⟨⟨List.Subset.refl _, List.Subset.refl _, List.subset_append_left _ _, rfl,
      fun i hi => Or.inl hi⟩, fun i hi => by cases hi⟩
  | _ => exact ⟨.of_same rfl rfl rfl rfl rfl, fun j hj => by cases hj⟩

/-! ### Runs without `thpool_destroy` -/

/-- **No `thpool_destroy`.** -/
def noDestroy (_ : State n κ F A) (a : Tid n κ × Input n F A) : Prop := a.2.call ≠ some .destroy

variable [DecidableEq κ]

theorem final_of_noDestroy {c : State n κ F A} (h : Reach (thpool n κ F A).lts noDestroy c) :
    Reach (thpool n κ F A).lts finalDestroy c :=
  h.mono fun _ _ hok _ _ _ hx => absurd hx hok

/-- Then nobody is in `thpool_destroy`, and `jobqueue_clear` has freed nothing. -/
theorem not_destroyed {c : State n κ F A} (h : Reach (thpool n κ F A).lts noDestroy c) :
    (∀ k total d, c.client k ≠ .destroy total d) ∧ cleared c.mem.pool.freed = [] := by
  refine Program.invariant (I := fun c : State n κ F A =>
    (∀ k total d, c.client k ≠ .destroy total d) ∧ cleared c.mem.pool.freed = []) ?_ ?_ ?_ h
  · rintro _ ⟨heap, k0, rfl⟩
    exact ⟨initClients_forall (P := fun l => ∀ total d, l ≠ .destroy total d) (by simp) (by simp) k0, rfl⟩
  · rintro c i x r _ ⟨hd, hcl⟩ _ hs
    refine ⟨hd, ?_⟩
    show cleared r.1.pool.freed = []
    obtain ⟨m', w'⟩ := r
    cases workerStep_cases hs with
    | move hh _ hp =>
      generalize (c.worker i).pos = w at hp
      cases hp with
      | pull h => rw [← hcl]; exact congrArg cleared h.frame.freed
      | add j f a h => rw [← hcl]; exact congrArg cleared h.frame.freed
      | free j => simpa [cleared] using hcl
      | _ => exact hcl
    | _ => exact hcl
  · rintro c k x r _ ⟨hd, hcl⟩ hok hs
    have hcs := callStep_cases hs
    obtain ⟨m', l'⟩ := r
    generalize hk : c.client k = l at hcs
    have hmove : (∀ total d, l' ≠ .destroy total d) →
        ∀ k' total d, (c.moveClient k (m', l')).client k' ≠ .destroy total d := by
      intro hl'
      exact forall_moveClient (P := fun _ (l : Call) => ∀ total d, l ≠ .destroy total d) hl' fun k' _ => hd k'
    cases hcs with
    | destroyEnter hx _ => exact absurd hx hok
    | destroy _ => exact absurd hk (hd k _ _)
    | destroyReturn _ => exact absurd hk (hd k _ _)
    | add h => exact ⟨hmove (by simp), by rw [← hcl]; exact congrArg cleared h.frame.freed⟩
    | addReturn h => exact ⟨hmove (by simp), by rw [← hcl]; exact congrArg cleared h.frame.freed⟩
    | waitMove h => cases h <;> exact ⟨hmove (by simp), hcl⟩
    | _ => exact ⟨hmove (by simp), hcl⟩

/-! ### The two reads -/

/-- **What a `thpool_wait` knows** of the jobs it must wait for. -/
def Waits (p : Pool n κ F A) : Call → Prop
  | .waitLen _ must => ∀ j ∈ must, j ∈ p.pushed
  | .waitWorking _ must => ∀ j ∈ must, j ∈ p.pulled
  | _ => True

structure WaitInv (c : State n κ F A) : Prop where
  added : AddedInv c.mem.pool (c.view workerAfter callAfter)
  waits : ∀ k, Waits c.mem.pool (c.client k)
  waited : ∀ must ∈ c.mem.pool.waited, ∀ j ∈ must, j ∈ c.mem.pool.finished

omit [DecidableEq κ] in
theorem Waits.grow {p p' : Pool n κ F A} (h1 : p.pushed ⊆ p'.pushed) (h2 : p.pulled ⊆ p'.pulled)
    {c : Call} (h : Waits p c) : Waits p' c := by
  cases c with
  | waitLen l must => exact fun j hj => h1 (h j hj)
  | waitWorking l must => exact fun j hj => h2 (h j hj)
  | _ => trivial

/-- **Reading `len = 0`**: all jobs pushed have been pulled. -/
theorem pulled_of_len {c : State n κ F A} (h : Reach (thpool n κ F A).lts finalDestroy c)
    (hl : c.mem.pool.len = 0) : c.mem.pool.pushed = c.mem.pool.pulled := by
  obtain ⟨-, -, -, q, hh, hat⟩ := (queueState_reach h).queue.guard.data
  have hlen := at_len hat
  have hq : q = [] := List.length_eq_zero_iff.mp (by omega)
  rw [hh, hq, List.append_nil]

theorem idle_of_not_working {w : Pos F A} (h : isWorking w = 0) :
    carried w = 0 ∧ running w = 0 ∧ ¬ executing w := by
  cases w <;> simp_all [isWorking, carried, running, executing]

/-- **Reading `num_threads_working = 0`**: all jobs pulled have finished. -/
theorem finished_of_working {c : State n κ F A} (h : Reach (thpool n κ F A).lts noDestroy c)
    (hw : c.mem.pool.numThreadsWorking = 0) : ∀ j ∈ c.mem.pool.pulled, j ∈ c.mem.pool.finished := by
  have hidle := fun i => idle_of_not_working ((countInv_reach h).none_working hw i)
  have hj := jobInv_reach h
  have hpulled := hj.pulled
  have hexec := hj.executed
  rw [Finset.sum_eq_zero fun i _ => (hidle i).1, add_zero, (not_destroyed h).2, Multiset.coe_nil,
    add_zero, hexec, Finset.sum_eq_zero fun i _ => (hidle i).2.1, add_zero] at hpulled
  intro j hm
  exact (Multiset.coe_eq_coe.mp hpulled).mem_iff.mp hm

theorem WaitInv.worker {c : State n κ F A} {i : Fin n} {x : Input n F A}
    {r : Mem n κ F A × Worker F A} (hi : WaitInv c) (h : WorkerStep i x c.mem (c.worker i) r.1 r.2) :
    WaitInv (c.moveWorker i r) := by
  obtain ⟨m', w'⟩ := r
  have hafter : ∀ j, workerAfter (c.worker i) = some j → j ∈ c.mem.pool.pushed :=
    hi.added.after (.inl i)
  have hgrow : Grows c.mem.pool m'.pool ∧ ∀ j, workerAfter w' = some j → j ∈ m'.pool.pushed := by
    cases h with
    | move hh _ hp => exact posStep_grows hp hafter
    | _ => exact ⟨.of_same rfl rfl rfl rfl rfl, hafter⟩
  obtain ⟨hg, hb⟩ := hgrow
  refine ⟨?_, fun k => (hi.waits k).grow hg.pushed hg.pulled, fun must hm j hj => ?_⟩
  · rw [view_moveWorker]
    exact hi.added.move hg hb
  · have hm : must ∈ c.mem.pool.waited := hg.waited ▸ hm
    exact hg.finished (hi.waited must hm j hj)

/-- A step of a client that does not end a `thpool_wait`. -/
theorem WaitInv.plain {c : State n κ F A} {k : κ} {r : Mem n κ F A × Call} (hi : WaitInv c)
    (hg : Grows c.mem.pool r.1.pool) (hb : ∀ j, callAfter r.2 = some j → j ∈ r.1.pool.pushed)
    (hw : Waits r.1.pool r.2) : WaitInv (c.moveClient k r) := by
  refine ⟨by rw [view_moveClient]; exact hi.added.move hg hb, ?_, fun must hm j hj => ?_⟩
  · exact forall_moveClient (P := fun _ (l : Call) => Waits r.1.pool l) hw fun k' _ =>
      (hi.waits k').grow hg.pushed hg.pulled
  · have hm : must ∈ c.mem.pool.waited := hg.waited ▸ hm
    exact hg.finished (hi.waited must hm j hj)

theorem WaitInv.client {c : State n κ F A} {k : κ} {x : Input n F A} {r : Mem n κ F A × Call}
    (hi : WaitInv c) (hr : Reach (thpool n κ F A).lts noDestroy c)
    (h : CallStep k x c.mem (c.client k) r.1 r.2) : WaitInv (c.moveClient k r) := by
  obtain ⟨m', l'⟩ := r
  obtain ⟨hd, -⟩ := not_destroyed hr
  have hwait := hi.waits k
  have hafter : ∀ j, callAfter (c.client k) = some j → j ∈ c.mem.pool.pushed := hi.added.after (.inr k)
  have hdest := hd k
  generalize c.client k = l at h hwait hafter hdest
  have hsame : Grows c.mem.pool c.mem.pool := .of_same rfl rfl rfl rfl rfl
  cases h with
  | destroy _ => exact absurd rfl (hdest _ _)
  | destroyReturn _ => exact absurd rfl (hdest _ _)
  | add hs =>
    obtain ⟨hg, hb⟩ := addStep_grows hs hafter
    exact hi.plain hg hb trivial
  | addReturn hs =>
    obtain ⟨hg, -⟩ := addStep_grows hs hafter
    exact hi.plain hg (fun j hj => by cases hj) trivial
  | wait _ _ => exact hi.plain hsame (fun j hj => by cases hj) hi.added.added
  | waitMove hw =>
    cases hw with
    | back l l' must => exact hi.plain hsame (fun j hj => by cases hj) hwait
    | empty l must hl =>
      refine hi.plain hsame (fun j hj => by cases hj) fun j hj => ?_
      rw [← pulled_of_len (final_of_noDestroy hr) hl]
      exact hwait j hj
    | busy l l' must =>
      obtain ⟨-, hpre⟩ := history (final_of_noDestroy hr)
      exact hi.plain hsame (fun j hj => by cases hj) fun j hj => hpre.subset (hwait j hj)
  | waitReturn must hw =>
    refine ⟨⟨?_, hi.added.added⟩, ?_, fun must' hm j hj => ?_⟩
    · intro t j hj
      rw [view_moveClient] at hj
      by_cases ht : t = .inr k
      · subst ht; rw [Function.update_self] at hj; cases hj
      · rw [Function.update_of_ne ht] at hj
        exact hi.added.after t j hj
    · exact forall_moveClient
        (P := fun _ (l : Call) => Waits { c.mem.pool with waited := c.mem.pool.waited ++ [must] } l) trivial
        fun k' _ => (hi.waits k').grow (List.Subset.refl _) (List.Subset.refl _)
    · rcases List.mem_append.mp hm with hm | hm
      · exact hi.waited must' hm j hj
      · rw [List.mem_singleton.mp hm] at hj
        exact finished_of_working hr hw j (hwait j hj)
  | _ => exact hi.plain (.of_same rfl rfl rfl rfl rfl) (fun j hj => by cases hj) trivial

theorem waitInv_reach {c : State n κ F A} (h : Reach (thpool n κ F A).lts noDestroy c) : WaitInv c := by
  refine Program.invariant ?_ ?_ ?_ h
  · rintro _ ⟨heap, k0, rfl⟩
    refine ⟨⟨fun t j hj => ?_, fun j hj => by cases hj⟩, ?_, fun must hm => by cases hm⟩
    · rcases t with i | k
      · cases hj
      · have hnone : callAfter (initClients k0 k) = none :=
          initClients_forall (P := fun l => callAfter l = none) rfl rfl k0 k
        cases hnone.symm.trans hj
    · exact initClients_forall (P := fun l => Waits _ l) trivial trivial k0
  · intro c i x r _ hi _ hs
    exact hi.worker (workerStep_cases hs)
  · intro c k x r hr hi _ hs
    exact hi.client hr (callStep_cases hs)

/-- The jobs finished are among the jobs executed, each once. -/
theorem finished_once {c : State n κ F A} (h : Reach (thpool n κ F A).lts finalDestroy c) {j : Ptr}
    (hj : j ∈ c.mem.pool.finished) :
    (c.mem.pool.executed.map Prod.fst).count j = 1 ∧ c.mem.pool.finished.count j = 1 := by
  have hnd := executed_nodup h
  have hle : (c.mem.pool.finished : Multiset Ptr) ≤ (c.mem.pool.executed.map Prod.fst : List Ptr) := by
    rw [(jobInv_reach h).executed]
    exact Multiset.le_add_right _ _
  have hfin : c.mem.pool.finished.Nodup :=
    Multiset.coe_nodup.mp (Multiset.nodup_of_le hle (Multiset.coe_nodup.mpr hnd))
  have hmem : j ∈ c.mem.pool.executed.map Prod.fst := Multiset.subset_of_le hle hj
  exact ⟨List.count_eq_one_of_mem hnd hmem, List.count_eq_one_of_mem hfin hj⟩

/-- **`thpool_wait` covers everything added before it.** In every run without `thpool_destroy`, for
every `thpool_wait` that has returned: the jobs whose `thpool_add_work` had returned when it was called
have been executed exactly once, and their functions have returned. -/
theorem thpool_wait_covers {c : State n κ F A} (h : Reach (thpool n κ F A).lts noDestroy c) :
    ∀ must ∈ c.mem.pool.waited, ∀ j ∈ must,
      (c.mem.pool.executed.map Prod.fst).count j = 1 ∧ c.mem.pool.finished.count j = 1 := by
  intro must hm j hj
  exact finished_once (final_of_noDestroy h) ((waitInv_reach h).waited must hm j hj)

/-- One worker; the client adds a job, the worker executes it, the client waits. -/
def waitRun : List (Tid 1 Unit × Input 1 ℕ ℕ) :=
  let w : Tid 1 Unit := .inl (Fin.last 0)
  let d : Tid 1 Unit := .inr ()
  plainSteps [w, w, w, d] ++ [(d, { call := some (.addWork 7 0) })] ++ plainSteps (List.replicate 9 d) ++
    plainSteps (List.replicate 24 w) ++ [(d, { call := some .wait })] ++ plainSteps (List.replicate 5 d)

/-- The test for a step that is not the call of `thpool_destroy`. -/
def noDestroyTest (_ : State n Unit ℕ ℕ) (a : Tid n Unit × Input n ℕ ℕ) : Bool :=
  decide (a.2.call ≠ some .destroy)

theorem noDestroy_of_test (c : State n Unit ℕ ℕ) (a : Tid n Unit × Input n ℕ ℕ)
    (h : noDestroyTest c a = true) : noDestroy c a :=
  of_decide_eq_true (p := a.2.call ≠ some .destroy) h

theorem thpool_wait_covers_waitRun : ∃ c : State 1 Unit ℕ ℕ,
    Reach (thpool 1 Unit ℕ ℕ).lts noDestroy c ∧ c.mem.pool.waited = [[0]] ∧
      c.mem.pool.finished.count 0 = 1 := by
  obtain ⟨c, hc, hp⟩ := reach_of_run (thpool 1 Unit ℕ ℕ).lts noDestroy_of_test
    (waitRun ++ plainSteps [.inr ()]) (fun c => decide (c.mem.pool.waited = [[0]]))
    ⟨fun _ => ⟨none, 0, 0⟩, (), rfl⟩ (by decide)
  rw [decide_eq_true_eq] at hp
  refine ⟨c, hc, hp, (thpool_wait_covers hc [0] ?_ 0 (List.mem_singleton.mpr rfl)).2⟩
  rw [hp]
  exact List.mem_singleton.mpr rfl

/-! ### Jobs that add jobs -/

/-- Among the clients, only `k0` calls `thpool_add_work`. -/
def addsOnlyBy (k0 : κ) (_ : State n κ F A) (a : Tid n κ × Input n F A) : Prop :=
  ∀ k f x, a.1 = .inr k → a.2.call = some (.addWork f x) → k = k0

/-- The step of the worker is the `len++` of a job that adds a job. -/
def raisesLen (w : Worker F A) (x : Input n F A) : Bool :=
  match w.hold, w.pos with
  | .off, .run _ _ _ (some (.push _ .inc)) => !x.deliver
  | _, _ => false

/-- **No job raises `len` while the last loop of `thpool_wait` is between its two reads.** -/
def windowClosed (k0 : κ) (c : State n κ F A) (a : Tid n κ × Input n F A) : Prop :=
  ∀ i must, a.1 = .inl i → c.client k0 = .waitWorking .maxPolling must →
    raisesLen (c.worker i) a.2 = false

/-- The runs in which only `k0` and running jobs add work, and nobody destroys the pool. -/
def ownAdds (k0 : κ) (c : State n κ F A) (a : Tid n κ × Input n F A) : Prop :=
  noDestroy c a ∧ addsOnlyBy k0 c a

/-- Those in which, moreover, nothing gets between the last two reads. -/
def undisturbed (k0 : κ) (c : State n κ F A) (a : Tid n κ × Input n F A) : Prop :=
  ownAdds k0 c a ∧ windowClosed k0 c a

/-- Between the two reads of the last loop the queue stays empty. -/
structure WindowInv (k0 : κ) (c : State n κ F A) : Prop where
  others : ∀ k, k ≠ k0 → ∀ l, c.client k ≠ .add l
  empty : ∀ must, c.client k0 = .waitWorking .maxPolling must → c.mem.pool.len = 0

omit [DecidableEq κ] in
/-- `len` stays `0` unless a job raises it; no `jobqueue_pull` is about to lower it then. -/
theorem posStep_len {i : Fin n} {x : Input n F A} {fl : Flags} {p p' : Pool n κ F A} {w w' : Pos F A}
    (h : PosStep i x fl p w p' w') (hl : p.len = 0) (hx : x.deliver = false)
    (hinc : raisesLen ⟨w, .off⟩ x = false) (hdec : ∀ j, w = .pull (.dec j) → p.len ≠ 0) :
    p'.len = 0 := by
  cases h with
  | pull hs =>
    cases hs with
    | dec j => exact absurd hl (hdec j rfl)
    | _ => exact hl
  | add j f a hs =>
    cases hs with
    | push j' hp =>
      cases hp with
      | inc => simp [raisesLen, hx] at hinc
      | _ => exact hl
    | _ => exact hl
  | _ => exact hl

theorem noDestroy_of_undisturbed {k0 : κ} {c : State n κ F A}
    (h : Reach (thpool n κ F A).lts (undisturbed k0) c) : Reach (thpool n κ F A).lts noDestroy c :=
  h.mono fun _ _ hok => hok.1.1

omit [DecidableEq κ] in
theorem WindowInv.worker {k0 : κ} {c : State n κ F A} {i : Fin n} {x : Input n F A}
    {r : Mem n κ F A × Worker F A} (hi : WindowInv k0 c)
    (hq : QueueInv c.mem.pool (c.view workerAccess callAccess) (c.view workerNode callNode))
    (hok : windowClosed k0 c (.inl i, x)) (h : WorkerStep i x c.mem (c.worker i) r.1 r.2) :
    WindowInv k0 (c.moveWorker i r) := by
  refine ⟨hi.others, fun must hk => ?_⟩
  have hl := hi.empty must hk
  have hinc := hok i must rfl hk
  obtain ⟨m', w'⟩ := r
  show m'.pool.len = 0
  cases h with
  | move hh hx hp =>
    have hw : c.worker i = ⟨(c.worker i).pos, .off⟩ := by rw [← hh]
    rw [hw] at hinc
    refine posStep_len hp hl hx hinc fun j hj => ?_
    -- at its `len--` the worker owns the queue, which is not empty
    have hacc : c.view workerAccess callAccess (.inl i) = .pull (.dec j) := congrArg posAccess hj
    have hshape := hq.guard.mine (t := .inl i) (fun ho => by rw [hacc] at ho; cases ho)
    rw [hacc] at hshape
    obtain ⟨-, -, -, q, -, r, l, -, -, -, -, hlen⟩ := hshape
    omega
  | _ => exact hl

theorem WindowInv.client {k0 k : κ} {c : State n κ F A} {x : Input n F A} {r : Mem n κ F A × Call}
    (hi : WindowInv k0 c) (hd : ∀ k total d, c.client k ≠ .destroy total d)
    (hok : addsOnlyBy k0 c (.inr k, x)) (h : CallStep k x c.mem (c.client k) r.1 r.2) :
    WindowInv k0 (c.moveClient k r) := by
  obtain ⟨m', l'⟩ := r
  have hdest := hd k
  have hother : k ≠ k0 → ∀ l, c.client k ≠ .add l := hi.others k
  generalize c.client k = l at h hdest hother
  -- it is enough to look at the new position of the client and at `len`
  have hmove : (k ≠ k0 → ∀ a, l' ≠ .add a) →
      (k = k0 → ∀ must, l' = .waitWorking .maxPolling must → m'.pool.len = 0) →
      (k ≠ k0 → m'.pool.len = c.mem.pool.len) → WindowInv k0 (c.moveClient k (m', l')) := by
    intro h1 h2 h3
    refine ⟨?_, fun must hk' => ?_⟩
    · exact forall_moveClient (P := fun k' (l : Call) => k' ≠ k0 → ∀ a, l ≠ .add a) h1 fun k' _ => hi.others k'
    · by_cases hkk : k = k0
      · subst hkk
        simp only [Config.moveClient, Function.update_self] at hk'
        exact h2 rfl must hk'
      · simp only [Config.moveClient, Function.update_of_ne (Ne.symm hkk)] at hk'
        exact (h3 hkk).trans (hi.empty must hk')
  cases h with
  | destroy _ => exact absurd rfl (hdest _ _)
  | destroyReturn _ => exact absurd rfl (hdest _ _)
  | malloc f a hx _ =>
    exact hmove (fun hne => absurd (hok k f a rfl hx) hne) (fun _ must h' => by cases h') fun _ => rfl
  | @add a _ _ hs =>
    exact hmove (fun hne => absurd rfl (hother hne a)) (fun _ must h' => by cases h')
      fun hne => absurd rfl (hother hne a)
  | @addReturn a _ hs =>
    exact hmove (by simp) (fun _ must h' => by cases h') fun hne => absurd rfl (hother hne a)
  | waitMove hw =>
    cases hw with
    | empty l must hl => exact hmove (by simp) (fun _ _ _ => hl) fun _ => rfl
    | _ => exact hmove (by simp) (by simp) fun _ => rfl
  | _ => exact hmove (by simp) (fun _ must h' => by cases h') fun _ => rfl

theorem windowInv_reach {k0 : κ} {c : State n κ F A}
    (h : Reach (thpool n κ F A).lts (undisturbed k0) c) : WindowInv k0 c := by
  refine Program.invariant ?_ ?_ ?_ h
  · rintro _ ⟨heap, k1, rfl⟩
    refine ⟨fun k _ => ?_, fun _ _ => rfl⟩
    exact initClients_forall (P := fun l => ∀ a, l ≠ .add a) (by simp) (by simp) k1 k
  · intro c i x r hr hi hok hs
    have hq := (queueState_reach (final_of_noDestroy (noDestroy_of_undisturbed hr))).queue
    exact hi.worker hq hok.2 (workerStep_cases hs)
  · intro c k x r hr hi hok hs
    exact hi.client (not_destroyed (noDestroy_of_undisturbed hr)).1 hok.1.2 (callStep_cases hs)

/-- A `thpool_wait` returns when it has read `num_threads_working = 0` in its last loop. -/
theorem wait_returns {k0 : κ} {c c' : State n κ F A} {a : Tid n κ × Input n F A} {must : List Ptr}
    (hs : (thpool n κ F A).lts.next c a = some c') (hk : c.client k0 = .waitWorking .maxPolling must)
    (hk' : c'.client k0 = .outside) :
    c.mem.pool.numThreadsWorking = 0 ∧ c'.worker = c.worker ∧
      c'.mem.pool = { c.mem.pool with waited := c.mem.pool.waited ++ [must] } := by
  rcases Program.next_cases hs with ⟨i, x, r, rfl, hr, rfl⟩ | ⟨k, x, r, rfl, hr, rfl⟩
  · rw [show (c.moveWorker i r).client k0 = c.client k0 from rfl, hk] at hk'
    cases hk'
  · by_cases hkk : k0 = k
    · subst hkk
      have hcs := callStep_cases hr
      obtain ⟨m', l'⟩ := r
      simp only [Config.moveClient, Function.update_self] at hk'
      subst hk'
      rw [hk] at hcs
      cases hcs with
      | waitMove hw => cases hw
      | waitReturn _ hw => exact ⟨hw, rfl, rfl⟩
    · simp only [Config.moveClient, Function.update_of_ne hkk, hk] at hk'
      cases hk'

/-- Only a job that is running, or a client that adds work, has a node to push. -/
theorem executing_of_posNode {p : Pos F A} {j : Ptr} (h : posNode p = some j) : executing p := by
  cases p with
  | run _ _ _ _ => trivial
  | _ => cases h

theorem add_of_callNode {l : Call} {j : Ptr} (h : callNode l = some j) : ∃ a, l = .add a := by
  cases l with
  | add a => exact ⟨a, rfl⟩
  | _ => cases h

/-- **Quiescence.** In every run in which `thpool_add_work` is called only by the client `k0` and by
running jobs, and no job raises `len` while the last loop of its `thpool_wait` is between its two
reads: when the `thpool_wait` of `k0` returns, the queue is empty, no worker is executing a job, and
every job ever made has finished. -/
theorem thpool_wait_quiescent {k0 : κ} {c c' : State n κ F A} {a : Tid n κ × Input n F A}
    {must : List Ptr} (h : Reach (thpool n κ F A).lts (undisturbed k0) c)
    (hs : (thpool n κ F A).lts.next c a = some c') (hk : c.client k0 = .waitWorking .maxPolling must)
    (hk' : c'.client k0 = .outside) :
    c'.mem.pool.len = 0 ∧ (∀ i, ¬ executing (c'.worker i).pos) ∧
      ∀ j < c'.mem.pool.next, j ∈ c'.mem.pool.finished := by
  have hnd := noDestroy_of_undisturbed h
  have hfd := final_of_noDestroy hnd
  have hwin := windowInv_reach h
  obtain ⟨hw, hworker, hpool⟩ := wait_returns hs hk hk'
  have hl := hwin.empty must hk
  have hidle := fun i => idle_of_not_working ((countInv_reach h).none_working hw i)
  rw [hworker, hpool]
  refine ⟨hl, fun i => (hidle i).2.2, fun j hj => ?_⟩
  refine finished_of_working hnd hw j ?_
  rw [← pulled_of_len hfd hl]
  rcases (queueState_reach hfd).queue.all j hj with hm | ⟨t, ht⟩
  · exact hm
  · -- nobody is about to push a node
    rcases t with i | k
    · have ht : posNode (c.worker i).pos = some j := ht
      exact absurd (executing_of_posNode ht) (hidle i).2.2
    · have ht : callNode (c.client k) = some j := ht
      by_cases hkk : k = k0
      · subst hkk; rw [hk] at ht; cases ht
      · obtain ⟨l, hl⟩ := add_of_callNode ht
        exact absurd hl (hwin.others k hkk l)

/-- One round of the race: the worker pulls a job, the client reads `len = 0`, the job adds another and
ends, the worker is no longer counted. -/
def spawnRound (f : ℕ) : List (Tid 1 Unit × Input 1 ℕ ℕ) :=
  let w : Tid 1 Unit := .inl (Fin.last 0)
  let d : Tid 1 Unit := .inr ()
  plainSteps (List.replicate 19 w ++ [d]) ++ [(w, { call := some (.addWork f 0) })] ++
    plainSteps (List.replicate 14 w)

/-- One worker; the client adds a job and waits. In each of the three loops the running job adds another
one between the two reads. -/
def spawnRun : List (Tid 1 Unit × Input 1 ℕ ℕ) :=
  let w : Tid 1 Unit := .inl (Fin.last 0)
  let d : Tid 1 Unit := .inr ()
  plainSteps [w, w, w, d] ++ [(d, { call := some (.addWork 1 0) })] ++ plainSteps (List.replicate 9 d) ++
    [(d, { call := some .wait })] ++ spawnRound 2 ++ plainSteps [d] ++ spawnRound 3 ++ plainSteps [d] ++
    spawnRound 4

theorem ownAdds_of_test (c : State n Unit ℕ ℕ) (a : Tid n Unit × Input n ℕ ℕ)
    (h : noDestroyTest c a = true) : ownAdds () c a :=
  ⟨noDestroy_of_test c a h, fun _ _ _ _ _ => rfl⟩

/-- Only the waiting client and running jobs add work, and yet `thpool_wait` returns with a job in the
queue. -/
theorem wait_fooled_spawnRun : ∃ c c' : State 1 Unit ℕ ℕ,
    Reach (thpool 1 Unit ℕ ℕ).lts (ownAdds ()) c ∧
      (thpool 1 Unit ℕ ℕ).lts.next c (.inr (), {}) = some c' ∧
      c.client () = .waitWorking .maxPolling [0] ∧ c'.client () = .outside ∧
      c'.mem.pool.len = 1 := by
  obtain ⟨c, hc, hp⟩ := reach_of_run (thpool 1 Unit ℕ ℕ).lts ownAdds_of_test spawnRun
    (fun c => decide (c.client () = .waitWorking .maxPolling [0]) &&
      decide (((thpool 1 Unit ℕ ℕ).lts.next c (.inr (), {})).map
        (fun c' => (c'.client (), c'.mem.pool.len)) = some (.outside, 1)))
    ⟨fun _ => ⟨none, 0, 0⟩, (), rfl⟩ (by decide)
  simp only [Bool.and_eq_true, decide_eq_true_eq] at hp
  obtain ⟨hk, hn⟩ := hp
  obtain ⟨c', hs, h1⟩ := Option.map_eq_some_iff.mp hn
  obtain ⟨hk', hl⟩ := Prod.mk.inj h1
  exact ⟨c, c', hc, hs, hk, hk', hl⟩

/-- The test for a step in which no job adds a job. -/
def undisturbedTest (c : State n Unit ℕ ℕ) (a : Tid n Unit × Input n ℕ ℕ) : Bool :=
  noDestroyTest c a && match a.1 with
    | .inl i => !raisesLen (c.worker i) a.2
    | .inr _ => true

theorem undisturbed_of_test (c : State n Unit ℕ ℕ) (a : Tid n Unit × Input n ℕ ℕ)
    (h : undisturbedTest c a = true) : undisturbed () c a := by
  simp only [undisturbedTest, Bool.and_eq_true] at h
  refine ⟨ownAdds_of_test c a h.1, fun i must hi _ => ?_⟩
  have h2 := h.2
  rw [hi] at h2
  simpa using h2

theorem thpool_wait_quiescent_waitRun : ∃ c c' : State 1 Unit ℕ ℕ,
    Reach (thpool 1 Unit ℕ ℕ).lts (undisturbed ()) c ∧
      (thpool 1 Unit ℕ ℕ).lts.next c (.inr (), {}) = some c' ∧
      c.client () = .waitWorking .maxPolling [0] ∧ c'.client () = .outside ∧
      c'.mem.pool.len = 0 := by
  obtain ⟨c, hc, hp⟩ := reach_of_run (thpool 1 Unit ℕ ℕ).lts undisturbed_of_test waitRun
    (fun c => decide (c.client () = .waitWorking .maxPolling [0]) &&
      decide (((thpool 1 Unit ℕ ℕ).lts.next c (.inr (), {})).map (fun c' => c'.client ()) =
        some .outside))
    ⟨fun _ => ⟨none, 0, 0⟩, (), rfl⟩ (by decide)
  simp only [Bool.and_eq_true, decide_eq_true_eq] at hp
  obtain ⟨hk, hn⟩ := hp
  obtain ⟨c', hs, hk'⟩ := Option.map_eq_some_iff.mp hn
  exact ⟨c, c', hc, hs, hk, hk', (thpool_wait_quiescent hc hs hk hk').1⟩

end PoolStudy.Thpool.Wait
