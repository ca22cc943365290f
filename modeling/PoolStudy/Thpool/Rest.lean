import PoolStudy.Lib.Schedules
import PoolStudy.Thpool.Pause
import PoolStudy.Thpool.Semaphore
import PoolStudy.Thpool.Wait

/-! # The linked-queue pool comes to rest

In a pool that is neither paused nor destroyed every job is executed, however the threads are scheduled: once no
further calls are made, all workers end up asleep with the queue empty, and every job a `thpool_add_work` has
made was executed exactly once. A `thpool_wait` that is under way then returns within six of its own steps,
whatever its clocks say (`thpool_comes_to_rest`).

The semaphore saturates, and a post may wake all that sleep, so workers may find the queue empty and go back to
sleep; `measure` accounts for that. A token stands for one round of a worker, a job in the queue for the round
that takes it, the post after it and the sleepers this post may wake. Somebody can always go on (`can_settle`):
`thcount_lock` and the mutex of the semaphore are innermost, whoever owns `rwmutex` waits for the latter at most,
and while there is a job the semaphore strands nobody. -/

namespace PoolStudy.Thpool.Rest

open PoolStudy.Lib.Transition PoolStudy.Lib.Threads PoolStudy.Lib.Schedules PoolStudy.Lib.IntCounter
open PoolStudy.Thpool.Model PoolStudy.Thpool.Steps PoolStudy.Thpool.Teardown PoolStudy.Thpool.Queue
open PoolStudy.Thpool.Jobs PoolStudy.Thpool.Wait PoolStudy.Thpool.Semaphore PoolStudy.Thpool.Pause

variable {n : ℕ} {κ F A : Type}

/-! ### A pool in use -/

/-- The worker is on its way out. -/
def leaves : Pos F A → Prop
  | .exitLock | .exitDec | .exitUnlock | .exited => True
  | _ => False

theorem posStep_stays {i : Fin n} {x : Input n F A} {fl : Flags} {p p' : Pool n κ F A} {w w' : Pos F A}
    (h : PosStep i x fl p w p' w') (hk : fl.threadsKeepalive = true) (hw : ¬ leaves w) : ¬ leaves w' := by
  cases h with
  | countLock h _ => cases h <;> first | exact id | exact absurd trivial hw
  | countUnlock h => cases h <;> first | exact id | exact absurd trivial hw
  | silent h =>
    cases h with
    | leave hf => rw [hk] at hf; cases hf
    | _ => exact id
  | exitDec => exact absurd trivial hw
  | _ => exact id

variable [DecidableEq κ]

/-- **A pool that is neither paused nor destroyed**: no worker is in the signal handler or on its way out. -/
structure InUse (c : State n κ F A) : Prop where
  resumed : Resumed c
  off : ∀ i, (c.worker i).hold = .off
  stays : ∀ i, ¬ leaves (c.worker i).pos
  keepalive : c.mem.flags.threadsKeepalive = true

theorem noDestroy_of_noPause {c : State n κ F A} (h : Reach (thpool n κ F A).lts noPause c) :
    Reach (thpool n κ F A).lts noDestroy c :=
  h.mono fun _ _ hok => hok.1

theorem inUse_reach {c : State n κ F A} (h : Reach (thpool n κ F A).lts noPause c) : InUse c := by
  refine Program.invariant ?_ ?_ ?_ h
  · rintro _ ⟨heap, k0, rfl⟩
    refine ⟨⟨?_, rfl, fun i => by simp [Worker.created], rfl⟩, fun i => rfl, fun i => id, rfl⟩
    exact initClients_forall (P := fun l => ∀ j, l ≠ .pause j) (by simp) (by simp) k0
  · intro c i x r hr hi hok hs
    have hres := next_resumed hi.resumed hok (Program.next_worker hs)
    have hw := workerStep_cases hs
    obtain ⟨m', w'⟩ := r
    cases hw with
    | deliver hsig _ => rw [hi.resumed.signals] at hsig; exact absurd hsig (Finset.notMem_empty i)
    | holdSet hh | holdLoop _ hh | holdEnd _ hh => rw [hi.off i] at hh; cases hh
    | move hh _ hp =>
      refine ⟨hres, ?_, ?_, hi.keepalive⟩
      · exact forall_moveWorker (P := fun _ (w : Worker F A) => w.hold = .off) hh fun j _ => hi.off j
      · exact forall_moveWorker (P := fun _ (w : Worker F A) => ¬ leaves w.pos)
          (posStep_stays hp hi.keepalive (hi.stays i)) fun j _ => hi.stays j
  · intro c k x r hr hi hok hs
    refine ⟨next_resumed hi.resumed hok (Program.next_client hs), hi.off, hi.stays, ?_⟩
    have hd := (not_destroyed (noDestroy_of_noPause hr)).1 k
    have hcs := callStep_cases hs
    show r.1.flags.threadsKeepalive = true
    generalize c.client k = l at hcs hd
    generalize r.1 = m' at hcs ⊢
    generalize r.2 = l' at hcs
    cases hcs with
    | destroy _ | destroyReturn _ => exact absurd rfl (hd _ _)
    | _ => exact hi.keepalive

/-! ### Who sleeps -/

section Sleepers

omit [DecidableEq κ]

theorem addStep_cond {self : Tid n κ} {x : Input n F A} {p p' : Pool n κ F A} {c : Add} {c' : Option Add}
    (h : AddStep self x p c p' c') : p'.hasJobs.cond ⊆ p.hasJobs.cond := by
  cases h with
  | push j hs =>
    cases hs with
    | post ws hw => exact (signal_some hw).1
    | _ => exact Finset.Subset.refl _
  | _ => exact Finset.Subset.refl _

/-- A worker puts nobody to sleep but itself, and then waits. -/
theorem posStep_cond {i : Fin n} {x : Input n F A} {fl : Flags} {p p' : Pool n κ F A} {w w' : Pos F A}
    (h : PosStep i x fl p w p' w') (hi : i ∈ p.hasJobs.cond → w = .semBlocked) :
    (∀ j, j ≠ i → j ∈ p'.hasJobs.cond → j ∈ p.hasJobs.cond) ∧ (i ∈ p'.hasJobs.cond → w' = .semBlocked) := by
  have hstay : p'.hasJobs.cond ⊆ p.hasJobs.cond → w ≠ .semBlocked →
      (∀ j, j ≠ i → j ∈ p'.hasJobs.cond → j ∈ p.hasJobs.cond) ∧ (i ∈ p'.hasJobs.cond → w' = .semBlocked) :=
    fun hsub hne => ⟨fun j _ hj => hsub hj, fun hin => absurd (hi (hsub hin)) hne⟩
  cases h with
  | countLock hw _ => cases hw <;> exact hstay (Finset.Subset.refl _) (by simp)
  | countUnlock hw => cases hw <;> exact hstay (Finset.Subset.refl _) (by simp)
  | silent hw => cases hw <;> exact hstay (Finset.Subset.refl _) (by simp)
  | semLock hw _ =>
    rcases hw with rfl | ⟨rfl, hni⟩
    · exact hstay (Finset.Subset.refl _) (by simp)
    · exact ⟨fun j _ hj => hj, fun hin => absurd hin hni⟩
  | semBlock hv => exact ⟨fun j hj hin => Finset.mem_of_mem_insert_of_ne hin hj, fun _ => rfl⟩
  | spurious _ => exact ⟨fun j _ hin => Finset.mem_of_mem_erase hin, fun _ => rfl⟩
  | pull hs =>
    cases hs with
    | post j ws hw => exact hstay (signal_some hw).1 (by simp)
    | _ => exact hstay (Finset.Subset.refl _) (by simp)
  | add j f a hs => exact hstay (addStep_cond hs) (by simp)
  | _ => exact hstay (Finset.Subset.refl _) (by simp)

end Sleepers

/-- **Whoever sleeps is in `bsem_wait`.** -/
theorem blocked_of_cond {c : State n κ F A} (h : Reach (thpool n κ F A).lts noDestroy c) :
    ∀ i ∈ c.mem.pool.hasJobs.cond, (c.worker i).pos = .semBlocked := by
  refine Program.invariant (I := fun c : State n κ F A =>
    ∀ i ∈ c.mem.pool.hasJobs.cond, (c.worker i).pos = .semBlocked) ?_ ?_ ?_ h
  · rintro _ ⟨heap, k0, rfl⟩ i hi
    simp [Pool.created, Bsem.init] at hi
  · intro c i x r _ hi _ hs
    have hw := workerStep_cases hs
    obtain ⟨m', w'⟩ := r
    have hmove : (∀ j, j ≠ i → j ∈ m'.pool.hasJobs.cond → j ∈ c.mem.pool.hasJobs.cond) →
        (i ∈ m'.pool.hasJobs.cond → w'.pos = .semBlocked) →
        ∀ j ∈ m'.pool.hasJobs.cond, ((c.moveWorker i (m', w')).worker j).pos = .semBlocked := fun h1 h2 =>
      forall_moveWorker (P := fun j (w : Worker F A) => j ∈ m'.pool.hasJobs.cond → w.pos = .semBlocked) h2
        fun j hj hin => hi j (h1 j hj hin)
    cases hw with
    | move _ _ hp =>
      obtain ⟨h1, h2⟩ := posStep_cond hp (hi i)
      exact hmove h1 h2
    | _ => exact hmove (fun _ _ hj => hj) (hi i)
  · intro c k x r hr hi _ hs i hin
    refine hi i ?_
    have hd := (not_destroyed hr).1 k
    have hcs := callStep_cases hs
    change i ∈ r.1.pool.hasJobs.cond at hin
    generalize c.client k = l at hcs hd
    generalize r.1 = m' at hcs hin
    generalize r.2 = l' at hcs
    cases hcs with
    | add hs | addReturn hs => exact addStep_cond hs hin
    | destroy _ | destroyReturn _ => exact absurd rfl (hd _ _)
    | _ => exact hin

/-! ### The measure -/

/-- The steps a `thpool_add_work` has left, and what it may cause: a token and a job in the queue. -/
def addWeight (n : ℕ) : Option Add → ℕ
  | none => 0
  | some (.lock _) => 4 * n + 68
  | some (.push _ s) =>
    match s with
    | .prev => 4 * n + 67
    | .switch => 4 * n + 66
    | .front | .rearPrev => 4 * n + 65
    | .rear | .rearNew => 4 * n + 64
    | .inc => 4 * n + 63
    | .postLock => 2 * n + 24
    | .post => 2 * n + 23
    | .ret => 1

/-- The steps a `jobqueue_pull` has left with the round it is part of. While the job is in the queue, it stands
for most of them. -/
def pullWeight (n : ℕ) : Pull → ℕ
  | .front => 16
  | .switch _ => 15
  | .front1 _ => 3
  | .rear1 _ | .frontPrev _ => 2
  | .dec _ => 1
  | .ifLen _ => 2 * n + 38
  | .postLock _ => 2 * n + 37
  | .post _ => 2 * n + 36
  | .ret _ => 14

/-- The steps a worker has left to its next test of the semaphore. -/
def posWeight (n : ℕ) : Pos F A → ℕ
  | .aliveLock => 7
  | .aliveInc => 6
  | .aliveUnlock => 5
  | .loop => 4
  | .semLock | .semBlocked => 2
  | .semTest => 1
  | .keep => 21
  | .workLock => 20
  | .workInc => 19
  | .workUnlock => 18
  | .pullLock => 17
  | .pull q => pullWeight n q
  | .ifJob _ => 13
  | .func _ => 12
  | .arg _ _ => 11
  | .call _ _ _ => 10
  | .run _ _ _ c => 9 + addWeight n c
  | .free _ => 8
  | .doneLock => 7
  | .doneDec => 6
  | .doneUnlock => 5
  | .exitLock => 3
  | .exitDec => 2
  | .exitUnlock => 1
  | .exited => 0

def workerWeight (n : ℕ) (w : Worker F A) : ℕ := posWeight n w.pos

def callWeight (n : ℕ) : Call → ℕ
  | .initSpin => 1
  | .add c => addWeight n (some c)
  | _ => 0

/-- What the memory stands for: the jobs in the queue, the token, and the workers that do not sleep. -/
def memWeight (p : Pool n κ F A) : ℕ :=
  (2 * n + 38) * p.len.toNat + (if p.hasJobs.v = 1 then 21 else 0) + 2 * p.hasJobs.condᶜ.card

/-- **The measure**, for the clients in `K`. -/
def measure (K : Finset κ) (c : State n κ F A) : ℕ :=
  memWeight c.mem.pool + weigh (workerWeight n) (callWeight n) K c

section Weights

omit [DecidableEq κ]

theorem memWeight_lt {p p' : Pool n κ F A} {a b : ℕ} (hl : p'.len = p.len) (hv : p'.hasJobs.v = p.hasJobs.v)
    (hc : p'.hasJobs.cond = p.hasJobs.cond) (h : a < b) : memWeight p' + a < memWeight p + b := by
  rw [memWeight, memWeight, hl, hv, hc]
  omega

/-- A post leaves a token and may wake all that sleep. -/
theorem memWeight_post (p : Pool n κ F A) (ws : Finset (Fin n)) :
    memWeight { p with hasJobs := { mutex := none, cond := ws, v := 1 } } ≤ memWeight p + (2 * n + 21) := by
  have hws := card_compl_le ws
  simp only [memWeight, if_true]
  split_ifs <;> omega

/-- A job more in the queue. -/
theorem memWeight_raise (p p' : Pool n κ F A) (h0 : 0 ≤ p.len) (hl : p'.len = wrap (p.len + 1))
    (hv : p'.hasJobs = p.hasJobs) : memWeight p' ≤ memWeight p + (2 * n + 38) := by
  have hle : wrap (p.len + 1) ≤ p.len + 1 := wrap_le (by omega)
  have hn : p'.len.toNat ≤ p.len.toNat + 1 := by omega
  have hmul := Nat.mul_le_mul_left (2 * n + 38) hn
  rw [Nat.mul_succ] at hmul
  rw [memWeight, memWeight, hv]
  omega

/-- A job less in the queue. -/
theorem memWeight_lower (p p' : Pool n κ F A) (h0 : 0 < p.len) (hl : p'.len = wrap (p.len - 1))
    (hv : p'.hasJobs = p.hasJobs) : memWeight p' + (2 * n + 38) ≤ memWeight p := by
  have hle : wrap (p.len - 1) ≤ p.len - 1 := wrap_le (by omega)
  have hn : p'.len.toNat + 1 ≤ p.len.toNat := by omega
  have hmul := Nat.mul_le_mul_left (2 * n + 38) hn
  rw [Nat.mul_succ] at hmul
  rw [memWeight, memWeight, hv]
  omega

theorem addStep_weight {self : Tid n κ} {x : Input n F A} {p p' : Pool n κ F A} {c : Add} {c' : Option Add}
    (h : AddStep self x p c p' c') (h0 : 0 ≤ p.len) :
    memWeight p' + addWeight n c' < memWeight p + addWeight n (some c) := by
  cases h with
  | lock j _ | unlock j => exact memWeight_lt rfl rfl rfl (by simp [addWeight])
  | push j hs =>
    cases hs with
    | inc =>
      have hw := memWeight_raise p { p with len := wrap (p.len + 1), pushed := p.pushed ++ [j] } h0 rfl rfl
      simp only [addWeight]
      omega
    | post ws _ =>
      have hw := memWeight_post p ws
      simp only [addWeight]
      omega
    | _ => exact memWeight_lt rfl rfl rfl (by simp [addWeight])

theorem pullStep_weight {self : Tid n κ} {x : Input n F A} {p p' : Pool n κ F A} {q q' : Pull}
    (h : PullStep self x p q p' q') (hdec : ∀ j, q = .dec j → 0 < p.len) :
    memWeight p' + pullWeight n q' < memWeight p + pullWeight n q := by
  cases h with
  | dec j =>
    have hw := memWeight_lower p { p with len := wrap (p.len - 1), pulled := p.pulled ++ j.toList } (hdec j rfl)
      rfl rfl
    simp only [pullWeight]
    omega
  | post j ws _ =>
    have hw := memWeight_post p ws
    simp only [pullWeight]
    omega
  | _ => exact memWeight_lt rfl rfl rfl (by simp [pullWeight])

/-- **A step of a worker** makes the weights smaller, unless its job adds a job or it wakes up for no reason. -/
theorem posStep_weight {i : Fin n} {x : Input n F A} {fl : Flags} {p p' : Pool n κ F A} {w w' : Pos F A}
    (h : PosStep i x fl p w p' w') (h0 : 0 ≤ p.len) (hdec : ∀ j, w = .pull (.dec j) → 0 < p.len)
    (hi : i ∉ p.hasJobs.cond) (hcall : ∀ j f a, w = .run j f a none → w' = .free j) :
    memWeight p' + posWeight n w' < memWeight p + posWeight n w := by
  cases h with
  | countLock hw _ => cases hw <;> exact memWeight_lt rfl rfl rfl (by simp [posWeight])
  | countUnlock hw => cases hw <;> exact memWeight_lt rfl rfl rfl (by simp [posWeight])
  | silent hw =>
    cases hw with
    | addFail j f a => exact absurd (hcall j f a rfl) (by simp)
    | _ => exact memWeight_lt rfl rfl rfl (by simp [posWeight])
  | semLock hw _ =>
    rcases hw with rfl | ⟨rfl, -⟩ <;> exact memWeight_lt rfl rfl rfl (by simp [posWeight])
  | semBlock hv =>
    have hcard := card_compl_insert hi
    simp only [memWeight, posWeight]
    omega
  | semTake hv =>
    simp only [memWeight, posWeight, hv, if_true]
    rw [if_neg (by decide)]
    omega
  | spurious hin => exact absurd hin hi
  | pull hs => exact pullStep_weight hs fun j hj => hdec j (by rw [hj])
  | pullUnlock j => exact memWeight_lt rfl rfl rfl (by simp [posWeight, pullWeight])
  | pullLock _ => exact memWeight_lt rfl rfl rfl (by simp [posWeight, pullWeight])
  | malloc j f a f' a' => exact absurd (hcall j f a rfl) (by simp)
  | add j f a hs =>
    have hw := addStep_weight hs h0
    simp only [posWeight]
    omega
  | _ => exact memWeight_lt rfl rfl rfl (by simp [posWeight, addWeight])

end Weights

/-! ### Who can go on -/

/-- The `thpool_add_work` is at the lock of the semaphore. -/
def addWantsSem : Option Add → Prop
  | some (.push _ .postLock) => True
  | _ => False

/-- The worker is at a lock of `thcount_lock`. -/
def wantsCount : Pos F A → Prop
  | .aliveLock | .workLock | .doneLock => True
  | _ => False

/-- The worker is at a lock of the semaphore. -/
def wantsSem : Pos F A → Prop
  | .semLock | .semBlocked | .pull (.postLock _) => True
  | .run _ _ _ c => addWantsSem c
  | _ => False

/-- The thread is at a lock of `rwmutex`. -/
def wantsQueue : Pos F A → Prop
  | .pullLock | .run _ _ _ (some (.lock _)) => True
  | _ => False

/-- No pointer is followed that is `NULL`. -/
def Access.safe (p : Pool n κ F A) : Access → Prop
  | .push _ .rearPrev => p.rear ≠ none
  | .pull (.frontPrev j) => j ≠ none
  | _ => True

section Goes

omit [DecidableEq κ]

theorem At.safe {p : Pool n κ F A} {q : List Ptr} {a : Access} (h : At p q a) : Access.safe p a := by
  cases a with
  | out => trivial
  | push j s =>
    cases s with
    | rearPrev =>
      obtain ⟨-, hr, hne, -⟩ := h
      intro hrear
      rw [hr.rear, List.getLast?_eq_none_iff] at hrear
      exact hne hrear
    | _ => trivial
  | pull s =>
    cases s with
    | frontPrev j =>
      obtain ⟨-, r, l, rfl, -⟩ := h
      simp [Access.safe]
    | _ => trivial

/-- A worker that owns `thcount_lock` or the mutex of the semaphore waits for no mutex, and one that owns `rwmutex`
at most for that of the semaphore. -/
theorem wants_none_of_count {w : Worker F A} (h : holdsCount w) :
    w.pos ≠ .semBlocked ∧ ¬ wantsCount w.pos ∧ ¬ wantsSem w.pos ∧ ¬ wantsQueue w.pos := by
  obtain ⟨pos, hold⟩ := w
  cases pos <;> first | exact absurd h id | exact ⟨by simp, id, id, id⟩

theorem wants_none_of_sem {w : Worker F A} (h : holdsSem w) :
    w.pos ≠ .semBlocked ∧ ¬ wantsCount w.pos ∧ ¬ wantsSem w.pos ∧ ¬ wantsQueue w.pos := by
  obtain ⟨pos, hold⟩ := w
  cases pos with
  | semTest => exact ⟨by simp, id, id, id⟩
  | pull q =>
    cases q with
    | post j => exact ⟨by simp, id, id, id⟩
    | _ => exact absurd h id
  | run j f a c =>
    rcases c with _ | (j' | ⟨j', s⟩)
    · exact absurd h id
    · exact absurd h id
    · cases s with
      | post => exact ⟨by simp, id, id, id⟩
      | _ => exact absurd h id
  | _ => exact absurd h id

theorem wants_sem_of_access {w : Pos F A} (h : posAccess w ≠ .out) :
    w ≠ .semBlocked ∧ ¬ wantsCount w ∧ ¬ wantsQueue w := by
  cases w with
  | pull q => exact ⟨by simp, id, id⟩
  | run j f a c =>
    rcases c with _ | (j' | ⟨j', s⟩)
    · exact absurd rfl h
    · exact absurd rfl h
    · exact ⟨by simp, id, id⟩
  | _ => exact absurd rfl h

/-- A `thpool_add_work` goes on, unless it waits for a mutex. -/
theorem add_goes (self : Tid n κ) {p : Pool n κ F A} {c : Add} (hsem : addWantsSem (some c) → p.hasJobs.mutex = none)
    (hrw : ∀ j, c = .lock j → p.rwmutex = none) (hsafe : Access.safe p (addAccess (some c))) :
    (addStep self { wake := p.hasJobs.cond } p c).isSome = true := by
  cases c with
  | lock j => simp [addStep, hrw j rfl]
  | push j s =>
    cases s with
    | rearPrev =>
      obtain ⟨r, hr⟩ := Option.ne_none_iff_exists'.mp (show p.rear ≠ none from hsafe)
      simp [addStep, pushStep, hr]
    | postLock => simp [addStep, pushStep, Pool.lockSem, hsem trivial]
    | post =>
      -- the signal may wake all that sleep
      simp [addStep, pushStep, Pool.bsemPost, signal]
    | _ => simp [addStep, pushStep]

/-- A worker goes on, unless it sleeps, has left or waits for a mutex. -/
theorem pos_goes (i : Fin n) (fl : Flags) {p : Pool n κ F A} {w : Pos F A} (hw : ¬ leaves w)
    (hs : w = .semBlocked → i ∉ p.hasJobs.cond) (hcount : wantsCount w → p.thcountLock = none)
    (hsem : wantsSem w → p.hasJobs.mutex = none) (hrw : wantsQueue w → p.rwmutex = none)
    (hsafe : Access.safe p (posAccess w)) :
    (threadDo i { wake := p.hasJobs.cond } fl p w).isSome = true := by
  cases w with
  | aliveLock | workLock | doneLock => simp [threadDo, Pool.lockCount, hcount trivial]
  | semLock => simp [threadDo, Pool.lockSem, hsem trivial]
  | semBlocked => simp [threadDo, hs rfl, Pool.lockSem, hsem trivial]
  | semTest =>
    simp only [threadDo]
    split_ifs <;> rfl
  | pullLock => simp [threadDo, hrw trivial]
  | pull q =>
    cases q with
    | frontPrev j =>
      obtain ⟨r, rfl⟩ := Option.ne_none_iff_exists'.mp (show j ≠ none from hsafe)
      simp [threadDo, pullStep]
    | postLock j => simp [threadDo, pullStep, Pool.lockSem, hsem trivial]
    | post j => simp [threadDo, pullStep, Pool.bsemPost, signal]
    | _ => simp [threadDo, pullStep]
  | ifJob j => cases j <;> simp [threadDo]
  | run j f a c =>
    cases c with
    | none => simp [threadDo, runStep]
    | some c =>
      have hgo := add_goes (.inl i) hsem (fun j hj => hrw (by rw [hj]; trivial)) hsafe
      simpa [threadDo, runStep] using hgo
  | exitLock | exitDec | exitUnlock | exited => exact absurd trivial hw
  | _ => simp [threadDo]

end Goes

/-- **The steps that begin nothing**: no call is made, no sleeper wakes up for no reason, and no `thpool_wait`
polls. -/
def settles (c : State n κ F A) (a : Tid n κ × Input n F A) : Prop :=
  a.2.call = none ∧ (∀ i, a.1 = .inl i → ¬ asleep c i) ∧
    ∀ k, a.1 = .inr k → c.client k = .initSpin ∨ ∃ l, c.client k = .add l

/-- A worker that is not in the handler goes on if `thread_do` does. -/
theorem settles_worker {c : State n κ F A} {i : Fin n} (hoff : (c.worker i).hold = .off) (ha : ¬ asleep c i)
    (h : (threadDo i { wake := c.mem.pool.hasJobs.cond } c.mem.flags c.mem.pool (c.worker i).pos).isSome = true) :
    ∃ c', Step (thpool n κ F A).lts settles c c' := by
  obtain ⟨r, hr⟩ := Option.isSome_iff_exists.mp h
  refine ⟨_, (.inl i, { wake := c.mem.pool.hasJobs.cond }), ⟨rfl, fun j hj => ?_, fun k hk => by cases hk⟩,
    Program.next_worker (r := ({ c.mem with pool := r.1 }, { c.worker i with pos := r.2 })) ?_⟩
  · rw [← Sum.inl.inj hj]
    exact ha
  · show workerStep i _ c.mem (c.worker i) = _
    simp [workerStep, hoff, hr]

theorem settles_client {c : State n κ F A} {k : κ} {x : Input n F A} (hx : x.call = none)
    (hk : c.client k = .initSpin ∨ ∃ l, c.client k = .add l)
    (h : (callStep k x c.mem (c.client k)).isSome = true) :
    ∃ c', Step (thpool n κ F A).lts settles c c' := by
  obtain ⟨r, hr⟩ := Option.isSome_iff_exists.mp h
  refine ⟨_, (.inr k, x), ⟨hx, fun i hi => (by cases hi), fun k' hk' => ?_⟩, Program.next_client hr⟩
  rw [← Sum.inr.inj hk']
  exact hk

/-! ### Rest -/

/-- The client is outside the library or in a `thpool_wait`. -/
def idle : Call → Prop
  | .outside | .waitLen _ _ | .waitWorking _ _ => True
  | _ => False

/-- **The pool is at rest**: all workers sleep, the queue is empty and nobody is counted as working, no call but
`thpool_wait` is under way, and every job made was executed exactly once. -/
structure AtRest (c : State n κ F A) : Prop where
  asleep : ∀ i, asleep c i
  clients : ∀ k, idle (c.client k)
  len : c.mem.pool.len = 0
  working : c.mem.pool.numThreadsWorking = 0
  executed : ∀ j < c.mem.pool.next,
    (c.mem.pool.executed.map Prod.fst).count j = 1 ∧ c.mem.pool.finished.count j = 1

/-- With all workers asleep and no call under way, every job made was executed. -/
theorem atRest_of_asleep (hn : 0 < n) {c : State n κ F A} (h : Reach (thpool n κ F A).lts noPause c)
    (hall : ∀ i, Semaphore.asleep c i) (hidle : ∀ k, idle (c.client k)) : AtRest c := by
  have hnd := noDestroy_of_noPause h
  have hfin := final_of_noDestroy hnd
  have hsem := semInv_reach hn h
  have hqueue := (queueState_reach hfin).queue
  have hposts : ∀ t, c.view serves callPosts t = false := by
    rintro (i | k)
    · simp [serves, (hall i).1, towardsPull, posts]
    · have hk := hidle k
      cases hc : c.client k <;> simp_all [idle, callPosts]
  have hlen : c.mem.pool.len = 0 := by
    obtain ⟨-, -, -, q, -, hat⟩ := hqueue.guard.data
    have hq := at_len hat
    by_contra hne
    rcases hsem.cover (inUse_reach h).keepalive (by omega) with hv | ⟨t, ht⟩
    · obtain ⟨i, hi⟩ := hsem.token hv
      exact hi (hall i).2
    · rw [hposts t] at ht
      cases ht
  have hwork : c.mem.pool.numThreadsWorking = 0 := by
    rw [(countInv_reach h).working]
    exact Finset.sum_eq_zero fun i _ => by rw [(hall i).1]; rfl
  refine ⟨hall, hidle, hlen, hwork, fun j hj => finished_once hfin (finished_of_working hnd hwork j ?_)⟩
  rw [← pulled_of_len hfin hlen]
  refine (hqueue.all j hj).resolve_right ?_
  rintro ⟨i | k, ht⟩
  · simp [workerNode, (hall i).1, posNode] at ht
  · have hk := hidle k
    cases hc : c.client k <;> simp_all [idle, callNode]

/-- **A pool that is not at rest can go on.** -/
theorem can_settle (hn : 0 < n) {c : State n κ F A} (h : Reach (thpool n κ F A).lts noPause c)
    (hrest : ¬ AtRest c) : ∃ c', Step (thpool n κ F A).lts settles c c' := by
  have huse := inUse_reach h
  have hsem := (semInv_reach hn h).owned huse.keepalive
  have hcount := count_owned h
  have hguard := (queueState_reach (final_of_noDestroy (noDestroy_of_noPause h))).queue.guard
  have hdestroy := (not_destroyed (noDestroy_of_noPause h)).1
  have hsafe : ∀ t, Access.safe c.mem.pool (c.view workerAccess callAccess t) := by
    intro t
    by_cases ht : c.view workerAccess callAccess t = .out
    · rw [ht]; trivial
    · obtain ⟨-, -, -, q, -, hat⟩ := hguard.mine (t := t) fun h => absurd h ht
      exact At.safe hat
  by_contra hstuck
  have hgoes : ∀ i, ¬ Semaphore.asleep c i → (wantsCount (c.worker i).pos → c.mem.pool.thcountLock = none) →
      (wantsSem (c.worker i).pos → c.mem.pool.hasJobs.mutex = none) →
      (wantsQueue (c.worker i).pos → c.mem.pool.rwmutex = none) → False := fun i ha h1 h2 h3 =>
    hstuck (settles_worker (huse.off i) ha (pos_goes i c.mem.flags (huse.stays i)
      (fun hw hi => ha ⟨hw, hi⟩) h1 h2 h3 (hsafe (.inl i))))
  have hcalls : ∀ k l, c.client k = .add l → (addWantsSem (some l) → c.mem.pool.hasJobs.mutex = none) →
      (∀ j, l = .lock j → c.mem.pool.rwmutex = none) → False := by
    intro k l hl h1 h2
    have hs := hsafe (.inr k)
    rw [view_inr, hl] at hs
    have hgo := add_goes (.inr k) h1 h2 hs
    refine hstuck (settles_client (x := { wake := c.mem.pool.hasJobs.cond }) rfl (Or.inr ⟨l, hl⟩) ?_)
    simpa [hl, callStep] using hgo
  -- nobody owns the innermost mutexes: their owners could go on
  have hcfree : c.mem.pool.thcountLock = none := by
    by_contra hl
    obtain ⟨i | k, hl⟩ := Option.ne_none_iff_exists'.mp hl
    · obtain ⟨h1, h2, h3, h4⟩ := wants_none_of_count ((hcount.worker i).mpr hl)
      exact hgoes i (fun ha => h1 ha.1) (fun h => absurd h h2) (fun h => absurd h h3) fun h => absurd h h4
    · exact (hcount.client k).mpr hl
  have hsfree : c.mem.pool.hasJobs.mutex = none := by
    by_contra hl
    obtain ⟨i | k, hl⟩ := Option.ne_none_iff_exists'.mp hl
    · obtain ⟨h1, h2, h3, h4⟩ := wants_none_of_sem ((hsem.worker i).mpr hl)
      exact hgoes i (fun ha => h1 ha.1) (fun h => absurd h h2) (fun h => absurd h h3) fun h => absurd h h4
    · have hh := (hsem.client k).mpr hl
      cases hc : c.client k with
      | add l =>
        rw [hc] at hh
        rcases l with j | ⟨j, s⟩
        · exact hh
        · refine hcalls k _ hc (fun hw => ?_) fun j hj => by cases hj
          cases s <;> first | exact absurd hh id | exact absurd hw id
      | destroy total d => exact hdestroy k total d hc
      | _ => rw [hc] at hh; exact hh
  -- nor does anybody own `rwmutex`
  have hrfree : c.mem.pool.rwmutex = none := by
    by_contra hl
    obtain ⟨i | k, hl⟩ := Option.ne_none_iff_exists'.mp hl
    · obtain ⟨h1, h2, h3⟩ := wants_sem_of_access ((hguard.owned (.inl i)).mpr hl)
      exact hgoes i (fun ha => h1 ha.1) (fun h => absurd h h2) (fun _ => hsfree) fun h => absurd h h3
    · have hacc := (hguard.owned (.inr k)).mpr hl
      rw [view_inr] at hacc
      cases hc : c.client k with
      | add l =>
        refine hcalls k l hc (fun _ => hsfree) fun j hj => ?_
        rw [hc, hj] at hacc
        exact absurd rfl hacc
      | _ => rw [hc] at hacc; exact hacc rfl
  have hall : ∀ i, Semaphore.asleep c i := by
    intro i
    by_contra ha
    exact hgoes i ha (fun _ => hcfree) (fun _ => hsfree) fun _ => hrfree
  refine hrest (atRest_of_asleep hn h hall fun k => ?_)
  cases hc : c.client k with
  | outside | waitLen _ _ | waitWorking _ _ => trivial
  | initSpin =>
    refine hstuck (settles_client (k := k) (x := {}) rfl (Or.inl hc) ?_)
    have halive : c.mem.pool.numThreadsAlive = n := by
      rw [(countInv_reach h).alive, Finset.sum_congr rfl fun i _ => by rw [(hall i).1]]
      simp [isAlive]
    simp [hc, callStep, halive]
  | add l => exact hcalls k l hc (fun _ => hsfree) fun _ _ => hrfree
  | destroy total d => exact hdestroy k total d hc
  | pause j => exact huse.resumed.clients k j hc

/-- **Every step that begins nothing makes the measure smaller.** -/
theorem measure_lt {K : Finset κ} {c c' : State n κ F A} {a : Tid n κ × Input n F A}
    (h : Reach (thpool n κ F A).lts noPause c) (hK : ∀ k ∉ K, c.client k = .outside) (ha : settles c a)
    (hs : (thpool n κ F A).lts.next c a = some c') :
    (∀ k ∉ K, c'.client k = .outside) ∧ measure K c' < measure K c := by
  have huse := inUse_reach h
  have hnd := noDestroy_of_noPause h
  have hguard := (queueState_reach (final_of_noDestroy hnd)).queue.guard
  have h0 : 0 ≤ c.mem.pool.len := by
    obtain ⟨-, -, -, q, -, hat⟩ := hguard.data
    rw [at_len hat]
    omega
  obtain ⟨hcall, hsleep, hpoll⟩ := ha
  rcases Program.next_cases hs with ⟨i, x, r, rfl, hr, rfl⟩ | ⟨k, x, r, rfl, hr, rfl⟩
  · refine ⟨hK, ?_⟩
    have hnot : i ∉ c.mem.pool.hasJobs.cond := fun hin => hsleep i rfl ⟨blocked_of_cond hnd i hin, hin⟩
    have hdec : ∀ j, (c.worker i).pos = .pull (.dec j) → 0 < c.mem.pool.len := by
      intro j hw
      have hacc : c.view workerAccess callAccess (.inl i) = .pull (.dec j) := by
        simp [workerAccess, hw, posAccess]
      obtain ⟨-, -, -, q, -, hat⟩ := hguard.mine (t := .inl i) (by simp [hacc])
      rw [hacc] at hat
      obtain ⟨-, l, -, -, -, -, hl⟩ := hat
      omega
    have hfree : ∀ j f a, (c.worker i).pos = .run j f a none → r.2.pos = .free j := by
      intro j f a hw
      change workerStep i x c.mem (c.worker i) = some r at hr
      have hsig := huse.resumed.signals
      simp only [workerStep, huse.off i, hsig, Finset.notMem_empty, if_false, hw, threadDo, runStep,
        show x.call = none from hcall, Option.map_some] at hr
      split_ifs at hr
      rw [← Option.some.inj hr]
    have hw := workerStep_cases hr
    have hsum := weigh_moveWorker (workerWeight n) (callWeight n) K c i r
    obtain ⟨m', w'⟩ := r
    cases hw with
    | deliver hsig _ => rw [huse.resumed.signals] at hsig; exact absurd hsig (Finset.notMem_empty i)
    | holdSet hh | holdLoop _ hh | holdEnd _ hh => rw [huse.off i] at hh; cases hh
    | @move p' w'' _ _ hp =>
      have hlt : memWeight p' + posWeight n w'' < memWeight c.mem.pool + posWeight n (c.worker i).pos :=
        posStep_weight hp h0 hdec hnot hfree
      simp only [workerWeight] at hsum
      show memWeight p' + _ < memWeight c.mem.pool + _
      omega
  · have hout : c.client k ≠ .outside := by
      rcases hpoll k rfl with hk | ⟨l, hk⟩ <;> simp [hk]
    obtain ⟨hkK, hrest⟩ := moved_stay (Q := (· = .outside)) hK hout r
    refine ⟨hrest, ?_⟩
    have hsum := weigh_moveClient (workerWeight n) (callWeight n) K c hkK r
    have hcs := callStep_cases hr
    have hlt : memWeight r.1.pool + callWeight n r.2 < memWeight c.mem.pool + callWeight n (c.client k) := by
      have hk := hpoll k rfl
      generalize c.client k = l at hcs hk
      generalize r.1 = m' at hcs ⊢
      generalize r.2 = l' at hcs ⊢
      cases hcs with
      | initReady _ => exact memWeight_lt rfl rfl rfl (by simp [callWeight])
      | add hs => exact addStep_weight hs h0
      | addReturn hs => exact addStep_weight hs h0
      | waitMove hw => rcases hk with rfl | ⟨l, rfl⟩ <;> cases hw
      | _ => simp at hk
    show memWeight r.1.pool + _ < memWeight c.mem.pool + _
    omega

/-! ### The waits -/

/-- Only the client `k` moves, and begins no call. -/
def alone (k : κ) (_ : State n κ F A) (a : Tid n κ × Input n F A) : Prop := a.1 = .inr k ∧ a.2.call = none

/-- The reads a `thpool_wait` has left if they all find nothing. -/
def waitWeight : Call → ℕ
  | .waitLen .continuous _ => 6
  | .waitWorking .continuous _ => 5
  | .waitLen .exponential _ => 4
  | .waitWorking .exponential _ => 3
  | .waitLen .maxPolling _ => 2
  | .waitWorking .maxPolling _ => 1
  | _ => 0

omit [DecidableEq κ] in
/-- **A step of `thpool_wait`** that finds nothing is one read less. -/
theorem wait_step {k : κ} {x : Input n F A} {m : Mem n κ F A} {c : Call} {r : Mem n κ F A × Call}
    (hs : callStep k x m c = some r) (hc : idle c) (hout : c ≠ .outside) (hl : m.pool.len = 0)
    (hw : m.pool.numThreadsWorking = 0) :
    r.1.pool.len = 0 ∧ r.1.pool.numThreadsWorking = 0 ∧ idle r.2 ∧ waitWeight r.2 < waitWeight c := by
  cases c with
  | outside => exact absurd rfl hout
  | waitLen l must =>
    cases hs
    refine ⟨hl, hw, ?_⟩
    cases l <;> simp only [waitLen, hl] <;> split_ifs <;> simp_all [idle, waitWeight]
  | waitWorking l must =>
    cases hs
    cases l <;> simp [waitWorking, hw, hl, idle, waitWeight]
  | _ => exact absurd hc id

/-- In a pool at rest a `thpool_wait` returns. -/
theorem wait_ends {c : State n κ F A} (h : AtRest c) (k : κ) :
    Inevitable (thpool n κ F A).lts (alone k) (fun c' => c'.client k = .outside) c := by
  refine inevitable_of_measure (I := fun c : State n κ F A => c.mem.pool.len = 0 ∧
    c.mem.pool.numThreadsWorking = 0 ∧ idle (c.client k)) (fun c => waitWeight (c.client k)) ?_ ?_
    ⟨h.len, h.working, h.clients k⟩
  · rintro c ⟨t, x⟩ c' ⟨hl, hw, hc⟩ hout ⟨rfl, -⟩ hs
    obtain ⟨r, hr, rfl⟩ := Option.map_eq_some_iff.mp hs
    obtain ⟨hl', hw', hc', hlt⟩ := wait_step hr hc hout hl hw
    rw [moveClient_self]
    exact ⟨⟨hl', hw', hc'⟩, hlt⟩
  · rintro c ⟨hl, hw, hc⟩ hout
    have hgo : (callStep k ({} : Input n F A) c.mem (c.client k)).isSome = true := by
      cases hk : c.client k with
      | outside => exact absurd hk hout
      | waitLen l must => rfl
      | waitWorking l must => rfl
      | _ => rw [hk] at hc; exact absurd hc id
    obtain ⟨r, hr⟩ := Option.isSome_iff_exists.mp hgo
    exact ⟨_, (.inr k, {}), ⟨rfl, rfl⟩, Program.next_client hr⟩

/-- **The pool comes to rest on every schedule.** In every state reached without `thpool_pause` and
`thpool_destroy`, of a pool with a worker: once no further calls are made and no sleeper wakes up for no reason,
the pool comes to rest, in whatever order the threads take their steps and whichever workers the posts wake, and
every `thpool_wait` then returns. -/
theorem thpool_comes_to_rest (hn : 0 < n) {c : State n κ F A} (h : Reach (thpool n κ F A).lts noPause c) :
    Inevitable (thpool n κ F A).lts settles (fun c' => AtRest c' ∧
      ∀ k, Inevitable (thpool n κ F A).lts (alone k) (fun c'' => c''.client k = .outside) c') c := by
  obtain ⟨K, hK⟩ := finite_moved (Q := (· = .outside)) (by
    rintro _ ⟨heap, k0, rfl⟩
    refine ⟨{k0}, fun k hk => ?_⟩
    exact if_neg (by simpa using hk)) h
  refine Inevitable.mono (fun c' hc' => ⟨hc', wait_ends hc'⟩) (inevitable_of_measure (I := fun c : State n κ F A =>
    Reach (thpool n κ F A).lts noPause c ∧ ∀ k ∉ K, c.client k = .outside) (measure K) ?_ ?_ ⟨h, hK⟩)
  · rintro c a c' ⟨hr, hK⟩ - ha hs
    obtain ⟨hK', hlt⟩ := measure_lt hr hK ha hs
    exact ⟨⟨hr.next ⟨by simp [ha.1], by simp [ha.1]⟩ hs, hK'⟩, hlt⟩
  · rintro c ⟨hr, -⟩ hrest
    exact can_settle hn hr hrest

/-- The test for a step that neither pauses nor destroys the pool. -/
def noPauseTest (_ : State n Unit ℕ ℕ) (a : Tid n Unit × Input n ℕ ℕ) : Bool :=
  decide (a.2.call ≠ some .destroy) && decide (a.2.call ≠ some .pause)

theorem noPause_of_test (c : State n Unit ℕ ℕ) (a : Tid n Unit × Input n ℕ ℕ)
    (h : noPauseTest c a = true) : noPause c a := by
  simpa [noPauseTest, noPause] using h

theorem thpool_comes_to_rest_sleepRun : ∃ c : State 1 Unit ℕ ℕ,
    c.mem.pool.len = 1 ∧ c.mem.pool.executed = [] ∧ Inevitable (thpool 1 Unit ℕ ℕ).lts settles (fun c' => AtRest c' ∧
      ∀ k, Inevitable (thpool 1 Unit ℕ ℕ).lts (alone k) (fun c'' => c''.client k = .outside) c') c := by
  obtain ⟨c, hc, hp⟩ := reach_of_run (thpool 1 Unit ℕ ℕ).lts noPause_of_test sleepRun
    (fun c => decide (c.mem.pool.len = 1) && decide (c.mem.pool.executed = []))
    ⟨fun _ => ⟨none, 0, 0⟩, (), rfl⟩ (by decide)
  simp only [Bool.and_eq_true, decide_eq_true_eq] at hp
  exact ⟨c, hp.1, hp.2, thpool_comes_to_rest (by decide) hc⟩

end PoolStudy.Thpool.Rest
