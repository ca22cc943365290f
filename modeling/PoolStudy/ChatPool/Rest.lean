import PoolStudy.ChatPool.Join
import PoolStudy.Lib.Schedules

/-! # The pool of the chat server comes to rest

As long as `poolDestroy` is not called, every item is run, however the threads are scheduled: once the other threads
make no further calls, the pool comes to a state in which all workers sleep, the list is empty and the items run are
the items added (`chatPool_comes_to_rest`). The functions of the items are those of the code that uses the pool; they
have to return, without calls of the pool (`Returning`).

`poolAddWorker` signals when it has already given the mutex back. In between all workers may sleep although an item
waits, but then the signal is still to come (`Going.awake`). The measure counts, for every thread, the steps it has
left: for `poolAddWorker` the nodes its walk has before it, for a worker the steps to its next wait, and for an item on
the list those of the worker that will run it. -/

namespace PoolStudy.ChatPool.Rest

open PoolStudy.Lib.Transition PoolStudy.Lib.Threads PoolStudy.Lib.Schedules PoolStudy.Lib.Chain
open PoolStudy.Lib.IntCounter
open PoolStudy.ChatPool.Model PoolStudy.ChatPool.Steps PoolStudy.ChatPool.Queue PoolStudy.ChatPool.Wake
open PoolStudy.ChatPool.Join (Returning)

variable {n : ℕ} {κ σ ℓ A I : Type} {C : Code n κ σ ℓ A I} {P : ℓ → Prop} {rank : ℓ → ℕ} {B : ℕ}

/-! ### A pool in use -/

/-- The thread is in its own code, or in `poolAddWorker`. -/
def adding : Call ℓ → Prop
  | .code _ | .addLock _ _ | .addHead _ _ | .walk _ _ _ | .append _ _ _ | .addUnlock _ _ | .addSignal _ _ => True
  | _ => False

/-- The thread is to signal the item it has added. -/
def signalling : Call ℓ → Prop
  | .addUnlock _ _ | .addSignal _ _ => True
  | _ => False

/-- `poolDestroy` is not called. -/
def noDestroy (C : Code n κ σ ℓ A I) (c : State n κ σ ℓ A) (a : Tid n κ × Input n I) : Prop :=
  ∀ l s ok failed, callAt c a.1 = some (.code l) → C.step a.1 a.2.ext c.mem.ext l ≠ some (s, .destroy ok failed)

/-- **A pool that is in use**: no worker leaves, a worker that is about to wait has found the list empty, and if an item
waits, some worker is awake or some thread will signal. -/
structure Going (P : ℓ → Prop) (c : State n κ σ ℓ A) : Prop where
  running : ∀ i p d, c.worker i = .run p d → ∃ l, d = .code l ∧ P l
  stays : ∀ i, c.worker i ≠ .exitUnlock ∧ c.worker i ≠ .exited
  calls : ∀ k, adding (c.client k)
  inUse : c.mem.pool.shutdown = false ∧ c.mem.freed = false
  ready : ∀ i ∈ c.mem.pool.queueReady, c.worker i = .blocked
  waits : ∀ i, c.worker i = .wait → waiting c.mem = []
  awake : waiting c.mem ≠ [] → (∃ i, i ∉ c.mem.pool.queueReady) ∨ ∃ k, signalling (c.client k)

/-! ### Steps of the workers -/

/-- What a step of a worker does in a pool that is in use. -/
structure WorkerKeeps (P : ℓ → Prop) (i : Fin n) (m m' : Mem n κ σ A) (w' : Worker ℓ) : Prop where
  running : ∀ p d, w' = .run p d → ∃ l, d = .code l ∧ P l
  stays : w' ≠ .exitUnlock ∧ w' ≠ .exited
  inUse : m'.pool.shutdown = false ∧ m'.freed = false
  ready : ∀ j ∈ m'.pool.queueReady, j ∈ m.pool.queueReady ∧ j ≠ i ∨ j = i ∧ w' = .blocked
  waits : w' = .wait → waiting m' = []
  awake : waiting m' ≠ [] → m'.pool.queueReady ⊆ m.pool.queueReady ∧ waiting m ≠ []

/-- The counter is zero if nothing waits. -/
theorem waiting_of_size {m : Mem n κ σ A} (hq : QueueAt m (waiting m)) (h : m.pool.curQueueSize = 0) :
    waiting m = [] := by
  have hs := hq.size
  rw [h] at hs
  exact List.length_eq_zero_iff.mp (by omega)

theorem workerStep_keeps (hret : Returning C P rank B) {i : Fin n} {x : Input n I} {m m' : Mem n κ σ A}
    {w w' : Worker ℓ} (hs : WorkerStep C i x m w m' w') (hq : QueueAt m (waiting m))
    (hrun : ∀ p d, w = .run p d → ∃ l, d = .code l ∧ P l) (hstay : w ≠ .exitUnlock ∧ w ≠ .exited)
    (hin : m.pool.shutdown = false ∧ m.freed = false) (hready : i ∈ m.pool.queueReady → w = .blocked)
    (hwait : w = .wait → waiting m = []) : WorkerKeeps P i m m' w' := by
  -- steps that leave the list and the sleepers alone
  have hkeep : ∀ {m' : Mem n κ σ A} {w' : Worker ℓ}, m'.pool.shutdown = false ∧ m'.freed = false →
      m'.pool.queueReady = m.pool.queueReady → waiting m' = waiting m → i ∉ m.pool.queueReady →
      (∀ p d, w' = .run p d → ∃ l, d = .code l ∧ P l) → w' ≠ .exitUnlock ∧ w' ≠ .exited → w' ≠ .wait →
      WorkerKeeps P i m m' w' := by
    intro m' w' hin hr hw hi hrun hstay hnw
    refine ⟨hrun, hstay, hin, fun j hj => ?_, fun he => absurd he hnw, fun hne => ?_⟩
    · rw [hr] at hj
      exact Or.inl ⟨hj, fun he => hi (he ▸ hj)⟩
    · rw [hw] at hne
      exact ⟨hr.subset, hne⟩
  have hnot : w ≠ .blocked → i ∉ m.pool.queueReady := fun hw hi => hw (hready hi)
  cases hs with
  | lock hl => exact hkeep hin rfl rfl (hnot (by simp)) (by simp) (by simp) (by simp)
  | mustWait hz hd =>
    have hempty := waiting_of_size hq hz
    refine ⟨by simp, by simp, hin, fun j hj => Or.inl ⟨hj, fun he => hnot (by simp) (he ▸ hj)⟩, fun _ => hempty, ?_⟩
    exact fun hne => absurd hempty hne
  | goOn h => exact hkeep hin rfl rfl (hnot (by simp)) (by simp) (by simp) (by simp)
  | wait =>
    refine ⟨by simp, by simp, hin, fun j hj => ?_, by simp, fun hne => absurd (hwait rfl) hne⟩
    rcases Finset.mem_insert.mp hj with rfl | hj
    · exact Or.inr ⟨rfl, rfl⟩
    · exact Or.inl ⟨hj, fun he => hnot (by simp) (he ▸ hj)⟩
  | spurious hi =>
    refine ⟨by simp, by simp, hin, fun j hj => ?_, by simp, fun hne => ⟨Finset.erase_subset _ _, hne⟩⟩
    obtain ⟨hne, hj⟩ := Finset.mem_erase.mp hj
    exact Or.inl ⟨hj, hne⟩
  | wake hi hl => exact hkeep hin rfl rfl hi (by simp) (by simp) (by simp)
  | leave hz hd => rw [hin.1] at hd; cases hd
  | stay h => exact hkeep hin rfl rfl (hnot (by simp)) (by simp) (by simp) (by simp)
  | exit => exact absurd rfl hstay.1
  | take hz hp =>
    refine ⟨by simp, by simp, hin, fun j hj => Or.inl ⟨hj, fun he => hnot (by simp) (he ▸ hj)⟩, by simp, ?_⟩
    intro _
    refine ⟨subset_rfl, ?_⟩
    rw [hq.head_waiting hp]
    simp
  | takeAbort h => exact hkeep hin rfl rfl (hnot (by simp)) (by simp) (by simp) (by simp)
  | unlock p =>
    refine hkeep hin rfl rfl (hnot (by simp)) (fun p d hd => ?_) (by simp) (by simp)
    cases hd
    exact ⟨_, rfl, (hret.start _).1⟩
  | finish p h => exact hkeep hin rfl rfl (hnot (by simp)) (by simp) (by simp) (by simp)
  | call p h =>
    obtain ⟨l, rfl, hl⟩ := hrun p _ rfl
    cases h with
    | goto hst =>
      refine hkeep hin rfl rfl (hnot (by simp)) (fun p d hd => ?_) (by simp) (by simp)
      cases hd
      rcases hret.step _ _ _ _ _ _ hl hst with hr | ⟨l', hl', hP, -⟩
      · cases hr
      · cases hl'
        exact ⟨_, rfl, hP⟩
    | add hst | destroy hst =>
      rcases hret.step _ _ _ _ _ _ hl hst with hr | ⟨l', hl', -⟩
      · cases hr
      · cases hl'
  | free p => exact hkeep hin rfl rfl (hnot (by simp)) (by simp) (by simp) (by simp)

/-! ### Steps of the other threads -/

/-- After a signal not all workers sleep. -/
theorem exists_awake (h0 : 0 < n) {W ws ready : Finset (Fin n)} (h : signal W ready = some ws) : ∃ i, i ∉ ws := by
  obtain ⟨hsub, hlt⟩ := signal_some h
  by_contra hall
  have huniv : ws = Finset.univ := Finset.eq_univ_of_forall fun i => by
    by_contra hi
    exact hall ⟨i, hi⟩
  have hready : ready = Finset.univ := Finset.univ_subset_iff.mp (huniv ▸ hsub)
  have hne : ready.Nonempty := ⟨⟨0, h0⟩, by rw [hready]; exact Finset.mem_univ _⟩
  have := hlt hne
  rw [huniv, hready] at this
  exact lt_irrefl _ this

/-- What a step of another thread does in a pool that is in use. -/
structure CallKeeps (m m' : Mem n κ σ A) (c c' : Call ℓ) : Prop where
  calls : adding c'
  inUse : m'.pool.shutdown = false ∧ m'.freed = false
  ready : m'.pool.queueReady ⊆ m.pool.queueReady
  waits : waiting m' = waiting m ∨ callSection c ≠ .out
  awake : signalling c' ∨ (∃ i, i ∉ m'.pool.queueReady) ∨
    waiting m' = waiting m ∧ m'.pool.queueReady = m.pool.queueReady ∧ ¬ signalling c

theorem callStep_keeps (h0 : 0 < n) {self : Tid n κ} {x : Input n I} {m m' : Mem n κ σ A} {c c' : Call ℓ}
    (hs : CallStep C self x m c m' c') (hc : adding c) (hin : m.pool.shutdown = false ∧ m.freed = false)
    (hnd : ∀ l s ok failed, c = .code l → C.step self x.ext m.ext l ≠ some (s, .destroy ok failed))
    (hab : c' ≠ .aborted) : CallKeeps m m' c c' := by
  cases hs with
  | goto hst | add hst =>
    exact ⟨trivial, hin, subset_rfl, Or.inl rfl, Or.inr (Or.inr ⟨rfl, rfl, id⟩)⟩
  | destroy hst => exact absurd hst (hnd _ _ _ _ rfl)
  | addLock p l hl | addHead p l hq | addEmpty p l hq | walk p q l hr | walkEnd p q l hr =>
    exact ⟨trivial, hin, subset_rfl, Or.inl rfl, Or.inr (Or.inr ⟨rfl, rfl, id⟩)⟩
  | append p member l hh =>
    cases member <;> exact ⟨trivial, hin, subset_rfl, Or.inr (by simp [callSection]), Or.inl trivial⟩
  | appendAbort p member l hh => exact absurd rfl hab
  | addUnlock p l => exact ⟨trivial, hin, subset_rfl, Or.inl rfl, Or.inl trivial⟩
  | addSignal p l hw =>
    exact ⟨trivial, hin, (signal_some hw).1, Or.inl rfl, Or.inr (Or.inl (exists_awake h0 hw))⟩
  | _ => exact hc.elim

/-! ### The invariant -/

section Reach

variable [DecidableEq κ]

omit [DecidableEq κ] in
theorem Going.noCleanup {c : State n κ σ ℓ A} (h : Going P c) (a : Tid n κ × Input n I) : noCleanup c a := by
  obtain ⟨i | k, x⟩ := a <;> intro d hd
  · cases hw : c.worker i with
    | run p d' =>
      obtain ⟨l, rfl, -⟩ := h.running i p d' hw
      have hd' : workerCall (c.worker i) = some d := hd
      rw [hw] at hd'
      cases hd'
      exact id
    | _ =>
      have hd' : workerCall (c.worker i) = some d := hd
      rw [hw] at hd'
      cases hd'
  · obtain rfl : c.client k = d := Option.some.inj hd
    have hadd := h.calls k
    cases hk : c.client k with
    | clean | destroyFree => rw [hk] at hadd; exact hadd.elim
    | _ => exact id

omit [DecidableEq κ] in
theorem Going.moveWorker (hret : Returning C P rank B) {c : State n κ σ ℓ A} {i : Fin n} {x : Input n I}
    {r : Mem n κ σ A × Worker ℓ} (h : Going P c) (hi : Inv c) (hs : WorkerStep C i x c.mem (c.worker i) r.1 r.2) :
    Going P (c.moveWorker i r) := by
  have hk := workerStep_keeps hret hs hi.queue.queue (h.running i) (h.stays i) h.inUse (h.ready i) (h.waits i)
  refine ⟨?_, ?_, h.calls, hk.inUse, fun j hj => ?_, fun j hj => ?_, fun hne => ?_⟩
  · exact forall_moveWorker (P := fun _ (w : Worker ℓ) => ∀ p d, w = .run p d → ∃ l, d = .code l ∧ P l) hk.running
      fun j _ => h.running j
  · exact forall_moveWorker (P := fun _ (w : Worker ℓ) => w ≠ .exitUnlock ∧ w ≠ .exited) hk.stays fun j _ => h.stays j
  · rcases hk.ready j hj with ⟨hj, hne⟩ | ⟨rfl, hw⟩
    · rw [show (c.moveWorker i r).worker j = c.worker j from Function.update_of_ne hne ..]
      exact h.ready j hj
    · exact (Function.update_self ..).trans hw
  · rcases moveWorker_cases c i r j with ⟨-, he⟩ | ⟨hne, he⟩
    · exact hk.waits (he.symm.trans hj)
    · -- a worker adds nothing to the list
      have hold := h.waits j (he.symm.trans hj)
      by_contra hnew
      exact (hk.awake hnew).2 hold
  · obtain ⟨hsub, hold⟩ := hk.awake hne
    rcases h.awake hold with ⟨j, hj⟩ | hsig
    · exact Or.inl ⟨j, fun hin => hj (hsub hin)⟩
    · exact Or.inr hsig

theorem Going.moveClient (h0 : 0 < n) {c : State n κ σ ℓ A} {k : κ} {x : Input n I} {r : Mem n κ σ A × Call ℓ}
    (h : Going P c) (hi : Inv c) (hok : noDestroy C c (.inr k, x))
    (hs : CallStep C (.inr k) x c.mem (c.client k) r.1 r.2) : Going P (c.moveClient k r) := by
  have hi' := hi.moveClient hs (h.noCleanup (.inr k, x) _ rfl)
  have hab : r.2 ≠ .aborted := by
    intro hab
    refine hi'.not_aborted (.inr k) ?_
    rw [view_inr, moveClient_self, hab]
    rfl
  have hk := callStep_keeps h0 hs (h.calls k) h.inUse
    (fun l s ok failed hl => hok l s ok failed (by rw [← hl]; rfl)) hab
  refine ⟨h.running, h.stays, fun j => ?_, hk.inUse, fun j hj => h.ready j (hk.ready hj), fun j hj => ?_, fun hne => ?_⟩
  · rcases moveClient_cases c k r j with ⟨-, he⟩ | ⟨-, he⟩ <;> rw [he]
    · exact hk.calls
    · exact h.calls j
  · rcases hk.waits with hw | hin
    · exact hw.trans (h.waits j hj)
    · -- the thread and the worker would both own the mutex
      have h1 := (hi.queue.guard.owned (.inr k)).mp hin
      have hj' : c.worker j = .wait := hj
      have h2 := (hi.queue.guard.owned (.inl j)).mp (by rw [view_inl, hj']; simp [workerSection])
      rw [h1] at h2
      cases h2
  · rcases hk.awake with hsig | hawake | ⟨hw, hr, hnot⟩
    · exact Or.inr ⟨k, by rw [moveClient_self]; exact hsig⟩
    · exact Or.inl hawake
    · rcases h.awake (hw ▸ hne) with ⟨j, hj⟩ | ⟨k', hk'⟩
      · exact Or.inl ⟨j, by rw [show (c.moveClient k r).mem.pool.queueReady = _ from hr]; exact hj⟩
      · refine Or.inr ⟨k', ?_⟩
        have hne' : k' ≠ k := by
          rintro rfl
          exact hnot hk'
        rw [moveClient_other c hne']
        exact hk'

end Reach

/-! ### The measure -/

/-- The weight of an item on the list: the steps of the worker that will run it. -/
def itemWeight (B : ℕ) : ℕ := B + 7

/-- The steps a call of `poolAddWorker` has left, without its walk, and what it may cause: an item on the list, and at
most `n` workers that are woken. The list never has more than `F` items. -/
def callWeight (n B F : ℕ) : Call ℓ → ℕ
  | .addSignal _ _ => 4 * n + 1
  | .addUnlock _ _ => 4 * n + 2
  | .append _ _ _ => 4 * n + 3 + itemWeight B
  | .walk _ _ _ => 4 * n + 4 + itemWeight B
  | .addHead _ _ => 4 * n + 5 + itemWeight B + F
  | .addLock _ _ => 4 * n + 6 + itemWeight B + F
  | _ => 0

/-- The steps a worker has left to its next wait. -/
def workerWeight (B : ℕ) (rank : ℓ → ℕ) : Worker ℓ → ℕ
  | .lock | .blocked => 3
  | .whileTest => 2
  | .ifTest | .wait => 1
  | .unlock _ => B + 6
  | .run _ (.code l) => rank l + 5
  | .free _ => 4
  | _ => 0

/-- What the memory stands for: the items that wait, and the workers that do not sleep. -/
def memWeight (B : ℕ) (m : Mem n κ σ A) : ℕ := itemWeight B * (waiting m).length + 4 * m.pool.queueReadyᶜ.card

/-- The nodes a walk has before it. -/
def callWalk (m : Mem n κ σ A) : Call ℓ → ℕ
  | .walk _ q _ => nodesFrom (waiting m) q
  | _ => 0

/-- The nodes the owner of the mutex has before it. -/
def ownerWalk (m : Mem n κ σ A) (f : κ → Call ℓ) : ℕ :=
  match m.pool.queueLock with
  | some (.inr k) => callWalk m (f k)
  | _ => 0

/-- **The measure**, for the threads in `K`. -/
def measure (B F : ℕ) (rank : ℓ → ℕ) (K : Finset κ) (c : State n κ σ ℓ A) : ℕ :=
  memWeight B c.mem + weigh (workerWeight B rank) (callWeight n B F) K c + ownerWalk c.mem c.client

theorem memWeight_lt {m m' : Mem n κ σ A} {a b : ℕ} (hw : waiting m' = waiting m)
    (hr : m'.pool.queueReady = m.pool.queueReady) (h : a < b) : memWeight B m' + a < memWeight B m + b := by
  rw [memWeight, memWeight, hw, hr]
  omega

/-- **A step of a worker** makes the weights smaller, unless it wakes up for no reason. -/
theorem workerStep_weight (hret : Returning C P rank B) {i : Fin n} {x : Input n I} {m m' : Mem n κ σ A}
    {w w' : Worker ℓ} (hs : WorkerStep C i x m w m' w') (hq : QueueAt m (waiting m))
    (hrun : ∀ p d, w = .run p d → ∃ l, d = .code l ∧ P l) (hstay : w ≠ .exitUnlock ∧ w' ≠ .exitUnlock)
    (hab : w' ≠ .aborted) (hi : i ∉ m.pool.queueReady) :
    memWeight B m' + workerWeight B rank w' < memWeight B m + workerWeight B rank w := by
  cases hs with
  | wait =>
    have hcard := card_compl_insert hi
    simp only [memWeight, workerWeight, waiting, withReady, Mem.unlock]
    omega
  | spurious hin => exact absurd hin hi
  | leave hz hd => exact absurd rfl hstay.2
  | exit => exact absurd rfl hstay.1
  | @take p hz hp =>
    have hlen : (waiting m).length = (waiting (withoutHead m p)).length + 1 := by
      rw [hq.head_waiting hp, List.length_cons]
    have hr : (withoutHead m p).pool.queueReady = m.pool.queueReady := rfl
    simp only [memWeight, workerWeight, hr, hlen, Nat.mul_succ]
    unfold itemWeight
    omega
  | takeAbort h => exact absurd rfl hab
  | unlock p =>
    have hle := (hret.start (m.heap p).arg).2
    refine memWeight_lt rfl rfl ?_
    simp only [workerWeight]
    omega
  | finish p hst =>
    refine memWeight_lt rfl rfl ?_
    simp only [workerWeight]
    omega
  | call p h =>
    obtain ⟨l, rfl, hl⟩ := hrun p _ rfl
    cases h with
    | goto hst =>
      rcases hret.step _ _ _ _ _ _ hl hst with hr | ⟨l', hl', -, hlt⟩
      · cases hr
      · cases hl'
        refine memWeight_lt rfl rfl ?_
        simp only [workerWeight]
        omega
    | add hst | destroy hst =>
      rcases hret.step _ _ _ _ _ _ hl hst with hr | ⟨l', hl', -⟩
      · cases hr
      · cases hl'
  | _ => exact memWeight_lt rfl rfl (by simp [workerWeight])

/-! ### The walk of the owner -/

section Walk

variable [DecidableEq κ] {m m' : Mem n κ σ A} {f : κ → Call ℓ} {k : κ} {c c' : Call ℓ}

theorem ownerWalk_self (h : m.pool.queueLock = some (.inr k)) :
    ownerWalk m (Function.update f k c) = callWalk m c := by
  simp [ownerWalk, h]

theorem ownerWalk_other (h : m.pool.queueLock ≠ some (.inr k)) (hl : m'.pool.queueLock = m.pool.queueLock)
    (hw : waiting m' = waiting m) : ownerWalk m' (Function.update f k c) = ownerWalk m f := by
  have hwalk : ∀ d : Call ℓ, callWalk m' d = callWalk m d := by
    intro d
    cases d <;> simp only [callWalk, hw]
  unfold ownerWalk
  rw [hl]
  cases hlock : m.pool.queueLock with
  | none => rfl
  | some t =>
    cases t with
    | inl i => rfl
    | inr k' =>
      have hne : k' ≠ k := by
        rintro rfl
        exact h hlock
      simp only [Function.update_of_ne hne, hwalk]

omit [DecidableEq κ] in
theorem workerStep_walk {i : Fin n} {x : Input n I} {w w' : Worker ℓ} (hs : WorkerStep C i x m w m' w')
    (hown : workerSection w ≠ .out → m.pool.queueLock = some (.inl i))
    (hrun : ∀ p d, w = .run p d → ∃ l, d = .code l ∧ P l) (hret : Returning C P rank B) :
    ownerWalk m' f ≤ ownerWalk m f := by
  cases hs with
  | lock hl | wake hi hl => exact Nat.zero_le _
  | wait | unlock p | exit => exact Nat.zero_le _
  | @take p hz hp =>
    have hl : (withoutHead m p).pool.queueLock = some (.inl i) := hown (by simp [workerSection])
    rw [ownerWalk, hl]
    exact Nat.zero_le _
  | call p h =>
    obtain ⟨l, rfl, hl⟩ := hrun p _ rfl
    cases h with
    | goto hst => exact le_rfl
    | add hst | destroy hst =>
      rcases hret.step _ _ _ _ _ _ hl hst with hr | ⟨l', hl', -⟩
      · cases hr
      · cases hl'
  | _ => exact le_rfl

omit [DecidableEq κ] in
/-- The item is on the list. -/
theorem waiting_count {p : Ptr} {member : Option Ptr} (h : QueueAt m (waiting m)) :
    (waiting ((m.link p member).count p)).length = (waiting m).length + 1 := by
  have hlen := congrArg List.length h.history
  rw [List.length_append] at hlen
  have hcount : ((m.link p member).count p).added = m.added ++ [p] ∧
      ((m.link p member).count p).dequeued = m.dequeued := by
    cases member <;> exact ⟨rfl, rfl⟩
  rw [waiting, hcount.1, hcount.2, waiting, List.length_drop, List.length_drop, List.length_append,
    List.length_singleton]
  omega

/-- **A step of `poolAddWorker`** makes the weights smaller. -/
theorem callStep_weight {x : Input n I} {F : ℕ} (hs : CallStep C (.inr k) x m c m' c') (hc : adding c)
    (hcode : ∀ l, c ≠ .code l) (hab : c' ≠ .aborted) (hf : f k = c) (hq : QueueAt m (waiting m))
    (hF : (waiting m).length ≤ F) (hown : callSection c ≠ .out ↔ m.pool.queueLock = some (.inr k))
    (hknows : Knows m (callSection c)) :
    memWeight B m' + callWeight n B F c' + ownerWalk m' (Function.update f k c') <
      memWeight B m + callWeight n B F c + ownerWalk m f := by
  -- what the owner of the mutex has before it
  have hbefore : callSection c ≠ .out → ownerWalk m f = callWalk m c := by
    intro hin
    rw [← ownerWalk_self (f := f) (hown.mp hin), ← hf, Function.update_eq_self]
  cases hs with
  | goto | add | destroy => exact absurd rfl (hcode _)
  | addLock p l hl =>
    rw [ownerWalk_self (m := locked m (.inr k)) rfl]
    have hlt : memWeight B (locked m (.inr k)) + callWeight n B F (.addHead p l : Call ℓ) <
        memWeight B m + callWeight n B F (.addLock p l : Call ℓ) :=
      memWeight_lt rfl rfl (by simp only [callWeight]; omega)
    simp only [callWalk]
    omega
  | @addHead p l q hhead =>
    have hl := hown.mp (by simp [callSection])
    have hle := (nodesFrom_le (waiting m) q).trans hF
    rw [ownerWalk_self hl]
    simp only [callWalk, callWeight]
    omega
  | addEmpty p l hhead =>
    have hl := hown.mp (by simp [callSection])
    rw [ownerWalk_self hl]
    simp only [callWalk, callWeight]
    omega
  | walk p q l hr =>
    have hl := hown.mp (by simp [callSection])
    have hlt := hq.linked.nodesFrom_lt hq.nodup_queue hknows hr
    rw [ownerWalk_self hl, hbefore (by simp [callSection])]
    simp only [callWalk, callWeight]
    omega
  | walkEnd p q l hr =>
    have hl := hown.mp (by simp [callSection])
    rw [ownerWalk_self hl]
    simp only [callWalk, callWeight]
    omega
  | append p member l hh =>
    have hl : ((m.link p member).count p).pool.queueLock = some (.inr k) := by
      rw [← hown.mp (by simp [callSection])]
      cases member <;> rfl
    have hready : ((m.link p member).count p).pool.queueReady = m.pool.queueReady := by
      cases member <;> rfl
    rw [ownerWalk_self hl]
    simp only [callWalk, callWeight, memWeight, waiting_count hq, hready, Nat.mul_succ]
    omega
  | appendAbort p member l hh => exact absurd rfl hab
  | addUnlock p l =>
    have hlt : memWeight B m.unlock + callWeight n B F (.addSignal p l : Call ℓ) <
        memWeight B m + callWeight n B F (.addUnlock p l : Call ℓ) :=
      memWeight_lt rfl rfl (by simp [callWeight])
    have hzero : ownerWalk m.unlock (Function.update f k (.addSignal p l)) = 0 := rfl
    omega
  | @addSignal p l ws hw =>
    have hnot : m.pool.queueLock ≠ some (.inr k) := fun hl => hown.mpr hl rfl
    have hwalk : ownerWalk { withReady m ws with returned := m.returned ++ [p] } (Function.update f k (.code l)) =
        ownerWalk m f := ownerWalk_other hnot rfl rfl
    have hws := card_compl_le ws
    rw [hwalk]
    simp only [memWeight, callWeight, waiting, withReady]
    omega
  | _ => exact hc.elim

end Walk

/-! ### Steps that are left -/

/-- There are no more items on the list than have been allocated. -/
theorem waiting_le {m : Mem n κ σ A} {acc : Tid n κ → Section} {nd : Tid n κ → Option Ptr} (h : QueueInv m acc nd) :
    (waiting m).length ≤ m.fresh :=
  length_le_of_lt h.queue.nodup_queue fun p hp => h.nodes.bound p (h.queue.mem_added hp)

theorem workerStep_fresh (hret : Returning C P rank B) {i : Fin n} {x : Input n I} {m m' : Mem n κ σ A}
    {w w' : Worker ℓ} (hs : WorkerStep C i x m w m' w') (hrun : ∀ p d, w = .run p d → ∃ l, d = .code l ∧ P l) :
    m'.fresh = m.fresh := by
  cases hs with
  | call p h =>
    obtain ⟨l, rfl, hl⟩ := hrun p _ rfl
    cases h with
    | goto hst => rfl
    | add hst | destroy hst =>
      rcases hret.step _ _ _ _ _ _ hl hst with hr | ⟨l', hl', -⟩
      · cases hr
      · cases hl'
  | _ => rfl

theorem callStep_fresh {self : Tid n κ} {x : Input n I} {m m' : Mem n κ σ A} {c c' : Call ℓ}
    (hs : CallStep C self x m c m' c') (hcode : ∀ l, c ≠ .code l) : m'.fresh = m.fresh := by
  cases hs with
  | goto | add | destroy => exact absurd rfl (hcode _)
  | append p member l hh | appendAbort p member l hh => cases member <;> rfl
  | _ => rfl

/-- A worker goes on, unless it sleeps or waits for the mutex. -/
theorem worker_goes [Inhabited I] (hret : Returning C P rank B) {i : Fin n} {m : Mem n κ σ A} {w : Worker ℓ}
    (hrun : ∀ p d, w = .run p d → ∃ l, d = .code l ∧ P l) (hs : w = .blocked → i ∉ m.pool.queueReady)
    (hw : w ≠ .exited ∧ w ≠ .aborted) (hl : workerSection w ≠ .out ∨ m.pool.queueLock = none) :
    ∃ x : Input n I, (workerStep C i x m w).isSome = true := by
  cases w with
  | lock =>
    have hfree : m.pool.queueLock = none := hl.resolve_left (by simp [workerSection])
    exact ⟨{ ext := default }, by simp [workerStep, Mem.lock, hfree]⟩
  | blocked =>
    have hfree : m.pool.queueLock = none := hl.resolve_left (by simp [workerSection])
    exact ⟨{ ext := default }, by simp [workerStep, hs rfl, Mem.lock, hfree]⟩
  | run p d =>
    obtain ⟨l, rfl, hP⟩ := hrun p d rfl
    obtain ⟨x, hx⟩ := hret.goes i m.ext l hP
    obtain ⟨⟨s, a⟩, hst⟩ := Option.isSome_iff_exists.mp hx
    refine ⟨{ ext := x }, ?_⟩
    rcases hret.step _ _ _ _ _ _ hP hst with rfl | ⟨l', rfl, -⟩
    · simp [workerStep, returns, hst]
    · simp [workerStep, returns, callStep, hst, actStep]
  | exited => exact absurd rfl hw.1
  | aborted => exact absurd rfl hw.2
  | _ => exact ⟨{ ext := default }, rfl⟩

/-- A call of `poolAddWorker` goes on, unless it waits for the mutex. -/
theorem call_goes [Inhabited I] (self : Tid n κ) {m : Mem n κ σ A} {d : Call ℓ} (hd : adding d)
    (hcode : ∀ l, d ≠ .code l) (hf : m.freed = false) (hl : callSection d ≠ .out ∨ m.pool.queueLock = none) :
    ∃ x : Input n I, (callStep C self x m d).isSome = true := by
  cases d with
  | code l => exact absurd rfl (hcode l)
  | addLock p l =>
    have hfree : m.pool.queueLock = none := hl.resolve_left (by simp [callSection])
    exact ⟨{ ext := default }, by simp [callStep, poolStep, hf, Mem.lock, hfree]⟩
  | addSignal p l =>
    -- the signal may wake all that sleep
    exact ⟨{ wake := m.pool.queueReady, ext := default }, by simp [callStep, poolStep, hf, signal]⟩
  | addHead p l | walk p q l | append p member l | addUnlock p l =>
    exact ⟨{ ext := default }, by simp [callStep, poolStep, hf]⟩
  | _ => exact hd.elim

variable [DecidableEq κ] [DecidableEq ℓ]

/-- **The steps that begin nothing**: the other threads go on in calls only, and no sleeper wakes up for no reason. -/
def settles (c : State n κ σ ℓ A) (a : Tid n κ × Input n I) : Prop :=
  (∀ k, a.1 = .inr k → ∀ l, c.client k ≠ .code l) ∧ ∀ i, a.1 = .inl i → ¬ asleep c i

/-- **Every step that begins nothing makes the measure smaller.** -/
theorem measure_lt (hret : Returning C P rank B) {F : ℕ} {K : Finset κ} {c c' : State n κ σ ℓ A}
    {a : Tid n κ × Input n I} (hi : Inv c) (hg : Going P c) (hi' : Inv c') (hg' : Going P c') (hF : c.mem.fresh = F)
    (hK : ∀ k ∉ K, ∃ l, c.client k = .code l) (ha : settles c a) (hs : (chatPool C).lts.next c a = some c') :
    c'.mem.fresh = F ∧ (∀ k ∉ K, ∃ l, c'.client k = .code l) ∧
      measure B F rank K c' < measure B F rank K c := by
  rcases Program.next_cases hs with ⟨i, x, r, rfl, hr, rfl⟩ | ⟨k, x, r, rfl, hr, rfl⟩
  · have hstep := workerStep_cases hr
    have hnot : i ∉ c.mem.pool.queueReady := fun hin =>
      ha.2 i rfl (asleep_iff.mpr ⟨hg.ready i hin, hin⟩)
    have hself : (c.moveWorker i r).worker i = r.2 := Function.update_self ..
    have hab : r.2 ≠ .aborted := by
      intro hab
      refine hi'.not_aborted (.inl i) ?_
      rw [view_inl, hself, hab]
      rfl
    have hlt := workerStep_weight hret hstep hi.queue.queue (hg.running i)
      ⟨(hg.stays i).1, hself ▸ (hg'.stays i).1⟩ hab hnot
    have hwalk : ownerWalk r.1 c.client ≤ ownerWalk c.mem c.client :=
      workerStep_walk hstep (hi.queue.guard.owned (.inl i)).mp (hg.running i) hret
    have hsum := weigh_moveWorker (workerWeight B rank) (callWeight n B F) K c i r
    refine ⟨(workerStep_fresh hret hstep (hg.running i)).trans hF, hK, ?_⟩
    show memWeight B r.1 + _ + ownerWalk r.1 c.client < memWeight B c.mem + _ + _
    omega
  · have hcode : ∀ l, c.client k ≠ .code l := ha.1 k rfl
    have hstep := callStep_cases hr
    obtain ⟨hkK, hrest⟩ := moved_stay (Q := fun d : Call ℓ => ∃ l, d = .code l) hK (fun ⟨l, hl⟩ => hcode l hl) r
    have hab : r.2 ≠ .aborted := by
      intro hab
      refine hi'.not_aborted (.inr k) ?_
      rw [view_inr, moveClient_self, hab]
      rfl
    have hknows : Knows c.mem (callSection (c.client k)) := by
      by_cases hin : callSection (c.client k) = .out
      · rw [hin]
        trivial
      · exact hi.queue.knows (t := .inr k) hin
    have hlt := callStep_weight (B := B) (F := F) hstep (hg.calls k) hcode hab rfl hi.queue.queue
      (hF ▸ waiting_le hi.queue) (hi.queue.guard.owned (.inr k)) hknows
    have hsum := weigh_moveClient (workerWeight B rank) (callWeight n B F) K c hkK r
    refine ⟨(callStep_fresh hstep hcode).trans hF, hrest, ?_⟩
    show memWeight B r.1 + _ + ownerWalk r.1 (Function.update c.client k r.2) < memWeight B c.mem + _ + _
    omega

theorem settles_worker {c : State n κ σ ℓ A} {i : Fin n} (ha : ¬ asleep c i)
    (h : ∃ x : Input n I, (workerStep C i x c.mem (c.worker i)).isSome = true) :
    ∃ c', Step (chatPool C).lts settles c c' := by
  obtain ⟨x, hs⟩ := h
  obtain ⟨r, hr⟩ := Option.isSome_iff_exists.mp hs
  refine ⟨_, (.inl i, x), ⟨fun k hk => (by cases hk), fun j hj => ?_⟩, Program.next_worker hr⟩
  rw [← Sum.inl.inj hj]
  exact ha

theorem settles_client {c : State n κ σ ℓ A} {k : κ} (hcode : ∀ l, c.client k ≠ .code l)
    (h : ∃ x : Input n I, (callStep C (.inr k) x c.mem (c.client k)).isSome = true) :
    ∃ c', Step (chatPool C).lts settles c c' := by
  obtain ⟨x, hs⟩ := h
  obtain ⟨r, hr⟩ := Option.isSome_iff_exists.mp hs
  refine ⟨_, (.inr k, x), ⟨fun j hj => ?_, fun i hi => (by cases hi)⟩, Program.next_client hr⟩
  rw [← Sum.inr.inj hj]
  exact hcode

/-! ### Rest -/

/-- **The pool is at rest**: every worker sleeps, no call is under way, the list is empty, and the items whose function
has returned are the items added. -/
structure AtRest (c : State n κ σ ℓ A) : Prop where
  sleep : ∀ i, asleep c i
  idle : ∀ k, ∃ l, c.client k = .code l
  empty : c.mem.pool.queueHead = none ∧ c.mem.pool.curQueueSize = 0
  finished : c.mem.finished.Perm c.mem.added

omit [DecidableEq κ] in
/-- When nobody runs an item and nothing waits, all items have been run. -/
theorem atRest_of_asleep {c : State n κ σ ℓ A} (hi : Inv c) (hw : ∀ i, asleep c i)
    (hk : ∀ k, ∃ l, c.client k = .code l) (hempty : waiting c.mem = []) : AtRest c := by
  have hq := hi.queue.queue
  rw [hempty] at hq
  refine ⟨hw, hk, ⟨hq.linked, by simpa using hq.size⟩, ?_⟩
  have hsum : ∑ i, hand (c.worker i) = 0 := Finset.sum_eq_zero fun i _ => by
    rw [(asleep_iff.mp (hw i)).1]
    rfl
  have hhands := hi.hands
  rw [Hands, hsum, add_zero, Multiset.coe_eq_coe] at hhands
  have hhist := hq.history
  rw [List.append_nil] at hhist
  rw [← hhist]
  exact hhands.symm

/-- **A pool that is not at rest can go on.** -/
theorem can_settle [Inhabited I] (hret : Returning C P rank B) {c : State n κ σ ℓ A} (hi : Inv c) (hg : Going P c)
    (hrest : ¬ AtRest c) : ∃ c', Step (chatPool C).lts settles c c' := by
  have hwhere : ∀ i, c.worker i ≠ .exited ∧ c.worker i ≠ .aborted := by
    refine fun i => ⟨(hg.stays i).2, fun hw => hi.not_aborted (.inl i) ?_⟩
    rw [view_inl, hw]
    rfl
  have hblocked : ∀ {i}, ¬ asleep c i → c.worker i = .blocked → i ∉ c.mem.pool.queueReady := fun ha hw hin =>
    ha (asleep_iff.mpr ⟨hw, hin⟩)
  by_contra hstuck
  -- whoever owns the mutex could go on
  have hlock : c.mem.pool.queueLock = none := by
    by_contra hl
    obtain ⟨i | k, hl⟩ := Option.ne_none_iff_exists'.mp hl
    · have hin : workerSection (c.worker i) ≠ .out := (hi.queue.guard.owned (.inl i)).mpr hl
      have ha : ¬ asleep c i := by
        intro ha
        rw [(asleep_iff.mp ha).1] at hin
        exact hin rfl
      exact hstuck (settles_worker ha (worker_goes hret (hg.running i) (hblocked ha) (hwhere i) (Or.inl hin)))
    · have hin : callSection (c.client k) ≠ .out := (hi.queue.guard.owned (.inr k)).mpr hl
      have hcode : ∀ l, c.client k ≠ .code l := by
        intro l hk
        rw [hk] at hin
        exact hin rfl
      exact hstuck (settles_client hcode (call_goes (.inr k) (hg.calls k) hcode hg.inUse.2 (Or.inl hin)))
  have hworkers : ∀ i, asleep c i := by
    intro i
    by_contra ha
    exact hstuck (settles_worker ha (worker_goes hret (hg.running i) (hblocked ha) (hwhere i) (Or.inr hlock)))
  have hclients : ∀ k, ∃ l, c.client k = .code l := by
    intro k
    by_contra hk
    have hcode : ∀ l, c.client k ≠ .code l := fun l hl => hk ⟨l, hl⟩
    exact hstuck (settles_client hcode (call_goes (.inr k) (hg.calls k) hcode hg.inUse.2 (Or.inr hlock)))
  refine hrest (atRest_of_asleep hi hworkers hclients ?_)
  by_contra hne
  rcases hg.awake hne with ⟨i, hin⟩ | ⟨k, hk⟩
  · exact hin (asleep_iff.mp (hworkers i)).2
  · obtain ⟨l, hl⟩ := hclients k
    rw [hl] at hk
    exact hk

end PoolStudy.ChatPool.Rest
