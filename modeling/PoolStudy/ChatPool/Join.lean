import PoolStudy.ChatPool.Destroy
import PoolStudy.ChatPool.Wake

/-! # The joins of `poolDestroy`

Behind a broadcast that has reached every worker nobody sleeps (`Awake`), and if the items that are run can
return (`ItemsReturn`), the join loop can finish. A run brings the workers to their exits: whoever owns the
mutex goes on until it gives it back, a worker outside the section takes it, and a worker that runs an item
runs it to its end. Each of these makes `measure` smaller, which counts an item in the queue for more than a
worker needs to run it. -/

namespace PoolStudy.ChatPool.Join

open PoolStudy.Lib.Transition PoolStudy.Lib.Threads PoolStudy.Lib.IntCounter PoolStudy.Lib.Chain
open PoolStudy.ChatPool.Model PoolStudy.ChatPool.Steps PoolStudy.ChatPool.Queue
open PoolStudy.ChatPool.Destroy PoolStudy.ChatPool.Wake

variable {n : ℕ} {κ σ ℓ A I : Type} {C : Code n κ σ ℓ A I} [DecidableEq κ]

/-! ### Items that return -/

omit [DecidableEq κ] in
/-- The function of an item, run by the worker `i`, can return from `l` with the memory `s`, without a call of
the pool. -/
inductive CanReturn (C : Code n κ σ ℓ A I) (i : Fin n) : σ → ℓ → Prop
  | ret {x : I} {s s' : σ} {l : ℓ} (h : C.step (.inl i) x s l = some (s', .ret)) : CanReturn C i s l
  | goto {x : I} {s s' : σ} {l l' : ℓ} (h : C.step (.inl i) x s l = some (s', .goto l'))
      (hr : CanReturn C i s' l') : CanReturn C i s l

/-- **The running items can finish**: no item calls the pool, and each one can return. -/
def ItemsReturn (C : Code n κ σ ℓ A I) : Prop :=
  ∀ c, Reach (chatPool C).lts anyStep c → ∀ i p d, c.worker i = .run p d →
    ∃ l, d = .code l ∧ CanReturn C i c.mem.ext l

/-- **The functions of the items return**: they are at the places `P`, make at most `B` steps, do not call the pool,
and never wait. -/
structure Returning (C : Code n κ σ ℓ A I) (P : ℓ → Prop) (rank : ℓ → ℕ) (B : ℕ) : Prop where
  start : ∀ a, P (C.process a) ∧ rank (C.process a) ≤ B
  step : ∀ i x s l s' a, P l → C.step (.inl i) x s l = some (s', a) →
    a = .ret ∨ ∃ l', a = .goto l' ∧ P l' ∧ rank l' < rank l
  goes : ∀ i s l, P l → ∃ x, (C.step (.inl i) x s l).isSome = true

section Returning

variable {P : ℓ → Prop} {rank : ℓ → ℕ} {B : ℕ}

omit [DecidableEq κ] in
/-- The function can return from each of its places. -/
theorem Returning.canReturn (hret : Returning C P rank B) {i : Fin n} (s : σ) {l : ℓ} (hl : P l) :
    CanReturn C i s l := by
  induction hk : rank l using Nat.strong_induction_on generalizing s l with
  | _ k ih =>
    obtain ⟨x, hx⟩ := hret.goes i s l hl
    obtain ⟨⟨s', a⟩, hst⟩ := Option.isSome_iff_exists.mp hx
    rcases hret.step _ _ _ _ _ _ hl hst with rfl | ⟨l', rfl, hl', hlt⟩
    · exact .ret hst
    · exact .goto hst (ih (rank l') (hk ▸ hlt) s' hl' rfl)

/-- **Items that return can finish**: they go through the places `P` only. -/
theorem Returning.itemsReturn (hret : Returning C P rank B) : ItemsReturn C := by
  intro c h i p d hw
  obtain ⟨l, rfl, hl⟩ : ∃ l, d = .code l ∧ P l := by
    refine Program.invariant (I := fun c => ∀ i p d, c.worker i = .run p d → ∃ l, d = .code l ∧ P l)
      ?_ ?_ ?_ h i p d hw
    · rintro _ ⟨e, heap, -, rfl⟩ i p d hd
      cases hd
    · intro c i x r _ hi _ hr
      refine forall_moveWorker (P := fun _ (w : Worker ℓ) => ∀ p d, w = .run p d → ∃ l, d = .code l ∧ P l)
        (fun p d hd => ?_) fun j _ => hi j
      have hs := workerStep_cases hr
      have hbefore := hi i
      generalize c.worker i = w, r.1 = m', r.2 = w' at hs hd hbefore
      cases hs with
      | unlock p' =>
        cases hd
        exact ⟨_, rfl, (hret.start _).1⟩
      | call p' hs =>
        cases hd
        obtain ⟨l, rfl, hl⟩ := hbefore _ _ rfl
        cases hs with
        | goto hst =>
          rcases hret.step _ _ _ _ _ _ hl hst with ha | ⟨l', ha, hl', -⟩
          · cases ha
          · cases ha
            exact ⟨_, rfl, hl'⟩
        | add hst | destroy hst => rcases hret.step _ _ _ _ _ _ hl hst with ha | ⟨l', ha, -⟩ <;> cases ha
      | _ => cases hd
    · intro c k x r _ hi _ _
      exact hi
  exact ⟨l, rfl, hret.canReturn c.mem.ext hl⟩

end Returning

/-- A worker runs its item to the end. -/
theorem runs_return {c : State n κ σ ℓ A} {i : Fin n} {p : Ptr} {l : ℓ} (hw : c.worker i = .run p (.code l))
    (h : CanReturn C i c.mem.ext l) :
    ∃ s, Runs (chatPool C).lts anyStep c
      (c.moveWorker i ({ c.mem with ext := s, finished := c.mem.finished ++ [p] }, .free p)) := by
  generalize he : c.mem.ext = s at h
  induction h generalizing c with
  | @ret x s s' l hst =>
    refine ⟨s', .single ⟨(.inl i, { ext := x }), trivial, Program.next_worker ?_⟩⟩
    simp only [chatPool, workerStep, hw, returns, he, hst]
  | @goto x s s' l l' hst _ ih =>
    have hstep : (chatPool C).workerStep i { ext := x } c.mem (c.worker i) =
        some ({ c.mem with ext := s' }, .run p (.code l')) := by
      simp only [chatPool, workerStep, hw, returns, he, hst, callStep, Option.bind_some, actStep, Option.map_some]
    have hw' : (c.moveWorker i ({ c.mem with ext := s' }, .run p (.code l'))).worker i = .run p (.code l') :=
      Function.update_self ..
    obtain ⟨s1, hr⟩ := ih hw' rfl
    rw [moveWorker_moveWorker] at hr
    exact ⟨s1, hr.head ⟨_, trivial, Program.next_worker hstep⟩⟩

/-! ### The measure -/

/-- What a worker has before it. -/
def workerWeight : Worker ℓ → ℕ
  | .unlock _ => 7
  | .run _ _ => 6
  | .free _ => 5
  | .lock | .blocked => 4
  | .whileTest => 3
  | .ifTest => 2
  | .take | .exitUnlock => 1
  | .wait | .exited | .aborted => 0

/-- What a client has before it in its section. -/
def callWeight : Call ℓ → ℕ
  | .addHead _ _ | .walk _ _ _ | .append _ _ _ => 12
  | .addUnlock _ _ => 1
  | _ => 0

/-- The section of the client that owns the mutex. -/
def ownerWeight (c : State n κ σ ℓ A) : ℕ :=
  match c.mem.pool.queueLock with
  | some (.inr k) => callWeight (c.client k)
  | _ => 0

/-- **The measure**: the items that wait, the workers, and the client in the section. -/
def measure (c : State n κ σ ℓ A) : ℕ :=
  10 * c.mem.pool.curQueueSize.toNat + ∑ i, workerWeight (c.worker i) + ownerWeight c

/-- **A run brings the workers forward** and does not move the client `k`. -/
def Smaller (C : Code n κ σ ℓ A I) (k : κ) (c : State n κ σ ℓ A) : Prop :=
  ∃ c', Runs (chatPool C).lts anyStep c c' ∧ c'.mem.freed = c.mem.freed ∧ c'.client k = c.client k ∧
    measure c' < measure c

omit [DecidableEq κ] in
theorem measure_moveWorker {c : State n κ σ ℓ A} {i : Fin n} {r : Mem n κ σ A × Worker ℓ}
    (hl : ∀ k, r.1.pool.queueLock ≠ some (.inr k))
    (hlt : 10 * r.1.pool.curQueueSize.toNat + workerWeight r.2 <
      10 * c.mem.pool.curQueueSize.toNat + workerWeight (c.worker i)) :
    measure (c.moveWorker i r) < measure c := by
  have hsum := sum_update (fun _ => workerWeight) c.worker i r.2
  have howner : ownerWeight (c.moveWorker i r) = 0 := by
    show (match r.1.pool.queueLock with
      | some (.inr k) => callWeight (c.client k)
      | _ => 0) = 0
    split
    · next k hk => exact absurd hk (hl k)
    · rfl
  show 10 * r.1.pool.curQueueSize.toNat + ∑ j, workerWeight (Function.update c.worker i r.2 j) +
    ownerWeight (c.moveWorker i r) < measure c
  unfold measure
  omega

/-- A worker that makes the measure smaller. -/
theorem smaller_of_worker {c : State n κ σ ℓ A} {k : κ} {i : Fin n} {x : Input n I}
    {r : Mem n κ σ A × Worker ℓ} (hr : workerStep C i x c.mem (c.worker i) = some r)
    (hf : r.1.freed = c.mem.freed) (hl : ∀ k, r.1.pool.queueLock ≠ some (.inr k))
    (hlt : 10 * r.1.pool.curQueueSize.toNat + workerWeight r.2 <
      10 * c.mem.pool.curQueueSize.toNat + workerWeight (c.worker i)) : Smaller C k c :=
  ⟨_, .single ⟨(.inl i, x), trivial, Program.next_worker hr⟩, hf, rfl, measure_moveWorker hl hlt⟩

/-! ### The owner of the mutex -/

/-- The queue, in a state in which a worker has not left. -/
theorem queue_of_worker {c : State n κ σ ℓ A} (h : Reach (chatPool C).lts anyStep c) {i : Fin n}
    (hw : c.worker i ≠ .exited) :
    QueueInv c.mem (c.view workerSection callSection) (c.view workerNode callNode) := by
  have hi := destroyInv_reach (Nat.lt_of_le_of_lt (Nat.zero_le _) i.isLt) h
  exact hi.queue (hi.threadid_of_worker hw)

/-- **A worker owns the mutex**: it goes on in its section. -/
theorem smaller_of_workerOwner {c : State n κ σ ℓ A} (k : κ) {i : Fin n} (x : Input n I)
    (hq : QueueInv c.mem (c.view workerSection callSection) (c.view workerNode callNode)) (ha : Awake c)
    (hrun : ∀ p d, c.worker i = .run p d → ∃ l, d = .code l) (hl : c.mem.pool.queueLock = some (.inl i)) :
    Smaller C k c := by
  have hin : workerSection (c.worker i) ≠ .out := (hq.guard.owned (.inl i)).mpr hl
  have hknows : Knows c.mem (workerSection (c.worker i)) := hq.knows (t := .inl i) hin
  have hkeep : ∀ k', c.mem.pool.queueLock ≠ some (.inr k') := by
    intro k' hk
    rw [hl] at hk
    cases hk
  have hfree : ∀ k', c.mem.unlock.pool.queueLock ≠ some (.inr k') := by
    intro k' hk
    cases hk
  cases hw : c.worker i with
  | lock | blocked | free p | exited =>
    rw [hw] at hin
    exact absurd rfl hin
  | aborted =>
    rw [hw] at hknows
    exact hknows.elim
  | wait => exact absurd hw (ha.window i)
  | run p d =>
    obtain ⟨l, rfl⟩ := hrun p d hw
    rw [hw] at hin
    exact absurd rfl hin
  | whileTest =>
    refine smaller_of_worker (i := i) (x := x) (r := (c.mem, .ifTest)) ?_ rfl hkeep (by rw [hw]; simp [workerWeight])
    simp [hw, workerStep, ha.shutdown]
  | ifTest =>
    by_cases hz : c.mem.pool.curQueueSize = 0
    · refine smaller_of_worker (i := i) (x := x) (r := (c.mem, .exitUnlock)) ?_ rfl hkeep
        (by rw [hw]; simp [workerWeight])
      simp [hw, workerStep, hz, ha.shutdown]
    · refine smaller_of_worker (i := i) (x := x) (r := (c.mem, .take)) ?_ rfl hkeep
        (by rw [hw]; simp [workerWeight])
      simp [hw, workerStep, hz]
  | exitUnlock =>
    refine smaller_of_worker (i := i) (x := x)
      (r := ({ c.mem.unlock with exited := insert i c.mem.exited }, .exited)) ?_ rfl hfree ?_
    · rw [hw]; rfl
    · rw [hw]; simp [workerWeight, Mem.unlock]
  | unlock p =>
    refine smaller_of_worker (i := i) (x := x)
      (r := (c.mem.unlock, .run p (.code (C.process (c.mem.heap p).arg)))) ?_ rfl hfree ?_
    · rw [hw]; rfl
    · rw [hw]; simp [workerWeight, Mem.unlock]
  | take =>
    obtain ⟨hz, hhead⟩ := hq.head_take (t := .inl i) (by rw [view_inl, hw]; rfl)
    obtain ⟨p, hp⟩ := Option.ne_none_iff_exists'.mp hhead
    have hsize := hq.queue.size
    refine smaller_of_worker (i := i) (x := x) (r := (withoutHead c.mem p, .unlock p)) ?_ rfl hkeep ?_
    · simp [hw, workerStep, takeStep, hz, hp, withoutHead]
    · rw [hw]
      have hle : wrap (c.mem.pool.curQueueSize - 1) ≤ c.mem.pool.curQueueSize - 1 := wrap_le (by omega)
      simp only [workerWeight, withoutHead]
      omega

/-- A client walks to the end of the list. -/
theorem runs_walk {c : State n κ σ ℓ A} {k : κ} (x : Input n I) (hf : c.mem.freed = false) {p q : Ptr} {l : ℓ}
    {rest : List Ptr} (hk : c.client k = .walk p q l) (hl : Linked (nextOf c.mem) (some q) rest) :
    ∃ r, Runs (chatPool C).lts anyStep c (c.moveClient k (c.mem, .append p (some r) l)) := by
  induction rest generalizing c q with
  | nil => cases hl
  | cons q' rest ih =>
    obtain ⟨hq, hl⟩ := hl
    obtain rfl : q = q' := Option.some.inj hq
    cases hn : (c.mem.heap q).next with
    | none =>
      refine ⟨q, .single ⟨(.inr k, x), trivial, Program.next_client ?_⟩⟩
      simp [chatPool, callStep, poolStep, hk, hf, hn]
    | some r =>
      have hstep : (chatPool C).clientStep k x c.mem (c.client k) = some (c.mem, .walk p r l) := by
        simp [chatPool, callStep, poolStep, hk, hf, hn]
      have hl' : Linked (nextOf c.mem) (some r) rest := by
        rw [← hn]
        exact hl
      obtain ⟨s, hr⟩ := ih (c := c.moveClient k (c.mem, .walk p r l)) hf (Function.update_self ..) hl'
      rw [moveClient_moveClient] at hr
      exact ⟨s, hr.head ⟨_, trivial, Program.next_client hstep⟩⟩

/-- A client in its section comes to the place where the item is linked. -/
theorem runs_append {c : State n κ σ ℓ A} {k : κ} (x : Input n I) (hf : c.mem.freed = false)
    (hq : QueueInv c.mem (c.view workerSection callSection) (c.view workerNode callNode))
    (hk : callWeight (c.client k) = 12) :
    ∃ p member l, Runs (chatPool C).lts anyStep c (c.moveClient k (c.mem, .append p member l)) := by
  have hlinked := hq.queue.linked
  cases hc : c.client k with
  | addHead p l =>
    cases hh : c.mem.pool.queueHead with
    | none =>
      refine ⟨p, none, l, .single ⟨(.inr k, x), trivial, Program.next_client ?_⟩⟩
      simp [chatPool, callStep, poolStep, hc, hf, hh]
    | some q =>
      have hstep : (chatPool C).clientStep k x c.mem (c.client k) = some (c.mem, .walk p q l) := by
        simp [chatPool, callStep, poolStep, hc, hf, hh]
      rw [hh] at hlinked
      obtain ⟨r, hr⟩ := runs_walk (C := C) (c := c.moveClient k (c.mem, .walk p q l)) x hf
        (Function.update_self ..) hlinked
      rw [moveClient_moveClient] at hr
      exact ⟨p, some r, l, hr.head ⟨_, trivial, Program.next_client hstep⟩⟩
  | walk p q l =>
    have hmem : q ∈ waiting c.mem := by
      have := hq.knows (t := .inr k) (by rw [view_inr, hc]; simp [callSection])
      rwa [view_inr, hc] at this
    obtain ⟨rest, hrest⟩ := hlinked.of_mem hmem
    obtain ⟨r, hr⟩ := runs_walk (C := C) x hf hc hrest
    exact ⟨p, some r, l, hr⟩
  | append p member l =>
    refine ⟨p, member, l, ?_⟩
    rw [← hc, show c.moveClient k (c.mem, c.client k) = c by simp [Config.moveClient]]
  | _ => rw [hc] at hk; cases hk

theorem measure_moveClient {c : State n κ σ ℓ A} {k : κ} {r : Mem n κ σ A × Call ℓ}
    (hl : c.mem.pool.queueLock = some (.inr k))
    (hl' : r.1.pool.queueLock = none ∨ r.1.pool.queueLock = some (.inr k))
    (hlt : 10 * r.1.pool.curQueueSize.toNat + callWeight r.2 <
      10 * c.mem.pool.curQueueSize.toNat + callWeight (c.client k)) :
    measure (c.moveClient k r) < measure c := by
  have hbefore : ownerWeight c = callWeight (c.client k) := by simp only [ownerWeight, hl]
  have hafter : ownerWeight (c.moveClient k r) ≤ callWeight r.2 := by
    rcases hl' with hl' | hl'
    · simp [ownerWeight, Config.moveClient, hl']
    · simp [ownerWeight, Config.moveClient, hl']
  show 10 * r.1.pool.curQueueSize.toNat + ∑ j, workerWeight (c.worker j) +
    ownerWeight (c.moveClient k r) < measure c
  unfold measure
  omega

/-- The item is linked, and the counter is one more. -/
theorem next_append {c : State n κ σ ℓ A} {k : κ} {x : Input n I} {p : Ptr} {member : Option Ptr} {l : ℓ}
    (hf : c.mem.freed = false)
    (hq : QueueInv c.mem (c.view workerSection callSection) (c.view workerNode callNode))
    (hk : c.client k = .append p member l) :
    (chatPool C).lts.next c (.inr k, x) = some (c.moveClient k ((c.mem.link p member).count p, .addUnlock p l)) := by
  have hsec : c.view workerSection callSection (.inr k) = .last member := by
    rw [view_inr, hk]
    rfl
  have hhead := hq.head_link (p := p) hsec
  refine Program.next_client ?_
  simp [chatPool, callStep, poolStep, hk, hf, appendStep, Option.isSome_iff_ne_none, hhead]

/-- **A client owns the mutex**: it finishes its section. -/
theorem smaller_of_clientOwner {c : State n κ σ ℓ A} {k k' : κ} {i : Fin n} (x : Input n I)
    (h : Reach (chatPool C).lts anyStep c) (hw : c.worker i ≠ .exited) (hf : c.mem.freed = false)
    (hk : callSection (c.client k) = .out) (hl : c.mem.pool.queueLock = some (.inr k')) : Smaller C k c := by
  have hq := queue_of_worker h hw
  have hin : callSection (c.client k') ≠ .out := (hq.guard.owned (.inr k')).mpr hl
  have hne : k ≠ k' := by
    rintro rfl
    exact hin hk
  have hknows : Knows c.mem (callSection (c.client k')) := hq.knows (t := .inr k') hin
  by_cases hweight : callWeight (c.client k') = 12
  · -- to the place where the item is linked, and over it
    obtain ⟨p, member, l, hrun⟩ := runs_append (C := C) x hf hq hweight
    have hnext := next_append (C := C) (c := c.moveClient k' (c.mem, .append p member l)) (x := x) hf
      (queue_of_worker (h.trans hrun) hw) (Function.update_self ..)
    rw [moveClient_moveClient] at hnext
    refine ⟨_, hrun.tail ⟨_, trivial, hnext⟩, by cases member <;> rfl, Function.update_of_ne hne _ _,
      measure_moveClient hl (Or.inr ?_) ?_⟩
    · cases member <;> exact hl
    · have hsize := hq.queue.size
      have hcount : ((c.mem.link p member).count p).pool.curQueueSize = wrap (c.mem.pool.curQueueSize + 1) := by
        cases member <;> rfl
      have hle : wrap (c.mem.pool.curQueueSize + 1) ≤ c.mem.pool.curQueueSize + 1 := wrap_le (by omega)
      show 10 * ((c.mem.link p member).count p).pool.curQueueSize.toNat + 1 < _
      rw [hcount, hweight]
      omega
  · cases hc : c.client k' with
    | addUnlock p l =>
      have hstep : (chatPool C).clientStep k' x c.mem (c.client k') = some (c.mem.unlock, .addSignal p l) := by
        simp [chatPool, callStep, poolStep, hc, hf]
      refine ⟨_, .single ⟨_, trivial, Program.next_client hstep⟩, rfl, Function.update_of_ne hne _ _,
        measure_moveClient hl (Or.inl rfl) ?_⟩
      rw [hc]
      simp [callWeight, Mem.unlock]
    | aborted =>
      rw [hc] at hknows
      exact hknows.elim
    | addHead p l | walk p q l | append p member l =>
      rw [hc] at hweight
      exact absurd rfl hweight
    | _ =>
      rw [hc] at hin
      exact absurd rfl hin

/-! ### The mutex is free -/

/-- **A worker that has not left**, while nobody owns the mutex: it takes it, or goes on to take it. -/
theorem smaller_of_free {c : State n κ σ ℓ A} (k : κ) {i : Fin n} (x : Input n I)
    (hq : QueueInv c.mem (c.view workerSection callSection) (c.view workerNode callNode)) (ha : Awake c)
    (hrun : ∀ p d, c.worker i = .run p d → ∃ l, d = .code l ∧ CanReturn C i c.mem.ext l)
    (hw : c.worker i ≠ .exited) (hl : c.mem.pool.queueLock = none) : Smaller C k c := by
  have hout : workerSection (c.worker i) = .out := by
    by_contra hne
    have := (hq.guard.owned (.inl i)).mp hne
    rw [hl] at this
    cases this
  have hlock : c.mem.lock (.inl i) = some (locked c.mem (.inl i)) := by simp [Mem.lock, hl, locked]
  have hmine : ∀ k', (locked c.mem (.inl i)).pool.queueLock ≠ some (.inr k') := by
    intro k' hk
    cases hk
  have hnone : ∀ k', c.mem.pool.queueLock ≠ some (.inr k') := by
    intro k' hk
    rw [hl] at hk
    cases hk
  cases hc : c.worker i with
  | exited => exact absurd hc hw
  | lock =>
    refine smaller_of_worker (i := i) (x := x) (r := (locked c.mem (.inl i), .whileTest)) ?_ rfl hmine ?_
    · simp [workerStep, hc, hlock]
    · rw [hc]; simp [workerWeight, locked]
  | blocked =>
    refine smaller_of_worker (i := i) (x := x) (r := (locked c.mem (.inl i), .whileTest)) ?_ rfl hmine ?_
    · simp [workerStep, hc, ha.ready, hlock]
    · rw [hc]; simp [workerWeight, locked]
  | free p =>
    refine smaller_of_worker (i := i) (x := x) (r := (c.mem, .lock)) ?_ rfl hnone ?_
    · simp [workerStep, hc]
    · rw [hc]; simp [workerWeight]
  | run p d =>
    obtain ⟨l, rfl, hret⟩ := hrun p d hc
    obtain ⟨s, hr⟩ := runs_return hc hret
    refine ⟨_, hr, rfl, rfl, measure_moveWorker hnone ?_⟩
    rw [hc]; simp [workerWeight]
  | _ =>
    rw [hc] at hout
    cases hout

/-! ### The join loop -/

/-- A worker that has left has been entered as such. -/
theorem exited_of_worker {c : State n κ σ ℓ A} (h : Reach (chatPool C).lts anyStep c) :
    ∀ i, c.worker i = .exited → i ∈ c.mem.exited := by
  refine Program.invariant (I := fun c => ∀ i, c.worker i = .exited → i ∈ c.mem.exited) ?_ ?_ ?_ h
  · rintro _ ⟨e, heap, -, rfl⟩ i hi
    cases hi
  · intro c i x r _ hi _ hr
    have hs := workerStep_cases hr
    refine forall_moveWorker (P := fun j (w : Worker ℓ) => w = .exited → j ∈ r.1.exited) (fun hw => ?_) fun j _ hj =>
      (workerStep_later hs).exited (hi j hj)
    generalize c.worker i = w, r.1 = m', r.2 = w' at hs hw
    cases hs with
    | exit => exact Finset.mem_insert_self i _
    | _ => cases hw
  · intro c k x r _ hi _ hr j hj
    exact (callStep_later (callStep_cases hr)).exited (hi j hj)

/-- The state in which the client `k` joins the workers, behind a broadcast that has reached them. -/
structure Joining (C : Code n κ σ ℓ A I) (k : κ) (d : Before) (i : ℕ) (ok : ℓ) (c : State n κ σ ℓ A) : Prop where
  reach : Reach (chatPool C).lts anyStep c
  awake : Awake c
  freed : c.mem.freed = false
  client : c.client k = .join d i ok

/-- **Somebody brings the workers forward**, until all have left. -/
theorem Joining.smaller {c : State n κ σ ℓ A} {k : κ} {d : Before} {j : ℕ} {ok : ℓ} (h : Joining C k d j ok c)
    (hitems : ItemsReturn C) (x : Input n I) {i : Fin n} (hi : i ∉ c.mem.exited) : Smaller C k c := by
  have hw : c.worker i ≠ .exited := fun hw => hi (exited_of_worker h.reach i hw)
  have hq := queue_of_worker h.reach hw
  cases hl : c.mem.pool.queueLock with
  | none => exact smaller_of_free k x hq h.awake (hitems c h.reach i) hw hl
  | some t =>
    rcases t with i' | k'
    · refine smaller_of_workerOwner k x hq h.awake (fun p d hp => ?_) hl
      obtain ⟨l, hd, -⟩ := hitems c h.reach i' p d hp
      exact ⟨l, hd⟩
    · exact smaller_of_clientOwner x h.reach hw h.freed (by rw [h.client]; rfl) hl

/-- All workers have left: the join loop runs to its end. -/
theorem runs_joins {c : State n κ σ ℓ A} {k : κ} {d : Before} {i : ℕ} {ok : ℓ} (x : Input n I)
    (hf : c.mem.freed = false) (hk : c.client k = .join d i ok) (hall : ∀ j, j ∈ c.mem.exited) :
    ∃ e, Runs (chatPool C).lts anyStep c e ∧ e.client k = .clean d ok := by
  induction hm : n - i generalizing c i with
  | zero =>
    have hstep : (chatPool C).clientStep k x c.mem (c.client k) =
        some ({ c.mem with pool := { c.mem.pool with threadid := false } }, .clean d ok) := by
      have hi : ¬ i < n := by omega
      simp [chatPool, callStep, poolStep, hk, hf, joinStep, hi]
    exact ⟨_, .single ⟨_, trivial, Program.next_client hstep⟩, Function.update_self ..⟩
  | succ m ih =>
    have hi : i < n := by omega
    have hstep : (chatPool C).clientStep k x c.mem (c.client k) = some (c.mem, .join d (i + 1) ok) := by
      simp [chatPool, callStep, poolStep, hk, hf, joinStep, hi, hall]
    obtain ⟨e, hr, he⟩ := ih (c := c.moveClient k (c.mem, .join d (i + 1) ok)) hf (Function.update_self ..) hall
      (by omega)
    exact ⟨e, hr.head ⟨_, trivial, Program.next_client hstep⟩, he⟩

/-- **The join loop can finish**, once nobody sleeps and the running items can return. -/
theorem Joining.finishes {c : State n κ σ ℓ A} {k : κ} {d : Before} {i : ℕ} {ok : ℓ} (h : Joining C k d i ok c)
    (hitems : ItemsReturn C) (x : Input n I) :
    ∃ e, Runs (chatPool C).lts anyStep c e ∧ e.client k = .clean d ok := by
  obtain ⟨c', hr, h', hall⟩ : ∃ c', Runs (chatPool C).lts anyStep c c' ∧ Joining C k d i ok c' ∧
      ∀ j, j ∈ c'.mem.exited := by
    refine runs_of_measure measure (fun c h hnot => ?_) h
    obtain ⟨j, hj⟩ := not_forall.mp hnot
    obtain ⟨c', hr, hf, hk, hlt⟩ := h.smaller hitems x hj
    exact ⟨c', hr, ⟨h.reach.trans hr, runs_awake h.awake hr, hf.trans h.freed, hk.trans h.client⟩, hlt⟩
  obtain ⟨e, hr', he⟩ := runs_joins x h'.freed h'.client hall
  exact ⟨e, hr.trans hr', he⟩

/-! ### The contract -/

variable [DecidableEq ℓ]

/-- **Exactly when the broadcast reaches every worker.** Let a thread of `poolDestroy` broadcast. No worker
sleeps in any state from then on, and the join loop of the thread can finish from every such state if the
running items can, if and only if no worker is between its test of `shutdown` and its `pthread_cond_wait` at
the broadcast. -/
theorem broadcast_wakes_iff {c c' : State n κ σ ℓ A} {t : Tid n κ} {x : Input n I} {d : Before} {ok : ℓ}
    (h : Reach (chatPool C).lts anyStep c) (ht : callAt c t = some (.destroyCast d ok))
    (hs : (chatPool C).lts.next c (t, x) = some c') :
    ((∀ c'', Runs (chatPool C).lts anyStep c' c'' → ∀ i, asleep c'' i = false) ∧
      (ItemsReturn C → ∀ c'' i, Runs (chatPool C).lts anyStep c' c'' → c''.mem.freed = false →
        callAt c'' t = some (.join d i ok) →
          ∃ e, Runs (chatPool C).lts anyStep c'' e ∧ callAt e t = some (.clean d ok))) ↔
      ∀ i, c.worker i ≠ .wait := by
  constructor
  · rintro ⟨hall, -⟩ i hi
    obtain ⟨c'', hr, hsleep⟩ := asleep_of_window (C := C) x (((broadcast_step ht hs).2 i).mpr hi)
    rw [hall c'' hr i] at hsleep
    cases hsleep
  · intro hwin
    have hawake : ∀ c'', Runs (chatPool C).lts anyStep c' c'' → Awake c'' := fun c'' hr =>
      runs_awake (awake_of_broadcast h ht hs hwin) hr
    refine ⟨fun c'' hr i => by simp [asleep, (hawake c'' hr).ready], fun hitems c'' i hr hf hjoin => ?_⟩
    have hreach : Reach (chatPool C).lts anyStep c'' := (h.next trivial hs).trans hr
    rcases t with j | k
    · -- an item does not call `poolDestroy`
      obtain ⟨p, hw⟩ := workerCall_some hjoin
      obtain ⟨l, hl, -⟩ := hitems c'' hreach j p _ hw
      cases hl
    · have hk : c''.client k = .join d i ok := Option.some.inj hjoin
      obtain ⟨e, he, hclean⟩ := (Joining.mk hreach (hawake c'' hr) hf hk).finishes hitems x
      exact ⟨e, he, congrArg some hclean⟩

/-- The worker tests the queue; `poolDestroy` sets `shutdown` and broadcasts; the worker goes to sleep. -/
def windowRun : List (Tid 1 Unit × Input 1 (Option (Act Unit ℕ))) :=
  let w : Tid 1 Unit := .inl (Fin.last 0)
  let d : Tid 1 Unit := .inr ()
  [silent w, silent w, does d (.destroy () ()), silent d, silent d, silent d, silent w]

/-- **The missed broadcast**: `poolDestroy` has broadcast and waits for the worker, which sleeps. -/
theorem broadcast_missed_windowRun : ∃ c : State 1 Unit Unit Unit ℕ,
    Reach (chatPool (anyCode 1 Unit)).lts anyStep c ∧ c.client () = .join ⟨[], []⟩ 0 () ∧
      c.mem.pool.shutdown = true ∧ asleep c (Fin.last 0) = true := by
  obtain ⟨c, hc, hp⟩ := reach_of_run (chatPool (anyCode 1 Unit)).lts anyStep_of_test windowRun
    (fun c => decide (c.client () = .join ⟨[], []⟩ 0 ()) && c.mem.pool.shutdown && asleep c (Fin.last 0))
    ⟨(), fun _ => ⟨0, none⟩, trivial, rfl⟩ (by decide)
  simp only [Bool.and_eq_true, decide_eq_true_eq] at hp
  exact ⟨c, hc, hp.1.1, hp.1.2, hp.2⟩

/-- The clients do what their inputs say, and the items return at once. -/
def returningCode : Code 1 Unit Unit Unit ℕ (Option (Act Unit ℕ)) where
  init _ := True
  main _ := ()
  process _ := ()
  step
    | .inl _, _, s, _ => some (s, .ret)
    | .inr _, x, s, _ => x.map fun a => (s, a)

theorem returningCode_returning : Returning returningCode (fun _ => True) (fun _ => 0) 0 := by
  refine ⟨fun _ => ⟨trivial, le_rfl⟩, fun i x s l s' a _ hst => ?_, fun i s l _ => ⟨none, rfl⟩⟩
  cases hst
  exact Or.inl rfl

/-- The worker is asleep when `poolDestroy` is about to broadcast. -/
def sleeperRun : List (Tid 1 Unit × Input 1 (Option (Act Unit ℕ))) :=
  let w : Tid 1 Unit := .inl (Fin.last 0)
  let d : Tid 1 Unit := .inr ()
  [silent w, silent w, silent w, does d (.destroy () ()), silent d, silent d]

theorem broadcast_wakes_iff_sleeperRun : ∃ c c' : State 1 Unit Unit Unit ℕ,
    Reach (chatPool returningCode).lts anyStep c ∧ asleep c (Fin.last 0) = true ∧
      (chatPool returningCode).lts.next c (silent (.inr ())) = some c' ∧
      (∀ c'', Runs (chatPool returningCode).lts anyStep c' c'' → ∀ i, asleep c'' i = false) ∧
      ∃ e, Runs (chatPool returningCode).lts anyStep c' e ∧ callAt e (.inr ()) = some (.clean ⟨[], []⟩ ()) := by
  obtain ⟨c, hc, hp⟩ := reach_of_run (chatPool returningCode).lts anyStep_of_test sleeperRun
    (fun c => asleep c (Fin.last 0) && decide (c.client () = .destroyCast ⟨[], []⟩ ()) &&
      (((chatPool returningCode).lts.next c (silent (.inr ()))).map fun c' =>
        decide (c'.client () = .join ⟨[], []⟩ 0 ()) && !c'.mem.freed) == some true)
    ⟨(), fun _ => ⟨0, none⟩, trivial, rfl⟩ (by decide)
  simp only [Bool.and_eq_true, decide_eq_true_eq, beq_iff_eq, Option.map_eq_some_iff, Bool.not_eq_true'] at hp
  obtain ⟨⟨hsleep, hcl⟩, c', hs, hjoin, hf⟩ := hp
  have ht : callAt c (.inr ()) = some (.destroyCast ⟨[], []⟩ ()) := congrArg some hcl
  have hwin : ∀ i, c.worker i ≠ .wait := by
    intro i
    rw [asleep_iff] at hsleep
    rw [Subsingleton.elim i (Fin.last 0), hsleep.1]
    simp
  obtain ⟨hall, hfinish⟩ := (broadcast_wakes_iff hc ht hs).mpr hwin
  exact ⟨c, c', hc, hsleep, hs, hall,
    hfinish returningCode_returning.itemsReturn c' 0 .refl hf (congrArg some hjoin)⟩

end PoolStudy.ChatPool.Join
