import PoolStudy.Thpool.Teardown

/-! # Several pools in one program

`threads_keepalive` and `threads_on_hold` are variables of the file, not fields of the pool: every pool of
the program reads and writes the same two flags. Here any number of pools (`π`), each with its own number
of workers, are created by `thpool_init` and used by clients, over one pair of flags. What a worker can do
at each of its positions (`stepOf`) depends on its own pool and on the flags.

An operation on one pool leaves the memory of the others alone (`ClientStep.frame`), but `thpool_destroy`,
`thpool_init` and `thpool_resume` store into the flags. So an operation leaves the workers of another pool
alone if and only if its step stores no new value there (`pools_independent_iff`); and as long as the
operations on other pools store none, the workers of a pool serve it until it is destroyed (`Served`). -/

namespace PoolStudy.Thpool.Pools

open PoolStudy.Lib.Transition PoolStudy.Lib.Threads
open PoolStudy.Thpool.Model PoolStudy.Thpool.Steps PoolStudy.Thpool.Teardown

/-! ### The system -/

/-- What is known of a pool: nobody has asked for it, `thpool_init` is on its way, its threads exist. -/
inductive Slot
  | free
  | taken
  | made
  deriving DecidableEq

/-- The flags of the file and the pools. -/
structure Shared (π : Type) (n : ℕ) (κ F A : Type) where
  flags : Flags
  pool : π → Pool n κ F A
  slot : π → Slot

/-- Where a client is: in `thpool_init` of a pool, or in a call on a pool. -/
inductive Client (π : Type)
  | idle
  | initHold (q : π)
  | initKeep (q : π)
  | initMake (q : π)
  | initSpin (q : π)
  | on (q : π) (c : Call)

variable {π : Type} [DecidableEq π] {n : ℕ} {κ F A : Type} [DecidableEq κ]

/-- What the threads of the pool `q` see. -/
def Shared.focus (s : Shared π n κ F A) (q : π) : Mem n κ F A := ⟨s.flags, s.pool q⟩

/-- They have changed it. -/
def Shared.put (s : Shared π n κ F A) (q : π) (m : Mem n κ F A) : Shared π n κ F A :=
  { s with flags := m.flags, pool := Function.update s.pool q m.pool }

/-- After a step of a call on `q`. -/
def Client.after (q : π) : Call → Client π
  | .outside => .idle
  | c => .on q c

/-- **A client**: `a.1` is the pool it turns to, by `thpool_init` or by a call. The memory `thpool_init`
gets from `malloc` reads as a pool in which nothing has happened. -/
def clientStep (size : π → ℕ) (k : κ) (a : Option π × Input n F A) (s : Shared π n κ F A) :
    Client π → Option (Shared π n κ F A × Client π)
  | .idle =>
    match a.1, a.2.call with
    | none, _ => none
    | some q, none =>
      if s.slot q = .free then some ({ s with slot := Function.update s.slot q .taken }, .initHold q)
      else none
    | some q, some _ =>
      if s.slot q = .made then
        (callStep k a.2 (s.focus q) .outside).map fun r => (s.put q r.1, Client.after q r.2)
      else none
  | .initHold q => some ({ s with flags := { s.flags with threadsOnHold := false } }, .initKeep q)
  | .initKeep q => some ({ s with flags := { s.flags with threadsKeepalive := true } }, .initMake q)
  | .initMake q => some ({ s with slot := Function.update s.slot q .made }, .initSpin q)
  | .initSpin q =>
    if (s.pool q).numThreadsAlive = size q then
      some ({ s with pool := Function.update s.pool q { s.pool q with stage := .ready } }, .idle)
    else none
  | .on q c => (callStep k a.2 (s.focus q) c).map fun r => (s.put q r.1, Client.after q r.2)

/-- The worker `i.2` of the pool `i.1`. -/
def poolWorkerStep (size : π → ℕ) (i : π × Fin n) (a : Option π × Input n F A) (s : Shared π n κ F A)
    (w : Worker F A) : Option (Shared π n κ F A × Worker F A) :=
  if s.slot i.1 = .made ∧ i.2 < size i.1 then
    (workerStep i.2 a.2 (s.focus i.1) w).map fun r => (s.put i.1 r.1, r.2)
  else none

/-- A configuration of the program. -/
abbrev PState (π : Type) (n : ℕ) (κ F A : Type) :=
  Config (π × Fin n) κ (Shared π n κ F A) (Worker F A) (Client π)

/-- **All pools with their workers and clients**; `size q` is the `num_threads` of the pool `q`. -/
def pools (size : π → ℕ) (n : ℕ) (κ F A : Type) [DecidableEq κ] :
    Program (π × Fin n) κ (Shared π n κ F A) (Worker F A) (Client π) (Option π × Input n F A) where
  init c := ∃ heap : Ptr → Job F A, c =
    ⟨⟨⟨false, false⟩, fun _ => Pool.created n κ heap, fun _ => .free⟩, fun _ => Worker.created,
      fun _ => .idle⟩
  workerStep := poolWorkerStep size
  clientStep := clientStep size

/-! ### Operations on another pool -/

/-- What the worker `i` of the pool `q` does at `w`: the change of its pool and of its position. -/
def stepOf (s : Shared π n κ F A) (q : π) (i : Fin n) (x : Input n F A) (w : Worker F A) :
    Option (Pool n κ F A × Worker F A) :=
  (workerStep i x (s.focus q) w).map fun r => (r.1.pool, r.2)

/-- The pool on which the step of a client operates. -/
def target (a : Option π × Input n F A) : Client π → Option π
  | .idle => a.1
  | .initHold q | .initKeep q | .initMake q | .initSpin q | .on q _ => some q

/-- The flags after a step of a call: `thpool_resume` and `thpool_destroy` store into them. -/
def callFlags (fl : Flags) (x : Input n F A) : Call → Flags
  | .outside =>
    match x.call with
    | some .resume => { fl with threadsOnHold := false }
    | _ => fl
  | .destroy _ .keepalive => { fl with threadsKeepalive := false }
  | _ => fl

/-- The flags after a step of a client: so does `thpool_init`. -/
def storedFlags (fl : Flags) (a : Option π × Input n F A) : Client π → Flags
  | .idle => callFlags fl a.2 .outside
  | .initHold _ => { fl with threadsOnHold := false }
  | .initKeep _ => { fl with threadsKeepalive := true }
  | .on _ c => callFlags fl a.2 c
  | _ => fl

omit [DecidableEq κ] in
theorem callStep_flags {k : κ} {x : Input n F A} {m : Mem n κ F A} {c : Call} {r : Mem n κ F A × Call}
    (h : callStep k x m c = some r) : r.1.flags = callFlags m.flags x c := by
  cases c with
  | outside =>
    simp only [callStep] at h
    split at h
    · cases h
    · next api hx =>
      split_ifs at h
      cases h
      cases api with
      | addWork f a =>
        rcases addWork_cases x m.pool f a with hw | hw <;> simp [enter, hw, callFlags, hx]
      | _ => simp [enter, callFlags, hx]
  | destroy total d =>
    obtain ⟨r', hr, rfl⟩ := Option.map_eq_some_iff.mp h
    have hs := destroyStep_cases hr
    obtain ⟨m', d'⟩ := r'
    cases hs <;> rfl
  | initSpin =>
    simp only [callStep] at h
    split_ifs at h
    cases h; rfl
  | add c =>
    obtain ⟨r', -, rfl⟩ := Option.map_eq_some_iff.mp h
    rfl
  | waitLen l must => cases h; rfl
  | waitWorking l must => cases h; rfl
  | pause j =>
    obtain ⟨r', -, rfl⟩ := Option.map_eq_some_iff.mp h
    rfl

/-- **The outcomes of a step of a client.** -/
inductive ClientStep (size : π → ℕ) (k : κ) (a : Option π × Input n F A) (s : Shared π n κ F A) :
    Client π → Shared π n κ F A → Client π → Prop
  | take (q : π) (hq : a.1 = some q) (hx : a.2.call = none) (h : s.slot q = .free) :
      ClientStep size k a s .idle { s with slot := Function.update s.slot q .taken } (.initHold q)
  | enter (q : π) (hq : a.1 = some q) {m' : Mem n κ F A} {c' : Call}
      (h : callStep k a.2 (s.focus q) .outside = some (m', c')) :
      ClientStep size k a s .idle (s.put q m') (Client.after q c')
  | hold (q : π) : ClientStep size k a s (.initHold q)
      { s with flags := { s.flags with threadsOnHold := false } } (.initKeep q)
  | keep (q : π) : ClientStep size k a s (.initKeep q)
      { s with flags := { s.flags with threadsKeepalive := true } } (.initMake q)
  | make (q : π) : ClientStep size k a s (.initMake q)
      { s with slot := Function.update s.slot q .made } (.initSpin q)
  | spin (q : π) (h : (s.pool q).numThreadsAlive = size q) : ClientStep size k a s (.initSpin q)
      { s with pool := Function.update s.pool q { s.pool q with stage := .ready } } .idle
  | call (q : π) {c c' : Call} {m' : Mem n κ F A} (h : callStep k a.2 (s.focus q) c = some (m', c')) :
      ClientStep size k a s (.on q c) (s.put q m') (Client.after q c')

omit [DecidableEq κ] in
theorem clientStep_cases {size : π → ℕ} {k : κ} {a : Option π × Input n F A} {s : Shared π n κ F A}
    {l : Client π} {r : Shared π n κ F A × Client π} (h : clientStep size k a s l = some r) :
    ClientStep size k a s l r.1 r.2 := by
  cases l with
  | idle =>
    simp only [clientStep] at h
    split at h
    · cases h
    · next q hq hx =>
      split_ifs at h with hs
      cases h
      exact .take q hq hx hs
    · next q api hq hx =>
      split_ifs at h
      obtain ⟨⟨m', c'⟩, hr, rfl⟩ := Option.map_eq_some_iff.mp h
      exact .enter q hq hr
  | initHold q => cases h; exact .hold q
  | initKeep q => cases h; exact .keep q
  | initMake q => cases h; exact .make q
  | initSpin q =>
    simp only [clientStep] at h
    split_ifs at h with hs
    cases h
    exact .spin q hs
  | on q c =>
    obtain ⟨⟨m', c'⟩, hr, rfl⟩ := Option.map_eq_some_iff.mp h
    exact .call q hr

omit [DecidableEq κ] in
/-- **What a step of a client on the pool `q` leaves alone**: the other pools; and what it stores. -/
theorem ClientStep.frame {size : π → ℕ} {k : κ} {a : Option π × Input n F A} {s s' : Shared π n κ F A}
    {l l' : Client π} {q : π} (h : ClientStep size k a s l s' l') (hq : target a l = some q) :
    s'.flags = storedFlags s.flags a l ∧
      ∀ q', q' ≠ q → s'.pool q' = s.pool q' ∧ s'.slot q' = s.slot q' := by
  cases h with
  | take q0 hq0 hx =>
    obtain rfl : q0 = q := Option.some.inj (hq0.symm.trans hq)
    exact ⟨by simp [storedFlags, callFlags, hx],
      fun q' hne => ⟨rfl, Function.update_of_ne hne _ _⟩⟩
  | enter q0 hq0 h =>
    obtain rfl : q0 = q := Option.some.inj (hq0.symm.trans hq)
    exact ⟨callStep_flags h, fun q' hne => ⟨Function.update_of_ne hne _ _, rfl⟩⟩
  | hold q0 => exact ⟨rfl, fun q' _ => ⟨rfl, rfl⟩⟩
  | keep q0 => exact ⟨rfl, fun q' _ => ⟨rfl, rfl⟩⟩
  | make q0 =>
    obtain rfl : q0 = q := Option.some.inj hq
    exact ⟨rfl, fun q' hne => ⟨rfl, Function.update_of_ne hne _ _⟩⟩
  | spin q0 _ =>
    obtain rfl : q0 = q := Option.some.inj hq
    exact ⟨rfl, fun q' hne => ⟨Function.update_of_ne hne _ _, rfl⟩⟩
  | call q0 h =>
    obtain rfl : q0 = q := Option.some.inj hq
    exact ⟨callStep_flags h, fun q' hne => ⟨Function.update_of_ne hne _ _, rfl⟩⟩

omit [DecidableEq π] [DecidableEq κ] in
/-- **A worker reads both flags**: at the test of its loop and in its signal handler. -/
theorem stepOf_inj {s s' : Shared π n κ F A} {q : π} (i : Fin n) (hp : s'.pool q = s.pool q) :
    (∀ x w, stepOf s' q i x w = stepOf s q i x w) ↔ s'.flags = s.flags := by
  have hloop : ∀ s : Shared π n κ F A, stepOf s q i {} ⟨.loop, .off⟩ =
      some (s.pool q, ⟨if s.flags.threadsKeepalive then .semLock else .exitLock, .off⟩) := fun _ => rfl
  have hhold : ∀ s : Shared π n κ F A, stepOf s q i {} ⟨.loop, .loop⟩ =
      some (s.pool q, if s.flags.threadsOnHold then ⟨.loop, .loop⟩ else ⟨.loop, .off⟩) := fun _ => rfl
  constructor
  · intro h
    have h1 := h {} ⟨.loop, .off⟩
    have h2 := h {} ⟨.loop, .loop⟩
    rw [hloop, hloop, hp] at h1
    rw [hhold, hhold, hp] at h2
    have hk : s'.flags.threadsKeepalive = s.flags.threadsKeepalive := by
      generalize s'.flags.threadsKeepalive = a at h1 ⊢
      generalize s.flags.threadsKeepalive = b at h1 ⊢
      cases a <;> cases b <;> simp at h1 ⊢
    have ho : s'.flags.threadsOnHold = s.flags.threadsOnHold := by
      generalize s'.flags.threadsOnHold = a at h2 ⊢
      generalize s.flags.threadsOnHold = b at h2 ⊢
      cases a <;> cases b <;> simp at h2 ⊢
    calc s'.flags = ⟨s'.flags.threadsKeepalive, s'.flags.threadsOnHold⟩ := rfl
      _ = s.flags := by rw [hk, ho]
  · intro hf x w
    simp only [stepOf, Shared.focus, hf, hp]

/-! ### Runs in which the other pools leave the flags alone -/

/-- `thpool_destroy` of the pool was called. -/
def closed : Stage → Prop
  | .closing | .gone => True
  | _ => False

/-- The client is in `thpool_init` of the pool `q`. -/
def building (q : π) : Client π → Prop
  | .initHold q' | .initKeep q' | .initMake q' | .initSpin q' => q' = q
  | _ => False

/-- The worker has left the loop of `thread_do`. -/
def leaving : Pos F A → Prop
  | .exitLock | .exitDec | .exitUnlock | .exited => True
  | _ => False

/-- **While the pool `q` exists, operations on other pools store no new value into the flags.** -/
def othersKeep (q : π) (c : PState π n κ F A) (b : ((π × Fin n) ⊕ κ) × (Option π × Input n F A)) : Prop :=
  ∀ k q', b.1 = .inr k → target b.2 (c.client k) = some q' → q' ≠ q → c.mem.slot q ≠ .free →
    storedFlags c.mem.flags b.2 (c.client k) = c.mem.flags

/-- **The workers of the pool `q` are served**: once they exist, `threads_keepalive` is set until
`thpool_destroy` of `q` is called, so none has left its loop. At most one client is in `thpool_init` of
`q`. -/
structure Served (q : π) (c : PState π n κ F A) : Prop where
  maker : ∀ k, building q (c.client k) → c.mem.slot q ≠ .free ∧
    (c.mem.pool q).stage = .starting ∧ ∀ k', building q (c.client k') → k' = k
  fresh : c.mem.slot q = .free → (c.mem.pool q).stage = .starting
  destroying : ∀ k total d, c.client k = .on q (.destroy total d) → closed (c.mem.pool q).stage
  calls : ∀ k, c.client k ≠ .on q .initSpin
  early : ∀ k, c.client k = .initMake q → c.mem.flags.threadsKeepalive = true
  made : c.mem.slot q = .made → ¬ closed (c.mem.pool q).stage → c.mem.flags.threadsKeepalive = true
  serving : ∀ i, leaving (c.worker (q, i)).pos → closed (c.mem.pool q).stage

omit [DecidableEq π] [DecidableEq κ] in
/-- What a call does to the stage of its pool and to `threads_keepalive`. -/
theorem callStep_stage {k : κ} {x : Input n F A} {m m' : Mem n κ F A} {c c' : Call}
    (h : CallStep k x m c m' c') (hc : c ≠ .initSpin)
    (hd : ∀ total d, c = .destroy total d → closed m.pool.stage) :
    (m'.pool.stage = m.pool.stage ∨ closed m'.pool.stage ∧ m.pool.stage ≠ .starting) ∧
      (m'.flags.threadsKeepalive = m.flags.threadsKeepalive ∨ closed m.pool.stage) ∧
      (∀ total d, c' = .destroy total d → closed m'.pool.stage) ∧ c' ≠ .initSpin := by
  have hstart : closed m.pool.stage → m.pool.stage ≠ .starting := by
    intro h1 h2
    rw [h2] at h1
    exact h1
  cases h with
  | initReady => exact absurd rfl hc
  | destroyEnter hx hs =>
    exact ⟨Or.inr ⟨trivial, by simp [hs]⟩, Or.inl rfl, fun _ _ _ => trivial, by simp⟩
  | add h => exact ⟨Or.inl h.frame.stage, Or.inl rfl, by simp, by simp⟩
  | addReturn h => exact ⟨Or.inl h.frame.stage, Or.inl rfl, by simp, by simp⟩
  | waitMove h => cases h <;> exact ⟨Or.inl rfl, Or.inl rfl, by simp, by simp⟩
  | @destroy total d d' m' h =>
    have hcl := hd total d rfl
    have hst : m'.pool.stage = m.pool.stage := by
      cases h with
      | clearPull hp => exact (pullRun_frame hp).stage
      | _ => rfl
    exact ⟨Or.inl hst, Or.inr hcl, fun _ _ _ => by rwa [hst], by simp⟩
  | @destroyReturn total d m' h =>
    have hcl := hd total d rfl
    cases h with
    | freePool => exact ⟨Or.inr ⟨trivial, hstart hcl⟩, Or.inl rfl, by simp, by simp⟩
  | _ => exact ⟨Or.inl rfl, Or.inl rfl, by simp, by simp⟩

section Served

variable {c : PState π n κ F A} {q : π} {k : κ} {r : Shared π n κ F A × Client π}

omit [DecidableEq π] in
/-- A step that does not build the pool `q`. -/
theorem Served.stay (hi : Served q c) (hslot : r.1.slot q = c.mem.slot q)
    (hstage : (r.1.pool q).stage = (c.mem.pool q).stage ∨
      closed (r.1.pool q).stage ∧ (c.mem.pool q).stage ≠ .starting)
    (hkeep : r.1.flags.threadsKeepalive = c.mem.flags.threadsKeepalive ∨
      r.1.flags.threadsKeepalive = true ∨ c.mem.slot q = .free ∨ closed (c.mem.pool q).stage)
    (hb : building q r.2 → building q (c.client k))
    (hd : ∀ total d, r.2 = .on q (.destroy total d) → closed (r.1.pool q).stage)
    (hn : r.2 ≠ .on q .initSpin) (he : r.2 = .initMake q → r.1.flags.threadsKeepalive = true) :
    Served q (c.moveClient k r) := by
  have hclosed : closed (c.mem.pool q).stage → closed (r.1.pool q).stage := by
    intro h
    rcases hstage with hs | ⟨hs, -⟩
    · rwa [hs]
    · exact hs
  have hstart : (c.mem.pool q).stage = .starting → (r.1.pool q).stage = .starting := by
    intro h
    rcases hstage with hs | ⟨-, hs⟩
    · rw [hs, h]
    · exact absurd h hs
  have hbuild : ∀ k', building q ((c.moveClient k r).client k') → building q (c.client k') := by
    intro k' h
    rcases moveClient_cases c k r k' with ⟨rfl, hk⟩ | ⟨-, hk⟩
    · exact hb (hk ▸ h)
    · exact hk ▸ h
  -- what the step may do to `threads_keepalive` does not matter to those who rely on it
  have hon : c.mem.slot q ≠ .free → ¬ closed (c.mem.pool q).stage →
      c.mem.flags.threadsKeepalive = true → r.1.flags.threadsKeepalive = true := by
    intro h1 h2 h3
    rcases hkeep with h | h | h | h
    · rw [h, h3]
    · exact h
    · exact absurd h h1
    · exact absurd h h2
  refine ⟨fun k' h => ?_, fun h => ?_, fun k' total d h => ?_, fun k' => ?_, fun k' h => ?_,
    fun h1 h2 => ?_, fun i h => hclosed (hi.serving i h)⟩
  · obtain ⟨h1, h2, h3⟩ := hi.maker k' (hbuild k' h)
    exact ⟨by rw [show (c.moveClient k r).mem = r.1 from rfl, hslot]; exact h1, hstart h2,
      fun k'' h' => h3 k'' (hbuild k'' h')⟩
  · exact hstart (hi.fresh (hslot.symm.trans h))
  · rcases moveClient_cases c k r k' with ⟨rfl, hk⟩ | ⟨-, hk⟩
    · exact hd total d (hk.symm.trans h)
    · exact hclosed (hi.destroying k' total d (hk.symm.trans h))
  · rcases moveClient_cases c k r k' with ⟨rfl, hk⟩ | ⟨-, hk⟩
    · rw [hk]; exact hn
    · rw [hk]; exact hi.calls k'
  · rcases moveClient_cases c k r k' with ⟨rfl, hk⟩ | ⟨-, hk⟩
    · exact he (hk.symm.trans h)
    · have hm := hk.symm.trans h
      obtain ⟨h1, h2, -⟩ := hi.maker k' (by rw [hm]; rfl)
      exact hon h1 (by rw [h2]; exact id) (hi.early k' hm)
  · have h1 : c.mem.slot q = .made := hslot.symm.trans h1
    have h2 : ¬ closed (c.mem.pool q).stage := fun h => h2 (hclosed h)
    exact hon (by simp [h1]) h2 (hi.made h1 h2)

/-- A client asks for the pool. -/
theorem Served.take (hi : Served q c) (hs : c.mem.slot q = .free)
    (hr : r = ({ c.mem with slot := Function.update c.mem.slot q .taken }, .initHold q)) :
    Served q (c.moveClient k r) := by
  have hnone : ∀ k', ¬ building q (c.client k') := fun k' h => (hi.maker k' h).1 hs
  have honly : ∀ k', building q ((c.moveClient k r).client k') → k' = k := by
    intro k' h
    rcases moveClient_cases c k r k' with ⟨hk, -⟩ | ⟨-, hk⟩
    · exact hk
    · rw [hk] at h; exact absurd h (hnone k')
  subst hr
  refine ⟨fun k' h => ⟨by simp [Config.moveClient], hi.fresh hs, fun k'' h' => ?_⟩, fun _ => hi.fresh hs,
    fun k' total d h => hi.destroying k' total d (moveClient_of_ne h (by simp)),
    fun k' h => hi.calls k' (moveClient_of_ne h (by simp)),
    fun k' h => hi.early k' (moveClient_of_ne h (by simp)), fun h1 => ?_, hi.serving⟩
  · rw [honly k' h, honly k'' h']
  · simp [Config.moveClient] at h1

/-- The pool and its threads are made: `threads_keepalive` was set before. -/
theorem Served.make (hi : Served q c) (hk : c.client k = .initMake q)
    (hr : r = ({ c.mem with slot := Function.update c.mem.slot q .made }, .initSpin q)) :
    Served q (c.moveClient k r) := by
  obtain ⟨hs, hst, huniq⟩ := hi.maker k (by rw [hk]; rfl)
  have honly : ∀ k', building q ((c.moveClient k r).client k') → k' = k := by
    intro k' h
    rcases moveClient_cases c k r k' with ⟨hk', -⟩ | ⟨-, hk'⟩
    · exact hk'
    · rw [hk'] at h; exact huniq k' h
  subst hr
  refine ⟨fun k' h => ⟨by simp [Config.moveClient], hst, fun k'' h' => ?_⟩, fun _ => hst,
    fun k' total d h => hi.destroying k' total d (moveClient_of_ne h (by simp)),
    fun k' h => hi.calls k' (moveClient_of_ne h (by simp)),
    fun k' h => hi.early k' (moveClient_of_ne h (by simp)), fun _ _ => hi.early k hk, hi.serving⟩
  rw [honly k' h, honly k'' h']

/-- `thpool_init` returns. -/
theorem Served.spin (hi : Served q c) (hk : c.client k = .initSpin q)
    (hr : r = ({ c.mem with
      pool := Function.update c.mem.pool q { c.mem.pool q with stage := .ready } }, .idle)) :
    Served q (c.moveClient k r) := by
  obtain ⟨hs, hst, huniq⟩ := hi.maker k (by rw [hk]; rfl)
  have hopen : ¬ closed (c.mem.pool q).stage := by rw [hst]; exact id
  have hnone : ∀ k', ¬ building q ((c.moveClient k r).client k') := by
    intro k' h
    rcases moveClient_cases c k r k' with ⟨-, hk'⟩ | ⟨hne, hk'⟩
    · rw [hk', hr] at h; exact h
    · rw [hk'] at h; exact hne (huniq k' h)
  subst hr
  exact ⟨fun k' h => absurd h (hnone k'), fun h => absurd h hs,
    fun k' total d h => absurd (hi.destroying k' total d (moveClient_of_ne h (by simp))) hopen,
    fun k' h => hi.calls k' (moveClient_of_ne h (by simp)),
    fun k' h => hi.early k' (moveClient_of_ne h (by simp)), fun h1 _ => hi.made h1 hopen,
    fun i h => absurd (hi.serving i h) hopen⟩

omit [DecidableEq κ] in
/-- A step of a client operates on one pool, and the client stays with this pool. -/
theorem ClientStep.place {size : π → ℕ} {a : Option π × Input n F A} {s s' : Shared π n κ F A}
    {l l' : Client π} (h : ClientStep size k a s l s' l') :
    ∃ q', target a l = some q' ∧ ∀ q, q ≠ q' → ¬ building q l' ∧ ∀ c', l' ≠ .on q c' := by
  have hafter : ∀ (q' : π) (c' : Call) (q : π), q ≠ q' →
      ¬ building q (Client.after q' c') ∧ ∀ c'', Client.after q' c' ≠ .on q c'' := by
    intro q' c' q hne
    have hne' : ¬ q' = q := fun h => hne h.symm
    cases c' <;> simp [Client.after, building, hne']
  cases h with
  | take q' hq => exact ⟨q', hq, fun q hne => ⟨fun h => hne h.symm, by simp⟩⟩
  | enter q' hq h => exact ⟨q', hq, hafter q' _⟩
  | hold q' => exact ⟨q', rfl, fun q hne => ⟨fun h => hne h.symm, by simp⟩⟩
  | keep q' => exact ⟨q', rfl, fun q hne => ⟨fun h => hne h.symm, by simp⟩⟩
  | make q' => exact ⟨q', rfl, fun q hne => ⟨fun h => hne h.symm, by simp⟩⟩
  | spin q' _ => exact ⟨q', rfl, fun q hne => ⟨id, by simp⟩⟩
  | call q' h => exact ⟨q', rfl, hafter q' _⟩

/-- An operation on another pool. -/
theorem Served.other {size : π → ℕ} {a : Option π × Input n F A} (hi : Served q c)
    (hok : othersKeep q c (.inr k, a)) (h : ClientStep size k a c.mem (c.client k) r.1 r.2)
    (hq : target a (c.client k) ≠ some q) : Served q (c.moveClient k r) := by
  obtain ⟨q', ht, hplace⟩ := h.place
  have hne : q ≠ q' := by
    rintro rfl
    exact hq ht
  obtain ⟨hflags, hframe⟩ := h.frame ht
  obtain ⟨hpool, hslot⟩ := hframe q hne
  obtain ⟨hb, hon⟩ := hplace q hne
  refine hi.stay hslot (Or.inl (by rw [hpool])) ?_ (fun h => absurd h hb)
    (fun total d h => absurd h (hon _)) (hon _) (fun h => absurd (by rw [h]; rfl) hb)
  by_cases hs : c.mem.slot q = .free
  · exact Or.inr (Or.inr (Or.inl hs))
  · exact Or.inl (by rw [hflags, hok k q' rfl ht hne.symm hs])

/-- A step of a call on the pool. -/
theorem Served.call {x : Input n F A} {cl cl' : Call} {m' : Mem n κ F A} (hi : Served q c)
    (h : callStep k x (c.mem.focus q) cl = some (m', cl')) (hcl : cl ≠ .initSpin)
    (hd : ∀ total d, cl = .destroy total d → closed (c.mem.pool q).stage) :
    Served q (c.moveClient k (c.mem.put q m', Client.after q cl')) := by
  obtain ⟨hstage, hkeep, hdestroy, hspin⟩ := callStep_stage (callStep_cases h) hcl hd
  have hpool : (c.mem.put q m').pool q = m'.pool := Function.update_self ..
  refine hi.stay rfl (by rw [hpool]; exact hstage) ?_ ?_ ?_ ?_ ?_
  · exact hkeep.imp id fun h => Or.inr (Or.inr h)
  · cases cl' <;> exact fun h => h.elim
  · rw [hpool]
    intro total d h
    refine hdestroy total d ?_
    cases cl' <;> simp_all [Client.after]
  · cases cl' <;> simp_all [Client.after]
  · cases cl' <;> simp [Client.after]

theorem Served.client {size : π → ℕ} {a : Option π × Input n F A} (hi : Served q c)
    (hok : othersKeep q c (.inr k, a)) (h : ClientStep size k a c.mem (c.client k) r.1 r.2) :
    Served q (c.moveClient k r) := by
  by_cases hq : target a (c.client k) = some q
  · obtain ⟨s', l'⟩ := r
    generalize hl : c.client k = l at h hq
    cases h with
    | take q' hq' hx hs =>
      obtain rfl : q' = q := Option.some.inj (hq'.symm.trans hq)
      exact hi.take hs rfl
    | enter q' hq' h =>
      obtain rfl : q' = q := Option.some.inj (hq'.symm.trans hq)
      exact hi.call h (by simp) (by simp)
    | hold q' =>
      obtain rfl : q' = q := Option.some.inj hq
      exact hi.stay rfl (Or.inl rfl) (Or.inl rfl) (by rw [hl]; exact id) (by simp) (by simp) (by simp)
    | keep q' =>
      obtain rfl : q' = q := Option.some.inj hq
      exact hi.stay rfl (Or.inl rfl) (Or.inr (Or.inl rfl)) (by rw [hl]; exact id) (by simp) (by simp)
        (fun _ => rfl)
    | make q' =>
      obtain rfl : q' = q := Option.some.inj hq
      exact hi.make hl rfl
    | spin q' _ =>
      obtain rfl : q' = q := Option.some.inj hq
      exact hi.spin hl rfl
    | @call q' cl cl' m' h =>
      obtain rfl : q' = q := Option.some.inj hq
      refine hi.call h (fun hs => hi.calls k (by rw [hl, hs])) ?_
      rintro total d rfl
      exact hi.destroying k total d hl
  · exact hi.other hok h hq

omit [DecidableEq κ] in
/-- A worker leaves its loop only when it finds `threads_keepalive` cleared. -/
theorem posStep_leaving {i : Fin n} {x : Input n F A} {fl : Flags} {p p' : Pool n κ F A}
    {w w' : Pos F A} (h : PosStep i x fl p w p' w') (hw : leaving w') :
    leaving w ∨ fl.threadsKeepalive = false := by
  cases h with
  | countLock h _ => cases h <;> first | exact hw.elim | exact Or.inl trivial
  | countUnlock h => cases h <;> first | exact hw.elim | exact Or.inl trivial
  | silent h =>
    cases h with
    | leave h => exact Or.inr h
    | _ => exact hw.elim
  | exitDec => exact Or.inl trivial
  | _ => exact hw.elim

omit [DecidableEq κ] in
/-- The workers store `1` into `threads_on_hold` only. -/
theorem workerStep_flags {i : Fin n} {x : Input n F A} {m m' : Mem n κ F A} {w w' : Worker F A}
    (h : WorkerStep i x m w m' w') :
    m'.flags.threadsKeepalive = m.flags.threadsKeepalive ∧
      (m.flags.threadsOnHold = true → m'.flags.threadsOnHold = true) ∧
      (leaving w'.pos → leaving w.pos ∨ m.flags.threadsKeepalive = false) := by
  cases h with
  | holdSet => exact ⟨rfl, fun _ => rfl, Or.inl⟩
  | move _ _ h => exact ⟨rfl, id, posStep_leaving h⟩
  | _ => exact ⟨rfl, id, Or.inl⟩

omit [DecidableEq κ] in
/-- **A step of a worker** of the pool `i.1`: the pool has its threads, and the worker moves as in a
program with this pool alone. -/
theorem poolWorkerStep_cases {size : π → ℕ} {i : π × Fin n} {a : Option π × Input n F A}
    {s : Shared π n κ F A} {w : Worker F A} {r : Shared π n κ F A × Worker F A}
    (h : poolWorkerStep size i a s w = some r) :
    s.slot i.1 = .made ∧ ∃ m' w', r = (s.put i.1 m', w') ∧
      WorkerStep i.2 a.2 (s.focus i.1) w m' w' := by
  unfold poolWorkerStep at h
  split_ifs at h with hs
  obtain ⟨⟨m', w'⟩, hr, rfl⟩ := Option.map_eq_some_iff.mp h
  exact ⟨hs.1, m', w', rfl, workerStep_cases hr⟩

omit [DecidableEq κ] in
theorem Served.worker {size : π → ℕ} {i : π × Fin n} {a : Option π × Input n F A}
    {r : Shared π n κ F A × Worker F A} (hi : Served q c)
    (h : poolWorkerStep size i a c.mem (c.worker i) = some r) : Served q (c.moveWorker i r) := by
  obtain ⟨hmade, m', w', rfl, hw⟩ := poolWorkerStep_cases h
  obtain ⟨hkeep, -, hleave⟩ := workerStep_flags hw
  have hstage : ((c.mem.put i.1 m').pool q).stage = (c.mem.pool q).stage := by
    by_cases hq : q = i.1
    · subst hq
      rw [show (c.mem.put i.1 m').pool i.1 = m'.pool from Function.update_self ..]
      exact (workerStep_stage hw).1
    · rw [show (c.mem.put i.1 m').pool q = c.mem.pool q from Function.update_of_ne hq _ _]
  have hkeep : (c.mem.put i.1 m').flags.threadsKeepalive = c.mem.flags.threadsKeepalive := hkeep
  refine ⟨fun k h => ?_, fun h => hstage.trans (hi.fresh h), fun k total d h => ?_, hi.calls,
    fun k h => hkeep.trans (hi.early k h), fun h1 h2 => ?_, fun j h => ?_⟩
  · obtain ⟨h1, h2, h3⟩ := hi.maker k h
    exact ⟨h1, hstage.trans h2, h3⟩
  · exact hstage ▸ hi.destroying k total d h
  · exact hkeep.trans (hi.made h1 fun h => h2 (hstage ▸ h))
  · refine (show closed ((c.mem.put i.1 m').pool q).stage from hstage ▸ ?_)
    rcases moveWorker_cases c i (c.mem.put i.1 m', w') (q, j) with ⟨hij, hpos⟩ | ⟨-, hpos⟩
    · subst hij
      rw [hpos] at h
      rcases hleave h with hl | hl
      · exact hi.serving j hl
      · by_contra hopen
        have := hi.made hmade hopen
        rw [show c.mem.flags.threadsKeepalive = false from hl] at this
        cases this
    · rw [hpos] at h
      exact hi.serving j h

theorem served_reach {size : π → ℕ} (h : Reach (pools size n κ F A).lts (othersKeep q) c) :
    Served q c := by
  refine Program.invariant ?_ ?_ ?_ h
  · rintro _ ⟨heap, rfl⟩
    exact ⟨fun _ h => h.elim, fun _ => rfl, fun _ _ _ h => (by cases h), fun _ h => (by cases h),
      fun _ h => (by cases h), fun h => (by cases h), fun _ h => h.elim⟩
  · intro c i a r _ hi _ hs
    exact hi.worker hs
  · intro c k a r _ hi hok hs
    exact hi.client hok (clientStep_cases hs)

end Served

/-! ### Independence -/

/-- The step is one of a worker, or an operation on a pool other than `q` that stores no new value into
the flags. -/
def onOthers (q : π) (c : PState π n κ F A) (b : ((π × Fin n) ⊕ κ) × (Option π × Input n F A)) : Prop :=
  ∀ k, b.1 = .inr k → target b.2 (c.client k) ≠ some q ∧
    storedFlags c.mem.flags b.2 (c.client k) = c.mem.flags

/-- No operation on another pool undoes a `thpool_destroy` in progress, or resumes a paused pool. -/
theorem next_flags {size : π → ℕ} {q : π} {c c' : PState π n κ F A}
    {b : ((π × Fin n) ⊕ κ) × (Option π × Input n F A)} (hok : onOthers q c b)
    (hs : (pools size n κ F A).lts.next c b = some c') :
    c'.mem.flags.threadsKeepalive = c.mem.flags.threadsKeepalive ∧
      (c.mem.flags.threadsOnHold = true → c'.mem.flags.threadsOnHold = true) := by
  rcases Program.next_cases hs with ⟨i, a, r, rfl, hr, rfl⟩ | ⟨k, a, r, rfl, hr, rfl⟩
  · obtain ⟨-, m', w', rfl, hw⟩ := poolWorkerStep_cases hr
    obtain ⟨h1, h2, -⟩ := workerStep_flags hw
    exact ⟨h1, h2⟩
  · have hc := clientStep_cases hr
    obtain ⟨q', ht, -⟩ := hc.place
    have hf : r.1.flags = c.mem.flags := (hc.frame ht).1.trans (hok k rfl).2
    exact ⟨congrArg Flags.threadsKeepalive hf, fun h => (congrArg Flags.threadsOnHold hf).trans h⟩

/-- **Pools are independent exactly as far as the flags are left alone.** Let `q` be a pool with a worker.
An operation on another pool, in any state, changes nothing in what the workers of `q` do wherever they
are, if and only if its step stores no new value into `threads_keepalive` and `threads_on_hold`. In every
run whose operations on other pools store no new value while `q` exists, a worker of `q` has left its loop
only if `thpool_destroy` of `q` was called; and operations on other pools that store no new value, in any
interleaving with all workers, neither set nor clear `threads_keepalive` and never clear
`threads_on_hold`. -/
theorem pools_independent_iff (size : π → ℕ) (q : π) (i : Fin n) :
    (∀ (c c' : PState π n κ F A) (k : κ) (a : Option π × Input n F A),
      (pools size n κ F A).lts.next c (.inr k, a) = some c' → target a (c.client k) ≠ some q →
      ((∀ j x w, stepOf c'.mem q j x w = stepOf c.mem q j x w) ↔
        storedFlags c.mem.flags a (c.client k) = c.mem.flags)) ∧
    (∀ c : PState π n κ F A, Reach (pools size n κ F A).lts (othersKeep q) c →
      ∀ j, leaving (c.worker (q, j)).pos → closed (c.mem.pool q).stage) ∧
    ∀ c c' : PState π n κ F A, Runs (pools size n κ F A).lts (onOthers q) c c' →
      c'.mem.flags.threadsKeepalive = c.mem.flags.threadsKeepalive ∧
        (c.mem.flags.threadsOnHold = true → c'.mem.flags.threadsOnHold = true) := by
  refine ⟨fun c c' k a hs hq => ?_, fun c hc => (served_reach hc).serving, fun c c' hrun => ?_⟩
  · rcases Program.next_cases hs with ⟨i, x, r, he, -, -⟩ | ⟨k', x, r, he, hr, rfl⟩
    · cases he
    · cases he
      have hc := clientStep_cases hr
      obtain ⟨q', ht, -⟩ := hc.place
      obtain ⟨hflags, hframe⟩ := hc.frame ht
      have hpool : r.1.pool q = c.mem.pool q := by
        refine (hframe q ?_).1
        rintro rfl
        exact hq ht
      rw [← hflags]
      refine ⟨fun h => (stepOf_inj i hpool).mp (h i), fun h j => (stepOf_inj j hpool).mpr h⟩
  · refine Runs.keeps (P := fun s : PState π n κ F A =>
      s.mem.flags.threadsKeepalive = c.mem.flags.threadsKeepalive ∧
        (c.mem.flags.threadsOnHold = true → s.mem.flags.threadsOnHold = true)) ?_ hrun ⟨rfl, id⟩
    rintro s b s' ⟨h1, h2⟩ hok hn
    obtain ⟨g1, g2⟩ := next_flags hok hn
    exact ⟨g1.trans h1, fun h => g2 (h2 h)⟩

/-- Two pools with one worker each, and one client. -/
abbrev twoPools : Lts (PState Bool 1 Unit ℕ ℕ) (((Bool × Fin 1) ⊕ Unit) × (Option Bool × Input 1 ℕ ℕ)) :=
  (pools (fun _ => 1) 1 Unit ℕ ℕ).lts

/-- Steps of the threads `ts` in turn that leave nothing open. -/
def plainOps (ts : List ((Bool × Fin 1) ⊕ Unit)) :
    List (((Bool × Fin 1) ⊕ Unit) × (Option Bool × Input 1 ℕ ℕ)) :=
  ts.map fun t => (t, none, {})

/-- A client creates the pool `q` with its one worker. -/
def initRun (q : Bool) : List (((Bool × Fin 1) ⊕ Unit) × (Option Bool × Input 1 ℕ ℕ)) :=
  let k : (Bool × Fin 1) ⊕ Unit := .inr ()
  let w : (Bool × Fin 1) ⊕ Unit := .inl (q, Fin.last 0)
  (k, some q, {}) :: plainOps [k, k, k, w, w, w, k]

/-- Two pools are created, a job is added to the second one, and `thpool_destroy` of the first one is
called. -/
def twoPoolsRun : List (((Bool × Fin 1) ⊕ Unit) × (Option Bool × Input 1 ℕ ℕ)) :=
  initRun false ++ initRun true ++ [(.inr (), some true, { call := some (.addWork 7 0) })] ++
    plainOps (List.replicate 9 (.inr ())) ++ [(.inr (), some false, { call := some .destroy })]

/-- The client is about to clear `threads_keepalive` for the first pool; the worker of the second one is at
the test of its loop, with one job in the queue. -/
def aboutToStop (c : PState Bool 1 Unit ℕ ℕ) : Bool :=
  c.mem.flags.threadsKeepalive && decide (c.mem.slot true = .made) &&
    decide ((c.mem.pool true).len = 1) && decide ((c.mem.pool true).stage = .ready) &&
    match c.client (), c.worker (true, Fin.last 0) with
    | .on false (.destroy _ .keepalive), ⟨.loop, .off⟩ => true
    | _, _ => false

theorem reach_aboutToStop : ∃ c, Reach twoPools anyStep c ∧ aboutToStop c = true :=
  reach_of_run twoPools anyStep_of_test twoPoolsRun aboutToStop ⟨fun _ => ⟨none, 0, 0⟩, rfl⟩ (by decide)

theorem aboutToStop_spec {c : PState Bool 1 Unit ℕ ℕ} (h : aboutToStop c = true) :
    c.mem.flags.threadsKeepalive = true ∧ c.mem.slot true = .made ∧ (c.mem.pool true).len = 1 ∧
      (c.mem.pool true).stage = .ready ∧ (∃ total, c.client () = .on false (.destroy total .keepalive)) ∧
      c.worker (true, Fin.last 0) = ⟨.loop, .off⟩ := by
  simp only [aboutToStop, Bool.and_eq_true, decide_eq_true_eq] at h
  obtain ⟨⟨⟨⟨h1, h2⟩, h3⟩, h4⟩, h5⟩ := h
  split at h5
  · next total hk hw => exact ⟨h1, h2, h3, h4, ⟨total, hk⟩, hw⟩
  · cases h5

/-- The next step of the worker `(true, 0)` at the test of its loop. -/
theorem next_loop {c : PState Bool 1 Unit ℕ ℕ} (hs : c.mem.slot true = .made)
    (hw : c.worker (true, Fin.last 0) = ⟨.loop, .off⟩) :
    ∃ d, twoPools.next c (.inl (true, Fin.last 0), none, {}) = some d ∧
      (d.mem.pool true) = c.mem.pool true ∧
      (d.worker (true, Fin.last 0)).pos =
        if c.mem.flags.threadsKeepalive then .semLock else .exitLock := by
  have hstep : poolWorkerStep (fun _ => 1) (true, Fin.last 0) (none, {}) c.mem
      (c.worker (true, Fin.last 0)) = some (c.mem.put true (c.mem.focus true),
        ⟨if c.mem.flags.threadsKeepalive then .semLock else .exitLock, .off⟩) := by
    rw [hw, poolWorkerStep, if_pos ⟨hs, by decide⟩]
    rfl
  refine ⟨c.moveWorker (true, Fin.last 0) _, congrArg (Option.map _) hstep, ?_, ?_⟩
  · simp [Config.moveWorker, Shared.put, Shared.focus]
  · simp [Config.moveWorker]

/-- **Destroying one pool stops the other.** When `thpool_destroy` of the first pool clears
`threads_keepalive`, the worker of the second one, which would have served its queue, leaves its loop with
the job in the queue. -/
theorem destroy_stops_other_twoPoolsRun : ∃ c c' d d' : PState Bool 1 Unit ℕ ℕ,
    Reach twoPools anyStep c ∧
      target ((none, {}) : Option Bool × Input 1 ℕ ℕ) (c.client ()) = some false ∧
      twoPools.next c (.inr (), none, {}) = some c' ∧
      twoPools.next c (.inl (true, Fin.last 0), none, {}) = some d ∧
      ¬ leaving (d.worker (true, Fin.last 0)).pos ∧
      twoPools.next c' (.inl (true, Fin.last 0), none, {}) = some d' ∧
      leaving (d'.worker (true, Fin.last 0)).pos ∧
      (d'.mem.pool true).len = 1 ∧ (d'.mem.pool true).stage = .ready := by
  obtain ⟨c, hc, hp⟩ := reach_aboutToStop
  obtain ⟨hkeep, hs, hlen, hstage, ⟨total, hk⟩, hw⟩ := aboutToStop_spec hp
  obtain ⟨d, hd, -, hpos⟩ := next_loop hs hw
  -- the step of `thpool_destroy`
  let c' := c.moveClient () (c.mem.put false ⟨{ c.mem.flags with threadsKeepalive := false },
    c.mem.pool false⟩, .on false (.destroy total (.poll true)))
  have hc' : twoPools.next c (.inr (), none, {}) = some c' := by
    simp [Program.lts, pools, hk, clientStep, callStep, destroyStep, Shared.focus, Client.after, c']
  have hpool : c'.mem.pool true = c.mem.pool true := by
    simp [c', Config.moveClient, Shared.put]
  obtain ⟨d', hd', hpool', hpos'⟩ := next_loop (c := c') hs hw
  refine ⟨c, c', d, d', hc, by rw [hk]; rfl, hc', hd, ?_, hd', ?_, ?_, ?_⟩
  · rw [hpos, hkeep]; exact id
  · rw [hpos']; trivial
  · rw [hpool', hpool, hlen]
  · rw [hpool', hpool, hstage]

/-- The other steps of `thpool_destroy` leave the workers of the second pool alone. -/
theorem pools_independent_iff_twoPoolsRun : ∃ c : PState Bool 1 Unit ℕ ℕ,
    Reach twoPools anyStep c ∧ ∃ c' a, twoPools.next c (.inr (), a) = some c' ∧
      target a (c.client ()) = some false ∧
      ∀ j x w, stepOf c'.mem true j x w = stepOf c.mem true j x w := by
  obtain ⟨c, hc, hp⟩ := reach_of_run twoPools anyStep_of_test (twoPoolsRun ++ plainOps [.inr ()])
    (fun c => decide ((twoPools.next c (.inr (), none, {})).isSome = true) &&
      match c.client () with
      | .on false (.destroy _ (.poll true)) => true
      | _ => false) ⟨fun _ => ⟨none, 0, 0⟩, rfl⟩ (by decide)
  simp only [Bool.and_eq_true, decide_eq_true_eq, Option.isSome_iff_exists] at hp
  obtain ⟨⟨c', hn⟩, hk⟩ := hp
  split at hk
  · next total hcl =>
    refine ⟨c, hc, c', (none, {}), hn, by rw [hcl]; rfl, ?_⟩
    refine ((pools_independent_iff (fun _ => 1) true (Fin.last 0)).1 c c' () (none, {}) hn ?_).mpr ?_
    · rw [hcl]; simp [target]
    · rw [hcl]; rfl
  · cases hk

end PoolStudy.Thpool.Pools
