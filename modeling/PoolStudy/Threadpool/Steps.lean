import PoolStudy.Threadpool.Model

/-! # The ring-buffer pool: what a step can do

`CallStep` and `WorkerStep` list the outcomes of a step of a library call and of a worker, with the
guards under which they happen; `callStep_cases` and `workerStep_cases` read them off the definitions
once, and every invariant is proved by cases on them. -/

namespace PoolStudy.Threadpool.Steps

open PoolStudy.Lib.Transition PoolStudy.Lib.Threads PoolStudy.Lib.Ring PoolStudy.Threadpool.Model

variable {n : ℕ} {F A : Type}

section Unlock

variable (p : Pool n F A) (x : Input n F A)

@[simp] theorem unlock_notify : (p.unlock x).notify = p.notify := by
  unfold Pool.unlock; split_ifs <;> rfl

@[simp] theorem unlock_threads : (p.unlock x).threads = p.threads := by
  unfold Pool.unlock; split_ifs <;> rfl

@[simp] theorem unlock_count : (p.unlock x).count = p.count := by
  unfold Pool.unlock; split_ifs <;> rfl

@[simp] theorem unlock_shutdown : (p.unlock x).shutdown = p.shutdown := by
  unfold Pool.unlock; split_ifs <;> rfl

@[simp] theorem unlock_started : (p.unlock x).started = p.started := by
  unfold Pool.unlock; split_ifs <;> rfl

end Unlock

/-- What `threadpool_add` returns once its unlock was tried. -/
def retOf (x : Input n F A) (err : Ret) : Ret := if x.unlockOk then err else some .lockFailure

/-- **The outcomes of a step of a call** by `self`, from the memory `m`. -/
inductive CallStep (self : Tid n) (x : Input n F A) (m : Mem n F A) :
    Call F A → Mem n F A → Call F A → Prop
  | enter {c : Call F A} (h : c = .outside ∨ (∃ t, c = .addLock t) ∨ ∃ f, c = .destroyLock f) :
      CallStep self x m .outside m c
  | addNoLock (t : Task F A) (hx : x.lockOk = false) :
      CallStep self x m (.addLock t) { m with adds := m.adds ++ [(t, some .lockFailure)] } .outside
  | addLock (t : Task F A) (h : m.pool.lock = none) :
      CallStep self x m (.addLock t) { m with pool := { m.pool with lock := some self } } (.addIn t)
  | addFull (t : Task F A) (h : m.pool.count = m.pool.queueSize) :
      CallStep self x m (.addIn t) { m with
        pool := m.pool.unlock x
        adds := m.adds ++ [(t, retOf x (some .queueFull))] } .outside
  | addShut (t : Task F A) (h : m.pool.count ≠ m.pool.queueSize) (hs : m.pool.shutdown ≠ none) :
      CallStep self x m (.addIn t) { m with
        pool := m.pool.unlock x
        adds := m.adds ++ [(t, retOf x (some .shutdown))] } .outside
  | addPush (t : Task F A) (ws : Finset (Fin n)) (h : m.pool.count ≠ m.pool.queueSize)
      (hs : m.pool.shutdown = none) (hw : signal x.wake m.pool.notify = some ws) :
      CallStep self x m (.addIn t) { m with
        pool := ({ m.pool.push t with notify := ws } : Pool n F A).unlock x
        adds := m.adds ++ [(t, retOf x none)] } .outside
  | addNoSignal (t : Task F A) (h : m.pool.count ≠ m.pool.queueSize) (hs : m.pool.shutdown = none)
      (hx : x.condOk = false) :
      CallStep self x m (.addIn t) { m with
        pool := (m.pool.push t).unlock x
        adds := m.adds ++ [(t, retOf x (some .lockFailure))] } .outside
  | destroyNoLock (f : BitVec 32) (hx : x.lockOk = false) :
      CallStep self x m (.destroyLock f)
        { m with destroys := m.destroys ++ [(f, some .lockFailure)] } .outside
  | destroyLock (f : BitVec 32) (h : m.pool.lock = none) :
      CallStep self x m (.destroyLock f) { m with pool := { m.pool with lock := some self } }
        (.destroyIn f)
  | destroyAgain (f : BitVec 32) (hs : m.pool.shutdown ≠ none) :
      CallStep self x m (.destroyIn f) { m with destroys := m.destroys ++ [(f, some .shutdown)] } .outside
  | destroySet (f : BitVec 32) (hs : m.pool.shutdown = none) (hx : x.condOk = true)
      (hu : x.unlockOk = true) :
      CallStep self x m (.destroyIn f) { m with
        pool := { m.pool with shutdown := some (shutdownOf f), notify := ∅, lock := none } }
        (.join f 0 none)
  | destroyNoUnlock (f : BitVec 32) (hs : m.pool.shutdown = none) (hx : x.unlockOk = false) :
      CallStep self x m (.destroyIn f) { m with
        pool := { m.pool with shutdown := some (shutdownOf f), notify := ∅ }
        destroys := m.destroys ++ [(f, some .lockFailure)] } .outside
  | destroyNoCast (f : BitVec 32) (hs : m.pool.shutdown = none) (hx : x.condOk = false) :
      CallStep self x m (.destroyIn f) { m with
        pool := { m.pool with shutdown := some (shutdownOf f) }
        destroys := m.destroys ++ [(f, some .lockFailure)] } .outside
  | joinEnd (f : BitVec 32) (i : ℕ) (err : Ret) (h : m.pool.threads[i]? = none) :
      CallStep self x m (.join f i err) m (.free f err)
  | joinOne (f : BitVec 32) (i : ℕ) (err : Ret) (w : Fin n) (h : m.pool.threads[i]? = some w)
      (hw : w ∈ m.exited) : CallStep self x m (.join f i err) m (.join f (i + 1) err)
  | joinFail (f : BitVec 32) (i : ℕ) (err : Ret) (hx : x.joinOk = false) :
      CallStep self x m (.join f i err) m (.join f (i + 1) (some .threadFailure))
  | freeErr (f : BitVec 32) (e : ThreadpoolError) :
      CallStep self x m (.free f (some e)) { m with destroys := m.destroys ++ [(f, some e)] } .outside
  | freeRefused (f : BitVec 32) (h : 0 < m.pool.started) :
      CallStep self x m (.free f none) { m with destroys := m.destroys ++ [(f, none)] } .outside
  | freeDone (f : BitVec 32) (h : m.pool.started ≤ 0) :
      CallStep self x m (.free f none)
        { m with freed := true, destroys := m.destroys ++ [(f, none)] } .outside

theorem callStep_cases {self : Tid n} {x : Input n F A} {m : Mem n F A} {c : Call F A}
    {r : Mem n F A × Call F A} (h : callStep self x m c = some r) :
    m.freed = false ∧ CallStep self x m c r.1 r.2 := by
  unfold callStep at h
  by_cases hf : m.freed = true
  · rw [if_pos hf] at h; cases h
  rw [if_neg hf] at h
  refine ⟨by simpa using hf, ?_⟩
  cases c with
  | outside =>
    simp only at h
    split at h <;> simp only [Option.some.injEq, reduceCtorEq] at h
    · subst h; exact .enter (Or.inl rfl)
    · subst h; exact .enter (Or.inr (Or.inl ⟨_, rfl⟩))
    · subst h; exact .enter (Or.inr (Or.inr ⟨_, rfl⟩))
  | addLock t =>
    simp only at h
    split_ifs at h with h1 h2 <;> cases h
    · exact .addLock t h2
    · exact .addNoLock t (by simpa using h1)
  | addIn t =>
    obtain ⟨⟨p, err⟩, hp, rfl⟩ := Option.map_eq_some_iff.mp h
    unfold addSection at hp
    split_ifs at hp with h1 h2 h3
    · cases hp; exact .addFull t h1
    · cases hp; exact .addShut t h1 (Option.isSome_iff_ne_none.mp h2)
    · obtain ⟨ws, hw, he⟩ := Option.map_eq_some_iff.mp hp
      cases he
      exact .addPush t ws h1 (by simpa using h2) hw
    · cases hp; exact .addNoSignal t h1 (by simpa using h2) (by simpa using h3)
  | destroyLock f =>
    simp only at h
    split_ifs at h with h1 h2 <;> cases h
    · exact .destroyLock f h2
    · exact .destroyNoLock f (by simpa using h1)
  | destroyIn f =>
    simp only at h
    split_ifs at h with h1 h2 h3 <;> cases h
    · exact .destroyAgain f (Option.isSome_iff_ne_none.mp h1)
    · exact .destroySet f (by simpa using h1) h2 h3
    · exact .destroyNoUnlock f (by simpa using h1) (by simpa using h3)
    · exact .destroyNoCast f (by simpa using h1) (by simpa using h2)
  | join f i err =>
    simp only at h
    split at h
    · next hi => cases h; exact .joinEnd f i err hi
    · next w hi =>
      split_ifs at h with h1 h2 <;> cases h
      · exact .joinOne f i err w hi h2
      · exact .joinFail f i err (by simpa using h1)
  | free f err =>
    cases err with
    | some e => cases h; exact .freeErr f e
    | none =>
      obtain ⟨⟨m', b⟩, hp, rfl⟩ := Option.map_eq_some_iff.mp h
      unfold threadpoolFree at hp
      split_ifs at hp with h1 h2 <;> cases hp
      · exact .freeRefused f h1
      · exact .freeDone f (by omega)

/-- **The outcomes of a step of the worker** `i`, from the memory `m`. -/
inductive WorkerStep (i : Fin n) (x : Input n F A) (m : Mem n F A) :
    Worker F A → Mem n F A → Worker F A → Prop
  | lock (h : m.pool.lock = none) :
      WorkerStep i x m .lock { m with pool := { m.pool with lock := some (.inl i) } } .test
  | sleep (hc : m.pool.count = 0) (hs : m.pool.shutdown = none) :
      WorkerStep i x m .test
        { m with pool := { m.pool with lock := none, notify := insert i m.pool.notify } } .wait
  | leave (h : m.pool.shutdown = some .immediateShutdown ∨
        (m.pool.shutdown = some .gracefulShutdown ∧ m.pool.count = 0)) :
      WorkerStep i x m .test { m with
        pool := { m.pool with lock := none, started := m.pool.started - 1 }
        exited := insert i m.exited } .exited
  | grab (hc : m.pool.count ≠ 0) (hs : m.pool.shutdown ≠ some .immediateShutdown) :
      WorkerStep i x m .test { m with
        pool := { m.pool.pop with lock := none }
        dequeued := m.dequeued ++ [m.pool.queue m.pool.head] }
        (.run (m.pool.queue m.pool.head) .outside)
  | spurious (h : i ∈ m.pool.notify) :
      WorkerStep i x m .wait
        { m with pool := { m.pool with notify := m.pool.notify.erase i } } .wait
  | wake (h : i ∉ m.pool.notify) (hl : m.pool.lock = none) :
      WorkerStep i x m .wait { m with pool := { m.pool with lock := some (.inl i) } } .test
  | finish (t : Task F A) :
      WorkerStep i x m (.run t .outside) { m with done := m.done ++ [t] } .lock
  | call (t : Task F A) {c c' : Call F A} {m' : Mem n F A} (hf : m.freed = false)
      (h : CallStep (.inl i) x m c m' c') : WorkerStep i x m (.run t c) m' (.run t c')

theorem workerStep_cases {i : Fin n} {x : Input n F A} {m : Mem n F A} {w : Worker F A}
    {r : Mem n F A × Worker F A} (h : workerStep i x m w = some r) :
    WorkerStep i x m w r.1 r.2 := by
  cases w with
  | lock =>
    simp only [workerStep] at h
    split_ifs at h with h1
    cases h; exact .lock h1
  | test =>
    simp only [workerStep] at h
    split_ifs at h with h1 h2 <;> cases h
    · exact .sleep h1.1 h1.2
    · exact .leave h2
    · have hc : m.pool.count ≠ 0 := by
        intro hc
        rcases hs : m.pool.shutdown with _ | s
        · exact h1 ⟨hc, hs⟩
        · cases s
          · exact h2 (Or.inl hs)
          · exact h2 (Or.inr ⟨hs, hc⟩)
      exact .grab hc (fun hs => h2 (Or.inl hs))
  | wait =>
    simp only [workerStep] at h
    split_ifs at h with h1 h2 <;> cases h
    · exact .spurious h1
    · exact .wake h1 h2
  | run t c =>
    simp only [workerStep] at h
    split_ifs at h with h1
    · cases c <;> simp only [Call.isOutside, Bool.false_eq_true, false_and] at h1
      cases h; exact .finish t
    · obtain ⟨⟨m', c'⟩, hr, rfl⟩ := Option.map_eq_some_iff.mp h
      obtain ⟨hf, hs⟩ := callStep_cases hr
      exact .call t hf hs
  | exited => cases h

end PoolStudy.Threadpool.Steps
