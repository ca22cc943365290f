import PoolStudy.Thpool.Model

/-! # The linked-queue pool: what a step can do

One relation for each part of the code (`PushStep`, `PullStep`, `AddStep`, `PosStep`, `DestroyStep`,
`CallStep`) lists the outcomes of a step there, with the guards under which they happen; the theorems
`…_cases` read them off the definitions once, and every invariant is proved by cases on them. The steps
that only lock or unlock `thcount_lock`, and those that change nothing but the position, are one case
each (`CountLock`, `CountUnlock`, `Silent`, `WaitMove`). -/

namespace PoolStudy.Thpool.Steps

open PoolStudy.Lib.Transition PoolStudy.Lib.Threads PoolStudy.Lib.IntCounter PoolStudy.Thpool.Model

variable {n : ℕ} {κ F A : Type}

/-! ### The queue -/

/-- **The outcomes of a step of `jobqueue_push`** of the node `j`. -/
inductive PushStep (self : Tid n κ) (x : Input n F A) (p : Pool n κ F A) (j : Ptr) :
    Push → Pool n κ F A → Push → Prop
  | prev : PushStep self x p j .prev
      { p with heap := Function.update p.heap j { p.heap j with prev := none } } .switch
  | switch0 (h : p.len = 0) : PushStep self x p j .switch p .front
  | switchD (h : p.len ≠ 0) : PushStep self x p j .switch p .rearPrev
  | front : PushStep self x p j .front { p with front := some j } .rear
  | rear : PushStep self x p j .rear { p with rear := some j } .inc
  | rearPrev (r : Ptr) (h : p.rear = some r) : PushStep self x p j .rearPrev
      { p with heap := Function.update p.heap r { p.heap r with prev := some j } } .rearNew
  | rearNew : PushStep self x p j .rearNew { p with rear := some j } .inc
  | inc : PushStep self x p j .inc { p with len := wrap (p.len + 1), pushed := p.pushed ++ [j] } .postLock
  | postLock (h : p.hasJobs.mutex = none) : PushStep self x p j .postLock
      { p with hasJobs := { p.hasJobs with mutex := some self } } .post
  | post (ws : Finset (Fin n)) (h : signal x.wake p.hasJobs.cond = some ws) : PushStep self x p j .post
      { p with hasJobs := { mutex := none, cond := ws, v := 1 } } .ret

theorem lockSem_some {p p' : Pool n κ F A} {self : Tid n κ} (h : p.lockSem self = some p') :
    p.hasJobs.mutex = none ∧ p' = { p with hasJobs := { p.hasJobs with mutex := some self } } := by
  unfold Pool.lockSem at h
  split_ifs at h with h1
  exact ⟨h1, (Option.some.inj h).symm⟩

theorem bsemPost_some {p p' : Pool n κ F A} {x : Input n F A} (h : p.bsemPost x = some p') :
    ∃ ws, signal x.wake p.hasJobs.cond = some ws ∧
      p' = { p with hasJobs := { mutex := none, cond := ws, v := 1 } } := by
  obtain ⟨ws, hw, rfl⟩ := Option.map_eq_some_iff.mp h
  exact ⟨ws, hw, rfl⟩

theorem pushStep_cases {self : Tid n κ} {x : Input n F A} {p : Pool n κ F A} {j : Ptr} {s : Push}
    {r : Pool n κ F A × Push} (h : pushStep self x p j s = some r) : PushStep self x p j s r.1 r.2 := by
  cases s with
  | prev => cases h; exact .prev
  | switch =>
    cases h
    by_cases hl : p.len = 0
    · simp only [hl, ↓reduceIte]; exact .switch0 hl
    · simp only [hl, ↓reduceIte]; exact .switchD hl
  | front => cases h; exact .front
  | rear => cases h; exact .rear
  | rearPrev =>
    simp only [pushStep] at h
    split at h
    · next r' hr => cases h; exact .rearPrev r' hr
    · cases h
  | rearNew => cases h; exact .rearNew
  | inc => cases h; exact .inc
  | postLock =>
    obtain ⟨p', hp, rfl⟩ := Option.map_eq_some_iff.mp h
    obtain ⟨hm, rfl⟩ := lockSem_some hp
    exact .postLock hm
  | post =>
    obtain ⟨p', hp, rfl⟩ := Option.map_eq_some_iff.mp h
    obtain ⟨ws, hw, rfl⟩ := bsemPost_some hp
    exact .post ws hw
  | ret => cases h

/-- **The outcomes of a step of `jobqueue_pull`.** -/
inductive PullStep (self : Tid n κ) (x : Input n F A) (p : Pool n κ F A) :
    Pull → Pool n κ F A → Pull → Prop
  | front : PullStep self x p .front p (.switch p.front)
  | switch0 (j : Option Ptr) (h : p.len = 0) : PullStep self x p (.switch j) p (.ret none)
  | switch1 (j : Option Ptr) (h : p.len = 1) : PullStep self x p (.switch j) p (.front1 j)
  | switchD (j : Option Ptr) (h0 : p.len ≠ 0) (h1 : p.len ≠ 1) :
      PullStep self x p (.switch j) p (.frontPrev j)
  | front1 (j : Option Ptr) : PullStep self x p (.front1 j) { p with front := none } (.rear1 j)
  | rear1 (j : Option Ptr) : PullStep self x p (.rear1 j) { p with rear := none } (.dec j)
  | frontPrev (r : Ptr) : PullStep self x p (.frontPrev (some r))
      { p with front := (p.heap r).prev } (.dec (some r))
  | dec (j : Option Ptr) : PullStep self x p (.dec j)
      { p with len := wrap (p.len - 1), pulled := p.pulled ++ j.toList } (.ifLen j)
  | ifLen (j : Option Ptr) (h : 0 < p.len) : PullStep self x p (.ifLen j) p (.postLock j)
  | ifNot (j : Option Ptr) (h : p.len ≤ 0) : PullStep self x p (.ifLen j) p (.ret j)
  | postLock (j : Option Ptr) (h : p.hasJobs.mutex = none) : PullStep self x p (.postLock j)
      { p with hasJobs := { p.hasJobs with mutex := some self } } (.post j)
  | post (j : Option Ptr) (ws : Finset (Fin n)) (h : signal x.wake p.hasJobs.cond = some ws) :
      PullStep self x p (.post j) { p with hasJobs := { mutex := none, cond := ws, v := 1 } } (.ret j)

theorem pullStep_cases {self : Tid n κ} {x : Input n F A} {p : Pool n κ F A} {q : Pull}
    {r : Pool n κ F A × Pull} (h : pullStep self x p q = some r) : PullStep self x p q r.1 r.2 := by
  cases q with
  | front => cases h; exact .front
  | switch j =>
    cases h
    by_cases h0 : p.len = 0
    · simp only [h0, ↓reduceIte]; exact .switch0 j h0
    · by_cases h1 : p.len = 1
      · simp only [h1, ↓reduceIte, one_ne_zero]; exact .switch1 j h1
      · simp only [h0, h1, ↓reduceIte]; exact .switchD j h0 h1
  | front1 j => cases h; exact .front1 j
  | rear1 j => cases h; exact .rear1 j
  | frontPrev j =>
    cases j with
    | some r' => cases h; exact .frontPrev r'
    | none => cases h
  | dec j => cases h; exact .dec j
  | ifLen j =>
    cases h
    by_cases hl : 0 < p.len
    · simp only [hl, ↓reduceIte]; exact .ifLen j hl
    · simp only [hl, ↓reduceIte]; exact .ifNot j (not_lt.mp hl)
  | postLock j =>
    obtain ⟨p', hp, rfl⟩ := Option.map_eq_some_iff.mp h
    obtain ⟨hm, rfl⟩ := lockSem_some hp
    exact .postLock j hm
  | post j =>
    obtain ⟨p', hp, rfl⟩ := Option.map_eq_some_iff.mp h
    obtain ⟨ws, hw, rfl⟩ := bsemPost_some hp
    exact .post j ws hw
  | ret j => cases h

/-- **A whole `jobqueue_pull`**: what its steps keep, the call keeps. -/
theorem pullRun_induct {self : Tid n κ} {x : Input n F A} {I : Pool n κ F A → Pull → Prop}
    (hstep : ∀ p q p' q', I p q → PullStep self x p q p' q' → I p' q') :
    ∀ (k : ℕ) (p : Pool n κ F A) (q : Pull) (r : Pool n κ F A × Option Ptr),
      pullRun self x k p q = some r → I p q → I r.1 (.ret r.2)
  | 0, p, q, r, h, _ => by cases h
  | k + 1, p, q, r, h, hI => by
    have hnext : (pullStep self x p q).bind (fun r' => pullRun self x k r'.1 r'.2) = some r →
        I r.1 (.ret r.2) := by
      intro hb
      obtain ⟨r', h1, h2⟩ := Option.bind_eq_some_iff.mp hb
      exact pullRun_induct hstep k r'.1 r'.2 r h2 (hstep _ _ _ _ hI (pullStep_cases h1))
    cases q with
    | ret j => cases h; exact hI
    | _ => exact hnext h

/-! ### `thpool_add_work` -/

/-- **The outcomes of a step of `thpool_add_work`** from the lock on. -/
inductive AddStep (self : Tid n κ) (x : Input n F A) (p : Pool n κ F A) :
    Add → Pool n κ F A → Option Add → Prop
  | lock (j : Ptr) (h : p.rwmutex = none) :
      AddStep self x p (.lock j) { p with rwmutex := some self } (some (.push j .prev))
  | push (j : Ptr) {s s' : Push} {p' : Pool n κ F A} (h : PushStep self x p j s p' s') :
      AddStep self x p (.push j s) p' (some (.push j s'))
  | unlock (j : Ptr) : AddStep self x p (.push j .ret)
      { p with rwmutex := none, added := p.added ++ [j] } none

theorem addStep_cases {self : Tid n κ} {x : Input n F A} {p : Pool n κ F A} {c : Add}
    {r : Pool n κ F A × Option Add} (h : addStep self x p c = some r) : AddStep self x p c r.1 r.2 := by
  cases c with
  | lock j =>
    simp only [addStep] at h
    split_ifs at h with h1
    cases h; exact .lock j h1
  | push j s =>
    simp only [addStep] at h
    split_ifs at h with h1
    · cases h; subst h1; exact .unlock j
    · obtain ⟨r', hr, rfl⟩ := Option.map_eq_some_iff.mp h
      exact .push j (pushStep_cases hr)

/-- The pool with a new node. -/
def mallocPool (p : Pool n κ F A) (f : F) (a : A) : Pool n κ F A :=
  { p with
    heap := Function.update p.heap p.next { p.heap p.next with function := f, arg := a }
    next := p.next + 1 }

theorem addWork_cases (x : Input n F A) (p : Pool n κ F A) (f : F) (a : A) :
    (p.hasRoom ∧ addWork x p f a = (mallocPool p f a, some (.lock p.next))) ∨ addWork x p f a = (p, none) := by
  unfold addWork
  split_ifs with h
  · simp only [mallocs, Bool.and_eq_true, decide_eq_true_eq] at h
    exact Or.inl ⟨h.2, rfl⟩
  · exact Or.inr rfl

/-! ### Workers -/

/-- The places where `thcount_lock` is taken. -/
inductive CountLock : Pos F A → Pos F A → Prop
  | alive : CountLock .aliveLock .aliveInc
  | work : CountLock .workLock .workInc
  | done : CountLock .doneLock .doneDec
  | exit : CountLock .exitLock .exitDec

/-- The places where `thcount_lock` is given back. -/
inductive CountUnlock : Pos F A → Pos F A → Prop
  | alive : CountUnlock .aliveUnlock .loop
  | work : CountUnlock .workUnlock .pullLock
  | done : CountUnlock .doneUnlock .loop
  | exit : CountUnlock .exitUnlock .exited

/-- The steps of a worker that change its position only. -/
inductive Silent (fl : Flags) (p : Pool n κ F A) : Pos F A → Pos F A → Prop
  | serve (h : fl.threadsKeepalive = true) : Silent fl p .loop .semLock
  | leave (h : fl.threadsKeepalive = false) : Silent fl p .loop .exitLock
  | keep (h : fl.threadsKeepalive = true) : Silent fl p .keep .workLock
  | skip (h : fl.threadsKeepalive = false) : Silent fl p .keep .loop
  | someJob (j : Ptr) : Silent fl p (.ifJob (some j)) (.func j)
  | noJob : Silent fl p (.ifJob none) .doneLock
  | func (j : Ptr) : Silent fl p (.func j) (.arg j (p.heap j).function)
  | arg (j : Ptr) (f : F) : Silent fl p (.arg j f) (.call j f (p.heap j).arg)
  | addFail (j : Ptr) (f : F) (a : A) : Silent fl p (.run j f a none) (.run j f a none)

/-- **The outcomes of a step of `thread_do`.** -/
inductive PosStep (i : Fin n) (x : Input n F A) (fl : Flags) (p : Pool n κ F A) :
    Pos F A → Pool n κ F A → Pos F A → Prop
  | countLock {w w' : Pos F A} (hw : CountLock w w') (h : p.thcountLock = none) :
      PosStep i x fl p w { p with thcountLock := some (.inl i) } w'
  | countUnlock {w w' : Pos F A} (hw : CountUnlock w w') :
      PosStep i x fl p w { p with thcountLock := none } w'
  | silent {w w' : Pos F A} (hw : Silent fl p w w') : PosStep i x fl p w p w'
  | aliveInc : PosStep i x fl p .aliveInc
      { p with numThreadsAlive := p.numThreadsAlive + 1 } .aliveUnlock
  | exitDec : PosStep i x fl p .exitDec { p with numThreadsAlive := p.numThreadsAlive - 1 } .exitUnlock
  | workInc : PosStep i x fl p .workInc
      { p with numThreadsWorking := p.numThreadsWorking + 1 } .workUnlock
  | doneDec : PosStep i x fl p .doneDec
      { p with numThreadsWorking := p.numThreadsWorking - 1 } .doneUnlock
  | semLock {w : Pos F A} (hw : w = .semLock ∨ (w = .semBlocked ∧ i ∉ p.hasJobs.cond))
      (h : p.hasJobs.mutex = none) :
      PosStep i x fl p w { p with hasJobs := { p.hasJobs with mutex := some (.inl i) } } .semTest
  | semBlock (h : p.hasJobs.v ≠ 1) : PosStep i x fl p .semTest
      { p with hasJobs := { p.hasJobs with mutex := none, cond := insert i p.hasJobs.cond } } .semBlocked
  | semTake (h : p.hasJobs.v = 1) : PosStep i x fl p .semTest
      { p with hasJobs := { p.hasJobs with mutex := none, v := 0 } } .keep
  | spurious (h : i ∈ p.hasJobs.cond) : PosStep i x fl p .semBlocked
      { p with hasJobs := { p.hasJobs with cond := p.hasJobs.cond.erase i } } .semBlocked
  | pullLock (h : p.rwmutex = none) : PosStep i x fl p .pullLock
      { p with rwmutex := some (.inl i) } (.pull .front)
  | pull {q q' : Pull} {p' : Pool n κ F A} (h : PullStep (.inl i) x p q p' q') :
      PosStep i x fl p (.pull q) p' (.pull q')
  | pullUnlock (j : Option Ptr) : PosStep i x fl p (.pull (.ret j)) { p with rwmutex := none } (.ifJob j)
  | call (j : Ptr) (f : F) (a : A) : PosStep i x fl p (.call j f a)
      { p with executed := p.executed ++ [(j, i)] } (.run j f a none)
  | malloc (j : Ptr) (f : F) (a : A) (f' : F) (a' : A) (hr : p.hasRoom) : PosStep i x fl p (.run j f a none)
      (mallocPool p f' a') (.run j f a (some (.lock p.next)))
  | add (j : Ptr) (f : F) (a : A) {c : Add} {c' : Option Add} {p' : Pool n κ F A}
      (h : AddStep (.inl i) x p c p' c') : PosStep i x fl p (.run j f a (some c)) p' (.run j f a c')
  | finish (j : Ptr) (f : F) (a : A) : PosStep i x fl p (.run j f a none)
      { p with finished := p.finished ++ [j] } (.free j)
  | free (j : Ptr) : PosStep i x fl p (.free j) { p with freed := p.freed ++ [(j, some i)] } .doneLock

theorem lockCount_some {p p' : Pool n κ F A} {self : Tid n κ} (h : p.lockCount self = some p') :
    p.thcountLock = none ∧ p' = { p with thcountLock := some self } := by
  unfold Pool.lockCount at h
  split_ifs at h with h1
  exact ⟨h1, (Option.some.inj h).symm⟩

section Worker

variable {i : Fin n} {x : Input n F A} {fl : Flags} {p : Pool n κ F A} {r : Pool n κ F A × Pos F A}

/-- The lock of `thcount_lock`, at any of its places. -/
theorem PosStep.of_lockCount {w w' : Pos F A} (hw : CountLock w w')
    (h : (p.lockCount (.inl i)).map (fun p' => (p', w')) = some r) : PosStep i x fl p w r.1 r.2 := by
  obtain ⟨p', hp, rfl⟩ := Option.map_eq_some_iff.mp h
  obtain ⟨hl, rfl⟩ := lockCount_some hp
  exact .countLock hw hl

theorem runStep_cases {j : Ptr} {f : F} {a : A} {c : Option Add}
    (h : runStep i x p j f a c = some r) : PosStep i x fl p (.run j f a c) r.1 r.2 := by
  cases c with
  | some c =>
    obtain ⟨r', hr, rfl⟩ := Option.map_eq_some_iff.mp h
    exact .add j f a (addStep_cases hr)
  | none =>
    simp only [runStep] at h
    split at h
    · cases h; exact .finish j f a
    · next f' a' _ =>
      rcases addWork_cases x p f' a' with ⟨hr, hw⟩ | hw
      · rw [hw] at h; cases h; exact .malloc j f a f' a' hr
      · rw [hw] at h; cases h; exact .silent (.addFail j f a)
    · cases h

theorem threadDo_cases {w : Pos F A} (h : threadDo i x fl p w = some r) :
    PosStep i x fl p w r.1 r.2 := by
  cases w with
  | aliveLock => exact .of_lockCount .alive h
  | workLock => exact .of_lockCount .work h
  | doneLock => exact .of_lockCount .done h
  | exitLock => exact .of_lockCount .exit h
  | aliveUnlock => cases h; exact .countUnlock .alive
  | workUnlock => cases h; exact .countUnlock .work
  | doneUnlock => cases h; exact .countUnlock .done
  | exitUnlock => cases h; exact .countUnlock .exit
  | aliveInc => cases h; exact .aliveInc
  | workInc => cases h; exact .workInc
  | doneDec => cases h; exact .doneDec
  | exitDec => cases h; exact .exitDec
  | loop =>
    cases h
    cases hk : fl.threadsKeepalive
    · exact .silent (.leave hk)
    · exact .silent (.serve hk)
  | keep =>
    cases h
    cases hk : fl.threadsKeepalive
    · exact .silent (.skip hk)
    · exact .silent (.keep hk)
  | semLock =>
    obtain ⟨p', hp, rfl⟩ := Option.map_eq_some_iff.mp h
    obtain ⟨hm, rfl⟩ := lockSem_some hp
    exact .semLock (Or.inl rfl) hm
  | semTest =>
    simp only [threadDo] at h
    split_ifs at h with h1 <;> cases h
    · exact .semBlock h1
    · exact .semTake (not_not.mp h1)
  | semBlocked =>
    simp only [threadDo] at h
    split_ifs at h with h1
    · cases h; exact .spurious h1
    · obtain ⟨p', hp, rfl⟩ := Option.map_eq_some_iff.mp h
      obtain ⟨hm, rfl⟩ := lockSem_some hp
      exact .semLock (Or.inr ⟨rfl, h1⟩) hm
  | pullLock =>
    simp only [threadDo] at h
    split_ifs at h with h1
    cases h; exact .pullLock h1
  | pull q =>
    have hq : (pullStep (.inl i) x p q).map (fun r => (r.1, Pos.pull r.2)) = some r →
        PosStep i x fl p (.pull q) r.1 r.2 := by
      intro hm
      obtain ⟨r', hr, rfl⟩ := Option.map_eq_some_iff.mp hm
      exact .pull (pullStep_cases hr)
    cases q with
    | ret j => cases h; exact .pullUnlock j
    | _ => exact hq h
  | ifJob j =>
    cases j with
    | some j => cases h; exact .silent (.someJob j)
    | none => cases h; exact .silent .noJob
  | func j => cases h; exact .silent (.func j)
  | arg j f => cases h; exact .silent (.arg j f)
  | call j f a => cases h; exact .call j f a
  | run j f a c => exact runStep_cases h
  | free j => cases h; exact .free j
  | exited => cases h

end Worker

/-- **The outcomes of a step of a worker**: the signal handler, or `thread_do`. -/
inductive WorkerStep (i : Fin n) (x : Input n F A) (m : Mem n κ F A) (w : Worker F A) :
    Mem n κ F A → Worker F A → Prop
  | deliver (h : i ∈ m.pool.signals) (hh : w.hold = .off) : WorkerStep i x m w
      { m with pool := { m.pool with signals := m.pool.signals.erase i } } { w with hold := .set }
  | holdSet (hh : w.hold = .set) : WorkerStep i x m w
      { m with flags := { m.flags with threadsOnHold := true } } { w with hold := .loop }
  | holdLoop (h : m.flags.threadsOnHold = true) (hh : w.hold = .loop) : WorkerStep i x m w m w
  | holdEnd (h : m.flags.threadsOnHold = false) (hh : w.hold = .loop) :
      WorkerStep i x m w m { w with hold := .off }
  | move {p' : Pool n κ F A} {w' : Pos F A} (hh : w.hold = .off) (hx : x.deliver = false)
      (h : PosStep i x m.flags m.pool w.pos p' w') :
      WorkerStep i x m w { m with pool := p' } { w with pos := w' }

theorem workerStep_cases {i : Fin n} {x : Input n F A} {m : Mem n κ F A} {w : Worker F A}
    {r : Mem n κ F A × Worker F A} (h : workerStep i x m w = some r) :
    WorkerStep i x m w r.1 r.2 := by
  unfold workerStep at h
  split at h
  · next hh =>
    split_ifs at h with h1 h2
    · cases h; exact .deliver h2 hh
    · obtain ⟨r', hr, rfl⟩ := Option.map_eq_some_iff.mp h
      exact .move hh (by simpa using h1) (threadDo_cases hr)
  · next hh => cases h; exact .holdSet hh
  · next hh =>
    cases h
    cases hf : m.flags.threadsOnHold
    · exact .holdEnd hf hh
    · exact .holdLoop hf hh

/-! ### Clients -/

/-- **The outcomes of a step of `thpool_destroy`** after its first line. -/
inductive DestroyStep (self : Tid n κ) (x : Input n F A) (m : Mem n κ F A) (total : ℤ) :
    Destroy → Mem n κ F A → Option Destroy → Prop
  | keepalive : DestroyStep self x m total .keepalive
      { m with flags := { m.flags with threadsKeepalive := false } } (some (.poll true))
  | pollTimeout : DestroyStep self x m total (.poll true) m (some (.poll false))
  | pollAlive (timed : Bool) (h : m.pool.numThreadsAlive ≠ 0) :
      DestroyStep self x m total (.poll timed) m (some (.postAllLock timed))
  | pollNext (h : m.pool.numThreadsAlive = 0) :
      DestroyStep self x m total (.poll true) m (some (.poll false))
  | pollEnd (h : m.pool.numThreadsAlive = 0) :
      DestroyStep self x m total (.poll false) m (some .clearTest)
  | postAllLock (timed : Bool) (h : m.pool.hasJobs.mutex = none) :
      DestroyStep self x m total (.postAllLock timed)
        { m with pool := { m.pool with hasJobs := { m.pool.hasJobs with mutex := some self } } }
        (some (.postAll timed))
  | postAll (timed : Bool) : DestroyStep self x m total (.postAll timed)
      { m with pool := { m.pool with hasJobs := { mutex := none, cond := ∅, v := 1 } } }
      (some (.poll timed))
  | clearMore (h : m.pool.len ≠ 0) : DestroyStep self x m total .clearTest m (some .clearPull)
  | clearEnd (h : m.pool.len = 0) : DestroyStep self x m total .clearTest m (some .clearFront)
  | clearPull {r : Pool n κ F A × Option Ptr} (h : pullRun self x 10 m.pool .front = some r) :
      DestroyStep self x m total .clearPull
        { m with pool := { r.1 with
            freed := r.1.freed ++ r.2.toList.map fun j => (j, none)
            freeing := true } } (some .clearTest)
  | clearFront : DestroyStep self x m total .clearFront
      { m with pool := { m.pool with front := none } } (some .clearRear)
  | clearRear : DestroyStep self x m total .clearRear
      { m with pool := { m.pool with rear := none } } (some .clearSem)
  | clearSem : DestroyStep self x m total .clearSem
      { m with pool := { m.pool with hasJobs := Bsem.init 0 } } (some .clearLen)
  | clearLen : DestroyStep self x m total .clearLen
      { m with pool := { m.pool with len := 0 } } (some .freeSem)
  | freeSem : DestroyStep self x m total .freeSem
      { m with pool := { m.pool with freeing := true } } (some .freeQueue)
  | freeQueue : DestroyStep self x m total .freeQueue m (some (.freeThread 0))
  | freeThread (k : ℤ) (h : k < total) :
      DestroyStep self x m total (.freeThread k) m (some (.freeThread (k + 1)))
  | freeLast (k : ℤ) (h : total ≤ k) : DestroyStep self x m total (.freeThread k) m (some .freeThreads)
  | freeThreads : DestroyStep self x m total .freeThreads m (some .freePool)
  | freePool : DestroyStep self x m total .freePool
      { m with pool := { m.pool with stage := .gone } } none

theorem destroyStep_cases {self : Tid n κ} {x : Input n F A} {m : Mem n κ F A} {total : ℤ}
    {d : Destroy} {r : Mem n κ F A × Option Destroy} (h : destroyStep self x m total d = some r) :
    DestroyStep self x m total d r.1 r.2 := by
  cases d with
  | keepalive => cases h; exact .keepalive
  | poll timed =>
    simp only [destroyStep] at h
    split_ifs at h with h1 h2 h3 <;> cases h
    · obtain ⟨rfl, -⟩ := h1; exact .pollTimeout
    · exact .pollAlive timed h2
    · subst h3; exact .pollNext (not_not.mp h2)
    · rw [Bool.not_eq_true] at h3; subst h3; exact .pollEnd (not_not.mp h2)
  | postAllLock timed =>
    obtain ⟨p', hp, rfl⟩ := Option.map_eq_some_iff.mp h
    obtain ⟨hm, rfl⟩ := lockSem_some hp
    exact .postAllLock timed hm
  | postAll timed => cases h; exact .postAll timed
  | clearTest =>
    cases h
    by_cases hl : m.pool.len ≠ 0
    · simp only [hl, ne_eq, not_false_eq_true, ↓reduceIte]; exact .clearMore hl
    · simp only [hl, ↓reduceIte]; exact .clearEnd (not_not.mp hl)
  | clearPull =>
    obtain ⟨r', hr, rfl⟩ := Option.map_eq_some_iff.mp h
    exact .clearPull hr
  | clearFront => cases h; exact .clearFront
  | clearRear => cases h; exact .clearRear
  | clearSem => cases h; exact .clearSem
  | clearLen => cases h; exact .clearLen
  | freeSem => cases h; exact .freeSem
  | freeQueue => cases h; exact .freeQueue
  | freeThread k =>
    cases h
    by_cases hk : k < total
    · simp only [hk, ↓reduceIte]; exact .freeThread k hk
    · simp only [hk, ↓reduceIte]; exact .freeLast k (not_lt.mp hk)
  | freeThreads => cases h; exact .freeThreads
  | freePool => cases h; exact .freePool

/-- The steps of `thpool_wait` that change the position only. -/
inductive WaitMove (p : Pool n κ F A) : Call → Call → Prop
  | back (l l' : Loop) (must : List Ptr) : WaitMove p (.waitLen l must) (.waitLen l' must)
  | empty (l : Loop) (must : List Ptr) (h : p.len = 0) :
      WaitMove p (.waitLen l must) (.waitWorking l must)
  | busy (l l' : Loop) (must : List Ptr) : WaitMove p (.waitWorking l must) (.waitLen l' must)

/-- **The outcomes of a step of a client.** -/
inductive CallStep (k : κ) (x : Input n F A) (m : Mem n κ F A) : Call → Mem n κ F A → Call → Prop
  | initReady (h : m.pool.numThreadsAlive = n) : CallStep k x m .initSpin
      { m with pool := { m.pool with stage := .ready } } .outside
  | malloc (f : F) (a : A) (hx : x.call = some (.addWork f a)) (h : m.pool.stage = .ready)
      (hr : m.pool.hasRoom) :
      CallStep k x m .outside { m with pool := mallocPool m.pool f a } (.add (.lock m.pool.next))
  | addFail (h : m.pool.stage = .ready) : CallStep k x m .outside m .outside
  | wait (hx : x.call = some .wait) (h : m.pool.stage = .ready) :
      CallStep k x m .outside m (.waitLen .continuous m.pool.added)
  | destroyEnter (hx : x.call = some .destroy) (h : m.pool.stage = .ready) :
      CallStep k x m .outside { m with pool := { m.pool with stage := .closing } }
        (.destroy m.pool.numThreadsAlive .keepalive)
  | pause (h : m.pool.stage = .ready) : CallStep k x m .outside m (.pause 0)
  | resume (h : m.pool.stage = .ready) : CallStep k x m .outside
      { m with flags := { m.flags with threadsOnHold := false } } .outside
  | add {c c' : Add} {p' : Pool n κ F A} (h : AddStep (.inr k) x m.pool c p' (some c')) :
      CallStep k x m (.add c) { m with pool := p' } (.add c')
  | addReturn {c : Add} {p' : Pool n κ F A} (h : AddStep (.inr k) x m.pool c p' none) :
      CallStep k x m (.add c) { m with pool := p' } .outside
  | waitMove {c c' : Call} (h : WaitMove m.pool c c') : CallStep k x m c m c'
  | waitReturn (must : List Ptr) (h : m.pool.numThreadsWorking = 0) :
      CallStep k x m (.waitWorking .maxPolling must)
        { m with pool := { m.pool with waited := m.pool.waited ++ [must] } } .outside
  | destroy {total : ℤ} {d d' : Destroy} {m' : Mem n κ F A}
      (h : DestroyStep (.inr k) x m total d m' (some d')) :
      CallStep k x m (.destroy total d) m' (.destroy total d')
  | destroyReturn {total : ℤ} {d : Destroy} {m' : Mem n κ F A}
      (h : DestroyStep (.inr k) x m total d m' none) : CallStep k x m (.destroy total d) m' .outside
  | kill (j : ℕ) (hj : j < n) (h : j < m.pool.numThreadsAlive) : CallStep k x m (.pause j)
      { m with pool := { m.pool with signals := insert ⟨j, hj⟩ m.pool.signals } } (.pause (j + 1))
  | pauseReturn (j : ℕ) : CallStep k x m (.pause j) m .outside

section Client

variable {k : κ} {x : Input n F A} {m : Mem n κ F A} {r : Mem n κ F A × Call}

theorem enter_cases {api : Api F A} (hx : x.call = some api) (hs : m.pool.stage = .ready) :
    CallStep k x m .outside (enter x m api).1 (enter x m api).2 := by
  cases api with
  | addWork f a =>
    rcases addWork_cases x m.pool f a with ⟨hr, hw⟩ | hw
    · simp only [enter, hw]; exact .malloc f a hx hs hr
    · simp only [enter, hw]; exact .addFail hs
  | wait => exact .wait hx hs
  | destroy => exact .destroyEnter hx hs
  | pause => exact .pause hs
  | resume => exact .resume hs

theorem waitLen_cases (l : Loop) (must : List Ptr) :
    WaitMove m.pool (.waitLen l must) (waitLen x m.pool l must) := by
  unfold waitLen
  split_ifs with h1 h2
  · exact .back l _ must
  · exact .back l _ must
  · exact .empty l must (not_not.mp h2)

theorem waitWorking_cases (l : Loop) (must : List Ptr) :
    CallStep k x m (.waitWorking l must) { m with pool := (waitWorking x m.pool l must).1 }
      (waitWorking x m.pool l must).2 := by
  unfold waitWorking
  split_ifs with h
  · exact .waitMove (.busy l _ must)
  · cases l with
    | continuous => exact .waitMove (.busy _ _ must)
    | exponential => exact .waitMove (.busy _ _ must)
    | maxPolling => exact .waitReturn must (not_not.mp h)

theorem callStep_cases {c : Call} (h : callStep k x m c = some r) : CallStep k x m c r.1 r.2 := by
  cases c with
  | outside =>
    simp only [callStep] at h
    split at h
    · cases h
    · next api hx =>
      split_ifs at h with hs
      cases h; exact enter_cases hx hs
  | initSpin =>
    simp only [callStep] at h
    split_ifs at h with h1
    cases h; exact .initReady h1
  | add c =>
    obtain ⟨⟨p', c'⟩, hr, rfl⟩ := Option.map_eq_some_iff.mp h
    have hs := addStep_cases hr
    cases c' with
    | some c' => exact .add hs
    | none => exact .addReturn hs
  | waitLen l must => cases h; exact .waitMove (waitLen_cases l must)
  | waitWorking l must => cases h; exact waitWorking_cases l must
  | destroy total d =>
    obtain ⟨⟨m', d'⟩, hr, rfl⟩ := Option.map_eq_some_iff.mp h
    have hs := destroyStep_cases hr
    cases d' with
    | some d' => exact .destroy hs
    | none => exact .destroyReturn hs
  | pause j =>
    obtain ⟨⟨p', c'⟩, hr, rfl⟩ := Option.map_eq_some_iff.mp h
    unfold pauseStep at hr
    split_ifs at hr with h1 h2 <;> cases hr
    · exact .kill j h2 h1
    · exact .pauseReturn j

end Client

/-! ### What the queue operations leave alone -/

/-- **What `jobqueue_push`, `jobqueue_pull` and `thpool_add_work` leave alone.** -/
structure QueueFrame (p p' : Pool n κ F A) : Prop where
  alive : p'.numThreadsAlive = p.numThreadsAlive
  working : p'.numThreadsWorking = p.numThreadsWorking
  count : p'.thcountLock = p.thcountLock
  stage : p'.stage = p.stage
  freeing : p'.freeing = p.freeing
  executed : p'.executed = p.executed
  finished : p'.finished = p.finished
  freed : p'.freed = p.freed
  waited : p'.waited = p.waited

theorem QueueFrame.refl (p : Pool n κ F A) : QueueFrame p p :=
  ⟨rfl, rfl, rfl, rfl, rfl, rfl, rfl, rfl, rfl⟩

theorem QueueFrame.trans {p p' p'' : Pool n κ F A} (h : QueueFrame p p') (h' : QueueFrame p' p'') :
    QueueFrame p p'' :=
  ⟨h'.alive.trans h.alive, h'.working.trans h.working, h'.count.trans h.count,
    h'.stage.trans h.stage, h'.freeing.trans h.freeing, h'.executed.trans h.executed,
    h'.finished.trans h.finished, h'.freed.trans h.freed, h'.waited.trans h.waited⟩

section Frame

variable {self : Tid n κ} {x : Input n F A} {p p' : Pool n κ F A}

theorem PushStep.frame {j : Ptr} {s s' : Push} (h : PushStep self x p j s p' s') : QueueFrame p p' := by
  cases h <;> exact ⟨rfl, rfl, rfl, rfl, rfl, rfl, rfl, rfl, rfl⟩

theorem PullStep.frame {q q' : Pull} (h : PullStep self x p q p' q') : QueueFrame p p' := by
  cases h <;> exact ⟨rfl, rfl, rfl, rfl, rfl, rfl, rfl, rfl, rfl⟩

theorem AddStep.frame {c : Add} {c' : Option Add} (h : AddStep self x p c p' c') : QueueFrame p p' := by
  cases h with
  | push j h => exact h.frame
  | _ => exact ⟨rfl, rfl, rfl, rfl, rfl, rfl, rfl, rfl, rfl⟩

theorem pullRun_frame {k : ℕ} {r : Pool n κ F A × Option Ptr} (h : pullRun self x k p .front = some r) :
    QueueFrame p r.1 :=
  pullRun_induct (I := fun p' _ => QueueFrame p p') (fun _ _ _ _ hf hs => hf.trans hs.frame) k p .front
    r h (.refl p)

end Frame

end PoolStudy.Thpool.Steps
