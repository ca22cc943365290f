import PoolStudy.Threadpool.Steps

/-! # The ring-buffer pool: a `threadpool_create` that fails

`threadpool_create` allocates the pool and its two arrays, initialises the mutex and the condition variable, tests
all of this in one condition, and starts the workers one by one. Each of these is a step here, and so are the
statements of `threadpool_free`; a worker runs from the moment its `pthread_create` has succeeded, and races with the
rest. If a thread cannot be started, `threadpool_destroy` is called, whose steps are those of the model.

What `malloc`, the two initialisations and `pthread_create` do is given (`Setting`), and the `Ledger` notes which of
the five things have been made, how often each was freed or destroyed, and whether one was used that is not ready.
`threadpool_free` looks at `threads` only: it takes it as a sign that everything else has been made as well. And it
calls `pthread_mutex_destroy` with the mutex in its own hands, which destroys nothing (the call returns `EBUSY`, and its
result is not looked at). So hardly any failure is cleaned up (`create_cleaned_iff`). -/

namespace PoolStudy.Threadpool.Create

open PoolStudy.Lib.Transition PoolStudy.Lib.Threads PoolStudy.Threadpool.Model PoolStudy.Threadpool.Steps

/-! ### The ledger -/

/-- A block of memory, a mutex or a condition variable: whether it was allocated or initialised, and how often it was
freed or destroyed. -/
structure Thing where
  made : Bool := false
  undone : ℕ := 0
  deriving DecidableEq

/-- What `threadpool_create` has made. -/
structure Ledger where
  pool : Thing := {}
  threads : Thing := {}
  queue : Thing := {}
  lock : Thing := {}
  notify : Thing := {}
  misused : Bool := false
  deriving DecidableEq

/-- `free`, which does nothing for `NULL`. -/
def Thing.free (t : Thing) : Thing := if t.made then { t with undone := t.undone + 1 } else t

/-- `pthread_cond_destroy`, or `pthread_mutex_destroy` of a mutex that nobody holds. -/
def Thing.destroy (t : Thing) : Thing := { t with undone := t.undone + 1 }

/-- Initialised, and not destroyed. -/
def Thing.ready (t : Thing) : Bool := t.made && t.undone == 0

/-- An operation on a mutex or a condition variable. -/
def Ledger.use (l : Ledger) (t : Thing) : Ledger := { l with misused := l.misused || !t.ready }

/-- An operation of a thread that takes the mutex, or waits with it or signals. -/
def Ledger.useBoth (l : Ledger) : Ledger := (l.use l.lock).use l.notify

/-- The statements of `threadpool_free` on the arrays, on the mutex and the condition variable, and on the pool. -/
def Ledger.freeThreads (l : Ledger) : Ledger := { l with threads := l.threads.free }
def Ledger.freeQueue (l : Ledger) : Ledger := { l with queue := l.queue.free }
def Ledger.destroyLock (l : Ledger) (held : Bool) : Ledger :=
  { l.use l.lock with lock := if held then l.lock else l.lock.destroy }
def Ledger.destroyNotify (l : Ledger) : Ledger := { l.use l.notify with notify := l.notify.destroy }
def Ledger.freePool (l : Ledger) : Ledger := { l with pool := l.pool.free }

/-- **Nothing is left**: what was made was undone once, and nothing was used that is not ready. -/
structure Ledger.Cleaned (l : Ledger) : Prop where
  once : ∀ t ∈ [l.pool, l.threads, l.queue, l.lock, l.notify], t.made = true → t.undone = 1
  proper : l.misused = false

instance (l : Ledger) : Decidable l.Cleaned :=
  decidable_of_iff ((∀ t ∈ [l.pool, l.threads, l.queue, l.lock, l.notify], t.made = true → t.undone = 1) ∧
    l.misused = false) ⟨fun h => ⟨h.1, h.2⟩, fun h => ⟨h.once, h.proper⟩⟩

/-! ### `threadpool_create` -/

/-- The arguments of `threadpool_create`, and what the calls it makes do. -/
structure Setting where
  threadCount : ℤ
  queueSize : ℤ
  poolOk : Bool
  threadsOk : Bool
  queueOk : Bool
  lockOk : Bool
  notifyOk : Bool
  threadOk : ℕ → Bool

/-- The number of rounds of the start loop. -/
abbrev Setting.n (e : Setting) : ℕ := e.threadCount.toNat

/-- The array `threads` is allocated; a negative count, converted to a size, is too large. -/
def Setting.gotThreads (e : Setting) : Bool := e.threadsOk && decide (0 ≤ e.threadCount)

/-- The array `queue` is allocated. -/
def Setting.gotQueue (e : Setting) : Bool := e.queueOk && decide (0 ≤ e.queueSize)

/-- Where the thread is in `threadpool_create`. -/
inductive Pos (F A : Type)
  | mallocPool
  | mallocThreads
  | mallocQueue
  | lockInit
  | notifyInit
  | test
  | start (i : ℕ)
  | count (i : ℕ)
  | started (i : ℕ)
  | destroy (i : ℕ) (c : Call F A)
  | freeTest
  | freeThreads
  | freeQueue
  | freeLock
  | lockDestroy
  | notifyDestroy
  | freePool
  | ret (pool : Bool)

/-- The memory of the pool, the number of threads that have been started, and the ledger. -/
structure Memory (n : ℕ) (F A : Type) where
  mem : Mem n F A
  born : ℕ
  ledger : Ledger

variable {F A : Type} {n : ℕ}

/-- The fields as `threadpool_create` sets them. -/
def cleared (queueSize : ℤ) (p : Pool n F A) : Pool n F A :=
  { p with threads := [], queueSize := queueSize, head := 0, tail := 0, count := 0, shutdown := none, started := 0 }

/-- **`threadpool_create`**, with `threadpool_free` and the `threadpool_destroy` it calls. -/
def createStep (e : Setting) (x : Input e.n F A) (m : Memory e.n F A) :
    Pos F A → Option (Memory e.n F A × Pos F A)
  | .mallocPool =>
    if e.poolOk then
      some ({ m with
        mem := { m.mem with pool := cleared e.queueSize m.mem.pool }
        ledger := { m.ledger with pool := ⟨true, 0⟩ } }, .mallocThreads)
    else some (m, .ret false)
  | .mallocThreads =>
    some ({ m with ledger := { m.ledger with threads := ⟨e.gotThreads, 0⟩ } }, .mallocQueue)
  | .mallocQueue =>
    some ({ m with ledger := { m.ledger with queue := ⟨e.gotQueue, 0⟩ } }, .lockInit)
  | .lockInit =>
    if e.lockOk then
      some ({ m with
        mem := { m.mem with pool := { m.mem.pool with lock := none } }
        ledger := { m.ledger with lock := ⟨true, 0⟩ } }, .notifyInit)
    else some (m, .freeTest)
  | .notifyInit =>
    if e.notifyOk then
      some ({ m with
        mem := { m.mem with pool := { m.mem.pool with notify := ∅ } }
        ledger := { m.ledger with notify := ⟨true, 0⟩ } }, .test)
    else some (m, .freeTest)
  | .test => some (m, if m.ledger.threads.made && m.ledger.queue.made then .start 0 else .freeTest)
  | .start i =>
    if (i : ℤ) < e.threadCount then
      if e.threadOk i then some ({ m with born := i + 1 }, .count i)
      else some (m, .destroy i (.destroyLock 0))
    else some (m, .ret true)
  | .count i =>
    -- `pthread_create` has written `threads[i]`; the list is the part of the array that `thread_count` counts
    some ({ m with mem := { m.mem with pool := { m.mem.pool with
      threads := (List.finRange e.n).take (i + 1) } } }, .started i)
  | .started i =>
    some ({ m with mem := { m.mem with pool := { m.mem.pool with started := m.mem.pool.started + 1 } } },
      .start (i + 1))
  | .destroy _ .outside => some (m, .ret false)
  | .destroy _ (.free _ err) => some (m, if err = none then .freeTest else .ret false)
  | .destroy i c =>
    (callStep (.inr 0) x m.mem c).map fun r => (⟨r.1, m.born, m.ledger.useBoth⟩, .destroy i r.2)
  | .freeTest =>
    some (m, if 0 < m.mem.pool.started then .ret false
      else if m.ledger.threads.made then .freeThreads else .freePool)
  | .freeThreads => some ({ m with ledger := m.ledger.freeThreads }, .freeQueue)
  | .freeQueue => some ({ m with ledger := m.ledger.freeQueue }, .freeLock)
  | .freeLock =>
    if m.mem.pool.lock = none then
      some ({ m with
        mem := { m.mem with pool := { m.mem.pool with lock := some (.inr 0) } }
        ledger := m.ledger.use m.ledger.lock }, .lockDestroy)
    else none
  | .lockDestroy => some ({ m with ledger := m.ledger.destroyLock m.mem.pool.lock.isSome }, .notifyDestroy)
  | .notifyDestroy => some ({ m with ledger := m.ledger.destroyNotify }, .freePool)
  | .freePool =>
    some ({ m with mem := { m.mem with freed := true }, ledger := m.ledger.freePool }, .ret false)
  | .ret _ => none

/-- A worker, once it has been started. -/
def startedStep (i : Fin n) (x : Input n F A) (m : Memory n F A) (w : Worker F A) :
    Option (Memory n F A × Worker F A) :=
  if i.val < m.born then
    (workerStep i x m.mem w).map fun r => (⟨r.1, m.born, m.ledger.useBoth⟩, r.2)
  else none

/-- **`threadpool_create` and the workers it starts.** The memory of the pool is arbitrary at first. -/
def threadpoolCreate (e : Setting) (F A : Type) :
    Program (Fin e.n) Unit (Memory e.n F A) (Worker F A) (Pos F A) (Input e.n F A) where
  init c := ∃ p : Pool e.n F A,
    c = ⟨⟨⟨p, false, ∅, [], [], [], []⟩, 0, {}⟩, fun _ => .lock, fun _ => .mallocPool⟩
  workerStep := startedStep
  clientStep _ := createStep e

/-- A configuration of `threadpool_create`. -/
abbrev State (e : Setting) (F A : Type) := Config (Fin e.n) Unit (Memory e.n F A) (Worker F A) (Pos F A)

/-- The calls that lock, unlock, signal and join succeed. -/
def callsOk {e : Setting} (_ : State e F A) (a : (Fin e.n ⊕ Unit) × Input e.n F A) : Prop := a.2.Ok

/-! ### What the creating thread has made, by where it is -/

/-- Everything that could be made. -/
def Setting.made (e : Setting) : Ledger where
  pool := ⟨true, 0⟩
  threads := ⟨e.gotThreads, 0⟩
  queue := ⟨e.gotQueue, 0⟩
  lock := ⟨e.lockOk, 0⟩
  notify := ⟨e.lockOk && e.notifyOk, 0⟩

/-- `threadpool_free` up to the pool itself. -/
def Setting.unmade (e : Setting) : Ledger :=
  if e.gotThreads then
    ((e.made.freeThreads.freeQueue.use e.made.lock).destroyLock true).destroyNotify
  else e.made

/-- **The ledger by the position.** -/
def ledgerOf (e : Setting) : Pos F A → Ledger
  | .mallocPool => {}
  | .mallocThreads => { pool := ⟨true, 0⟩ }
  | .mallocQueue => { pool := ⟨true, 0⟩, threads := ⟨e.gotThreads, 0⟩ }
  | .lockInit => { pool := ⟨true, 0⟩, threads := ⟨e.gotThreads, 0⟩, queue := ⟨e.gotQueue, 0⟩ }
  | .notifyInit =>
    { pool := ⟨true, 0⟩, threads := ⟨e.gotThreads, 0⟩, queue := ⟨e.gotQueue, 0⟩, lock := ⟨e.lockOk, 0⟩ }
  | .test | .start _ | .count _ | .started _ | .destroy _ _ | .freeTest | .freeThreads | .ret true => e.made
  | .freeQueue => e.made.freeThreads
  | .freeLock => e.made.freeThreads.freeQueue
  | .lockDestroy => e.made.freeThreads.freeQueue.use e.made.lock
  | .notifyDestroy => (e.made.freeThreads.freeQueue.use e.made.lock).destroyLock true
  | .freePool => e.unmade
  | .ret false => if e.poolOk then e.unmade.freePool else {}

/-- What has succeeded when the thread is there. -/
def Known (e : Setting) : Pos F A → Prop
  | .mallocPool | .ret false => True
  | .mallocThreads | .mallocQueue | .lockInit | .freeTest | .freePool => e.poolOk = true
  | .notifyInit => e.poolOk = true ∧ e.lockOk = true
  | .test => e.poolOk = true ∧ e.lockOk = true ∧ e.notifyOk = true
  | .start _ | .count _ | .started _ | .destroy _ _ | .ret true =>
    e.poolOk = true ∧ e.lockOk = true ∧ e.notifyOk = true ∧ e.gotThreads = true ∧ e.gotQueue = true
  | .freeThreads | .freeQueue | .freeLock | .lockDestroy | .notifyDestroy => e.poolOk = true ∧ e.gotThreads = true

/-- `threadpool_free` is not refused and holds the mutex it destroys, and `threadpool_destroy` does not give up. -/
def Orderly (m : Memory n F A) : Pos F A → Prop
  | .destroy _ c => c ≠ .outside ∧ ∀ f err, c = .free f err → err = none
  | .freeTest => m.mem.pool.started ≤ 0
  | .lockDestroy => m.mem.pool.lock.isSome = true
  | _ => True

/-- The positions at which a worker may run. -/
def Running : Pos F A → Prop
  | .start _ | .count _ | .started _ | .destroy _ _ | .ret true => True
  | _ => False

theorem useBoth_made {e : Setting} (hl : e.lockOk = true) (hn : e.notifyOk = true) : e.made.useBoth = e.made := by
  simp [Ledger.useBoth, Ledger.use, Thing.ready, Setting.made, hl, hn]

/-- The mutex and the condition variable are there when the workers run. -/
theorem useBoth_running {e : Setting} {p : Pos F A} (hk : Known e p) (hr : Running p) :
    (ledgerOf e p).useBoth = ledgerOf e p := by
  cases p with
  | start i | count i | started i | destroy i c => exact useBoth_made hk.2.1 hk.2.2.1
  | ret b =>
    cases b with
    | false => exact hr.elim
    | true => exact useBoth_made hk.2.1 hk.2.2.1
  | _ => exact hr.elim

theorem createStep_ledger {e : Setting} {x : Input e.n F A} {m m' : Memory e.n F A} {p p' : Pos F A}
    (hs : createStep e x m p = some (m', p')) (hk : Known e p) (hl : m.ledger = ledgerOf e p) (ho : Orderly m p) :
    Known e p' ∧ m'.ledger = ledgerOf e p' := by
  cases p with
  | mallocPool =>
    simp only [createStep] at hs
    split_ifs at hs with h1 <;> cases hs
    · exact ⟨h1, by rw [hl]; rfl⟩
    · exact ⟨trivial, by simp only [hl, ledgerOf, h1]; rfl⟩
  | mallocThreads => cases hs; exact ⟨hk, by rw [hl]; rfl⟩
  | mallocQueue => cases hs; exact ⟨hk, by rw [hl]; rfl⟩
  | lockInit =>
    simp only [createStep] at hs
    split_ifs at hs with h1 <;> cases hs
    · exact ⟨⟨hk, h1⟩, by simp only [hl, ledgerOf, h1]⟩
    · exact ⟨hk, by simp only [hl, ledgerOf, Setting.made, h1, Bool.false_and]⟩
  | notifyInit =>
    simp only [createStep] at hs
    split_ifs at hs with h1 <;> cases hs
    · exact ⟨⟨hk.1, hk.2, h1⟩, by simp only [hl, ledgerOf, Setting.made, hk.2, h1, Bool.and_self]⟩
    · exact ⟨hk.1, by simp only [hl, ledgerOf, Setting.made, h1, Bool.and_false]⟩
  | test =>
    cases hs
    have ht : m.ledger.threads.made = e.gotThreads := by rw [hl]; rfl
    have hq : m.ledger.queue.made = e.gotQueue := by rw [hl]; rfl
    rw [ht, hq]
    by_cases h1 : (e.gotThreads && e.gotQueue) = true
    · rw [if_pos h1]
      exact ⟨⟨hk.1, hk.2.1, hk.2.2, (Bool.and_eq_true_iff.mp h1)⟩, hl⟩
    · rw [if_neg h1]
      exact ⟨hk.1, hl⟩
  | start i =>
    simp only [createStep] at hs
    split_ifs at hs with h1 h2 <;> cases hs <;> exact ⟨hk, hl⟩
  | count i => cases hs; exact ⟨hk, hl⟩
  | started i => cases hs; exact ⟨hk, hl⟩
  | destroy i c =>
    have hcall : ∀ r, callStep (.inr 0) x m.mem c = some r →
        (⟨r.1, m.born, m.ledger.useBoth⟩, Pos.destroy i r.2) = (m', p') → Known e p' ∧ m'.ledger = ledgerOf e p' := by
      rintro r - hr
      cases hr
      exact ⟨hk, by rw [hl]; exact useBoth_made hk.2.1 hk.2.2.1⟩
    cases c with
    | outside => exact absurd rfl ho.1
    | free f err =>
      obtain rfl := ho.2 f err rfl
      cases hs
      exact ⟨hk.1, hl⟩
    | _ =>
      obtain ⟨r, hr, he⟩ := Option.map_eq_some_iff.mp hs
      exact hcall r hr he
  | freeTest =>
    cases hs
    have ht : m.ledger.threads.made = e.gotThreads := by rw [hl]; rfl
    rw [if_neg (Int.not_lt.mpr ho), ht]
    by_cases h1 : e.gotThreads = true
    · rw [if_pos h1]
      exact ⟨⟨hk, h1⟩, hl⟩
    · rw [if_neg h1]
      exact ⟨hk, hl.trans (if_neg h1).symm⟩
  | freeThreads => cases hs; exact ⟨hk, by rw [hl]; rfl⟩
  | freeQueue => cases hs; exact ⟨hk, by rw [hl]; rfl⟩
  | freeLock =>
    simp only [createStep] at hs
    split_ifs at hs with h1
    cases hs
    exact ⟨hk, by rw [hl]; rfl⟩
  | lockDestroy =>
    cases hs
    have hheld : m.mem.pool.lock.isSome = true := ho
    exact ⟨hk, by rw [hl, hheld]; rfl⟩
  | notifyDestroy => cases hs; exact ⟨hk.1, by simp only [hl, ledgerOf, Setting.unmade, hk.2, if_true]⟩
  | freePool => cases hs; exact ⟨trivial, by rw [hl]; exact (if_pos hk).symm⟩
  | ret b => cases hs

/-! ### The workers -/

/-- A worker that has found nothing to do yet. -/
def waiting : Worker F A → Prop
  | .lock | .test | .wait => True
  | _ => False

/-- **Before the pool is shut down**: `b` workers run, of which `k` are in the list and `s` are counted. -/
structure Alive (m : Memory n F A) (w : Fin n → Worker F A) (b k s : ℕ) : Prop where
  le : b ≤ n
  born : m.born = b
  threads : m.mem.pool.threads = (List.finRange n).take k
  started : m.mem.pool.started = s
  count : m.mem.pool.count = 0
  shutdown : m.mem.pool.shutdown = none
  exited : m.mem.exited = ∅
  waiting : ∀ j, waiting (w j)

/-- **After `threadpool_destroy` has shut the pool with its `b` workers down.** -/
structure Ending (m : Memory n F A) (w : Fin n → Worker F A) (b : ℕ) : Prop where
  le : b ≤ n
  born : m.born = b
  threads : m.mem.pool.threads = (List.finRange n).take b
  started : m.mem.pool.started = b - m.mem.exited.card
  count : m.mem.pool.count = 0
  shutdown : m.mem.pool.shutdown = some .immediateShutdown
  exited : ∀ j ∈ m.mem.exited, j.val < b
  settled : ∀ j, (j ∈ m.mem.exited ∧ w j = .exited) ∨ (j ∉ m.mem.exited ∧ waiting (w j))

/-- All workers that were started have exited. -/
def Gone (m : Memory n F A) (w : Fin n → Worker F A) : Prop := ∀ j, j.val < m.born → w j = .exited

/-- **The workers by the position of the creating thread.** -/
def WorkersInv (m : Memory n F A) (w : Fin n → Worker F A) : Pos F A → Prop
  | .mallocPool => m.born = 0 ∧ m.mem.exited = ∅ ∧ ∀ j, w j = .lock
  | .mallocThreads | .mallocQueue | .lockInit | .notifyInit | .test => Alive m w 0 0 0
  | .start i => Alive m w i i i
  | .count i => Alive m w (i + 1) i i
  | .started i => Alive m w (i + 1) (i + 1) i
  | .destroy i (.destroyLock f) => f = 0 ∧ Alive m w i i i
  | .destroy i (.destroyIn f) => f = 0 ∧ Alive m w i i i
  | .destroy i (.join _ k err) => err = none ∧ Ending m w i ∧ ∀ j : Fin n, j.val < k → j ∈ m.mem.exited
  | .destroy i (.free _ err) => err = none ∧ Ending m w i ∧ ∀ j : Fin n, j.val < i → j ∈ m.mem.exited
  | .destroy _ _ => False
  | .freeTest => Gone m w ∧ m.mem.pool.started ≤ 0
  | .lockDestroy => Gone m w ∧ m.mem.pool.lock.isSome = true
  | .freeThreads | .freeQueue | .freeLock | .notifyDestroy | .freePool | .ret false => Gone m w
  | .ret true => Alive m w n n n

theorem WorkersInv.orderly {m : Memory n F A} {w : Fin n → Worker F A} {p : Pos F A} (h : WorkersInv m w p) :
    Orderly m p := by
  cases p with
  | destroy i c =>
    cases c with
    | outside => exact h.elim
    | free f err => exact ⟨nofun, fun _ _ hc => by cases hc; exact h.1⟩
    | _ => exact ⟨nofun, nofun⟩
  | freeTest | lockDestroy => exact h.2
  | _ => trivial

theorem Alive.gone {m : Memory n F A} {w : Fin n → Worker F A} {k s : ℕ} (h : Alive m w 0 k s) : Gone m w := by
  intro j hj
  rw [h.born] at hj
  exact absurd hj (Nat.not_lt_zero _)

/-- The joined workers are all: the counter is back at zero. -/
theorem Ending.started_zero {m : Memory n F A} {w : Fin n → Worker F A} {b : ℕ} (h : Ending m w b)
    (hall : ∀ j : Fin n, j.val < b → j ∈ m.mem.exited) : m.mem.pool.started = 0 := by
  have hset : m.mem.exited = Finset.univ.map (Fin.castLEEmb h.le) := by
    ext j
    constructor
    · intro hj
      exact Finset.mem_map.mpr ⟨⟨j.val, h.exited j hj⟩, Finset.mem_univ _, rfl⟩
    · intro hj
      obtain ⟨a, -, rfl⟩ := Finset.mem_map.mp hj
      exact hall _ a.isLt
  have hcard : m.mem.exited.card = b := by
    rw [hset, Finset.card_map, Finset.card_univ, Fintype.card_fin]
  rw [h.started, hcard]
  exact sub_self _

theorem Ending.gone {m : Memory n F A} {w : Fin n → Worker F A} {b : ℕ} (h : Ending m w b)
    (hall : ∀ j : Fin n, j.val < b → j ∈ m.mem.exited) : Gone m w := by
  intro j hj
  rcases h.settled j with ⟨-, hw⟩ | ⟨hn, -⟩
  · exact hw
  · exact absurd (hall j (h.born ▸ hj)) hn

/-! ### Steps of a worker -/

/-- As long as the pool is not shut down a worker only takes and gives back the mutex. -/
theorem Alive.worker {m : Memory n F A} {w : Fin n → Worker F A} {b k s : ℕ} (h : Alive m w b k s) {i : Fin n}
    {x : Input n F A} {m' : Mem n F A} {v : Worker F A} (hs : WorkerStep i x m.mem (w i) m' v) (l : Ledger) :
    Alive ⟨m', m.born, l⟩ (Function.update w i v) b k s := by
  obtain ⟨hle, hborn, hthreads, hstarted, hcount, hshut, hexited, hwait⟩ := h
  have hi := hwait i
  have hupd : ∀ v, Create.waiting v → ∀ j, Create.waiting (Function.update w i v j) := fun v hv =>
    (Function.forall_update_iff w fun _ u => Create.waiting u).mpr ⟨hv, fun j _ => hwait j⟩
  generalize w i = u at hs hi
  cases hs with
  | lock | sleep | spurious | wake =>
    exact ⟨hle, hborn, hthreads, hstarted, hcount, hshut, hexited, hupd _ trivial⟩
  | leave hsd => rcases hsd with hsd | ⟨hsd, -⟩ <;> cases hshut.symm.trans hsd
  | grab hc hsd => exact absurd hcount hc
  | finish | call => exact hi.elim

/-- Once the pool is shut down a worker that has the mutex leaves. -/
theorem Ending.worker {m : Memory n F A} {w : Fin n → Worker F A} {b : ℕ} (h : Ending m w b) {i : Fin n}
    (hib : i.val < b) {x : Input n F A} {m' : Mem n F A} {v : Worker F A} (hs : WorkerStep i x m.mem (w i) m' v)
    (l : Ledger) :
    Ending ⟨m', m.born, l⟩ (Function.update w i v) b ∧ m.mem.exited ⊆ m'.exited := by
  obtain ⟨hle, hborn, hthreads, hstarted, hcount, hshut, hexited, hset⟩ := h
  have hi := hset i
  have hupd : ∀ v, i ∉ m.mem.exited → Create.waiting v → ∀ j,
      (j ∈ m.mem.exited ∧ Function.update w i v j = .exited) ∨
        (j ∉ m.mem.exited ∧ Create.waiting (Function.update w i v j)) := fun v hn hv =>
    (Function.forall_update_iff w fun j u => (j ∈ m.mem.exited ∧ u = .exited) ∨
      (j ∉ m.mem.exited ∧ Create.waiting u)).mpr ⟨Or.inr ⟨hn, hv⟩, fun j _ => hset j⟩
  generalize w i = u at hs hi
  have hn : i ∉ m.mem.exited ∧ Create.waiting u := by
    refine hi.resolve_left ?_
    rintro ⟨-, rfl⟩
    cases hs
  cases hs with
  | lock | spurious | wake =>
    exact ⟨⟨hle, hborn, hthreads, hstarted, hcount, hshut, hexited, hupd _ hn.1 trivial⟩, subset_rfl⟩
  | sleep hc hsd => cases hshut.symm.trans hsd
  | leave hsd =>
    have hcard := Finset.card_insert_of_notMem hn.1
    refine ⟨⟨hle, hborn, hthreads, ?_, hcount, hshut, ?_, ?_⟩, Finset.subset_insert _ _⟩
    · simp only [hcard, hstarted]
      push_cast
      ring
    · intro j hj
      rcases Finset.mem_insert.mp hj with rfl | hj
      · exact hib
      · exact hexited j hj
    · refine (Function.forall_update_iff w fun j u => (j ∈ insert i m.mem.exited ∧ u = .exited) ∨
        (j ∉ insert i m.mem.exited ∧ Create.waiting u)).mpr ⟨Or.inl ⟨Finset.mem_insert_self .., rfl⟩, fun j hj => ?_⟩
      rcases hset j with ⟨hm, hw⟩ | ⟨hm, hw⟩
      · exact Or.inl ⟨Finset.mem_insert_of_mem hm, hw⟩
      · exact Or.inr ⟨by simpa [hj] using hm, hw⟩
  | grab hc hsd => exact absurd hcount hc
  | finish | call => exact hn.2.elim

theorem WorkersInv.worker {m : Memory n F A} {w : Fin n → Worker F A} {p : Pos F A} (h : WorkersInv m w p)
    {i : Fin n} (hib : i.val < m.born) {x : Input n F A} {m' : Mem n F A} {v : Worker F A}
    (hs : WorkerStep i x m.mem (w i) m' v) (l : Ledger) :
    WorkersInv ⟨m', m.born, l⟩ (Function.update w i v) p ∧ Running p := by
  have hgone : ¬ Gone m w := by
    intro hg
    rw [hg i hib] at hs
    cases hs
  cases p with
  | mallocPool => exact absurd hib (by rw [h.1]; exact Nat.not_lt_zero _)
  | mallocThreads | mallocQueue | lockInit | notifyInit | test => exact absurd (Alive.gone h) hgone
  | start i | count i | started i => exact ⟨Alive.worker h hs l, trivial⟩
  | destroy k c =>
    refine ⟨?_, trivial⟩
    cases c with
    | outside | addLock t | addIn t => exact h.elim
    | destroyLock f | destroyIn f => exact ⟨h.1, h.2.worker hs l⟩
    | join f j err =>
      obtain ⟨rfl, he, hj⟩ := h
      obtain ⟨he', hsub⟩ := he.worker (he.born ▸ hib) hs l
      exact ⟨rfl, he', fun a ha => hsub (hj a ha)⟩
    | free f err =>
      obtain ⟨rfl, he, hj⟩ := h
      obtain ⟨he', hsub⟩ := he.worker (he.born ▸ hib) hs l
      exact ⟨rfl, he', fun a ha => hsub (hj a ha)⟩
  | freeTest | lockDestroy => exact absurd h.1 hgone
  | freeThreads | freeQueue | freeLock | notifyDestroy | freePool => exact absurd h hgone
  | ret b =>
    cases b with
    | false => exact absurd h hgone
    | true => exact ⟨Alive.worker h hs l, trivial⟩

/-! ### Steps of the creating thread -/

/-- `threadpool_destroy` shuts the pool down. -/
theorem Alive.shut {m : Memory n F A} {w : Fin n → Worker F A} {b : ℕ} (h : Alive m w b b b) (l : Ledger) :
    Ending ⟨{ m.mem with pool := { m.mem.pool with
      shutdown := some (shutdownOf 0), notify := ∅, lock := none } }, m.born, l⟩ w b where
  le := h.le
  born := h.born
  threads := h.threads
  started := by simp [h.exited, h.started]
  count := h.count
  shutdown := by
    show some (shutdownOf 0) = _
    decide
  exited j hj := by simp [h.exited] at hj
  settled j := Or.inr ⟨by simp [h.exited], h.waiting j⟩

/-- The entry `j` of the list is the worker `j`. -/
theorem take_finRange_getElem? {b k : ℕ} {v : Fin n} (h : ((List.finRange n).take b)[k]? = some v) : v.val = k := by
  obtain ⟨hk, rfl⟩ := List.getElem?_eq_some_iff.mp h
  simp

/-- **A step of `threadpool_destroy`** that `threadpool_create` has called for the thread `i`. -/
theorem destroy_workers {m : Memory n F A} {w : Fin n → Worker F A} {i : ℕ} {c c' : Call F A} {x : Input n F A}
    {m' : Mem n F A} (hx : x.Ok) (h : WorkersInv m w (.destroy i c)) (hc : ∀ f err, c ≠ .free f err)
    (hs : CallStep (.inr 0) x m.mem c m' c') (l : Ledger) : WorkersInv ⟨m', m.born, l⟩ w (.destroy i c') := by
  cases hs with
  | enter | addNoLock | addLock | addFull | addShut | addPush | addNoSignal => exact h.elim
  | destroyNoLock f hno => cases hx.lock.symm.trans hno
  | destroyLock f hl =>
    obtain ⟨hf, ha⟩ := h
    exact ⟨hf, ha.le, ha.born, ha.threads, ha.started, ha.count, ha.shutdown, ha.exited, ha.waiting⟩
  | destroyAgain f hsd => exact absurd h.2.shutdown hsd
  | destroySet f hsd hcast hunlock =>
    obtain ⟨rfl, ha⟩ := h
    exact ⟨rfl, ha.shut l, fun j hj => absurd hj (Nat.not_lt_zero _)⟩
  | destroyNoUnlock f hsd hno => cases hx.unlock.symm.trans hno
  | destroyNoCast f hsd hno => cases hx.cond.symm.trans hno
  | joinEnd f k err hend =>
    obtain ⟨hnone, he, hj⟩ := h
    refine ⟨hnone, ⟨he.le, he.born, he.threads, he.started, he.count, he.shutdown, he.exited, he.settled⟩, ?_⟩
    rw [he.threads, List.getElem?_eq_none_iff, List.length_take, List.length_finRange, min_eq_left he.le] at hend
    exact fun j hji => hj j (hji.trans_le hend)
  | joinOne f k err v hv hmem =>
    obtain ⟨hnone, he, hj⟩ := h
    refine ⟨hnone, ⟨he.le, he.born, he.threads, he.started, he.count, he.shutdown, he.exited, he.settled⟩, ?_⟩
    rw [he.threads] at hv
    have hvk := take_finRange_getElem? hv
    intro j hjk
    rcases Nat.lt_succ_iff_lt_or_eq.mp hjk with hlt | heq
    · exact hj j hlt
    · obtain rfl : j = v := Fin.ext (heq.trans hvk.symm)
      exact hmem
  | joinFail f k err hno => cases hx.join.symm.trans hno
  | freeErr f e => exact absurd rfl (hc f (some e))
  | freeRefused f | freeDone f => exact absurd rfl (hc f none)

theorem createStep_workers {e : Setting} {x : Input e.n F A} {m m' : Memory e.n F A} {p p' : Pos F A}
    {w : Fin e.n → Worker F A} (hx : x.Ok) (hs : createStep e x m p = some (m', p')) (h : WorkersInv m w p) :
    WorkersInv m' w p' := by
  cases p with
  | mallocPool =>
    obtain ⟨hborn, hexited, hlock⟩ := h
    simp only [createStep] at hs
    split_ifs at hs with h1 <;> cases hs
    · exact ⟨Nat.zero_le _, hborn, rfl, rfl, rfl, rfl, hexited, fun j => by rw [hlock j]; trivial⟩
    · intro j hj
      exact absurd hj (by rw [hborn]; exact Nat.not_lt_zero _)
  | mallocThreads | mallocQueue =>
    cases hs
    exact ⟨h.le, h.born, h.threads, h.started, h.count, h.shutdown, h.exited, h.waiting⟩
  | lockInit | notifyInit =>
    simp only [createStep] at hs
    split_ifs at hs with h1 <;> cases hs
    · exact ⟨h.le, h.born, h.threads, h.started, h.count, h.shutdown, h.exited, h.waiting⟩
    · exact ⟨Alive.gone h, h.started.le⟩
  | test =>
    simp only [createStep] at hs
    split_ifs at hs with h1 <;> cases hs
    · exact h
    · exact ⟨Alive.gone h, h.started.le⟩
  | start i =>
    simp only [createStep] at hs
    split_ifs at hs with h1 h2 <;> cases hs
    · have hle : i + 1 ≤ e.n := by simp only [Setting.n]; omega
      exact ⟨hle, rfl, h.threads, h.started, h.count, h.shutdown, h.exited, h.waiting⟩
    · exact ⟨rfl, h⟩
    · obtain rfl : i = e.n := by
        have := h.le
        simp only [Setting.n] at *
        omega
      exact h
  | count i =>
    cases hs
    exact ⟨h.le, h.born, rfl, h.started, h.count, h.shutdown, h.exited, h.waiting⟩
  | started i =>
    cases hs
    refine ⟨h.le, h.born, h.threads, ?_, h.count, h.shutdown, h.exited, h.waiting⟩
    simp [h.started]
  | destroy i c =>
    cases c with
    | outside | addLock t | addIn t => exact h.elim
    | free f err =>
      obtain ⟨rfl, he, hj⟩ := h
      cases hs
      exact ⟨he.gone hj, (he.started_zero hj).le⟩
    | destroyLock f | destroyIn f | join f k err =>
      obtain ⟨⟨m1, c1⟩, hr, he⟩ := Option.map_eq_some_iff.mp hs
      cases he
      exact destroy_workers hx h nofun (callStep_cases hr).2 _
  | freeTest =>
    simp only [createStep] at hs
    split_ifs at hs with h1 h2 <;> cases hs <;> exact h.1
  | freeThreads | freeQueue | notifyDestroy | freePool => cases hs; exact h
  | lockDestroy => cases hs; exact h.1
  | freeLock =>
    simp only [createStep] at hs
    split_ifs at hs with h1
    cases hs
    exact ⟨h, rfl⟩
  | ret b => cases hs

/-! ### Failures -/

/-- Every call `threadpool_create` makes does what it should. -/
def Setting.Faultless (e : Setting) : Prop :=
  e.poolOk = true ∧ e.gotThreads = true ∧ e.gotQueue = true ∧ e.lockOk = true ∧ e.notifyOk = true ∧
    ∀ i : ℕ, (i : ℤ) < e.threadCount → e.threadOk i = true

/-- The positions behind a failed call. -/
def Failing : Pos F A → Prop
  | .destroy _ _ | .freeTest | .freeThreads | .freeQueue | .freeLock | .lockDestroy | .notifyDestroy | .freePool
  | .ret false => True
  | _ => False

theorem createStep_failing {e : Setting} {x : Input e.n F A} {m m' : Memory e.n F A} {p p' : Pos F A}
    (hs : createStep e x m p = some (m', p')) (hl : m.ledger = ledgerOf e p)
    (hf : Failing p → ¬ e.Faultless) : Failing p' → ¬ e.Faultless := by
  cases p with
  | mallocPool =>
    simp only [createStep] at hs
    split_ifs at hs with h1 <;> cases hs
    · exact fun h => h.elim
    · exact fun _ hgood => h1 hgood.1
  | mallocThreads | mallocQueue | count i | started i => cases hs; exact fun h => h.elim
  | lockInit =>
    simp only [createStep] at hs
    split_ifs at hs with h1 <;> cases hs
    · exact fun h => h.elim
    · exact fun _ hgood => h1 hgood.2.2.2.1
  | notifyInit =>
    simp only [createStep] at hs
    split_ifs at hs with h1 <;> cases hs
    · exact fun h => h.elim
    · exact fun _ hgood => h1 hgood.2.2.2.2.1
  | test =>
    simp only [createStep] at hs
    have ht : m.ledger.threads.made = e.gotThreads := by rw [hl]; rfl
    have hq : m.ledger.queue.made = e.gotQueue := by rw [hl]; rfl
    split_ifs at hs with h1 <;> cases hs
    · exact fun h => h.elim
    · exact fun _ hgood => h1 (by rw [ht, hq, hgood.2.1, hgood.2.2.1]; rfl)
  | start i =>
    simp only [createStep] at hs
    split_ifs at hs with h1 h2 <;> cases hs
    · exact fun h => h.elim
    · exact fun _ hgood => h2 (hgood.2.2.2.2.2 i h1)
    · exact fun h => h.elim
  | ret b => cases hs
  | _ => exact fun _ => hf trivial

/-! ### All runs -/

/-- **What holds at every position of `threadpool_create`.** -/
structure CreateInv {e : Setting} (c : State e F A) : Prop where
  known : Known e (c.client ())
  ledger : c.mem.ledger = ledgerOf e (c.client ())
  failing : Failing (c.client ()) → ¬ e.Faultless
  workers : WorkersInv c.mem c.worker (c.client ())

theorem create_reach {e : Setting} {c : State e F A} (h : Reach (threadpoolCreate e F A).lts callsOk c) :
    CreateInv c := by
  refine Program.invariant ?_ ?_ ?_ h
  · rintro _ ⟨p, rfl⟩
    exact ⟨trivial, rfl, fun h => h.elim, rfl, rfl, fun _ => rfl⟩
  · intro c i x r _ hi _ hs
    simp only [threadpoolCreate, startedStep] at hs
    split_ifs at hs with hib
    obtain ⟨⟨m', v⟩, hr, rfl⟩ := Option.map_eq_some_iff.mp hs
    obtain ⟨hw, hrun⟩ := hi.workers.worker hib (workerStep_cases hr) c.mem.ledger.useBoth
    refine ⟨hi.known, ?_, hi.failing, hw⟩
    have hl : c.mem.ledger.useBoth = ledgerOf e (c.client ()) := by
      rw [hi.ledger, useBoth_running hi.known hrun]
    exact hl
  · intro c k x r _ hi hok hs
    obtain ⟨m', p'⟩ := r
    obtain ⟨hk, hl⟩ := createStep_ledger hs hi.known hi.ledger hi.workers.orderly
    have hf := createStep_failing hs hi.ledger hi.failing
    have hw := createStep_workers hok hs hi.workers
    refine ⟨?_, ?_, ?_, ?_⟩
    · rw [moveClient_self]; exact hk
    · rw [moveClient_self]; exact hl
    · rw [moveClient_self]; exact hf
    · rw [moveClient_self]; exact hw

/-! ### The result -/

/-- **When `threadpool_create` leaves nothing behind**: nothing fails, or there is no pool, or there is nothing but the
pool. -/
def Tidy (e : Setting) : Prop :=
  e.Faultless ∨ e.poolOk = false ∨ (e.gotThreads = false ∧ e.gotQueue = false ∧ e.lockOk = false)

/-- The array `threads` is there: the mutex stays, or was never initialised and is used. -/
theorem unmade_not_cleaned {e : Setting} (ht : e.gotThreads = true) : ¬ e.unmade.freePool.Cleaned := by
  have hl : e.unmade = ((e.made.freeThreads.freeQueue.use e.made.lock).destroyLock true).destroyNotify := if_pos ht
  rw [hl]
  rintro ⟨honce, hproper⟩
  cases hlock : e.lockOk with
  | true =>
    have hleft := honce ⟨true, 0⟩ (by
      simp [Ledger.freePool, Ledger.destroyNotify, Ledger.destroyLock, Ledger.use, Ledger.freeQueue,
        Ledger.freeThreads, Setting.made, hlock])
    exact absurd (hleft rfl) (by decide)
  | false =>
    -- an operation on what is not ready is noted
    simp [Ledger.freePool, Ledger.destroyNotify, Ledger.destroyLock, Ledger.use, Ledger.freeQueue,
      Ledger.freeThreads, Thing.ready, Setting.made, hlock] at hproper

/-- It is not: nothing but the pool is freed. -/
theorem unmade_cleaned_of_none {e : Setting} (ht : e.gotThreads = false) :
    e.unmade.freePool.Cleaned ↔ e.gotQueue = false ∧ e.lockOk = false := by
  have hl : e.unmade = e.made := by
    unfold Setting.unmade
    rw [ht]
    rfl
  rw [hl]
  constructor
  · rintro ⟨honce, -⟩
    have hq := honce ⟨e.gotQueue, 0⟩ (by simp [Ledger.freePool, Setting.made])
    have hm := honce ⟨e.lockOk, 0⟩ (by simp [Ledger.freePool, Setting.made])
    simpa using And.intro hq hm
  · rintro ⟨h1, h2⟩
    exact ⟨by simp [Ledger.freePool, Thing.free, Setting.made, h1, h2, ht], rfl⟩

/-- **A failed `threadpool_create` leaves nothing behind exactly if the setting is tidy**: every block that was
allocated has been freed once, the mutex and the condition variable have been destroyed once if they were initialised
and not been used if not, and the workers that were started have exited. If nothing fails, `NULL` is not returned. -/
theorem create_cleaned_iff {e : Setting} {c : State e F A} (h : Reach (threadpoolCreate e F A).lts callsOk c)
    (hret : c.client () = .ret false) : (c.mem.ledger.Cleaned ∧ Gone c.mem c.worker) ↔ Tidy e := by
  obtain ⟨-, hledger, hfailing, hworkers⟩ := create_reach h
  rw [hret] at hledger hfailing hworkers
  have hgone : Gone c.mem c.worker := hworkers
  have hfault : ¬ e.Faultless := hfailing trivial
  rw [and_iff_left hgone, hledger, Tidy, or_iff_right hfault]
  simp only [ledgerOf]
  by_cases hp : e.poolOk = true
  · rw [if_pos hp]
    cases ht : e.gotThreads with
    | true => simp [unmade_not_cleaned ht, hp]
    | false => rw [unmade_cleaned_of_none ht]; simp [hp]
  · rw [if_neg hp]
    exact iff_of_true (by decide) (Or.inl (by simpa using hp))

/-- What `threadpool_create` returns otherwise has all its workers, and nothing has happened yet: but for the mutex and
the sleeping workers it is the pool the other modules start with. -/
theorem create_returns {e : Setting} {c : State e F A} (h : Reach (threadpoolCreate e F A).lts callsOk c)
    (hret : c.client () = .ret true) : Alive c.mem c.worker e.n e.n e.n ∧ c.mem.ledger = e.made := by
  obtain ⟨-, hledger, -, hworkers⟩ := create_reach h
  rw [hret] at hledger hworkers
  exact ⟨hworkers, hledger⟩

/-- `NULL` is returned. -/
def Pos.isNull : Pos F A → Bool
  | .ret false => true
  | _ => false

theorem eq_ret_of_isNull {p : Pos F A} (h : p.isNull = true) : p = .ret false := by
  cases p with
  | ret b =>
    cases b with
    | false => rfl
    | true => cases h
  | _ => cases h

/-- The test for steps whose calls succeed. -/
def callsTest {e : Setting} (_ : State e F A) (a : (Fin e.n ⊕ Unit) × Input e.n F A) : Bool := decide a.2.Ok

theorem callsOk_of_test {e : Setting} (c : State e F A) (a : (Fin e.n ⊕ Unit) × Input e.n F A)
    (h : callsTest c a = true) : callsOk c a := by
  simpa only [callsTest, callsOk, decide_eq_true_eq] using h

/-- Of two threads the second cannot be started. -/
def secondFails : Setting := ⟨2, 4, true, true, true, true, true, fun i => i == 0⟩

/-- Steps of one thread. -/
def stepsOf {e : Setting} (t : Fin e.n ⊕ Unit) (k : ℕ) : List ((Fin e.n ⊕ Unit) × Input e.n ℕ ℕ) :=
  List.replicate k (t, { call := none })

/-- The first worker. -/
def firstWorker : Fin secondFails.n ⊕ Unit := .inl ⟨0, by decide⟩

/-- The first worker sleeps before `threadpool_destroy` is called, wakes up, and leaves. -/
def secondFailsRun : List ((Fin secondFails.n ⊕ Unit) × Input secondFails.n ℕ ℕ) :=
  stepsOf (.inr ()) 9 ++ stepsOf firstWorker 2 ++ stepsOf (.inr ()) 3 ++ stepsOf firstWorker 2 ++ stepsOf (.inr ()) 10

/-- The worker has left, and the mutex that `threadpool_free` holds stays. -/
theorem create_cleaned_iff_secondFailsRun : ∃ c : State secondFails ℕ ℕ,
    Reach (threadpoolCreate secondFails ℕ ℕ).lts callsOk c ∧ c.client () = .ret false ∧ c.mem.born = 1 ∧
      Gone c.mem c.worker ∧ c.mem.ledger.lock = ⟨true, 0⟩ ∧ ¬ (c.mem.ledger.Cleaned ∧ Gone c.mem c.worker) := by
  obtain ⟨c, hc, hp⟩ := reach_of_run (threadpoolCreate secondFails ℕ ℕ).lts callsOk_of_test secondFailsRun
    (fun c => (c.client ()).isNull && decide (c.mem.born = 1) && decide (c.mem.ledger.lock = ⟨true, 0⟩))
    ⟨⟨none, ∅, [], fun _ => ⟨0, 0⟩, 0, 0, 0, 0, none, 0⟩, rfl⟩ (by decide)
  simp only [Bool.and_eq_true, decide_eq_true_eq] at hp
  have hret := eq_ret_of_isNull hp.1.1
  have hgone := (create_reach hc).workers
  rw [hret] at hgone
  refine ⟨c, hc, hret, hp.1.2, hgone, hp.2, fun hleft => ?_⟩
  -- the second thread could not be started, and the pool is there
  rcases (create_cleaned_iff hc hret).mp hleft with hgood | hpool | ⟨hthreads, -, -⟩
  · exact absurd (hgood.2.2.2.2.2 1 (by decide)) (by decide)
  · cases hpool
  · exact absurd hthreads (by decide)

/-- A negative number of threads. -/
def negativeCount : Setting := ⟨-1, 4, true, true, true, true, true, fun _ => true⟩

/-- **The queue, the mutex and the condition variable stay** if there is no memory for `threads`. -/
theorem create_leaves_negativeCount : ∃ c : State negativeCount ℕ ℕ,
    Reach (threadpoolCreate negativeCount ℕ ℕ).lts callsOk c ∧ c.client () = .ret false ∧
      c.mem.ledger.queue = ⟨true, 0⟩ ∧ c.mem.ledger.lock = ⟨true, 0⟩ ∧ ¬ c.mem.ledger.Cleaned := by
  obtain ⟨c, hc, hp⟩ := reach_of_run (threadpoolCreate negativeCount ℕ ℕ).lts callsOk_of_test (stepsOf (.inr ()) 8)
    (fun c => (c.client ()).isNull && decide (c.mem.ledger.queue = ⟨true, 0⟩) &&
      decide (c.mem.ledger.lock = ⟨true, 0⟩) && decide (¬ c.mem.ledger.Cleaned))
    ⟨⟨none, ∅, [], fun _ => ⟨0, 0⟩, 0, 0, 0, 0, none, 0⟩, rfl⟩ (by decide)
  simp only [Bool.and_eq_true, decide_eq_true_eq] at hp
  obtain ⟨⟨⟨hn, hq⟩, hl⟩, hcl⟩ := hp
  exact ⟨c, hc, eq_ret_of_isNull hn, hq, hl, hcl⟩

end PoolStudy.Threadpool.Create
