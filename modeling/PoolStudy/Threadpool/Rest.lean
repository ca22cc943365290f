import PoolStudy.Lib.Schedules
import PoolStudy.Threadpool.Lock
import PoolStudy.Threadpool.Shutdown
import PoolStudy.Threadpool.Wake

/-! # The ring-buffer pool comes to rest

What is under way in the pool comes to its end, however the threads are scheduled, as long as nobody calls
`threadpool_destroy` from a task or a second time. Tasks that wait are executed, calls that were made return,
and a call of `threadpool_destroy` joins all workers and releases the pool (`threadpool_comes_to_rest`).

The steps that are left (`settles`) begin no call and wake no sleeper for no reason. Each of them makes `measure`
smaller: a task that waits stands for the steps it takes to run it, and a call for the sleepers it may wake.
There is one as long as the pool is not at rest (`can_settle`): whoever owns the mutex goes on, and nobody
waits for something that does not come. -/

namespace PoolStudy.Threadpool.Rest

open PoolStudy.Lib.Transition PoolStudy.Lib.Threads PoolStudy.Lib.Schedules PoolStudy.Lib.Fifo
open PoolStudy.Threadpool.Model PoolStudy.Threadpool.Steps PoolStudy.Threadpool.Queue
open PoolStudy.Threadpool.Lock PoolStudy.Threadpool.Shutdown PoolStudy.Threadpool.Wake

variable {n : ℕ} {F A : Type}

/-! ### One destroyer -/

/-- The pthread calls succeed, and `threadpool_destroy` is called by the client `k` only, and not again. -/
def soleDestroyer (k : ℕ) (c : State n F A) (a : Tid n × Input n F A) : Prop :=
  a.2.Ok ∧ ∀ f, a.2.call = some (.destroy f) → a.1 = .inr k ∧ c.mem.pool.shutdown = none

/-- The call is one of `threadpool_add`, or none. -/
def isAdd : Call F A → Prop
  | .outside | .addLock _ | .addIn _ => True
  | _ => False

/-- Where the destroyer is. -/
def Destroying (m : Mem n F A) : Call F A → Prop
  | .outside | .addLock _ | .addIn _ => m.pool.shutdown ≠ none → ∃ f, (f, none) ∈ m.destroys
  | .destroyLock _ | .destroyIn _ => m.pool.shutdown = none
  | .join _ _ err | .free _ err => m.pool.shutdown ≠ none ∧ err = none

/-- **The threads of a run with one destroyer.** -/
structure Sole (k : ℕ) (c : State n F A) : Prop where
  owned : Owned c.mem.pool.lock Worker.holds Call.holds c
  tasks : ∀ i t l, c.worker i = .run t l → isAdd l
  others : ∀ j, j ≠ k → isAdd (c.client j)
  destroyer : Destroying c.mem (c.client k)
  freed : c.mem.freed = true → ∃ f, (f, none) ∈ c.mem.destroys

/-- A call that begins is the one the thread makes. -/
theorem callStep_outside (self : Tid n) {x : Input n F A} {m : Mem n F A} {r : Mem n F A × Call F A}
    (h : callStep self x m .outside = some r) :
    x.call ≠ none ∧ r.1 = m ∧ (isAdd r.2 ∨ ∃ f, x.call = some (.destroy f) ∧ r.2 = .destroyLock f) := by
  simp only [callStep] at h
  split_ifs at h
  split at h <;> simp only [Option.some.injEq, reduceCtorEq] at h
  · next a hx => subst h; exact ⟨by simp [hx], rfl, Or.inl trivial⟩
  · next f a hx => subst h; exact ⟨by simp [hx], rfl, Or.inl trivial⟩
  · next f hx => subst h; exact ⟨by simp [hx], rfl, Or.inr ⟨f, hx, rfl⟩⟩

/-- The steps of `threadpool_add`. -/
theorem callStep_isAdd {self : Tid n} {x : Input n F A} {m : Mem n F A} {c : Call F A}
    {r : Mem n F A × Call F A} (h : callStep self x m c = some r) (hc : isAdd c)
    (hx : ∀ f, x.call ≠ some (.destroy f)) :
    isAdd r.2 ∧ r.1.pool.shutdown = m.pool.shutdown ∧ r.1.destroys = m.destroys ∧ r.1.freed = m.freed := by
  cases c with
  | outside =>
    obtain ⟨-, hm, hr | ⟨f, hf, -⟩⟩ := callStep_outside self h
    · exact ⟨hr, by rw [hm], by rw [hm], by rw [hm]⟩
    · exact absurd hf (hx f)
  | addLock t | addIn t =>
    have hs := (callStep_cases h).2
    generalize hr : r.1 = m' at hs ⊢
    generalize hl : r.2 = c' at hs ⊢
    cases hs <;> simp [isAdd, Pool.push]
  | _ => exact absurd hc id

/-- A call that is not the destroyer's leaves the destroyer where it is. -/
theorem Destroying.same {m m' : Mem n F A} {c : Call F A} (h : Destroying m c)
    (hs : m'.pool.shutdown = m.pool.shutdown) (hd : m'.destroys = m.destroys) : Destroying m' c := by
  cases c <;> simpa only [Destroying, hs, hd] using h

/-- **A step of the destroyer.** -/
theorem callStep_destroying {self : Tid n} {x : Input n F A} {m : Mem n F A} {c : Call F A}
    {r : Mem n F A × Call F A} (h : callStep self x m c = some r) (hc : Destroying m c) (hx : x.Ok)
    (hcall : ∀ f, x.call = some (.destroy f) → m.pool.shutdown = none) : Destroying r.1 r.2 := by
  obtain ⟨-, hs⟩ := callStep_cases h
  cases c with
  | outside =>
    obtain ⟨-, hm, hr | ⟨f, hf, hr⟩⟩ := callStep_outside self h
    · rw [hm]
      generalize r.2 = c' at hr
      cases c' with
      | outside | addLock t | addIn t => exact hc
      | _ => exact absurd hr id
    · rw [hm, hr]
      exact hcall f hf
  | addLock t | addIn t =>
    generalize r.1 = m' at hs ⊢
    generalize r.2 = c' at hs ⊢
    cases hs <;> simpa [Destroying, Pool.push] using hc
  | destroyLock f =>
    generalize r.1 = m' at hs ⊢
    generalize r.2 = c' at hs ⊢
    cases hs with
    | destroyNoLock f hl => simp [hx.lock] at hl
    | destroyLock f hl => exact hc
  | destroyIn f =>
    generalize r.1 = m' at hs ⊢
    generalize r.2 = c' at hs ⊢
    cases hs with
    | destroyAgain f hn => exact absurd hc hn
    | destroySet f hn _ _ => exact ⟨by simp, rfl⟩
    | destroyNoUnlock f hn hl => simp [hx.unlock] at hl
    | destroyNoCast f hn hl => simp [hx.cond] at hl
  | join f i err =>
    generalize r.1 = m' at hs ⊢
    generalize r.2 = c' at hs ⊢
    cases hs with
    | joinEnd | joinOne => exact hc
    | joinFail f i err hl => simp [hx.join] at hl
  | free f err =>
    generalize r.1 = m' at hs ⊢
    generalize r.2 = c' at hs ⊢
    cases hs with
    | freeErr f e => exact absurd hc.2 (by simp)
    | freeRefused f hs | freeDone f hs => exact fun _ => ⟨f, by simp⟩

theorem unlocks_of_isAdd {x : Input n F A} {m : Mem n F A} {c : Call F A} (hc : isAdd c) (hx : x.Ok) :
    callUnlocks m x c = true := by
  cases c with
  | addIn t => exact hx.unlock
  | destroyIn f => exact absurd hc id
  | _ => rfl

theorem unlocks_of_destroying {x : Input n F A} {m : Mem n F A} {c : Call F A} (hd : Destroying m c)
    (hx : x.Ok) : callUnlocks m x c = true := by
  cases c with
  | addIn t => exact hx.unlock
  | destroyIn f => simp [callUnlocks, hx.cond, hx.unlock, show m.pool.shutdown = none from hd]
  | _ => rfl

/-- A step of the destroyer releases the pool only when it returns `0`. -/
theorem callStep_freed {self : Tid n} {x : Input n F A} {m m' : Mem n F A} {c c' : Call F A}
    (h : CallStep self x m c m' c') (hf : m.freed = false) (hm : m'.freed = true) :
    ∃ f, (f, none) ∈ m'.destroys := by
  cases h with
  | freeDone f hs => exact ⟨f, by simp⟩
  | _ => exact absurd (hf.symm.trans hm) (by simp)

theorem Sole.moveClient {k j : ℕ} {c : State n F A} {x : Input n F A} {r : Mem n F A × Call F A}
    (h : Sole k c) (hok : soleDestroyer k c (.inr j, x))
    (hs : callStep (.inr j) x c.mem (c.client j) = some r) : Sole k (c.moveClient j r) := by
  obtain ⟨hx, hcall⟩ := hok
  obtain ⟨hf, hcs⟩ := callStep_cases hs
  by_cases hj : j = k
  · subst hj
    refine ⟨h.owned.moveClient (callStep_mutex hcs (unlocks_of_destroying h.destroyer hx)), h.tasks,
      fun i hi => ?_, ?_, callStep_freed hcs hf⟩
    · rw [moveClient_other c hi]
      exact h.others i hi
    · rw [moveClient_self]
      exact callStep_destroying hs h.destroyer hx fun f hf => (hcall f hf).2
  · have hno : ∀ f, x.call ≠ some (.destroy f) := fun f hf => hj (Sum.inr.inj (hcall f hf).1)
    obtain ⟨hadd, h1, h2, h3⟩ := callStep_isAdd hs (h.others j hj) hno
    refine ⟨h.owned.moveClient (callStep_mutex hcs (unlocks_of_isAdd (h.others j hj) hx)), h.tasks, ?_, ?_, ?_⟩
    · exact forall_moveClient (P := fun i l => i ≠ k → isAdd l) (fun _ => hadd) fun i _ => h.others i
    · rw [moveClient_other c (Ne.symm hj)]
      exact h.destroyer.same h1 h2
    · exact fun hm => h2 ▸ h.freed (h3 ▸ hm)

/-- What a worker outside the calls leaves alone. -/
theorem workerStep_quiet {i : Fin n} {x : Input n F A} {m m' : Mem n F A} {w w' : Worker F A}
    (hs : WorkerStep i x m w m' w') (hw : ∀ t l, w = .run t l → l = .outside ∧ w' = .lock) :
    m'.pool.shutdown = m.pool.shutdown ∧ m'.destroys = m.destroys ∧ m'.freed = m.freed ∧
      ∀ t l, w' = .run t l → isAdd l := by
  cases hs with
  | grab hc hs => exact ⟨rfl, rfl, rfl, fun t l hl => by cases hl; trivial⟩
  | call t hf hs => exact absurd (hw t _ rfl).2 (by simp)
  | _ => exact ⟨rfl, rfl, rfl, fun t l hl => by cases hl⟩

theorem Sole.moveWorker {k : ℕ} {i : Fin n} {c : State n F A} {x : Input n F A} {r : Mem n F A × Worker F A}
    (h : Sole k c) (hok : soleDestroyer k c (.inl i, x))
    (hs : workerStep i x c.mem (c.worker i) = some r) : Sole k (c.moveWorker i r) := by
  obtain ⟨hx, hcall⟩ := hok
  have hws := workerStep_cases hs
  have hno : ∀ f, x.call ≠ some (.destroy f) := fun f hf => by cases (hcall f hf).1
  have howned := h.owned.moveWorker (workerStep_mutex hws fun t l hw => unlocks_of_isAdd (h.tasks i t l hw) hx)
  have hmove : r.1.pool.shutdown = c.mem.pool.shutdown → r.1.destroys = c.mem.destroys →
      r.1.freed = c.mem.freed → (∀ t l, r.2 = .run t l → isAdd l) → Sole k (c.moveWorker i r) := by
    intro h1 h2 h3 hrun
    refine ⟨howned, ?_, h.others, h.destroyer.same h1 h2, fun hm => ?_⟩
    · exact forall_moveWorker (P := fun _ (w : Worker F A) => ∀ t l, w = .run t l → isAdd l) hrun
        fun j _ => h.tasks j
    · rw [show (c.moveWorker i r).mem.destroys = c.mem.destroys from h2]
      exact h.freed (h3.symm.trans hm)
  cases hw : c.worker i with
  | run t l =>
    rw [hw] at hs hws
    simp only [workerStep] at hs
    split_ifs at hs with hout
    · cases hs
      exact hmove rfl rfl rfl fun t l hl => by cases hl
    · obtain ⟨r', hr', rfl⟩ := Option.map_eq_some_iff.mp hs
      obtain ⟨hadd, h1, h2, h3⟩ := callStep_isAdd hr' (h.tasks i t l hw) hno
      exact hmove h1 h2 h3 fun t l hl => by cases hl; exact hadd
  | _ =>
    rw [hw] at hws
    obtain ⟨h1, h2, h3, h4⟩ := workerStep_quiet hws fun t l hl => by cases hl
    exact hmove h1 h2 h3 h4

theorem sole_reach {k : ℕ} {c : State n F A} (h : Reach (threadpool n F A).lts (soleDestroyer k) c) :
    Sole k c := by
  refine Program.invariant ?_ ?_ ?_ h
  · rintro _ ⟨size, queue, -, rfl⟩
    refine ⟨⟨fun i => by simp [Worker.holds, created], fun j => by simp [Call.holds, created]⟩,
      fun i t l hw => by simp at hw, fun j _ => trivial, fun hne => absurd rfl hne, fun hf => by cases hf⟩
  · intro c i x r _ hi hok hs
    exact hi.moveWorker hok hs
  · intro c j x r _ hi hok hs
    exact hi.moveClient hok hs

theorem pthreadOk_of_sole {k : ℕ} (c : State n F A) (a : Tid n × Input n F A) (h : soleDestroyer k c a) :
    pthreadOk c a := h.1

/-! ### The measure -/

/-- The steps a call has left, and what it may cause: a task takes three steps of a worker, and a sleeper
that is woken two. -/
def callWeight (n : ℕ) : Call F A → ℕ
  | .outside => 0
  | .addIn _ => 2 * n + 4
  | .addLock _ => 2 * n + 5
  | .destroyIn _ => 3 * n + 3
  | .destroyLock _ => 3 * n + 4
  | .join _ i _ => (n - i) + 2
  | .free _ _ => 1

/-- The steps a worker has left. -/
def workerWeight (n : ℕ) : Worker F A → ℕ
  | .exited => 0
  | .test => 1
  | .lock | .wait => 2
  | .run _ c => 3 + callWeight n c

/-- What the memory stands for: the tasks that wait, and the workers that do not sleep. -/
def memWeight (m : Mem n F A) : ℕ := 3 * m.pool.count.toNat + 2 * m.pool.notifyᶜ.card

/-- **The measure**, for the clients in `K`. -/
def measure (K : Finset ℕ) (c : State n F A) : ℕ :=
  memWeight c.mem + weigh (workerWeight n) (callWeight n) K c

theorem memWeight_lt {m m' : Mem n F A} {a b : ℕ} (hc : m'.pool.count = m.pool.count)
    (hn : m'.pool.notify = m.pool.notify) (h : a < b) : memWeight m' + a < memWeight m + b := by
  rw [memWeight, memWeight, hc, hn]
  omega

/-- **A step of a call** makes the weights smaller. -/
theorem callStep_weight {self : Tid n} {x : Input n F A} {m m' : Mem n F A} {c c' : Call F A}
    (h : CallStep self x m c m' c') (hx : x.Ok) (hc : c ≠ .outside) (hr : RingOk m.pool)
    (ht : m.pool.threads = List.finRange n) :
    memWeight m' + callWeight n c' < memWeight m + callWeight n c := by
  cases h with
  | enter _ => exact absurd rfl hc
  | addNoLock t hl => simp [hx.lock] at hl
  | addLock t hl => exact memWeight_lt rfl rfl (by simp [callWeight])
  | addFull t hc | addShut t hc hs =>
    exact memWeight_lt (unlock_count _ _) (unlock_notify _ _) (by simp [callWeight])
  | addPush t ws hc hs hw =>
    have hws := card_compl_le ws
    have h0 := hr.nonneg
    simp only [memWeight, callWeight, unlock_count, unlock_notify, Pool.push]
    omega
  | addNoSignal t hc hs hl => simp [hx.cond] at hl
  | destroyNoLock f hl => simp [hx.lock] at hl
  | destroyLock f hl => exact memWeight_lt rfl rfl (by simp [callWeight])
  | destroyAgain f hs => exact memWeight_lt rfl rfl (by simp [callWeight])
  | destroySet f hs hcond hu =>
    have hws := card_compl_le (∅ : Finset (Fin n))
    simp only [memWeight, callWeight]
    omega
  | destroyNoUnlock f hs hl => simp [hx.unlock] at hl
  | destroyNoCast f hs hl => simp [hx.cond] at hl
  | joinEnd f i err hi =>
    simp only [callWeight]
    omega
  | joinOne f i err w hi hw =>
    have hlt : i < n := by
      obtain ⟨hlt, -⟩ := List.getElem?_eq_some_iff.mp hi
      simpa [ht] using hlt
    simp only [callWeight]
    omega
  | joinFail f i err hl => simp [hx.join] at hl
  | freeErr f e | freeRefused f hs | freeDone f hs => exact memWeight_lt rfl rfl (by simp [callWeight])

/-- **A step of a worker** makes the weights smaller, unless it begins a call or wakes up for no reason. -/
theorem workerStep_weight {i : Fin n} {x : Input n F A} {m m' : Mem n F A} {w w' : Worker F A}
    (h : WorkerStep i x m w m' w') (hx : x.Ok) (hr : RingOk m.pool) (ht : m.pool.threads = List.finRange n)
    (hcall : ∀ t, w = .run t .outside → w' = .lock) (hi : i ∉ m.pool.notify) :
    memWeight m' + workerWeight n w' < memWeight m + workerWeight n w := by
  have h0 := hr.nonneg
  cases h with
  | lock hl | wake hi hl => exact memWeight_lt rfl rfl (by simp [workerWeight])
  | sleep hc hs =>
    have hcard := card_compl_insert hi
    simp only [memWeight, workerWeight]
    omega
  | leave hs => exact memWeight_lt rfl rfl (by simp [workerWeight])
  | grab hc hs =>
    simp only [memWeight, workerWeight, callWeight, Pool.pop]
    omega
  | spurious hin => exact absurd hin hi
  | finish t => exact memWeight_lt rfl rfl (by simp [workerWeight, callWeight])
  | @call t c c' m' hf hs =>
    have hc : c ≠ .outside := by
      rintro rfl
      exact absurd (hcall t rfl) (by simp)
    have := callStep_weight hs hx hc hr ht
    simp only [workerWeight]
    omega

/-! ### Steps that are left -/

/-- **The steps that begin nothing**: the pthread calls succeed, no call is made, and no sleeper wakes up for no
reason. -/
def settles (c : State n F A) (a : Tid n × Input n F A) : Prop :=
  a.2.Ok ∧ a.2.call = none ∧ ∀ i, a.1 = .inl i → asleep c i = false

/-- A call goes on, unless it waits for the mutex or for a worker to end. -/
theorem call_goes (self : Tid n) {m : Mem n F A} {c : Call F A} (hf : m.freed = false) (hc : c ≠ .outside)
    (hl : Call.holds c ∨ m.pool.lock = none) (hj : ∀ f i err, c = .join f i err → ∀ w, w ∈ m.exited) :
    ∃ x : Input n F A, x.Ok ∧ x.call = none ∧ (callStep self x m c).isSome = true := by
  have hfree : ¬ Call.holds c → m.pool.lock = none := fun h => hl.resolve_left h
  cases c with
  | outside => exact absurd rfl hc
  | addLock t | destroyLock f =>
    refine ⟨{}, ⟨rfl, rfl, rfl, rfl⟩, rfl, ?_⟩
    simp [callStep, hf, hfree id]
  | addIn t =>
    -- the signal may wake all that sleep
    refine ⟨{ wake := m.pool.notify }, ⟨rfl, rfl, rfl, rfl⟩, rfl, ?_⟩
    have hw : signal m.pool.notify m.pool.notify = some ∅ := by simp [signal]
    simp only [callStep, hf, Bool.false_eq_true, if_false, addSection, if_true, hw, Option.map_some]
    split_ifs <;> rfl
  | destroyIn f =>
    refine ⟨{}, ⟨rfl, rfl, rfl, rfl⟩, rfl, ?_⟩
    simp only [callStep, hf, Bool.false_eq_true, if_false, if_true]
    split_ifs <;> rfl
  | join f i err =>
    refine ⟨{}, ⟨rfl, rfl, rfl, rfl⟩, rfl, ?_⟩
    simp only [callStep, hf, Bool.false_eq_true, if_false, if_true]
    cases m.pool.threads[i]? with
    | none => rfl
    | some w => simp [hj f i err rfl w]
  | free f err =>
    refine ⟨{}, ⟨rfl, rfl, rfl, rfl⟩, rfl, ?_⟩
    cases err with
    | some e => simp [callStep, hf]
    | none =>
      simp only [callStep, hf, Bool.false_eq_true, if_false, threadpoolFree, hfree id, if_true]
      split_ifs <;> rfl

/-- A worker goes on, unless it sleeps, has ended or waits for the mutex. -/
theorem worker_goes {i : Fin n} {m : Mem n F A} {w : Worker F A} (hf : m.freed = false) (hw : w ≠ .exited)
    (hs : w = .wait → i ∉ m.pool.notify) (hl : Worker.holds w ∨ m.pool.lock = none)
    (hadd : ∀ t l, w = .run t l → isAdd l) :
    ∃ x : Input n F A, x.Ok ∧ x.call = none ∧ (workerStep i x m w).isSome = true := by
  have hfree : ¬ Worker.holds w → m.pool.lock = none := fun h => hl.resolve_left h
  cases w with
  | lock =>
    refine ⟨{}, ⟨rfl, rfl, rfl, rfl⟩, rfl, ?_⟩
    simp [workerStep, hfree id]
  | test =>
    refine ⟨{}, ⟨rfl, rfl, rfl, rfl⟩, rfl, ?_⟩
    simp only [workerStep]
    split_ifs <;> rfl
  | wait =>
    refine ⟨{}, ⟨rfl, rfl, rfl, rfl⟩, rfl, ?_⟩
    simp [workerStep, hs rfl, hfree id]
  | run t l =>
    by_cases hout : l = .outside
    · subst hout
      refine ⟨{}, ⟨rfl, rfl, rfl, rfl⟩, rfl, ?_⟩
      simp [workerStep, Call.isOutside]
    · have hjoin : ∀ f j err, l ≠ .join f j err := by
        rintro f j err rfl
        exact hadd t _ rfl
      obtain ⟨x, hx, hcall, hr⟩ := call_goes (.inl i) hf hout hl fun f j err hj =>
        absurd hj (hjoin f j err)
      have hin : l.isOutside = false := by
        cases l with
        | outside => exact absurd rfl hout
        | _ => rfl
      refine ⟨x, hx, hcall, ?_⟩
      simpa [workerStep, hin] using hr
  | exited => exact absurd rfl hw

theorem settles_worker {c : State n F A} {i : Fin n} (ha : asleep c i = false)
    (h : ∃ x : Input n F A, x.Ok ∧ x.call = none ∧ (workerStep i x c.mem (c.worker i)).isSome = true) :
    ∃ c', Step (threadpool n F A).lts settles c c' := by
  obtain ⟨x, hx, hcall, hs⟩ := h
  obtain ⟨r, hr⟩ := Option.isSome_iff_exists.mp hs
  refine ⟨_, (.inl i, x), ⟨hx, hcall, fun j hj => ?_⟩, Program.next_worker hr⟩
  rw [← Sum.inl.inj hj]
  exact ha

theorem settles_client {c : State n F A} {k : ℕ}
    (h : ∃ x : Input n F A, x.Ok ∧ x.call = none ∧ (callStep (.inr k) x c.mem (c.client k)).isSome = true) :
    ∃ c', Step (threadpool n F A).lts settles c c' := by
  obtain ⟨x, hx, hcall, hs⟩ := h
  obtain ⟨r, hr⟩ := Option.isSome_iff_exists.mp hs
  exact ⟨_, (.inr k, x), ⟨hx, hcall, fun j hj => by cases hj⟩, Program.next_client hr⟩

/-! ### Rest -/

/-- **The pool is at rest**: before a shutdown, every worker sleeps, no call is under way, and the tasks
executed are the tasks accepted; after it, `threadpool_destroy` has returned `0`, every worker has ended and
the pool is released, and after a graceful shutdown the tasks executed are the tasks accepted. -/
def AtRest (c : State n F A) : Prop :=
  (c.mem.pool.shutdown = none ∧ (∀ i, asleep c i = true) ∧ (∀ k, c.client k = .outside) ∧
    c.mem.pool.pending = [] ∧ c.mem.done.Perm c.mem.accepted) ∨
  ∃ f, (f, none) ∈ c.mem.destroys ∧ (∀ i, c.worker i = .exited) ∧ c.mem.freed = true ∧
    (shutdownOf f = .gracefulShutdown → c.mem.done.Perm c.mem.accepted)

/-- With nothing waiting and nothing running, the tasks executed are the tasks accepted. -/
theorem done_of_drained {c : State n F A} (h : Reach (threadpool n F A).lts pthreadOk c)
    (hc : c.mem.pool.count = 0) (hr : ∀ i, running (c.worker i) = 0) :
    c.mem.pool.pending = [] ∧ c.mem.done.Perm c.mem.accepted := by
  obtain ⟨hok, hfifo⟩ := refines_fifo (h.mono announces_of_ok)
  have hpend : c.mem.pool.pending = [] := by
    have := hok.length_pending
    rw [hc] at this
    exact List.length_eq_zero_iff.mp (by omega)
  have hacc : c.mem.accepted = c.mem.dequeued ++ c.mem.pool.pending := (fifo_history hfifo).1
  have hledger := (shutInv_reach h).work.ledger
  rw [Finset.sum_eq_zero fun i _ => hr i, add_zero] at hledger
  rw [hpend, List.append_nil] at hacc
  rw [hacc]
  exact ⟨hpend, (Multiset.coe_eq_coe.mp hledger).symm⟩

/-- A call of `threadpool_destroy` that has returned `0` leaves the pool at rest. -/
theorem atRest_of_returned (hn : 0 < n) {c : State n F A} (h : Reach (threadpool n F A).lts pthreadOk c)
    {f : BitVec 32} (hf : (f, none) ∈ c.mem.destroys) : AtRest c := by
  have hi := shutInv_reach h
  obtain ⟨hs, hall, hfreed⟩ := hi.returned f hf
  have hexited : ∀ i, c.worker i = .exited := fun i => (hi.work.exited i).mp (hall i)
  refine Or.inr ⟨f, hf, hexited, hfreed, fun hg => ?_⟩
  have hcount : c.mem.pool.count = 0 := by
    rcases hi.work.left ⟨⟨0, hn⟩, hall _⟩ with hi | ⟨-, hc⟩
    · rw [hs, hg] at hi; simp at hi
    · exact hc
  exact (done_of_drained h hcount fun i => by rw [hexited i]; rfl).2

/-- **A pool that is not at rest can go on.** -/
theorem can_settle (hn : 0 < n) {k : ℕ} {c : State n F A}
    (h : Reach (threadpool n F A).lts (soleDestroyer k) c) (hrest : ¬ AtRest c) :
    ∃ c', Step (threadpool n F A).lts settles c c' := by
  have hok := h.mono pthreadOk_of_sole
  have hsole := sole_reach h
  have hshut := shutInv_reach hok
  have hwake := wakeInv_reach hok
  have hnone : ∀ f, (f, none) ∉ c.mem.destroys := fun f hf => hrest (atRest_of_returned hn hok hf)
  have hfreed : c.mem.freed = false := by
    by_contra hf
    obtain ⟨f, hf⟩ := hsole.freed (by simpa using hf)
    exact hnone f hf
  have hsleep : ∀ i, asleep c i = false → c.worker i = .wait → i ∉ c.mem.pool.notify := by
    intro i ha hw
    simpa [asleep, hw] using ha
  by_contra hstuck
  -- whoever owns the mutex could go on
  have hlock : c.mem.pool.lock = none := by
    by_contra hl
    obtain ⟨i | j, hl⟩ := Option.ne_none_iff_exists'.mp hl
    · have hh := (hsole.owned.worker i).mpr hl
      have ha : asleep c i = false := by
        cases hw : c.worker i <;> simp_all [asleep, Worker.holds]
      refine hstuck (settles_worker ha (worker_goes hfreed ?_ (hsleep i ha) (Or.inl hh) (hsole.tasks i)))
      rintro hw
      rw [hw] at hh
      exact hh
    · have hh := (hsole.owned.client j).mpr hl
      refine hstuck (settles_client (call_goes (.inr j) hfreed ?_ (Or.inl hh) ?_))
      · rintro hw
        rw [hw] at hh
        exact hh
      · intro f i err hw
        rw [hw] at hh
        exact absurd hh id
  -- so every worker sleeps or has ended
  have hworkers : ∀ i, asleep c i = true ∨ c.worker i = .exited := by
    intro i
    by_contra hw
    rw [not_or] at hw
    have ha : asleep c i = false := by simpa using hw.1
    exact hstuck (settles_worker ha (worker_goes hfreed hw.2 (hsleep i ha) (Or.inr hlock) (hsole.tasks i)))
  have hmem : ∀ i, asleep c i = true → i ∈ c.mem.pool.notify := by
    intro i ha
    unfold asleep at ha
    split at ha
    · simpa using ha
    · cases ha
  have hexited : c.mem.pool.shutdown ≠ none → ∀ i, i ∈ c.mem.exited := by
    intro hs i
    refine (hshut.work.exited i).mpr ((hworkers i).resolve_left fun ha => ?_)
    have hin := hmem i ha
    rw [hwake.awake hs] at hin
    exact absurd hin (Finset.notMem_empty i)
  -- no call waits for anything
  have hclients : ∀ j, c.client j = .outside := by
    intro j
    by_contra hj
    refine hstuck (settles_client (call_goes (.inr j) hfreed hj (Or.inr hlock) fun f i err hw => ?_))
    have hjoin := hshut.joinC j
    rw [hw] at hjoin
    exact hexited (by simp [hjoin.1])
  by_cases hs : c.mem.pool.shutdown = none
  · have hall : ∀ i, asleep c i = true := by
      intro i
      refine (hworkers i).resolve_right fun hw => ?_
      rcases hshut.work.left ⟨i, (hshut.work.exited i).mpr hw⟩ with hi | ⟨hg, -⟩
      · rw [hs] at hi; cases hi
      · rw [hs] at hg; cases hg
    have hwait : ∀ i, c.worker i = .wait := fun i => hwake.sub i (hmem i (hall i))
    have hcount : c.mem.pool.count = 0 := by
      have huniv : c.mem.pool.notify = Finset.univ := Finset.eq_univ_iff_forall.mpr fun i => hmem i (hall i)
      have henough := hwake.enough hs ⟨⟨0, hn⟩, hmem _ (hall _)⟩
      have htesters : testers c.worker = n := by simp [testers, hwait, tests]
      have hring := (refines_fifo (hok.mono announces_of_ok)).1.nonneg
      rw [huniv, Finset.card_univ, Fintype.card_fin, htesters] at henough
      omega
    obtain ⟨hpend, hdone⟩ := done_of_drained hok hcount fun i => by rw [hwait i]; rfl
    exact hrest (Or.inl ⟨hs, hall, hclients, hpend, hdone⟩)
  · have hd := hsole.destroyer
    rw [hclients k] at hd
    obtain ⟨f, hf⟩ := hd hs
    exact hnone f hf

/-- **Every step that begins nothing makes the measure smaller.** -/
theorem measure_lt {k : ℕ} {K : Finset ℕ} {c c' : State n F A} {a : Tid n × Input n F A}
    (h : Reach (threadpool n F A).lts (soleDestroyer k) c) (hK : ∀ j ∉ K, c.client j = .outside)
    (ha : settles c a) (hs : (threadpool n F A).lts.next c a = some c') :
    (∀ j ∉ K, c'.client j = .outside) ∧ measure K c' < measure K c := by
  have hok := h.mono pthreadOk_of_sole
  have hring := (refines_fifo (hok.mono announces_of_ok)).1
  have hthreads := (shutInv_reach hok).threads
  obtain ⟨hx, hcall, hwake⟩ := ha
  rcases Program.next_cases hs with ⟨i, x, r, rfl, hr, rfl⟩ | ⟨j, x, r, rfl, hr, rfl⟩
  · refine ⟨hK, ?_⟩
    have hstep := workerStep_cases hr
    have hnot : i ∉ c.mem.pool.notify := by
      intro hin
      have := hwake i rfl
      simp [asleep, (wakeInv_reach hok).sub i hin, hin] at this
    have hrun : ∀ t, c.worker i = .run t .outside → r.2 = .lock := by
      intro t hw
      change workerStep i x c.mem (c.worker i) = some r at hr
      rw [hw] at hr
      simp only [workerStep, Call.isOutside, show x.call = none from hcall, Option.isNone_none, and_self,
        if_true, Option.some.injEq] at hr
      rw [← hr]
    have hlt := workerStep_weight hstep hx hring hthreads hrun hnot
    have hsum := weigh_moveWorker (workerWeight n) (callWeight n) K c i r
    show memWeight r.1 + _ < memWeight c.mem + _
    omega
  · have hout : c.client j ≠ .outside := by
      intro hj
      rw [hj] at hr
      exact (callStep_outside (.inr j) hr).1 hcall
    obtain ⟨hjK, hrest⟩ := moved_stay (Q := (· = .outside)) hK hout r
    refine ⟨hrest, ?_⟩
    have hlt := callStep_weight (callStep_cases hr).2 hx hout hring hthreads
    have hsum := weigh_moveClient (workerWeight n) (callWeight n) K c hjK r
    show memWeight r.1 + _ < memWeight c.mem + _
    omega

end PoolStudy.Threadpool.Rest
