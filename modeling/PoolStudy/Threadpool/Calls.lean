import PoolStudy.Threadpool.Queue

/-! # The ring-buffer pool: what its users see

Programs that use the pool add tasks and destroy it once. For them a call of the library goes on, has added its task,
has found the queue full or has destroyed the pool (`callStep_effect`), and a worker takes a task, returns from one or
does neither (`workerStep_effect`). `returned` is what a call returns in the step in which it does. -/

namespace PoolStudy.Threadpool.Calls

open PoolStudy.Lib.Transition PoolStudy.Lib.Threads
open PoolStudy.Threadpool.Model PoolStudy.Threadpool.Steps PoolStudy.Threadpool.Queue

variable {n : ℕ} {F A : Type}

/-! ### A pool of a given size -/

/-- A pool that `threadpool_create` has made with a queue of the given size. -/
def poolOf (n : ℕ) (F A : Type) (size : ℕ) : Lts (State n F A) (Tid n × Input n F A) where
  init c := ∃ queue, c = ⟨created n size queue, fun _ => .lock, fun _ => .outside⟩
  next := (threadpool n F A).lts.next

theorem reach_poolOf {size : ℕ} {c : State n F A} (h : Reach (poolOf n F A size) pthreadOk c) :
    Reach (threadpool n F A).lts pthreadOk c ∧ c.mem.pool.queueSize = size := by
  refine Reach.induct (I := fun c => Reach (threadpool n F A).lts pthreadOk c ∧ c.mem.pool.queueSize = size) ?_ ?_ h
  · rintro c ⟨queue, rfl⟩
    exact ⟨.init ⟨size, queue, Int.natCast_nonneg size, rfl⟩, rfl⟩
  · rintro c a c' - ⟨hr, hsize⟩ hok hn
    refine ⟨hr.next hok hn, ?_⟩
    have hring := (refines_fifo (hr.mono announces_of_ok)).1
    have hstep : QueueStep c.mem c'.mem := by
      rcases Program.next_cases hn with ⟨i, x, r, rfl, hs, rfl⟩ | ⟨k, x, r, rfl, hs, rfl⟩
      · exact workerStep_queue (fun _ => announced_of_ok hok) (workerStep_cases hs)
      · exact callStep_queue (fun _ => announced_of_ok hok) (callStep_cases hs).2
    rw [(queueStep_simulates hstep hring).2.1, hsize]

/-! ### The calls -/

/-- What a call that returned in the step from `m` to `m'` has returned. -/
def returned (m m' : Mem n F A) : Option Ret :=
  ((m'.adds.drop m.adds.length).map Prod.snd ++ (m'.destroys.drop m.destroys.length).map Prod.snd).head?

theorem returned_same {m m' : Mem n F A} (ha : m'.adds = m.adds) (hd : m'.destroys = m.destroys) :
    returned m m' = none := by
  simp [returned, ha, hd]

theorem returned_add {m m' : Mem n F A} {t : Task F A} {ret : Ret} (ha : m'.adds = m.adds ++ [(t, ret)]) :
    returned m m' = some ret := by
  simp [returned, ha]

theorem returned_destroy {m m' : Mem n F A} {f : BitVec 32} {ret : Ret} (ha : m'.adds = m.adds)
    (hd : m'.destroys = m.destroys ++ [(f, ret)]) : returned m m' = some ret := by
  simp [returned, ha, hd]

/-- The calls that are made. -/
inductive Kind (F A : Type)
  | add (t : Task F A)
  | destroy (flags : BitVec 32)
  deriving DecidableEq

/-- **Where a call is** in the library. A pool is not shut down before the call that does so. -/
def InCall (m : Mem n F A) : Option (Kind F A) → Call F A → Prop
  | none, c => c = .outside
  | some (.add t), c => c = .addLock t ∨ c = .addIn t
  | some (.destroy f), c => ((c = .destroyLock f ∨ c = .destroyIn f) ∧ m.pool.shutdown = none) ∨
      (∃ i, c = .join f i none) ∨ c = .free f none

/-- Where a call is does not depend on more of the pool than whether it is shut down. -/
theorem InCall.same {m m' : Mem n F A} {kind : Option (Kind F A)} {c : Call F A} (h : InCall m kind c)
    (hs : m'.pool.shutdown = m.pool.shutdown) : InCall m' kind c := by
  match kind, h with
  | none, h => exact h
  | some (.add _), h => exact h
  | some (.destroy _), h => simpa only [InCall, hs] using h

/-- Where a call begins. -/
def entry : Api F A → Call F A
  | .add none _ => .outside
  | .add (some f) a => .addLock ⟨f, a⟩
  | .destroy flags => .destroyLock flags

theorem callStep_entry {self : Tid n} {x : Input n F A} {m : Mem n F A} {api : Api F A} {r : Mem n F A × Call F A}
    (hx : x.call = some api) (h : callStep self x m .outside = some r) : r = (m, entry api) := by
  simp only [callStep, hx] at h
  by_cases hf : m.freed = true
  · rw [if_pos hf] at h
    cases h
  · rw [if_neg hf] at h
    rcases api with ⟨_ | f, a⟩ | flags <;> cases h <;> rfl

/-- A call that was not made does not go on. -/
theorem callStep_idle {self : Tid n} {x : Input n F A} {m : Mem n F A} (hx : x.call = none) :
    callStep self x m .outside = none := by
  simp [callStep, hx]

/-- The same tasks wait, have been accepted and have been executed. -/
structure SameTasks (m m' : Mem n F A) : Prop where
  pending : m'.pool.pending = m.pool.pending
  accepted : m'.accepted = m.accepted
  done : m'.done = m.done

/-- **What a step of a call does**: the call goes on, has added its task or has been refused, or has destroyed the
pool. -/
inductive CallEffect (m m' : Mem n F A) : Kind F A → Call F A → Prop
  | goes {kind : Kind F A} {c : Call F A} (hr : returned m m' = none) (hc : InCall m' (some kind) c)
      (ht : SameTasks m m') (hs : m'.pool.shutdown = m.pool.shutdown ∨ ∃ f, kind = .destroy f) :
      CallEffect m m' kind c
  | adds {t : Task F A} (hr : returned m m' = some none) (hp : m'.pool.pending = m.pool.pending ++ [t])
      (ha : m'.accepted = m.accepted ++ [t]) (hd : m'.done = m.done) (hs : m'.pool.shutdown = m.pool.shutdown) :
      CallEffect m m' (.add t) .outside
  | full {t : Task F A} (hr : returned m m' = some (some .queueFull)) (hf : m.pool.count = m.pool.queueSize)
      (ht : SameTasks m m') (hs : m'.pool.shutdown = m.pool.shutdown) : CallEffect m m' (.add t) .outside
  | destroys {f : BitVec 32} (hr : returned m m' = some none) (ht : SameTasks m m')
      (hd : (f, none) ∈ m'.destroys) : CallEffect m m' (.destroy f) .outside

/-- **The calls before the shutdown**: a task is added unless the queue is full, and a pool is destroyed if nobody has
done so before. -/
theorem callStep_effect {self : Tid n} {x : Input n F A} {m m' : Mem n F A} {c c' : Call F A} {kind : Kind F A}
    (hx : x.Ok) (hring : RingOk m.pool) (hin : InCall m (some kind) c)
    (hopen : ∀ t, kind = .add t → m.pool.shutdown = none)
    (h : CallStep self x m c m' c') : CallEffect m m' kind c' := by
  cases kind with
  | add t =>
    have hshut := hopen t rfl
    rcases hin with rfl | rfl
    · cases h with
      | addNoLock _ hl => exact absurd hl (by simp [hx.lock])
      | addLock _ hl => exact .goes (returned_same rfl rfl) (Or.inr rfl) ⟨rfl, rfl, rfl⟩ (Or.inl rfl)
    · cases h with
      | addFull _ hc =>
        have hret : retOf x (some .queueFull) = some .queueFull := retOf_ok hx.unlock _
        refine .full ((returned_add rfl).trans (by rw [hret])) hc ⟨?_, accepted_refused (by rw [hret]), rfl⟩ (by simp)
        exact pending_congr (ring_unlock _ _)
      | addShut _ _ hs => exact absurd hshut hs
      | addPush _ ws hcount _ hw =>
        have hret : retOf x none = none := retOf_ok hx.unlock none
        refine .adds ((returned_add rfl).trans (by rw [hret])) ?_ (accepted_taken (by rw [hret])) rfl
          (by simp [Pool.push])
        have hpend : (({ m.pool.push t with notify := ws } : Pool n F A).unlock x).pending =
            (m.pool.push t).pending := pending_congr (ring_unlock _ _)
        exact hpend.trans (hring.push hcount t).2
      | addNoSignal _ _ _ hc => exact absurd hc (by simp [hx.cond])
  | destroy f =>
    rcases hin with ⟨rfl | rfl, hshut⟩ | ⟨i, rfl⟩ | rfl
    · cases h with
      | destroyNoLock _ hl => exact absurd hl (by simp [hx.lock])
      | destroyLock _ hl =>
        exact .goes (returned_same rfl rfl) (Or.inl ⟨Or.inr rfl, hshut⟩) ⟨rfl, rfl, rfl⟩ (Or.inl rfl)
    · cases h with
      | destroyAgain _ hs => exact absurd hshut hs
      | destroySet _ _ _ _ =>
        exact .goes (returned_same rfl rfl) (Or.inr (Or.inl ⟨0, rfl⟩)) ⟨rfl, rfl, rfl⟩ (Or.inr ⟨f, rfl⟩)
      | destroyNoUnlock _ _ hu => exact absurd hu (by simp [hx.unlock])
      | destroyNoCast _ _ hc => exact absurd hc (by simp [hx.cond])
    · cases h with
      | joinEnd _ _ _ _ => exact .goes (returned_same rfl rfl) (Or.inr (Or.inr rfl)) ⟨rfl, rfl, rfl⟩ (Or.inl rfl)
      | joinOne _ _ _ w _ _ =>
        exact .goes (returned_same rfl rfl) (Or.inr (Or.inl ⟨i + 1, rfl⟩)) ⟨rfl, rfl, rfl⟩ (Or.inl rfl)
      | joinFail _ _ _ hj => exact absurd hj (by simp [hx.join])
    · cases h with
      | freeRefused _ _ => exact .destroys (returned_destroy rfl rfl) ⟨rfl, rfl, rfl⟩ (by simp)
      | freeDone _ _ => exact .destroys (returned_destroy rfl rfl) ⟨rfl, rfl, rfl⟩ (by simp)

/-! ### The workers -/

/-- The task a worker runs. -/
def runs : Worker F A → Option (Task F A)
  | .run t _ => some t
  | _ => none

/-- **What a step of a worker does** whose task makes no call on its own pool: it takes a task, returns from one, or
neither. -/
inductive WorkerEffect (m m' : Mem n F A) : Worker F A → Worker F A → Prop
  | grabs {w : Worker F A} {t : Task F A} (hw : runs w = none) (hp : m.pool.pending = t :: m'.pool.pending)
      (ha : m'.accepted = m.accepted) (hd : m'.done = m.done) : WorkerEffect m m' w (.run t .outside)
  | finishes {t : Task F A} {w : Worker F A} (hw : runs w = none) (hp : m'.pool.pending = m.pool.pending)
      (ha : m'.accepted = m.accepted) (hd : m'.done = m.done ++ [t]) : WorkerEffect m m' (.run t .outside) w
  | idles {w w' : Worker F A} (hw : runs w = none) (hw' : runs w' = none) (ht : SameTasks m m') :
      WorkerEffect m m' w w'

theorem workerStep_effect {i : Fin n} {x : Input n F A} {m : Mem n F A} {w : Worker F A} {r : Mem n F A × Worker F A}
    (hring : RingOk m.pool) (hcall : x.call = none) (hbare : ∀ t c, w = .run t c → c = .outside)
    (h : workerStep i x m w = some r) : WorkerEffect m r.1 w r.2 ∧ r.1.pool.shutdown = m.pool.shutdown := by
  cases w with
  | run t c =>
    obtain rfl := hbare t c rfl
    simp only [workerStep, hcall, Call.isOutside, Option.isNone_none, and_self, if_true, Option.some.injEq] at h
    subst h
    exact ⟨.finishes rfl rfl rfl rfl, rfl⟩
  | test =>
    have hcases := workerStep_cases h
    generalize r.1 = m' at hcases ⊢
    generalize r.2 = w' at hcases ⊢
    cases hcases with
    | grab hc hs => exact ⟨.grabs rfl (hring.pop hc).2 rfl rfl, rfl⟩
    | _ => exact ⟨.idles rfl rfl ⟨rfl, rfl, rfl⟩, rfl⟩
  | _ =>
    have hcases := workerStep_cases h
    generalize r.1 = m' at hcases ⊢
    generalize r.2 = w' at hcases ⊢
    cases hcases <;> exact ⟨.idles rfl rfl ⟨rfl, rfl, rfl⟩, rfl⟩

end PoolStudy.Threadpool.Calls
