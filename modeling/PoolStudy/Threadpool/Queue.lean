import PoolStudy.Lib.Fifo
import PoolStudy.Threadpool.Steps

/-! # The ring-buffer pool refines a bounded queue

`head`, `tail` and `count` are moved by different threads with wrap-around tests of their own. The
invariant `RingOk` ties them together: `tail` is `count` slots behind `head`. Every step leaves the
ring alone, writes one task behind the last, or takes the first (`QueueStep`), and the last two are the
steps of the abstract queue of capacity `queue_size` whose items are the `pending` tasks
(`queueStep_simulates`). So the pool is that queue (`refines_fifo`), and what holds of the queue holds
of the pool. -/

namespace PoolStudy.Threadpool.Queue

open PoolStudy.Lib.Transition PoolStudy.Lib.Threads PoolStudy.Lib.Ring PoolStudy.Lib.Fifo
open PoolStudy.Threadpool.Model PoolStudy.Threadpool.Steps

variable {n : ℕ} {F A : Type}

/-! ### The ring -/

/-- The fields of the ring. -/
def ring (p : Pool n F A) : (ℤ → Task F A) × ℤ × ℤ × ℤ × ℤ :=
  (p.queue, p.queueSize, p.head, p.tail, p.count)

/-- **The ring invariant**: `tail` is `count` slots behind `head`. -/
structure RingOk (p : Pool n F A) : Prop where
  nonneg : 0 ≤ p.count
  le : p.count ≤ p.queueSize
  head : 0 < p.queueSize → 0 ≤ p.head ∧ p.head < p.queueSize
  tail : 0 < p.queueSize → p.tail = (p.head + p.count) % p.queueSize

theorem RingOk.congr {p q : Pool n F A} (h : ring q = ring p) (hp : RingOk p) : RingOk q := by
  simp only [ring, Prod.mk.injEq] at h
  obtain ⟨-, h1, h2, h3, h4⟩ := h
  obtain ⟨a, b, c, d⟩ := hp
  exact ⟨by rwa [h4], by rwa [h4, h1], by rwa [h1, h2], by rwa [h1, h2, h3, h4]⟩

theorem pending_congr {p q : Pool n F A} (h : ring q = ring p) : q.pending = p.pending := by
  simp only [ring, Prod.mk.injEq] at h
  obtain ⟨h0, h1, h2, -, h4⟩ := h
  unfold Pool.pending
  rw [h0, h1, h2, h4]

theorem ring_unlock (p : Pool n F A) (x : Input n F A) : ring (p.unlock x) = ring p := by
  unfold Pool.unlock; split_ifs <;> rfl

theorem RingOk.length_pending {p : Pool n F A} (hp : RingOk p) : (p.pending.length : ℤ) = p.count := by
  have := hp.nonneg
  simp only [Pool.pending, length_slots]
  omega

/-- A task written at the tail is the last one pending. -/
theorem RingOk.push {p : Pool n F A} (hp : RingOk p) (hc : p.count ≠ p.queueSize) (t : Task F A) :
    RingOk (p.push t) ∧ (p.push t).pending = p.pending ++ [t] := by
  have h0 := hp.nonneg
  have hle := hp.le
  have hpos : 0 < p.queueSize := by omega
  obtain ⟨hh0, hh⟩ := hp.head hpos
  have ht := hp.tail hpos
  have ht0 : 0 ≤ p.tail := by rw [ht]; exact Int.emod_nonneg _ (by omega)
  have htlt : p.tail < p.queueSize := by rw [ht]; exact Int.emod_lt_of_pos _ hpos
  refine ⟨⟨by simp only [Pool.push]; omega, by simp only [Pool.push]; omega, hp.head, fun _ => ?_⟩, ?_⟩
  · show wrap p.queueSize p.tail = (p.head + (p.count + 1)) % p.queueSize
    rw [wrap_eq ht0 htlt, ht, Int.emod_add_emod]
    congr 1; ring
  · have hk : p.count = (p.count.toNat : ℤ) := by omega
    show slots (Function.update p.queue p.tail t) p.queueSize p.head (p.count + 1).toNat = _
    rw [ht, show (p.count + 1).toNat = p.count.toNat + 1 by omega]
    conv_lhs => rw [hk]
    exact slots_write (by omega) t

/-- The task at the head is the first one pending. -/
theorem RingOk.pop {p : Pool n F A} (hp : RingOk p) (hc : p.count ≠ 0) :
    RingOk p.pop ∧ p.pending = p.queue p.head :: p.pop.pending := by
  have h0 := hp.nonneg
  have hle := hp.le
  have hpos : 0 < p.queueSize := by omega
  obtain ⟨hh0, hh⟩ := hp.head hpos
  have hw := wrap_eq hh0 hh
  refine ⟨⟨by simp only [Pool.pop]; omega, by simp only [Pool.pop]; omega, fun _ => ?_, fun _ => ?_⟩, ?_⟩
  · show 0 ≤ wrap p.queueSize p.head ∧ wrap p.queueSize p.head < p.queueSize
    rw [hw]
    exact ⟨Int.emod_nonneg _ (by omega), Int.emod_lt_of_pos _ hpos⟩
  · show p.tail = (wrap p.queueSize p.head + (p.count - 1)) % p.queueSize
    rw [hw, hp.tail hpos, Int.emod_add_emod]
    congr 1; ring
  · show slots p.queue p.queueSize p.head p.count.toNat = _ ::
      slots p.queue p.queueSize (wrap p.queueSize p.head) (p.count - 1).toNat
    rw [show p.count.toNat = (p.count - 1).toNat + 1 by omega, slots_succ, hw,
      Int.emod_eq_of_lt hh0 hh]

/-! ### What a step does to the ring -/

/-- **The effect of a step on the queue**: none, a task accepted at the tail, or the task at the head
handed out. -/
inductive QueueStep (m m' : Mem n F A) : Prop
  | same (hr : ring m'.pool = ring m.pool) (ha : m'.accepted = m.accepted)
      (hd : m'.dequeued = m.dequeued)
  | push (t : Task F A) (hc : m.pool.count ≠ m.pool.queueSize)
      (hr : ring m'.pool = ring (m.pool.push t)) (ha : m'.accepted = m.accepted ++ [t])
      (hd : m'.dequeued = m.dequeued)
  | pop (hc : m.pool.count ≠ 0) (hr : ring m'.pool = ring m.pool.pop)
      (ha : m'.accepted = m.accepted) (hd : m'.dequeued = m.dequeued ++ [m.pool.queue m.pool.head])

theorem accepted_refused {m m' : Mem n F A} {t : Task F A} {e : ThreadpoolError}
    (h : m'.adds = m.adds ++ [(t, some e)]) : m'.accepted = m.accepted := by
  simp [Mem.accepted, h]

theorem accepted_taken {m m' : Mem n F A} {t : Task F A} (h : m'.adds = m.adds ++ [(t, none)]) :
    m'.accepted = m.accepted ++ [t] := by
  simp [Mem.accepted, h]

theorem accepted_retOf (m : Mem n F A) (p : Pool n F A) (x : Input n F A) (t : Task F A) (e : ThreadpoolError) :
    ({ m with pool := p, adds := m.adds ++ [(t, retOf x (some e))] } : Mem n F A).accepted = m.accepted := by
  cases hx : x.unlockOk with
  | true => exact accepted_refused (t := t) (e := e) (by simp [retOf, hx])
  | false => exact accepted_refused (t := t) (e := .lockFailure) (by simp [retOf, hx])

theorem retOf_ok {x : Input n F A} (hx : x.unlockOk = true) (err : Ret) : retOf x err = err := by
  simp [retOf, hx]

/-- The thread is in `threadpool_add` and holds the mutex. -/
def Call.inAdd : Call F A → Bool
  | .addIn _ => true
  | _ => false

/-- The worker is there for its task. -/
def Worker.inAdd : Worker F A → Bool
  | .run _ c => Call.inAdd c
  | _ => false

/-- **A task that is written to the queue is announced**: a call of `threadpool_add` that finds room and no
shutdown has its signal and its unlock succeed. -/
def announced (p : Pool n F A) (x : Input n F A) : Bool :=
  decide (p.count = p.queueSize) || p.shutdown.isSome || (x.condOk && x.unlockOk)

/-- The step is not the end of such a call, or the task is announced. -/
def announces (c : State n F A) (a : Tid n × Input n F A) : Bool :=
  !c.view Worker.inAdd Call.inAdd a.1 || announced c.mem.pool a.2

/-- The steps that announce what they queue. -/
def Announces (c : State n F A) (a : Tid n × Input n F A) : Prop := announces c a = true

theorem announces_of_test (c : State n F A) (a : Tid n × Input n F A) (h : announces c a = true) :
    Announces c a := h

theorem announced_of_ok {p : Pool n F A} {x : Input n F A} (hx : x.Ok) : announced p x = true := by
  simp [announced, hx.cond, hx.unlock]

theorem announces_of_ok (c : State n F A) (a : Tid n × Input n F A) (h : pthreadOk c a) : Announces c a := by
  simp [Announces, announces, announced_of_ok h]

theorem announces_iff {c : State n F A} {a : Tid n × Input n F A} :
    Announces c a ↔ (c.view Worker.inAdd Call.inAdd a.1 = true → announced c.mem.pool a.2 = true) := by
  rw [Announces, announces, Bool.or_eq_true, Bool.not_eq_true', ← Bool.not_eq_true, imp_iff_not_or]

/-- The results of an announced call that writes its task. -/
theorem announced_push {p : Pool n F A} {x : Input n F A} (hc : p.count ≠ p.queueSize)
    (hs : p.shutdown = none) : announced p x = true ↔ x.condOk = true ∧ x.unlockOk = true := by
  simp [announced, hc, hs]

theorem callStep_queue {self : Tid n} {x : Input n F A} {m m' : Mem n F A} {c c' : Call F A}
    (hx : Call.inAdd c = true → announced m.pool x = true) (h : CallStep self x m c m' c') : QueueStep m m' := by
  cases h with
  | addNoLock t hl => exact .same rfl (accepted_refused rfl) rfl
  | addFull t hc => exact .same (ring_unlock _ _) (accepted_retOf m _ x t .queueFull) rfl
  | addShut t hc hs => exact .same (ring_unlock _ _) (accepted_retOf m _ x t .shutdown) rfl
  | addPush t ws hc hs hw =>
    have hu := ((announced_push hc hs).mp (hx rfl)).2
    refine .push t hc ?_ (accepted_taken (t := t) ?_) rfl
    · rw [ring_unlock]; rfl
    · simp [retOf_ok hu]
  | addNoSignal t hc hs hl =>
    have hcond := ((announced_push hc hs).mp (hx rfl)).1
    rw [hl] at hcond
    cases hcond
  | _ => exact .same rfl rfl rfl

theorem workerStep_queue {i : Fin n} {x : Input n F A} {m m' : Mem n F A} {w w' : Worker F A}
    (hx : Worker.inAdd w = true → announced m.pool x = true) (h : WorkerStep i x m w m' w') : QueueStep m m' := by
  cases h with
  | grab hc hs => exact .pop hc rfl rfl rfl
  | call t hf hs => exact callStep_queue hx hs
  | _ => exact .same rfl rfl rfl

/-! ### The refinement -/

/-- The abstract queue of a memory. -/
def absQueue (m : Mem n F A) : PoolStudy.Lib.Fifo.Queue (Task F A) :=
  ⟨m.accepted, m.dequeued, m.pool.pending⟩

/-- **One step of the pool is one step of the queue, or none.** -/
theorem queueStep_simulates {m m' : Mem n F A} (h : QueueStep m m') (hm : RingOk m.pool) :
    RingOk m'.pool ∧ m'.pool.queueSize = m.pool.queueSize ∧
      Runs (fifo (Task F A) m.pool.queueSize.toNat) anyStep (absQueue m) (absQueue m') := by
  have hsize : ∀ {p q : Pool n F A}, ring q = ring p → q.queueSize = p.queueSize := fun h => by
    simp only [ring, Prod.mk.injEq] at h; exact h.2.1
  cases h with
  | same hr ha hd =>
    refine ⟨hm.congr hr, hsize hr, ?_⟩
    rw [show absQueue m' = absQueue m by simp only [absQueue, ha, hd, pending_congr hr]]
  | push t hc hr ha hd =>
    obtain ⟨hok, hpend⟩ := hm.push hc t
    refine ⟨hok.congr hr, (hsize hr).trans rfl, ?_⟩
    have hlt : (m.pool.pending.length : ℕ∞) < m.pool.queueSize.toNat := by
      have h1 := hm.length_pending
      have h2 := hm.le
      exact_mod_cast (by omega : m.pool.pending.length < m.pool.queueSize.toNat)
    have := fifo_push (q := absQueue m) (x := t) hlt
    simpa only [absQueue, ha, hd, pending_congr hr, hpend] using this
  | pop hc hr ha hd =>
    obtain ⟨hok, hpend⟩ := hm.pop hc
    refine ⟨hok.congr hr, (hsize hr).trans rfl, ?_⟩
    simp only [absQueue, ha, hd, pending_congr hr, hpend]
    exact fifo_pop

theorem ringOk_created {size : ℤ} (hs : 0 ≤ size) (queue : ℤ → Task F A) :
    RingOk (created n size queue).pool :=
  ⟨le_rfl, hs, fun h => ⟨le_rfl, h⟩, fun _ => by simp [created]⟩

/-- **The pool refines the bounded queue**, as long as what is queued is announced. -/
theorem refines_fifo {c : State n F A} (h : Reach (threadpool n F A).lts Announces c) :
    RingOk c.mem.pool ∧
      Reach (fifo (Task F A) c.mem.pool.queueSize.toNat) anyStep (absQueue c.mem) := by
  have hstep : ∀ {m m' : Mem n F A}, QueueStep m m' → RingOk m.pool →
      Reach (fifo (Task F A) m.pool.queueSize.toNat) anyStep (absQueue m) →
      RingOk m'.pool ∧
        Reach (fifo (Task F A) m'.pool.queueSize.toNat) anyStep (absQueue m') := by
    intro m m' hq hm hr
    obtain ⟨hok, hs, hrun⟩ := queueStep_simulates hq hm
    exact ⟨hok, by rw [hs]; exact hr.trans hrun⟩
  refine Program.invariant (I := fun c => RingOk c.mem.pool ∧
    Reach (fifo (Task F A) c.mem.pool.queueSize.toNat) anyStep (absQueue c.mem)) ?_ ?_ ?_ h
  · rintro _ ⟨size, queue, hs, rfl⟩
    exact ⟨ringOk_created hs queue, .init rfl⟩
  · intro c i x r _ ⟨hm, hr⟩ hx hs
    exact hstep (workerStep_queue (announces_iff.mp hx) (workerStep_cases hs)) hm hr
  · intro c k x r _ ⟨hm, hr⟩ hx hs
    exact hstep (callStep_queue (announces_iff.mp hx) (callStep_cases hs).2) hm hr

/-! ### What `threadpool_add` reports -/

/-- A step logs at most one call of `threadpool_add`, and the call reports a full queue exactly when
`count` is `queue_size`. -/
def AddReports (m m' : Mem n F A) : Prop :=
  m'.adds = m.adds ∨ ∃ t ret, m'.adds = m.adds ++ [(t, ret)] ∧
    (ret = some .queueFull ↔ m.pool.count = m.pool.queueSize)

theorem callStep_reports {self : Tid n} {x : Input n F A} {m m' : Mem n F A} {c c' : Call F A}
    (hx : x.Ok) (h : CallStep self x m c m' c') : AddReports m m' := by
  cases h with
  | addNoLock t hl => exact absurd hl (by simp [hx.lock])
  | addFull t hc => exact Or.inr ⟨t, _, rfl, by simp [retOf_ok hx.unlock, hc]⟩
  | addShut t hc hs => exact Or.inr ⟨t, _, rfl, by simp [retOf_ok hx.unlock, hc]⟩
  | addPush t ws hc hs hw => exact Or.inr ⟨t, _, rfl, by simp [retOf_ok hx.unlock, hc]⟩
  | addNoSignal t hc hs hl => exact absurd hl (by simp [hx.cond])
  | _ => exact Or.inl rfl

theorem workerStep_reports {i : Fin n} {x : Input n F A} {m m' : Mem n F A} {w w' : Worker F A}
    (hx : x.Ok) (h : WorkerStep i x m w m' w') : AddReports m m' := by
  cases h with
  | call t hf hs => exact callStep_reports hx hs
  | _ => exact Or.inl rfl

theorem next_reports {c c' : State n F A} {a : Tid n × Input n F A} (ha : pthreadOk c a)
    (h : (threadpool n F A).lts.next c a = some c') : AddReports c.mem c'.mem := by
  rcases Program.next_cases h with ⟨i, x, r, rfl, hs, rfl⟩ | ⟨k, x, r, rfl, hs, rfl⟩
  · exact workerStep_reports ha (workerStep_cases hs)
  · exact callStep_reports ha (callStep_cases hs).2

/-- **The pool is a bounded first-in-first-out queue.** In every reachable state the indices are those
of a ring, the tasks dequeued followed by the tasks pending are the tasks accepted, and the next call of
`threadpool_add` to end reports a full queue exactly when `queue_size` tasks are pending. -/
theorem threadpool_fifo {c : State n F A} (h : Reach (threadpool n F A).lts pthreadOk c) :
    (0 ≤ c.mem.pool.count ∧ c.mem.pool.count ≤ c.mem.pool.queueSize) ∧
    (0 < c.mem.pool.queueSize →
      (0 ≤ c.mem.pool.head ∧ c.mem.pool.head < c.mem.pool.queueSize) ∧
      (0 ≤ c.mem.pool.tail ∧ c.mem.pool.tail < c.mem.pool.queueSize) ∧
      c.mem.pool.tail = (c.mem.pool.head + c.mem.pool.count) % c.mem.pool.queueSize) ∧
    c.mem.dequeued ++ c.mem.pool.pending = c.mem.accepted ∧
    (c.mem.pool.pending.length : ℤ) = c.mem.pool.count ∧
    Reach (fifo (Task F A) c.mem.pool.queueSize.toNat) anyStep (absQueue c.mem) ∧
    ∀ a c', pthreadOk c a → (threadpool n F A).lts.next c a = some c' →
      c'.mem.adds = c.mem.adds ∨ ∃ t ret, c'.mem.adds = c.mem.adds ++ [(t, ret)] ∧
        (ret = some .queueFull ↔ (c.mem.pool.pending.length : ℤ) = c.mem.pool.queueSize) := by
  obtain ⟨hok, hr⟩ := refines_fifo (h.mono announces_of_ok)
  obtain ⟨hist, -⟩ := fifo_history hr
  refine ⟨⟨hok.nonneg, hok.le⟩, fun hpos => ⟨hok.head hpos, ?_, hok.tail hpos⟩, hist.symm,
    hok.length_pending, hr, fun a c' ha hs => ?_⟩
  · rw [hok.tail hpos]
    exact ⟨Int.emod_nonneg _ (by omega), Int.emod_lt_of_pos _ hpos⟩
  · rw [hok.length_pending]
    exact next_reports ha hs

/-- One worker, room for one task: a client adds a task and a second one, which is refused; the worker
takes the first. -/
def refusedRun : List (Tid 1 × Input 1 ℕ ℕ) :=
  [(.inr 0, { call := some (.add (some 7) 0) }), (.inr 0, {}), (.inr 0, {}),
   (.inr 0, { call := some (.add (some 8) 1) }), (.inr 0, {}), (.inr 0, {}),
   (.inl 0, {}), (.inl 0, {})]

theorem threadpool_fifo_refusedRun : ∃ c : State 1 ℕ ℕ,
    Reach (threadpool 1 ℕ ℕ).lts pthreadOk c ∧
      c.mem.adds = [(⟨7, 0⟩, none), (⟨8, 1⟩, some .queueFull)] ∧ c.mem.dequeued = [⟨7, 0⟩] ∧
      c.mem.dequeued ++ c.mem.pool.pending = c.mem.accepted := by
  obtain ⟨c, hc, hp⟩ := reach_of_run (threadpool 1 ℕ ℕ).lts pthreadOk_of_okTest refusedRun
    (fun c => decide (c.mem.adds = [(⟨7, 0⟩, none), (⟨8, 1⟩, some .queueFull)]) &&
      decide (c.mem.dequeued = [⟨7, 0⟩]))
    ⟨1, fun _ => ⟨0, 0⟩, by decide, rfl⟩ (by decide)
  simp only [Bool.and_eq_true, decide_eq_true_eq] at hp
  exact ⟨c, hc, hp.1, hp.2, (threadpool_fifo hc).2.2.1⟩

end PoolStudy.Threadpool.Queue
