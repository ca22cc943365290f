import PoolStudy.Threadpool.Queue
import Mathlib.Algebra.Order.BigOperators.Group.Finset
import Mathlib.Data.Multiset.Basic

/-! # The ring-buffer pool: the contract of `threadpool_destroy`

What `threadpool_destroy` promises when it returns `0`: every worker has ended, `started` is `0` (so that
`threadpool_free` releases the pool), a graceful shutdown has run every accepted task to completion, and
an immediate one has dequeued nothing since the flag was set.

* `WorkInv`: `started` counts the workers that have not ended, the dequeued tasks are the completed ones
  and those running, and a worker has left only in a shutdown, a graceful one with the queue empty.
* `JoinOk`: what a call that is joining has seen so far.
* `CallFrame`: what calls leave alone; in particular, once `shutdown` is set they leave it and the queue
  alone. -/

namespace PoolStudy.Threadpool.Shutdown

open PoolStudy.Lib.Transition PoolStudy.Lib.Threads PoolStudy.Lib.Fifo
open PoolStudy.Threadpool.Model PoolStudy.Threadpool.Steps PoolStudy.Threadpool.Queue

variable {n : ℕ} {F A : Type}

/-! ### The frame of the calls -/

/-- **What a call leaves alone.** -/
structure CallFrame (m m' : Mem n F A) : Prop where
  exited : m'.exited = m.exited
  threads : m'.pool.threads = m.pool.threads
  started : m'.pool.started = m.pool.started
  dequeued : m'.dequeued = m.dequeued
  done : m'.done = m.done
  shutdown : m.pool.shutdown ≠ none →
    m'.pool.shutdown = m.pool.shutdown ∧ ring m'.pool = ring m.pool

theorem callStep_frame {self : Tid n} {x : Input n F A} {m m' : Mem n F A} {c c' : Call F A}
    (h : CallStep self x m c m' c') : CallFrame m m' := by
  cases h with
  | addFull t hc => exact ⟨rfl, by simp, by simp, rfl, rfl, fun _ => ⟨by simp, ring_unlock _ _⟩⟩
  | addShut t hc hs => exact ⟨rfl, by simp, by simp, rfl, rfl, fun _ => ⟨by simp, ring_unlock _ _⟩⟩
  | addPush t ws hc hs hw =>
    exact ⟨rfl, by simp [Pool.push], by simp [Pool.push], rfl, rfl, fun h => absurd hs h⟩
  | addNoSignal t hc hs hx =>
    exact ⟨rfl, by simp [Pool.push], by simp [Pool.push], rfl, rfl, fun h => absurd hs h⟩
  | destroySet f hs hx hu => exact ⟨rfl, rfl, rfl, rfl, rfl, fun h => absurd hs h⟩
  | destroyNoUnlock f hs hx => exact ⟨rfl, rfl, rfl, rfl, rfl, fun h => absurd hs h⟩
  | destroyNoCast f hs hx => exact ⟨rfl, rfl, rfl, rfl, rfl, fun h => absurd hs h⟩
  | _ => exact ⟨rfl, rfl, rfl, rfl, rfl, fun _ => ⟨rfl, rfl⟩⟩

/-! ### The workers -/

/-- A worker that has not ended counts as one. -/
def alive : Worker F A → ℤ
  | .exited => 0
  | _ => 1

/-- The task a worker runs. -/
def running : Worker F A → Multiset (Task F A)
  | .run t _ => {t}
  | _ => 0

/-- **The state of the workers.** -/
structure WorkInv (m : Mem n F A) (f : Fin n → Worker F A) : Prop where
  exited : ∀ i, i ∈ m.exited ↔ f i = .exited
  started : m.pool.started = ∑ i, alive (f i)
  ledger : (m.dequeued : Multiset (Task F A)) = m.done + ∑ i, running (f i)
  left : m.exited.Nonempty → m.pool.shutdown = some .immediateShutdown ∨
    (m.pool.shutdown = some .gracefulShutdown ∧ m.pool.count = 0)

section Ledger

variable {f : Fin n → Worker F A} {i : Fin n} {w' : Worker F A}

theorem started_move {s s' : ℤ} (h : s = ∑ j, alive (f j))
    (hm : s' + alive (f i) = s + alive w') : s' = ∑ j, alive (Function.update f i w' j) := by
  have hs := sum_update (fun _ => alive) f i w'
  omega

theorem exited_move {S : Finset (Fin n)} (h : ∀ j, j ∈ S ↔ f j = .exited) (hi : f i ≠ .exited)
    (hw : w' ≠ .exited) : ∀ j, j ∈ S ↔ Function.update f i w' j = .exited := by
  intro j
  by_cases hj : j = i
  · subst hj; simp [h, hi, hw]
  · simp [hj, h]

/-- A worker moves without ending, and the memory changes in what this invariant does not read. -/
theorem WorkInv.move {m m' : Mem n F A} (hi : WorkInv m f) (hf : f i ≠ .exited) (hw : w' ≠ .exited)
    (hs : m'.pool.started = m.pool.started) (he : m'.exited = m.exited)
    (hl : (m'.dequeued : Multiset (Task F A)) + m.done + running (f i) =
      m.dequeued + m'.done + running w')
    (hleft : m.exited.Nonempty → m'.pool.shutdown = m.pool.shutdown ∧ m'.pool.count = m.pool.count) :
    WorkInv m' (Function.update f i w') := by
  have ha : ∀ w : Worker F A, w ≠ .exited → alive w = 1 := by
    intro w h
    cases w with
    | exited => exact absurd rfl h
    | _ => rfl
  refine ⟨by rw [he]; exact exited_move hi.exited hf hw, ?_,
    ledger_move (fun _ => running) hi.ledger hl, fun hne => ?_⟩
  · exact started_move hi.started (by rw [hs, ha _ hf, ha _ hw])
  · rw [he] at hne
    obtain ⟨h1, h2⟩ := hleft hne
    rw [h1, h2]
    exact hi.left hne

/-- A worker that leaves ends. -/
theorem WorkInv.leave {m : Mem n F A} (hi : WorkInv m f) (hf : f i = .test)
    (hs : m.pool.shutdown = some .immediateShutdown ∨
      (m.pool.shutdown = some .gracefulShutdown ∧ m.pool.count = 0)) :
    WorkInv { m with
      pool := { m.pool with lock := none, started := m.pool.started - 1 }
      exited := insert i m.exited } (Function.update f i .exited) := by
  refine ⟨fun j => ?_, ?_, ledger_move (fun _ => running) hi.ledger (by simp [hf, running]),
    fun _ => hs⟩
  · by_cases hj : j = i
    · subst hj; simp
    · simp [hj, hi.exited]
  · exact started_move hi.started (by simp [hf, alive])

theorem CallFrame.left {m m' : Mem n F A} (h : CallFrame m m') (hi : WorkInv m f) :
    m.exited.Nonempty → m'.pool.shutdown = m.pool.shutdown ∧ m'.pool.count = m.pool.count := by
  intro hne
  have hs : m.pool.shutdown ≠ none := by rcases hi.left hne with h | ⟨h, -⟩ <;> simp [h]
  obtain ⟨h1, h2⟩ := h.shutdown hs
  simp only [ring, Prod.mk.injEq] at h2
  exact ⟨h1, h2.2.2.2.2⟩

theorem WorkInv.worker {x : Input n F A} {m m' : Mem n F A} (hi : WorkInv m f)
    (h : WorkerStep i x m (f i) m' w') : WorkInv m' (Function.update f i w') := by
  generalize hw : f i = w at h
  cases h with
  | lock hl =>
    exact hi.move (by simp [hw]) (by simp) rfl rfl (by simp [hw, running]) fun _ => ⟨rfl, rfl⟩
  | sleep hc hs =>
    exact hi.move (by simp [hw]) (by simp) rfl rfl (by simp [hw, running]) fun _ => ⟨rfl, rfl⟩
  | leave hs => exact hi.leave hw hs
  | grab hc hs =>
    refine hi.move (by simp [hw]) (by simp) rfl rfl ?_ fun hne => ?_
    · simp only [hw, running, ← Multiset.coe_add, Multiset.coe_singleton]
      abel
    -- nobody has left: not in an immediate shutdown, and not in a graceful one with tasks pending
    · rcases hi.left hne with h | ⟨-, h⟩
      · exact absurd h hs
      · exact absurd h hc
  | spurious hin =>
    exact hi.move (by simp [hw]) (by simp) rfl rfl (by simp [hw, running]) fun _ => ⟨rfl, rfl⟩
  | wake hin hl =>
    exact hi.move (by simp [hw]) (by simp) rfl rfl (by simp [hw, running]) fun _ => ⟨rfl, rfl⟩
  | finish t =>
    refine hi.move (by simp [hw]) (by simp) rfl rfl ?_ fun _ => ⟨rfl, rfl⟩
    simp only [hw, running, ← Multiset.coe_add, Multiset.coe_singleton]
    abel
  | call t hf hs =>
    have hfr := callStep_frame hs
    refine hi.move (by simp [hw]) (by simp) hfr.started hfr.exited ?_ (hfr.left hi)
    rw [hfr.dequeued, hfr.done, hw]
    rfl

theorem WorkInv.call {m m' : Mem n F A} (hi : WorkInv m f) (h : CallFrame m m') : WorkInv m' f := by
  refine ⟨by rw [h.exited]; exact hi.exited, by rw [h.started]; exact hi.started,
    by rw [h.dequeued, h.done]; exact hi.ledger, fun hne => ?_⟩
  rw [h.exited] at hne
  obtain ⟨h1, h2⟩ := h.left hi hne
  rw [h1, h2]
  exact hi.left hne

end Ledger

/-! ### Joining -/

/-- **What a joining call has seen**: the flag it set, and, unless a join failed, the end of the threads
it is past. -/
def JoinOk (m : Mem n F A) : Call F A → Prop
  | .join f i err => m.pool.shutdown = some (shutdownOf f) ∧
      (err = none → ∀ j < i, ∀ w, m.pool.threads[j]? = some w → w ∈ m.exited)
  | .free f err => m.pool.shutdown = some (shutdownOf f) ∧
      (err = none → ∀ w ∈ m.pool.threads, w ∈ m.exited)
  | _ => True

theorem JoinOk.mono {m m' : Mem n F A} {c : Call F A} (h : JoinOk m c)
    (hs : m.pool.shutdown ≠ none → m'.pool.shutdown = m.pool.shutdown)
    (ht : m'.pool.threads = m.pool.threads) (he : m.exited ⊆ m'.exited) : JoinOk m' c := by
  cases c with
  | join f i err =>
    obtain ⟨h1, h2⟩ := h
    refine ⟨by rw [hs (by simp [h1]), h1], fun herr j hj w hw => ?_⟩
    rw [ht] at hw
    exact he (h2 herr j hj w hw)
  | free f err =>
    obtain ⟨h1, h2⟩ := h
    refine ⟨by rw [hs (by simp [h1]), h1], fun herr w hw => ?_⟩
    rw [ht] at hw
    exact he (h2 herr w hw)
  | _ => trivial

/-- The joining call itself. -/
theorem callStep_join {self : Tid n} {x : Input n F A} {m m' : Mem n F A} {c c' : Call F A}
    (h : CallStep self x m c m' c') (hj : JoinOk m c) : JoinOk m' c' := by
  cases h with
  | enter hc => rcases hc with rfl | ⟨t, rfl⟩ | ⟨f, rfl⟩ <;> trivial
  | destroySet f hs hx hu => exact ⟨rfl, fun _ j hj => absurd hj (by omega)⟩
  | joinEnd f i err hi =>
    refine ⟨hj.1, fun herr w hw => ?_⟩
    obtain ⟨j, hlt, rfl⟩ := List.getElem_of_mem hw
    have hlen : m.pool.threads.length ≤ i := List.getElem?_eq_none_iff.mp hi
    exact hj.2 herr j (by omega) _ (List.getElem?_eq_getElem hlt)
  | joinOne f i err w hi hw =>
    refine ⟨hj.1, fun herr j hlt v hv => ?_⟩
    by_cases hji : j = i
    · subst hji
      rw [hi, Option.some.injEq] at hv
      exact hv ▸ hw
    · exact hj.2 herr j (by omega) v hv
  | joinFail f i err hx => exact ⟨hj.1, fun herr => by simp at herr⟩
  | _ => trivial

/-- **The state of the shutdown.** -/
structure ShutInv (c : State n F A) : Prop where
  work : WorkInv c.mem c.worker
  threads : c.mem.pool.threads = List.finRange n
  joinC : ∀ k, JoinOk c.mem (c.client k)
  joinW : ∀ i t l, c.worker i = .run t l → JoinOk c.mem l
  returned : ∀ f, (f, none) ∈ c.mem.destroys →
    c.mem.pool.shutdown = some (shutdownOf f) ∧ (∀ i, i ∈ c.mem.exited) ∧ c.mem.freed = true

/-- When all workers have ended, `started` is zero. -/
theorem WorkInv.started_eq_zero {m : Mem n F A} {f : Fin n → Worker F A} (hi : WorkInv m f)
    (h : ∀ i, i ∈ m.exited) : m.pool.started = 0 := by
  rw [hi.started]
  exact Finset.sum_eq_zero fun i _ => by rw [(hi.exited i).mp (h i)]; rfl

/-- The calls that have returned `0`, after a step of a call: the pool was released. -/
theorem callStep_returned {self : Tid n} {x : Input n F A} {m m' : Mem n F A} {c c' : Call F A}
    {g : Fin n → Worker F A} (h : CallStep self x m c m' c') (hf : m.freed = false)
    (hw : WorkInv m g) (ht : m.pool.threads = List.finRange n) (hj : JoinOk m c)
    (hr : ∀ f, (f, none) ∈ m.destroys →
      m.pool.shutdown = some (shutdownOf f) ∧ (∀ i, i ∈ m.exited) ∧ m.freed = true) :
    ∀ f, (f, none) ∈ m'.destroys →
      m'.pool.shutdown = some (shutdownOf f) ∧ (∀ i, i ∈ m'.exited) ∧ m'.freed = true := by
  -- no call has returned `0` yet, or the pool would be gone
  have hnone : ∀ f, (f, none) ∉ m.destroys := fun f hfm => by simp [hf] at hr; exact hr f hfm
  have hall : ∀ f, c = .free f none → ∀ i, i ∈ m.exited := by
    rintro f rfl i
    exact hj.2 rfl i (by rw [ht]; exact List.mem_finRange i)
  intro f hmem
  cases h with
  | freeRefused f' hs =>
    rw [hw.started_eq_zero (hall f' rfl)] at hs
    omega
  | freeDone f' hs =>
    simp only [List.mem_append, hnone, false_or, List.mem_singleton, Prod.mk.injEq, and_true] at hmem
    subst hmem
    exact ⟨hj.1, hall f rfl, rfl⟩
  | _ => simp [hnone] at hmem

theorem CallFrame.joinOk {m m' : Mem n F A} (h : CallFrame m m') {l : Call F A} (hl : JoinOk m l) :
    JoinOk m' l :=
  hl.mono (fun hs => (h.shutdown hs).1) h.threads (by rw [h.exited])

theorem ShutInv.client {c : State n F A} {k : ℕ} {x : Input n F A} {r : Mem n F A × Call F A}
    (hi : ShutInv c) (hf : c.mem.freed = false) (h : CallStep (.inr k) x c.mem (c.client k) r.1 r.2) :
    ShutInv (c.moveClient k r) := by
  have hfr := callStep_frame h
  refine ⟨hi.work.call hfr, by rw [← hi.threads]; exact hfr.threads, ?_,
    fun i t l hw => hfr.joinOk (hi.joinW i t l hw),
    callStep_returned h hf hi.work hi.threads (hi.joinC k) hi.returned⟩
  exact forall_moveClient (P := fun _ l => JoinOk r.1 l) (callStep_join h (hi.joinC k))
    fun j _ => hfr.joinOk (hi.joinC j)

/-- What the steps of a worker outside the calls leave alone. -/
structure WorkerFrame (m m' : Mem n F A) : Prop where
  shutdown : m'.pool.shutdown = m.pool.shutdown
  threads : m'.pool.threads = m.pool.threads
  exited : m.exited ⊆ m'.exited
  destroys : m'.destroys = m.destroys
  freed : m'.freed = m.freed

theorem ShutInv.worker {c : State n F A} {i : Fin n} {x : Input n F A} {r : Mem n F A × Worker F A}
    (hi : ShutInv c) (h : WorkerStep i x c.mem (c.worker i) r.1 r.2) :
    ShutInv (c.moveWorker i r) := by
  have hwork : WorkInv r.1 (Function.update c.worker i r.2) := hi.work.worker h
  obtain ⟨m', w'⟩ := r
  -- the joins of the other workers, and of this one if it is in a call
  have hjoin : (∀ l, JoinOk c.mem l → JoinOk m' l) → (∀ t l, w' = .run t l → JoinOk m' l) →
      ∀ j t l, (c.moveWorker i (m', w')).worker j = .run t l → JoinOk m' l := by
    intro hmono hself
    exact forall_moveWorker (P := fun _ (w : Worker F A) => ∀ t l, w = .run t l → JoinOk m' l) hself
      fun j _ t l hw => hmono l (hi.joinW j t l hw)
  have hplain : WorkerFrame c.mem m' → (∀ t l, w' = .run t l → l = .outside) →
      ShutInv (c.moveWorker i (m', w')) := by
    intro hfr hout
    have hmono : ∀ l, JoinOk c.mem l → JoinOk m' l := fun l hl =>
      hl.mono (fun _ => hfr.shutdown) hfr.threads hfr.exited
    refine ⟨hwork, by rw [← hi.threads]; exact hfr.threads, fun k => hmono _ (hi.joinC k),
      hjoin hmono (fun t l hw => by rw [hout t l hw]; trivial), fun f hf => ?_⟩
    rw [show (c.moveWorker i (m', w')).mem = m' from rfl, hfr.destroys] at hf
    obtain ⟨h1, h2, h3⟩ := hi.returned f hf
    exact ⟨by rw [← h1]; exact hfr.shutdown, fun j => hfr.exited (h2 j),
      by rw [← h3]; exact hfr.freed⟩
  generalize hw : c.worker i = w at h
  cases h with
  | call t hf hs =>
    have hfr := callStep_frame hs
    refine ⟨hwork, by rw [← hi.threads]; exact hfr.threads, fun k => hfr.joinOk (hi.joinC k),
      hjoin (fun l hl => hfr.joinOk hl) (fun t' l hl => ?_),
      callStep_returned hs hf hi.work hi.threads (hi.joinW i t _ hw) hi.returned⟩
    obtain ⟨-, rfl⟩ := Worker.run.inj hl
    exact callStep_join hs (hi.joinW i t _ hw)
  | leave hs =>
    exact hplain ⟨rfl, rfl, Finset.subset_insert i _, rfl, rfl⟩ (fun t l hl => by cases hl)
  | grab hc hs =>
    exact hplain ⟨rfl, rfl, Finset.Subset.refl _, rfl, rfl⟩ (fun t l hl => by cases hl; rfl)
  | _ => exact hplain ⟨rfl, rfl, Finset.Subset.refl _, rfl, rfl⟩ (fun t l hl => by cases hl)

theorem shutInv_reach {ok : State n F A → Tid n × Input n F A → Prop} {c : State n F A}
    (h : Reach (threadpool n F A).lts ok c) : ShutInv c := by
  refine Program.invariant ?_ ?_ ?_ h
  · rintro _ ⟨size, queue, -, rfl⟩
    refine ⟨⟨by simp [created], by simp [created, alive], by simp [created, running],
      by simp [created]⟩, rfl, fun k => trivial, fun i t l hw => by simp at hw,
      by simp [created]⟩
  · intro c i x r _ hi _ hs
    exact hi.worker (workerStep_cases hs)
  · intro c k x r _ hi _ hs
    obtain ⟨hf, hs⟩ := callStep_cases hs
    exact hi.client hf hs

/-! ### After the flag is set -/

/-- A step in an immediate shutdown dequeues nothing. -/
theorem next_immediate {c c' : State n F A} {a : Tid n × Input n F A}
    (h : (threadpool n F A).lts.next c a = some c')
    (hs : c.mem.pool.shutdown = some .immediateShutdown) :
    c'.mem.pool.shutdown = some .immediateShutdown ∧ c'.mem.dequeued = c.mem.dequeued := by
  have hne : c.mem.pool.shutdown ≠ none := by simp [hs]
  rcases Program.next_cases h with ⟨i, x, r, rfl, hr, rfl⟩ | ⟨k, x, r, rfl, hr, rfl⟩
  · have hw := workerStep_cases hr
    obtain ⟨m', w'⟩ := r
    generalize c.worker i = w at hw
    show m'.pool.shutdown = _ ∧ m'.dequeued = _
    cases hw with
    | grab hc hs' => exact absurd hs hs'
    | call t hf hc =>
      have hfr := callStep_frame hc
      exact ⟨by rw [(hfr.shutdown hne).1, hs], hfr.dequeued⟩
    | _ => exact ⟨hs, rfl⟩
  · have hfr := callStep_frame (callStep_cases hr).2
    exact ⟨(hfr.shutdown hne).1.trans hs, hfr.dequeued⟩

/-- **Nothing is dequeued after an immediate shutdown was set.** -/
theorem runs_immediate {ok : State n F A → Tid n × Input n F A → Prop} {c c' : State n F A}
    (h : Runs (threadpool n F A).lts ok c c')
    (hs : c.mem.pool.shutdown = some .immediateShutdown) : c'.mem.dequeued = c.mem.dequeued := by
  have hkeep := Runs.keeps (P := fun s : State n F A =>
    s.mem.pool.shutdown = some .immediateShutdown ∧ s.mem.dequeued = c.mem.dequeued) ?_ h ⟨hs, rfl⟩
  · exact hkeep.2
  · rintro s a s' ⟨h1, h2⟩ - hn
    obtain ⟨h3, h4⟩ := next_immediate hn h1
    exact ⟨h3, h4.trans h2⟩

/-- A call of `threadpool_add` that holds the mutex after the flag was set is refused and leaves the
queue alone. -/
def AddRefused (m m' : Mem n F A) : Prop :=
  m'.adds = m.adds ∨ ∃ t e, m'.adds = m.adds ++ [(t, some e)] ∧ ring m'.pool = ring m.pool

theorem callStep_refused {self : Tid n} {x : Input n F A} {m m' : Mem n F A} {c c' : Call F A}
    (h : CallStep self x m c m' c') (hs : m.pool.shutdown ≠ none) : AddRefused m m' := by
  have hret : ∀ e, ∃ e', retOf x (some e) = some e' := fun e => by
    unfold retOf; split_ifs <;> exact ⟨_, rfl⟩
  cases h with
  | addNoLock t hl => exact Or.inr ⟨t, _, rfl, rfl⟩
  | addFull t hc =>
    obtain ⟨e', he⟩ := hret .queueFull
    exact Or.inr ⟨t, e', by rw [← he], ring_unlock _ _⟩
  | addShut t hc _ =>
    obtain ⟨e', he⟩ := hret .shutdown
    exact Or.inr ⟨t, e', by rw [← he], ring_unlock _ _⟩
  | addPush t ws hc hn hw => exact absurd hn hs
  | addNoSignal t hc hn hx => exact absurd hn hs
  | _ => exact Or.inl rfl

theorem next_refused {c c' : State n F A} {a : Tid n × Input n F A}
    (h : (threadpool n F A).lts.next c a = some c') (hs : c.mem.pool.shutdown ≠ none) :
    AddRefused c.mem c'.mem := by
  rcases Program.next_cases h with ⟨i, x, r, rfl, hr, rfl⟩ | ⟨k, x, r, rfl, hr, rfl⟩
  · have hw := workerStep_cases hr
    obtain ⟨m', w'⟩ := r
    generalize c.worker i = w at hw
    show AddRefused c.mem m'
    cases hw with
    | call t hf hc => exact callStep_refused hc hs
    | _ => exact Or.inl rfl
  · exact callStep_refused (callStep_cases hr).2 hs

/-! ### The contract -/

/-- When all workers have ended, the tasks dequeued are the tasks completed. -/
theorem WorkInv.dequeued_perm {m : Mem n F A} {f : Fin n → Worker F A} (hi : WorkInv m f)
    (h : ∀ i, i ∈ m.exited) : m.done.Perm m.dequeued := by
  have hz : ∑ i, running (f i) = 0 :=
    Finset.sum_eq_zero fun i _ => by rw [(hi.exited i).mp (h i)]; rfl
  have hl := hi.ledger
  rw [hz, add_zero] at hl
  exact (Multiset.coe_eq_coe.mp hl).symm

/-- **The contract of `threadpool_destroy`** for a pool with a worker. A graceful call that returned `0`
has run every accepted task to completion, exactly once. After an immediate shutdown was set nothing is
dequeued, and the tasks executed are a prefix of the accepted ones. After either, `threadpool_add` is
refused and leaves the queue alone. A call that returned `0` leaves no worker, `started = 0`, and has
released the pool. -/
theorem threadpool_destroy_contract (hn : 0 < n) {c : State n F A}
    (h : Reach (threadpool n F A).lts pthreadOk c) :
    (∀ f, (f, none) ∈ c.mem.destroys → f &&& threadpoolGraceful ≠ 0#32 →
      c.mem.done.Perm c.mem.accepted) ∧
    (c.mem.pool.shutdown = some .immediateShutdown →
      ∀ c', Runs (threadpool n F A).lts pthreadOk c c' → c'.mem.dequeued = c.mem.dequeued) ∧
    c.mem.dequeued <+: c.mem.accepted ∧
    (∀ f, (f, none) ∈ c.mem.destroys → c.mem.done.Perm c.mem.dequeued) ∧
    (c.mem.pool.shutdown ≠ none → ∀ a c', pthreadOk c a →
      (threadpool n F A).lts.next c a = some c' →
        c'.mem.adds = c.mem.adds ∨ ∃ t e, c'.mem.adds = c.mem.adds ++ [(t, some e)] ∧
          ring c'.mem.pool = ring c.mem.pool) ∧
    (∀ f, (f, none) ∈ c.mem.destroys → c.mem.pool.shutdown = some (shutdownOf f) ∧
      (∀ i, c.worker i = .exited) ∧ c.mem.pool.started = 0 ∧ c.mem.freed = true) := by
  have hi := shutInv_reach h
  obtain ⟨hok, hr⟩ := refines_fifo (h.mono announces_of_ok)
  obtain ⟨hist, -⟩ := fifo_history hr
  refine ⟨fun f hf hg => ?_, fun hs c' hrun => runs_immediate hrun hs,
    ⟨c.mem.pool.pending, hist.symm⟩, fun f hf => hi.work.dequeued_perm (hi.returned f hf).2.1,
    fun hs a c' _ hs' => next_refused hs' hs, fun f hf => ?_⟩
  · obtain ⟨hsd, hall, -⟩ := hi.returned f hf
    have hgr : shutdownOf f = .gracefulShutdown := if_pos hg
    -- some worker has left, so the queue was empty
    have hcount : c.mem.pool.count = 0 := by
      rcases hi.work.left ⟨⟨0, hn⟩, hall _⟩ with h' | ⟨-, h'⟩
      · rw [hsd, hgr] at h'; simp at h'
      · exact h'
    have hpend : c.mem.pool.pending = [] := by
      have := hok.length_pending
      rw [hcount] at this
      exact List.length_eq_zero_iff.mp (by omega)
    have hacc : c.mem.accepted = c.mem.dequeued := by
      have : c.mem.accepted = c.mem.dequeued ++ c.mem.pool.pending := hist
      rwa [hpend, List.append_nil] at this
    rw [hacc]
    exact hi.work.dequeued_perm hall
  · obtain ⟨hsd, hall, hfr⟩ := hi.returned f hf
    exact ⟨hsd, fun i => (hi.work.exited i).mp (hall i), hi.work.started_eq_zero hall, hfr⟩

/-- One worker: a client adds a task and destroys the pool gracefully; the worker runs the task and
leaves. -/
def gracefulRun : List (Tid 1 × Input 1 ℕ ℕ) :=
  [(.inr 0, { call := some (.add (some 7) 0) }), (.inr 0, {}), (.inr 0, {}),
   (.inr 0, { call := some (.destroy 1#32) }), (.inr 0, {}), (.inr 0, {}),
   (.inl (Fin.last 0), {}), (.inl (Fin.last 0), {}), (.inl (Fin.last 0), {}),
   (.inl (Fin.last 0), {}), (.inl (Fin.last 0), {}),
   (.inr 0, {}), (.inr 0, {}), (.inr 0, {})]

theorem threadpool_destroy_contract_gracefulRun : ∃ c : State 1 ℕ ℕ,
    Reach (threadpool 1 ℕ ℕ).lts pthreadOk c ∧ c.mem.accepted = [⟨7, 0⟩] ∧
      c.mem.destroys = [(1#32, none)] ∧ c.mem.done.Perm c.mem.accepted := by
  obtain ⟨c, hc, hp⟩ := reach_of_run (threadpool 1 ℕ ℕ).lts pthreadOk_of_okTest gracefulRun
    (fun c => decide (c.mem.accepted = [⟨7, 0⟩]) && decide (c.mem.destroys = [(1#32, none)]))
    ⟨1, fun _ => ⟨0, 0⟩, by decide, rfl⟩ (by decide)
  simp only [Bool.and_eq_true, decide_eq_true_eq] at hp
  refine ⟨c, hc, hp.1, hp.2, (threadpool_destroy_contract (by decide) hc).1 1#32 ?_ (by decide)⟩
  rw [hp.2]
  exact List.mem_singleton.mpr rfl

end PoolStudy.Threadpool.Shutdown
