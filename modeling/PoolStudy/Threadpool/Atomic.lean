import PoolStudy.Threadpool.Shutdown

/-! # The ring-buffer pool: what `threadpool_add` reports

`threadpool_add` writes the task before it signals and unlocks, and reports a failure of either: the task
is then on the queue although the call has returned an error. Apart from that a call is atomic: with `0`
it has appended exactly its task, with an error it has changed nothing (`AddAtomic`). So a run in which
every task that is written is announced (`Announces`) executes only tasks whose call returned `0`, and a
step keeps it so exactly if it announces what it writes. -/

namespace PoolStudy.Threadpool.Atomic

open PoolStudy.Lib.Transition PoolStudy.Lib.Threads PoolStudy.Lib.Ring PoolStudy.Lib.Fifo
open PoolStudy.Threadpool.Model PoolStudy.Threadpool.Steps PoolStudy.Threadpool.Queue
open PoolStudy.Threadpool.Shutdown

variable {n : ℕ} {F A : Type}

/-- The entries of the queue, `head`, `tail` and `count`, and `shutdown`. -/
def queueState (p : Pool n F A) : ((ℤ → Task F A) × ℤ × ℤ × ℤ × ℤ) × Option Shutdown :=
  (ring p, p.shutdown)

/-- **A call of `threadpool_add` for the task `t` that returns `ret` is atomic.** -/
structure AddAtomic (t : Task F A) (ret : Ret) (p p' : Pool n F A) : Prop where
  added : ret = none → queueState p' = queueState (p.push t)
  refused : ret ≠ none → queueState p' = queueState p

/-- **Only accepted tasks are executed.** -/
structure OnlyAccepted (c : State n F A) : Prop where
  queue : c.mem.dequeued ++ c.mem.pool.pending = c.mem.accepted
  run : ∀ i t l, c.worker i = .run t l → t ∈ c.mem.accepted
  done : ∀ t ∈ c.mem.done, t ∈ c.mem.accepted

theorem queueState_unlock (p : Pool n F A) (x : Input n F A) : queueState (p.unlock x) = queueState p := by
  rw [queueState, queueState, ring_unlock, unlock_shutdown]

/-- A task that is written is one more. -/
theorem queueState_push_ne (p : Pool n F A) (t : Task F A) : queueState (p.push t) ≠ queueState p := by
  intro h
  simp only [queueState, ring, Pool.push, Prod.mk.injEq] at h
  omega

/-- A call that changes nothing and reports an error. -/
theorem AddAtomic.of_refused {t : Task F A} {ret : Ret} {p p' : Pool n F A} (hret : ret ≠ none)
    (h : queueState p' = queueState p) : AddAtomic t ret p p' :=
  ⟨fun h0 => absurd h0 hret, fun _ => h⟩

/-- A call that writes its task is atomic exactly if it reports no error. -/
theorem addAtomic_push_iff {t : Task F A} {ret : Ret} {p p' : Pool n F A}
    (h : queueState p' = queueState (p.push t)) : AddAtomic t ret p p' ↔ ret = none := by
  refine ⟨fun ha => ?_, fun hret => ⟨fun _ => h, fun hne => absurd hret hne⟩⟩
  by_contra hne
  exact queueState_push_ne p t (h.symm.trans (ha.refused hne))

/-- What a call that holds the mutex does to the queue, and what it returns if its unlock succeeds. -/
theorem addSection_cases {p : Pool n F A} {t : Task F A} {x : Input n F A} {r : Pool n F A × Ret}
    (h : addSection p t x = some r) :
    (r.2 ≠ none ∧ queueState r.1 = queueState p ∧ announced p x = true) ∨
    queueState r.1 = queueState (p.push t) ∧ (r.2 = none ↔ x.condOk = true) ∧
      (announced p x = true ↔ x.condOk = true ∧ x.unlockOk = true) := by
  unfold addSection at h
  split_ifs at h with hc hs hx
  · cases h
    exact Or.inl ⟨by simp, rfl, by simp [announced, hc]⟩
  · cases h
    exact Or.inl ⟨by simp, rfl, by simp [announced, hs]⟩
  · obtain ⟨ws, -, rfl⟩ := Option.map_eq_some_iff.mp h
    exact Or.inr ⟨rfl, iff_of_true rfl hx, announced_push hc (by simpa using hs)⟩
  · cases h
    exact Or.inr ⟨rfl, iff_of_false (by simp) hx, announced_push hc (by simpa using hs)⟩

theorem addIn_result {self : Tid n} {x : Input n F A} {m : Mem n F A} {t : Task F A}
    {r : Mem n F A × Call F A} (h : callStep self x m (.addIn t) = some r) :
    ∃ q, addSection m.pool t x = some q ∧
      r.1 = { m with pool := q.1.unlock x, adds := m.adds ++ [(t, retOf x q.2)] } := by
  unfold callStep at h
  by_cases hf : m.freed = true
  · rw [if_pos hf] at h
    cases h
  · rw [if_neg hf] at h
    obtain ⟨q, hq, rfl⟩ := Option.map_eq_some_iff.mp h
    exact ⟨q, hq, rfl⟩

/-- What the call returns is no error exactly if nothing behind the write has failed. -/
theorem retOf_eq_none_iff {x : Input n F A} {err : Ret} : retOf x err = none ↔ err = none ∧ x.unlockOk = true := by
  unfold retOf
  split_ifs with hu
  · simp [hu]
  · simp [hu]

/-- **The end of a call.** -/
theorem addIn_atomic {self : Tid n} {x : Input n F A} {m : Mem n F A} {t : Task F A}
    {r : Mem n F A × Call F A} (h : callStep self x m (.addIn t) = some r) :
    ∃ ret, r.1.adds = m.adds ++ [(t, ret)] ∧ (AddAtomic t ret m.pool r.1.pool ↔ announced m.pool x = true) := by
  obtain ⟨q, hq, hr⟩ := addIn_result h
  have hstate : queueState r.1.pool = queueState q.1 := by
    rw [hr]
    exact queueState_unlock q.1 x
  refine ⟨retOf x q.2, by rw [hr], ?_⟩
  rcases addSection_cases hq with ⟨hret, hsame, hann⟩ | ⟨hpush, hret, hann⟩
  · exact iff_of_true (.of_refused (fun h0 => hret (retOf_eq_none_iff.mp h0).1) (hstate.trans hsame)) hann
  · rw [addAtomic_push_iff (hstate.trans hpush), retOf_eq_none_iff, hann, hret]

/-- The steps of a call before it has the mutex change nothing; a failed lock ends it. -/
theorem callStep_before {self : Tid n} {x : Input n F A} {m : Mem n F A} {c : Call F A}
    {r : Mem n F A × Call F A} (hc : c = .outside ∨ ∃ t, c = .addLock t) (h : callStep self x m c = some r) :
    queueState r.1.pool = queueState m.pool := by
  obtain ⟨-, hs⟩ := callStep_cases h
  generalize r.1 = m' at hs ⊢
  generalize r.2 = c' at hs
  rcases hc with rfl | ⟨t, rfl⟩ <;> cases hs <;> rfl

/-! ### Runs -/

theorem onlyAccepted_of_queue {c : State n F A} (hi : ShutInv c)
    (h : c.mem.dequeued ++ c.mem.pool.pending = c.mem.accepted) : OnlyAccepted c := by
  have hdeq : ∀ t ∈ c.mem.dequeued, t ∈ c.mem.accepted := fun t ht => by
    rw [← h]
    exact List.mem_append_left _ ht
  have hled := hi.work.ledger
  refine ⟨h, fun i t l hw => hdeq t ?_, fun t ht => hdeq t ?_⟩
  · have hrun : running (c.worker i) ≤ ∑ j, running (c.worker j) :=
      Finset.single_le_sum (f := fun j => running (c.worker j)) (fun _ _ => Multiset.zero_le _)
        (Finset.mem_univ i)
    have hmem : t ∈ running (c.worker i) := by
      rw [hw]
      exact Multiset.mem_singleton_self t
    have hsum : t ∈ (c.mem.done : Multiset (Task F A)) + ∑ j, running (c.worker j) :=
      Multiset.mem_add.mpr (Or.inr (Multiset.mem_of_le hrun hmem))
    rw [← hled] at hsum
    exact Multiset.mem_coe.mp hsum
  · have hsum : t ∈ (c.mem.done : Multiset (Task F A)) + ∑ j, running (c.worker j) :=
      Multiset.mem_add.mpr (Or.inl (Multiset.mem_coe.mpr ht))
    rw [← hled] at hsum
    exact Multiset.mem_coe.mp hsum

theorem onlyAccepted_reach {c : State n F A} (h : Reach (threadpool n F A).lts Announces c) :
    OnlyAccepted c := by
  obtain ⟨-, hr⟩ := refines_fifo h
  obtain ⟨hist, -⟩ := fifo_history hr
  exact onlyAccepted_of_queue (shutInv_reach h) hist.symm

/-- A call that does not announce its task leaves one task more than were accepted. -/
theorem addIn_unannounced {self : Tid n} {x : Input n F A} {m : Mem n F A} {t : Task F A}
    {r : Mem n F A × Call F A} (h : callStep self x m (.addIn t) = some r) (hm : RingOk m.pool)
    (hx : ¬ announced m.pool x = true) (hq : m.dequeued ++ m.pool.pending = m.accepted) :
    r.1.dequeued ++ r.1.pool.pending ≠ r.1.accepted := by
  obtain ⟨q, hsec, hr⟩ := addIn_result h
  rcases addSection_cases hsec with ⟨-, -, hann⟩ | ⟨hpush, hret, hann⟩
  · exact absurd hann hx
  have hfull : m.pool.count ≠ m.pool.queueSize := fun hc => hx (by simp [announced, hc])
  have hpend : r.1.pool.pending = m.pool.pending ++ [t] := by
    rw [← (hm.push hfull t).2, hr]
    exact pending_congr ((ring_unlock q.1 x).trans (congrArg Prod.fst hpush))
  have hacc : r.1.accepted = m.accepted := by
    have hne : retOf x q.2 ≠ none := fun h0 => by
      rw [retOf_eq_none_iff, hret] at h0
      exact hx (hann.mpr h0)
    obtain ⟨e, he⟩ := Option.ne_none_iff_exists'.mp hne
    rw [hr, he]
    exact accepted_refused rfl
  have hdeq : r.1.dequeued = m.dequeued := by rw [hr]
  rw [hpend, hacc, hdeq, ← hq]
  intro heq
  have hlen := congrArg List.length heq
  simp only [List.length_append, List.length_singleton] at hlen
  omega

/-- **What `threadpool_add` reports.** The step that ends a call is atomic exactly if it announces the task
it writes, in every state of the pool, and the steps before it change nothing. In every run whose calls
announce what they write only accepted tasks are executed; and the next step keeps it so exactly if it
announces what it writes. -/
theorem add_atomic_iff {c : State n F A} (h : Reach (threadpool n F A).lts Announces c) :
    (∀ (self : Tid n) (x : Input n F A) (m : Mem n F A) (t : Task F A) r,
      callStep self x m (.addIn t) = some r → ∃ ret, r.1.adds = m.adds ++ [(t, ret)] ∧
        (AddAtomic t ret m.pool r.1.pool ↔ announced m.pool x = true)) ∧
    (∀ (self : Tid n) (x : Input n F A) (m : Mem n F A) l r, l = .outside ∨ (∃ t, l = .addLock t) →
      callStep self x m l = some r → queueState r.1.pool = queueState m.pool) ∧
    OnlyAccepted c ∧
    ∀ a c', (threadpool n F A).lts.next c a = some c' → (OnlyAccepted c' ↔ Announces c a) := by
  have hall := onlyAccepted_reach h
  obtain ⟨hok, -⟩ := refines_fifo h
  refine ⟨fun _ _ _ _ _ => addIn_atomic, fun _ _ _ _ _ => callStep_before, hall, fun a c' hs =>
    ⟨fun hc' => ?_, fun ha => onlyAccepted_reach (h.next ha hs)⟩⟩
  rw [announces_iff]
  intro hin
  by_contra hx
  rcases Program.next_cases hs with ⟨i, x, r, rfl, hr, rfl⟩ | ⟨k, x, r, rfl, hr, rfl⟩
  · simp only [view_inl] at hin
    cases hw : c.worker i with
    | run t' l =>
      cases l with
      | addIn t =>
        rw [hw] at hr
        simp only [threadpool, workerStep, Call.isOutside, Bool.false_eq_true, false_and, if_false] at hr
        obtain ⟨q, hq, rfl⟩ := Option.map_eq_some_iff.mp hr
        exact addIn_unannounced hq hok hx hall.queue hc'.queue
      | _ => rw [hw] at hin; cases hin
    | _ => rw [hw] at hin; cases hin
  · simp only [view_inr] at hin
    cases hl : c.client k with
    | addIn t =>
      rw [hl] at hr
      have hstep : callStep (.inr k) x c.mem (.addIn t) = some r := hr
      exact addIn_unannounced hstep hok hx hall.queue hc'.queue
    | _ => rw [hl] at hin; cases hin

/-- One worker, room for one task: a task is added and run; then one is added and one refused, the unlock of the
refused call failing. -/
def unlockFailsRun : List (Tid 1 × Input 1 ℕ ℕ) :=
  [(.inr 0, { call := some (.add (some 7) 0) }), (.inr 0, {}), (.inr 0, {}),
   (.inl (Fin.last 0), {}), (.inl (Fin.last 0), {}), (.inl (Fin.last 0), {}),
   (.inr 0, { call := some (.add (some 8) 0) }), (.inr 0, {}), (.inr 0, {}),
   (.inr 0, { call := some (.add (some 9) 0) }), (.inr 0, {}), (.inr 0, { unlockOk := false })]

theorem add_atomic_iff_unlockFailsRun : ∃ c : State 1 ℕ ℕ,
    Reach (threadpool 1 ℕ ℕ).lts Announces c ∧
      c.mem.adds = [(⟨7, 0⟩, none), (⟨8, 0⟩, none), (⟨9, 0⟩, some .lockFailure)] ∧ c.mem.done = [⟨7, 0⟩] ∧
      c.mem.dequeued ++ c.mem.pool.pending = c.mem.accepted := by
  obtain ⟨c, hc, hp⟩ := reach_of_run (threadpool 1 ℕ ℕ).lts announces_of_test unlockFailsRun
    (fun c => decide (c.mem.adds = [(⟨7, 0⟩, none), (⟨8, 0⟩, none), (⟨9, 0⟩, some .lockFailure)]) &&
      decide (c.mem.done = [⟨7, 0⟩]))
    ⟨1, fun _ => ⟨0, 0⟩, by decide, rfl⟩ (by decide)
  simp only [Bool.and_eq_true, decide_eq_true_eq] at hp
  exact ⟨c, hc, hp.1, hp.2, (add_atomic_iff hc).2.2.1.queue⟩

/-- One worker: the signal of a call of `threadpool_add` fails, and the worker runs the task. -/
def signalFailsRun : List (Tid 1 × Input 1 ℕ ℕ) :=
  [(.inr 0, { call := some (.add (some 7) 0) }), (.inr 0, {}), (.inr 0, { condOk := false }),
   (.inl (Fin.last 0), {}), (.inl (Fin.last 0), {}), (.inl (Fin.last 0), {})]

/-- The call has reported an error, and its task has been executed. -/
theorem refused_executed_signalFailsRun : ∃ c : State 1 ℕ ℕ,
    Reach (threadpool 1 ℕ ℕ).lts anyStep c ∧ c.mem.adds = [(⟨7, 0⟩, some .lockFailure)] ∧
      c.mem.done = [⟨7, 0⟩] := by
  obtain ⟨c, hc, hp⟩ := reach_of_run (threadpool 1 ℕ ℕ).lts anyStep_of_test signalFailsRun
    (fun c => decide (c.mem.adds = [(⟨7, 0⟩, some .lockFailure)]) && decide (c.mem.done = [⟨7, 0⟩]))
    ⟨1, fun _ => ⟨0, 0⟩, by decide, rfl⟩ (by decide)
  simp only [Bool.and_eq_true, decide_eq_true_eq] at hp
  exact ⟨c, hc, hp.1, hp.2⟩

end PoolStudy.Threadpool.Atomic
