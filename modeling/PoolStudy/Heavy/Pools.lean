import PoolStudy.Heavy.Model

/-! # `heavy`: the pools

What the program sees of its pools: their workers, their clients, and the arguments of the tasks that wait in them and
that were added to them. Everything else known of a pool comes from its runs on its own (`pool_ring`). -/

namespace PoolStudy.Heavy

open PoolStudy.Lib.Transition PoolStudy.Lib.Threads PoolStudy.Lib.Hosting
open PoolStudy.Threadpool.Model PoolStudy.Threadpool.Queue PoolStudy.Threadpool.Calls

variable {n Q S : ℕ}

/-- The tasks that wait in a pool. -/
def waiting (m : Mem n Unit (Fin S)) : List (Fin S) := m.pool.pending.map Task.argument

/-- The tasks that were added to a pool. -/
def added (m : Mem n Unit (Fin S)) : List (Fin S) := m.accepted.map Task.argument

theorem waiting_same {m m' : Mem n Unit (Fin S)} (h : m'.pool.pending = m.pool.pending) : waiting m' = waiting m :=
  congrArg (List.map Task.argument) h

theorem added_same {m m' : Mem n Unit (Fin S)} (h : m'.accepted = m.accepted) : added m' = added m :=
  congrArg (List.map Task.argument) h

/-- A worker without a task has no argument. -/
theorem argument_none {w : Worker Unit (Fin S)} (h : runs w = none) : argument w = none := by
  cases w with
  | run t c => cases h
  | _ => rfl

/-- Where the clients of the pools are. -/
def clients (s : Pools n Q S) (q : Fin Q) (k : ℕ) : Call Unit (Fin S) := (s q).client k

section Views

variable (s : Pools n Q S) (q : Fin Q)

theorem workers_moveWorker (i : Fin n) (r : Mem n Unit (Fin S) × Worker Unit (Fin S)) :
    workers (Function.update s q ((s q).moveWorker i r)) = Function.update (workers s) (q, i) r.2 := by
  funext ⟨q', j⟩
  by_cases hq : q' = q
  · subst hq
    by_cases hj : j = i
    · subst hj; simp [workers, Config.moveWorker]
    · simp [workers, Config.moveWorker, hj]
  · simp [workers, hq]

theorem workers_moveClient (k : ℕ) (r : Mem n Unit (Fin S) × Call Unit (Fin S)) :
    workers (Function.update s q ((s q).moveClient k r)) = workers s := by
  funext ⟨q', j⟩
  by_cases hq : q' = q
  · subst hq; simp [workers, Config.moveClient]
  · simp [workers, hq]

theorem clients_moveWorker (i : Fin n) (r : Mem n Unit (Fin S) × Worker Unit (Fin S)) :
    clients (Function.update s q ((s q).moveWorker i r)) = clients s := by
  funext q' k
  by_cases hq : q' = q
  · subst hq; simp [clients, Config.moveWorker]
  · simp [clients, hq]

theorem clients_moveClient (k : ℕ) (r : Mem n Unit (Fin S) × Call Unit (Fin S)) (q' : Fin Q) (k' : ℕ) :
    clients (Function.update s q ((s q).moveClient k r)) q' k' =
      if q' = q ∧ k' = k then r.2 else clients s q' k' := by
  by_cases hq : q' = q
  · subst hq
    by_cases hk : k' = k
    · subst hk; simp [clients, Config.moveClient]
    · simp [clients, Config.moveClient, hk]
  · simp [clients, hq]

end Views

/-- The ring of every pool is in order, and has room for all tasks. -/
theorem pool_ring {c : Pools n Q S × Test n Q S} (h : Reach (program n Q S) callsOk c) (q : Fin Q) :
    RingOk (c.1 q).mem.pool ∧ (c.1 q).mem.pool.queueSize = S := by
  have hfam : Reach (family (Fin Q) (poolOf n Unit (Fin S) S)) (fun _ a => a.2.2.Ok) c.1 :=
    User.reach (fun s u a u' hok _ => hok) h
  have hpool : Reach (poolOf n Unit (Fin S) S) pthreadOk (c.1 q) := family_reach (fun _ _ ha => ha) hfam q
  obtain ⟨hr, hsize⟩ := reach_poolOf hpool
  exact ⟨(refines_fifo (hr.mono announces_of_ok)).1, hsize⟩

end PoolStudy.Heavy
