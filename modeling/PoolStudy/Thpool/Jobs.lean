import PoolStudy.Thpool.Queue
import Mathlib.Data.Multiset.Basic

/-! # The life of a job

A job is pulled once, executed by the worker that pulled it, and its node is freed by that worker; what is
still queued when the workers are gone is freed by `jobqueue_clear`. The history is kept as three ledgers
(`JobInv`): the jobs pulled are those executed, those cleared and those the workers carry; the jobs executed
are those finished and those running; and, with the executing worker, those freed and those still held.

With the FIFO of `Queue` this gives `thpool_fifo`: the queue is a chain of the jobs pushed and not pulled,
in order; no job is executed twice; and when `thpool_destroy` has returned every node ever made has been
freed exactly once. -/

namespace PoolStudy.Thpool.Jobs

open PoolStudy.Lib.Transition PoolStudy.Lib.Threads PoolStudy.Lib.Chain
open PoolStudy.Thpool.Model PoolStudy.Thpool.Steps PoolStudy.Thpool.Teardown PoolStudy.Thpool.Queue

variable {n : ℕ} {κ F A : Type}

/-! ### Ledgers -/

/-- The job in the hands of `jobqueue_pull` once it is off the queue. -/
def pullCarried : Pull → List Ptr
  | .ifLen j | .postLock j | .post j | .ret j => j.toList
  | _ => []

/-- The job a worker has pulled and not yet called. -/
def carried : Pos F A → Multiset Ptr
  | .pull q => pullCarried q
  | .ifJob j => j.toList
  | .func j | .arg j _ | .call j _ _ => {j}
  | _ => 0

/-- The job a worker is executing. -/
def running : Pos F A → Multiset Ptr
  | .run j _ _ _ => {j}
  | _ => 0

/-- The job a worker has called and not yet freed, with the worker. -/
def held (i : Fin n) : Pos F A → Multiset (Ptr × Fin n)
  | .run j _ _ _ | .free j => {(j, i)}
  | _ => 0

/-- The nodes freed by `jobqueue_clear`. -/
def cleared (l : List (Ptr × Option (Fin n))) : List Ptr :=
  l.filterMap fun r => if r.2.isNone then some r.1 else none

/-- The nodes freed by workers. -/
def freedBy (l : List (Ptr × Option (Fin n))) : List (Ptr × Fin n) :=
  l.filterMap fun r => r.2.map fun i => (r.1, i)

/-- **The three ledgers.** -/
structure JobInv (p : Pool n κ F A) (f : Fin n → Worker F A) : Prop where
  pulled : (p.pulled : Multiset Ptr) =
    (p.executed.map Prod.fst + cleared p.freed) + ∑ i, carried (f i).pos
  executed : (p.executed.map Prod.fst : Multiset Ptr) = p.finished + ∑ i, running (f i).pos
  freed : (p.executed : Multiset (Ptr × Fin n)) = freedBy p.freed + ∑ i, held i (f i).pos

/-- What the step of a worker enters into the ledgers. -/
structure Entry (i : Fin n) (p p' : Pool n κ F A) (w w' : Pos F A) : Prop where
  pulled : (p'.pulled : Multiset Ptr) + (p.executed.map Prod.fst + cleared p.freed) + carried w =
    p.pulled + (p'.executed.map Prod.fst + cleared p'.freed) + carried w'
  executed : (p'.executed.map Prod.fst : Multiset Ptr) + p.finished + running w =
    p.executed.map Prod.fst + p'.finished + running w'
  freed : (p'.executed : Multiset (Ptr × Fin n)) + freedBy p.freed + held i w =
    p.executed + freedBy p'.freed + held i w'

theorem Entry.of_same {i : Fin n} {p p' : Pool n κ F A} {w w' : Pos F A} (h1 : p'.pulled = p.pulled)
    (h2 : p'.executed = p.executed) (h3 : p'.finished = p.finished) (h4 : p'.freed = p.freed)
    (hc : carried w' = carried w) (hr : running w' = running w) (hh : held i w' = held i w) :
    Entry i p p' w w' := by
  refine ⟨?_, ?_, ?_⟩
  · rw [h1, h2, h4, hc]
  · rw [h2, h3, hr]
  · rw [h2, h4, hh]

/-- `jobqueue_pull` enters what it takes off the queue. -/
theorem pullStep_carried {self : Tid n κ} {x : Input n F A} {p p' : Pool n κ F A} {q q' : Pull}
    (h : PullStep self x p q p' q') : p'.pulled ++ pullCarried q = p.pulled ++ pullCarried q' := by
  cases h with
  | dec j => simp [pullCarried]
  | _ => rfl

theorem addStep_pulled {self : Tid n κ} {x : Input n F A} {p p' : Pool n κ F A} {c : Add}
    {c' : Option Add} (h : AddStep self x p c p' c') : p'.pulled = p.pulled := by
  cases h with
  | push j h => cases h <;> rfl
  | _ => rfl

theorem posStep_entry {i : Fin n} {x : Input n F A} {fl : Flags} {p p' : Pool n κ F A} {w w' : Pos F A}
    (h : PosStep i x fl p w p' w') : Entry i p p' w w' := by
  cases h with
  | countLock hw _ => cases hw <;> exact .of_same rfl rfl rfl rfl rfl rfl rfl
  | countUnlock hw => cases hw <;> exact .of_same rfl rfl rfl rfl rfl rfl rfl
  | silent hw => cases hw <;> exact .of_same rfl rfl rfl rfl rfl rfl rfl
  | semLock hw _ => rcases hw with rfl | ⟨rfl, -⟩ <;> exact .of_same rfl rfl rfl rfl rfl rfl rfl
  | @pull q q' _ h =>
    have hp : (p'.pulled : Multiset Ptr) + pullCarried q = p.pulled + pullCarried q' := by
      rw [Multiset.coe_add, Multiset.coe_add, pullStep_carried h]
    refine ⟨?_, ?_, ?_⟩
    · rw [h.frame.executed, h.frame.freed]
      simp only [carried]
      rw [add_right_comm, hp, add_right_comm]
    · rw [h.frame.executed, h.frame.finished]; rfl
    · rw [h.frame.executed, h.frame.freed]; rfl
  | add j f a h =>
    exact .of_same (addStep_pulled h) h.frame.executed h.frame.finished h.frame.freed rfl rfl rfl
  | call j f a =>
    refine ⟨?_, ?_, ?_⟩
    · simp only [carried, List.map_append, List.map_cons, List.map_nil, ← Multiset.coe_add,
        Multiset.coe_singleton]
      abel
    · simp only [running, List.map_append, List.map_cons, List.map_nil, ← Multiset.coe_add,
        Multiset.coe_singleton]
      abel
    · simp only [held, ← Multiset.coe_add, Multiset.coe_singleton]
      abel
  | finish j f a =>
    refine ⟨rfl, ?_, rfl⟩
    simp only [running, ← Multiset.coe_add, Multiset.coe_singleton]
    abel
  | free j =>
    have hc : cleared (p.freed ++ [(j, some i)]) = cleared p.freed := by simp [cleared]
    have hb : freedBy (p.freed ++ [(j, some i)]) = freedBy p.freed ++ [(j, i)] := by simp [freedBy]
    refine ⟨?_, rfl, ?_⟩
    · simp only [hc]; rfl
    · simp only [hb, held, ← Multiset.coe_add, Multiset.coe_singleton]
      abel
  | _ => exact .of_same rfl rfl rfl rfl rfl rfl rfl

theorem JobInv.move {p p' : Pool n κ F A} {f : Fin n → Worker F A} (hi : JobInv p f) {i : Fin n}
    {w : Worker F A} (h : Entry i p p' (f i).pos w.pos) : JobInv p' (Function.update f i w) :=
  ⟨ledger_move (fun _ (v : Worker F A) => carried v.pos) hi.pulled h.pulled,
    ledger_move (fun _ (v : Worker F A) => running v.pos) hi.executed h.executed,
    ledger_move (fun i (v : Worker F A) => held i v.pos) hi.freed h.freed⟩

theorem JobInv.worker {m m' : Mem n κ F A} {f : Fin n → Worker F A} {i : Fin n} {x : Input n F A}
    {w : Worker F A} (hi : JobInv m.pool f) (h : WorkerStep i x m (f i) m' w) :
    JobInv m'.pool (Function.update f i w) := by
  cases h with
  | move hh _ hp => exact hi.move (posStep_entry hp)
  | _ => exact hi.move (.of_same rfl rfl rfl rfl rfl rfl rfl)

/-- A whole `jobqueue_pull` enters what it returns. -/
theorem pullRun_pulled {self : Tid n κ} {x : Input n F A} {p : Pool n κ F A} {k : ℕ}
    {r : Pool n κ F A × Option Ptr} (h : pullRun self x k p .front = some r) :
    r.1.pulled = p.pulled ++ r.2.toList := by
  have hI := pullRun_induct (I := fun p' q => p'.pulled = p.pulled ++ pullCarried q) ?_ k p .front r h
    (by simp [pullCarried])
  · exact hI
  · intro p1 q1 p2 q2 h1 hs
    cases hs with
    | dec j =>
      have h1 : p1.pulled = p.pulled := by simpa [pullCarried] using h1
      simp [pullCarried, h1]
    | _ => exact h1

theorem JobInv.client {k : κ} {x : Input n F A} {m m' : Mem n κ F A} {c c' : Call}
    {f : Fin n → Worker F A} (hi : JobInv m.pool f) (h : CallStep k x m c m' c') : JobInv m'.pool f := by
  have hsame : m'.pool.pulled = m.pool.pulled → m'.pool.executed = m.pool.executed →
      m'.pool.finished = m.pool.finished → m'.pool.freed = m.pool.freed → JobInv m'.pool f := by
    intro h1 h2 h3 h4
    exact ⟨by rw [h1, h2, h4]; exact hi.pulled, by rw [h2, h3]; exact hi.executed,
      by rw [h2, h4]; exact hi.freed⟩
  cases h with
  | add h => exact hsame (addStep_pulled h) h.frame.executed h.frame.finished h.frame.freed
  | addReturn h => exact hsame (addStep_pulled h) h.frame.executed h.frame.finished h.frame.freed
  | destroyReturn h => cases h; exact hsame rfl rfl rfl rfl
  | destroy h =>
    cases h with
    | @clearPull r h =>
      have hf := pullRun_frame h
      have hc : cleared (r.1.freed ++ r.2.toList.map fun j => (j, none)) =
          cleared m.pool.freed ++ r.2.toList := by
        rw [hf.freed]
        cases r.2 <;> simp [cleared]
      have hb : freedBy (r.1.freed ++ r.2.toList.map fun j => (j, none)) = freedBy m.pool.freed := by
        rw [hf.freed]
        cases r.2 <;> simp [freedBy]
      refine ⟨?_, ?_, ?_⟩
      · simp only [hc, pullRun_pulled h, hf.executed, ← Multiset.coe_add, hi.pulled]
        abel
      · simp only [hf.executed, hf.finished]; exact hi.executed
      · simp only [hb, hf.executed]; exact hi.freed
    | _ => exact hsame rfl rfl rfl rfl
  | _ => exact hsame rfl rfl rfl rfl

variable [DecidableEq κ]

theorem jobInv_reach {ok : State n κ F A → Tid n κ × Input n F A → Prop} {c : State n κ F A}
    (h : Reach (thpool n κ F A).lts ok c) : JobInv c.mem.pool c.worker := by
  refine Program.invariant (I := fun c : State n κ F A => JobInv c.mem.pool c.worker) ?_ ?_ ?_ h
  · rintro _ ⟨heap, k0, rfl⟩
    constructor <;>
      simp [Pool.created, Worker.created, carried, running, held, cleared, freedBy]
  · intro c i x r _ hi _ hs
    exact hi.worker (workerStep_cases hs)
  · intro c k x r _ hi _ hs
    exact hi.client (callStep_cases hs)

/-! ### The contract of the queue -/

/-- The history of the queue, wherever the threads are. -/
theorem history {c : State n κ F A} (h : Reach (thpool n κ F A).lts finalDestroy c) :
    c.mem.pool.pushed.Nodup ∧ c.mem.pool.pulled <+: c.mem.pool.pushed := by
  obtain ⟨hnd, -, -, q, hh, -⟩ := (queueState_reach h).queue.guard.data
  exact ⟨hnd, q, hh.symm⟩

/-- **No job is executed twice.** -/
theorem executed_nodup {c : State n κ F A} (h : Reach (thpool n κ F A).lts finalDestroy c) :
    (c.mem.pool.executed.map Prod.fst).Nodup := by
  obtain ⟨hnd, hpre⟩ := history h
  have hpulled : (c.mem.pool.pulled : Multiset Ptr).Nodup :=
    Multiset.coe_nodup.mpr (hnd.sublist hpre.sublist)
  rw [(jobInv_reach h).pulled] at hpulled
  have hle := Multiset.le_add_right
    (c.mem.pool.executed.map Prod.fst + cleared c.mem.pool.freed : Multiset Ptr)
    (∑ i, carried (c.worker i).pos)
  exact Multiset.coe_nodup.mp (Multiset.nodup_of_le ((Multiset.le_add_right _ _).trans hle) hpulled)

/-- Every freed node was freed by `jobqueue_clear` or by a worker. -/
theorem freed_split (l : List (Ptr × Option (Fin n))) :
    (l.map Prod.fst : Multiset Ptr) = (freedBy l).map Prod.fst + cleared l := by
  induction l with
  | nil => rfl
  | cons r l ih =>
    obtain ⟨j, b⟩ := r
    have hcons : ∀ m : List Ptr, ((j :: m : List Ptr) : Multiset Ptr) = {j} + m := fun m => rfl
    cases b with
    | none =>
      have h1 : freedBy ((j, none) :: l) = freedBy l := by simp [freedBy]
      have h2 : cleared ((j, (none : Option (Fin n))) :: l) = j :: cleared l := by simp [cleared]
      rw [h1, h2, List.map_cons, hcons, hcons, ih]
      abel
    | some i =>
      have h1 : freedBy ((j, some i) :: l) = (j, i) :: freedBy l := by simp [freedBy]
      have h2 : cleared ((j, some i) :: l) = cleared l := by simp [cleared]
      rw [h1, h2, List.map_cons, List.map_cons, hcons, hcons, ih]
      abel

omit [DecidableEq κ] in
/-- When the pool is gone nobody is in a section, and nobody is about to push. -/
theorem out_of_gone {c : State n κ F A} (hs : StageInv c) (hg : c.mem.pool.stage = .gone) (t : Tid n κ) :
    c.view workerAccess callAccess t = .out ∧ c.view workerNode callNode t = none := by
  obtain ⟨hcl, hl⟩ := hs.gone hg
  rcases t with i | k
  · have hi := hl i
    show posAccess (c.worker i).pos = .out ∧ posNode (c.worker i).pos = none
    cases hpos : (c.worker i).pos <;> simp_all [left, posAccess, posNode]
  · show callAccess (c.client k) = .out ∧ callNode (c.client k) = none
    rw [hcl k]
    exact ⟨rfl, rfl⟩

/-- **When `thpool_destroy` has returned every node ever made has been pushed and pulled.** -/
theorem pulled_of_gone {c : State n κ F A} (h : Reach (thpool n κ F A).lts finalDestroy c)
    (hg : c.mem.pool.stage = .gone) :
    c.mem.pool.pulled.Perm (List.range c.mem.pool.next) := by
  have hs := stageInv_reach h
  have hq := queueState_reach h
  have hfree : c.mem.pool.rwmutex = none := by
    cases hl : c.mem.pool.rwmutex with
    | none => rfl
    | some t => exact absurd (out_of_gone hs hg t).1 ((hq.queue.guard.owned t).mpr hl)
  have hdata : Shape c.mem.pool .out := by
    have := hq.queue.guard.data
    rwa [hfree] at this
  obtain ⟨hnd, hbd, -, q, hh, hat⟩ := hdata
  obtain rfl := hat.nil_iff.mp (hq.gone hg)
  rw [List.append_nil] at hh
  rw [← hh]
  refine (List.perm_ext_iff_of_nodup hnd List.nodup_range).mpr fun j => ⟨fun hj => ?_, fun hj => ?_⟩
  · exact List.mem_range.mpr (hbd j hj)
  · rcases hq.queue.all j (List.mem_range.mp hj) with hm | ⟨t, ht⟩
    · exact hm
    · rw [(out_of_gone hs hg t).2] at ht; cases ht

/-- **Every node is freed exactly once**, by the worker that executed it or by `jobqueue_clear`. -/
theorem freed_of_gone {c : State n κ F A} (h : Reach (thpool n κ F A).lts finalDestroy c)
    (hg : c.mem.pool.stage = .gone) :
    (c.mem.pool.freed.map Prod.fst).Perm (List.range c.mem.pool.next) ∧
      ∀ j i, (j, some i) ∈ c.mem.pool.freed → (j, i) ∈ c.mem.pool.executed := by
  have hj := jobInv_reach h
  have hl := ((stageInv_reach h).gone hg).2
  have hnone : ∀ i, carried (c.worker i).pos = 0 ∧ held i (c.worker i).pos = 0 := by
    intro i
    have hi := hl i
    cases hpos : (c.worker i).pos <;> simp_all [left, carried, held]
  have hpulled := hj.pulled
  have hfreed := hj.freed
  rw [Finset.sum_eq_zero fun i _ => (hnone i).1, add_zero] at hpulled
  rw [Finset.sum_eq_zero fun i _ => (hnone i).2, add_zero] at hfreed
  have hperm : c.mem.pool.executed.Perm (freedBy c.mem.pool.freed) := Multiset.coe_eq_coe.mp hfreed
  constructor
  · refine List.Perm.trans ?_ (pulled_of_gone h hg)
    refine Multiset.coe_eq_coe.mp ?_
    rw [freed_split, hpulled, Multiset.coe_eq_coe.mpr (hperm.map Prod.fst)]
  · intro j i hm
    refine hperm.mem_iff.mpr (List.mem_filterMap.mpr ⟨(j, some i), hm, rfl⟩)

/-- **The job queue is a FIFO that loses and duplicates nothing.** In every state of a run with at most
one, final `thpool_destroy`: while `rwmutex` is free, `front` starts a chain of `len` distinct jobs that
ends at `rear`, and the jobs pulled, followed by the chain, are the jobs pushed; no job is executed
twice; and when `thpool_destroy` has returned, every node ever made has been freed exactly once, by the
worker that executed it or by `jobqueue_clear`. -/
theorem thpool_fifo {c : State n κ F A} (h : Reach (thpool n κ F A).lts finalDestroy c) :
    (c.mem.pool.rwmutex = none → ∃ q, Linked (prevOf c.mem.pool) c.mem.pool.front q ∧ q.Nodup ∧
      c.mem.pool.rear = q.getLast? ∧ c.mem.pool.len = q.length ∧
      (c.mem.pool.len = 0 → c.mem.pool.front = none ∧ c.mem.pool.rear = none) ∧
      c.mem.pool.pushed = c.mem.pool.pulled ++ q) ∧
    (c.mem.pool.executed.map Prod.fst).Nodup ∧
    (c.mem.pool.stage = .gone →
      (c.mem.pool.freed.map Prod.fst).Perm (List.range c.mem.pool.next) ∧
      (c.mem.pool.freed.map Prod.fst).Nodup ∧
      ∀ j i, (j, some i) ∈ c.mem.pool.freed → (j, i) ∈ c.mem.pool.executed) := by
  refine ⟨fun hfree => ?_, executed_nodup h, fun hg => ?_⟩
  · have hdata := (queueState_reach h).queue.guard.data
    rw [hfree] at hdata
    obtain ⟨hnd, -, -, q, hh, hat⟩ := hdata
    refine ⟨q, hat.chain, ?_, hat.rear, hat.len, fun hl => ?_, hh⟩
    · rw [hh] at hnd
      exact (List.nodup_append.mp hnd).2.1
    · obtain rfl := hat.nil_iff.mp hl
      exact ⟨hat.chain, hat.rear⟩
  · obtain ⟨hperm, hby⟩ := freed_of_gone h hg
    exact ⟨hperm, hperm.nodup_iff.mpr List.nodup_range, hby⟩

/-- Two jobs are added; the worker executes the first and is told to leave before it takes the second. -/
def twoJobsRun : List (Tid 1 Unit × Input 1 ℕ ℕ) :=
  let w : Tid 1 Unit := .inl (Fin.last 0)
  let d : Tid 1 Unit := .inr ()
  plainSteps [w, w, w, d] ++
    [(d, { call := some (.addWork 7 0) })] ++ plainSteps (List.replicate 9 d) ++
    [(d, { call := some (.addWork 8 0) })] ++ plainSteps (List.replicate 9 d) ++
    plainSteps (List.replicate 25 w) ++ [(d, { call := some .destroy })] ++
    plainSteps ([d] ++ List.replicate 4 w ++ List.replicate 15 d)

theorem thpool_fifo_twoJobsRun : ∃ c : State 1 Unit ℕ ℕ,
    Reach (thpool 1 Unit ℕ ℕ).lts finalDestroy c ∧ c.mem.pool.stage = .gone ∧
      c.mem.pool.freed = [(0, some (Fin.last 0)), (1, none)] ∧
      (0, Fin.last 0) ∈ c.mem.pool.executed := by
  obtain ⟨c, hc, hp⟩ := reach_of_run (thpool 1 Unit ℕ ℕ).lts finalDestroy_unit twoJobsRun
    (fun c => decide (c.mem.pool.stage = .gone) &&
      decide (c.mem.pool.freed = [(0, some (Fin.last 0)), (1, none)]))
    ⟨fun _ => ⟨none, 0, 0⟩, (), rfl⟩ (by decide)
  simp only [Bool.and_eq_true, decide_eq_true_eq] at hp
  refine ⟨c, hc, hp.1, hp.2, ((thpool_fifo hc).2.2 hp.1).2.2 0 (Fin.last 0) ?_⟩
  rw [hp.2]
  exact List.mem_cons_self

end PoolStudy.Thpool.Jobs
