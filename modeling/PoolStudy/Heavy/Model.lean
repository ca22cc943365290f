import Mathlib.Logic.Encodable.Basic
import PoolStudy.Lib.Bump
import PoolStudy.Lib.Hosting
import PoolStudy.Threadpool.Calls

/-! # A program on several ring-buffer pools: `heavy`

The test program of `tests/heavy.c` has `Q` pools (`QUEUES`) with `n` workers each (`THREAD`) and `S` tasks (`SIZE`),
which is also the size of every queue. The task `k` is the function `dummy_task` with the address of `tasks[k]`: it
increments `tasks[k]` and adds itself to the pool of this number, or, when there is none, decrements `left` behind a
mutex. `main` adds the tasks to the first pool, looks at `left` until it is no longer positive, and destroys the
pools; every call of the library is in an `assert`.

The program runs on `Q` pools of `Threadpool.Model` side by side (`Lib.Hosting`). Its threads are `main` and the
workers; a thread is a client of the pools it calls, under a number of its own. An access to `tasks[k]` or to `left`
is a step: `tasks[k]` has no mutex, and what keeps it from being written by two threads at once is that a task is in
one place only (`Lib.Relay`).

In every run in which the pthread calls succeed no assertion fails, and when `main` leaves its loop every task has
been added to every pool exactly once (`heavy_passes`). -/

namespace PoolStudy.Heavy

open PoolStudy.Lib.Transition PoolStudy.Lib.Hosting PoolStudy.Lib.Bump
open PoolStudy.Threadpool.Model PoolStudy.Threadpool.Calls

/-- The threads: `main`, and the workers of the pools. -/
abbrev Thread (n Q : ℕ) := Option (Fin Q × Fin n)

/-- Where a worker is in `dummy_task`. At `store` it has read `tasks[k]`; `dec` is `left--` with its mutex. -/
inductive Job (Q : ℕ)
  | load
  | store (v : ℕ)
  | test
  | index
  | add (q : Fin Q)
  | inAdd (q : Fin Q)
  | dec
  | ret
  deriving DecidableEq

/-- Where `main` is. At `look` it reads `left` with its mutex. -/
inductive Main (Q S : ℕ)
  | loop (i : ℕ)
  | add (k : Fin S)
  | inAdd (k : Fin S)
  | poll
  | look
  | destroy (q : ℕ)
  | inDestroy (q : Fin Q)
  | done
  deriving DecidableEq

/-- The variables of the program. `failed`: an assertion has failed, or an index was outside of its array. -/
structure Test (n Q S : ℕ) where
  tasks : Fin S → ℕ
  left : Counter (Thread n Q)
  job : Fin Q × Fin n → Job Q
  main : Main Q S
  copy : ℤ
  failed : Bool

variable {n Q S : ℕ}

/-- The pools. -/
abbrev Pools (n Q S : ℕ) := Fin Q → State n Unit (Fin S)

/-- **`dummy_task`** with the argument `k` on the worker `p`, outside of its call. -/
def dummyTask (u : Test n Q S) (p : Fin Q × Fin n) (k : Fin S) : Option (Test n Q S) :=
  match u.job p with
  | .load => some { u with job := Function.update u.job p (.store (u.tasks k)) }
  | .store v => some { u with
      tasks := Function.update u.tasks k (v + 1)
      job := Function.update u.job p .test }
  | .test =>
    if u.tasks k < Q then some { u with job := Function.update u.job p .index }
    else some { u with job := Function.update u.job p .dec, left := u.left.enter (some p) }
  | .index =>
    if h : u.tasks k < Q then some { u with job := Function.update u.job p (.add ⟨u.tasks k, h⟩) }
    else some { u with failed := true }
  | .dec => (u.left.step (-1) (some p)).map fun c => { u with left := c }
  | _ => none

/-- The worker can return from `dummy_task`. -/
def returns (u : Test n Q S) (p : Fin Q × Fin n) : Bool :=
  match u.job p with
  | .ret => true
  | .dec => decide (u.left.pos (some p) = .ret)
  | _ => false

/-- **`main`** outside of its calls. -/
def mainStep (u : Test n Q S) : Option (Test n Q S) :=
  match u.main with
  | .loop i =>
    if h : i < S then some { u with tasks := Function.update u.tasks ⟨i, h⟩ 0, main := .add ⟨i, h⟩ }
    else some { u with main := .poll }
  | .poll =>
    if 0 < u.copy then some { u with main := .look, left := u.left.enter none }
    else some { u with main := .destroy 0 }
  | .look =>
    match u.left.look none with
    | some (c, v) => some { u with left := c, copy := v }
    | none =>
      if u.left.pos none = .ret then some { u with main := .poll }
      else (u.left.step (-1) none).map fun c => { u with left := c }
  | .destroy q => if q < Q then none else some { u with main := .done }
  | _ => none

/-- The argument of the task a worker runs. -/
def argument : Worker Unit (Fin S) → Option (Fin S)
  | .run t _ => some t.argument
  | _ => none

/-- The workers of all pools. -/
def workers (s : Pools n Q S) (p : Fin Q × Fin n) : Worker Unit (Fin S) := (s p.1).worker p.2

/-- **A step of the program alone.** -/
def own (s : Pools n Q S) (u : Test n Q S) : Thread n Q → Option (Test n Q S)
  | none => mainStep u
  | some p => (argument (workers s p)).bind (dummyTask u p)

/-- A thread calls the library on the pool `q`. -/
def startCall (s : Pools n Q S) (u : Test n Q S) (q : Fin Q) : Thread n Q → Api Unit (Fin S) → Option (Test n Q S)
  | none, .add (some _) k => if u.main = .add k ∧ q.val = 0 then some { u with main := .inAdd k } else none
  | none, .destroy flags => if u.main = .destroy q ∧ flags = 0 then some { u with main := .inDestroy q } else none
  | some p, .add (some _) k =>
    if u.job p = .add q ∧ argument (workers s p) = some k then
      some { u with job := Function.update u.job p (.inAdd q) }
    else none
  | _, _ => none

/-- A thread is back from its call, which returned `ret`. -/
def endCall (u : Test n Q S) (ret : Ret) : Thread n Q → Test n Q S
  | none =>
    match u.main with
    | .inAdd k => { u with main := .loop (k + 1), failed := u.failed || ret.isSome }
    | .inDestroy q => { u with main := .destroy (q + 1), failed := u.failed || ret.isSome }
    | _ => u
  | some p => { u with job := Function.update u.job p .ret, failed := u.failed || ret.isSome }

/-- A thread goes on in its call. -/
def inCall (u : Test n Q S) (th : Thread n Q) (m m' : Mem n Unit (Fin S)) : Test n Q S :=
  match returned m m' with
  | some ret => endCall u ret th
  | none => u

/-- **The program takes part in a step of a pool.** -/
def part (s : Pools n Q S) (u : Test n Q S) (a : Fin Q × Tid n × Input n Unit (Fin S)) : Option (Test n Q S) :=
  match a.2.1, a.2.2.call with
  | .inl i, none =>
    match argument (workers s (a.1, i)) with
    | some _ => if returns u (a.1, i) then some { u with job := Function.update u.job (a.1, i) .load } else none
    | none => some u
  | .inl _, some _ => none
  | .inr k, some api =>
    (Encodable.decode₂ (Thread n Q) k).bind fun th =>
      if ((s a.1).client k).isOutside then startCall s u a.1 th api else none
  | .inr k, none =>
    (Encodable.decode₂ (Thread n Q) k).bind fun th =>
      (callStep (.inr k) a.2.2 (s a.1).mem ((s a.1).client k)).map fun r => inCall u th (s a.1).mem r.1

/-- **`heavy`**: `left` is `S`, and no task has been added. -/
def heavy (n Q S : ℕ) :
    User (Pools n Q S) (Fin Q × Tid n × Input n Unit (Fin S)) (Test n Q S) (Thread n Q) where
  init u := u = ⟨fun _ => 0, Counter.init S, fun _ => .load, .loop 0, 1, false⟩
  part := part
  own := own

/-- The program with its pools. -/
abbrev program (n Q S : ℕ) := (heavy n Q S).lts (family (Fin Q) (poolOf n Unit (Fin S) S))

/-- The pthread calls of the pools succeed. -/
def callsOk (_ : Pools n Q S × Test n Q S) : (Fin Q × Tid n × Input n Unit (Fin S)) ⊕ Thread n Q → Prop
  | .inl a => a.2.2.Ok
  | .inr _ => True

end PoolStudy.Heavy
