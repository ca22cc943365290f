import PoolStudy.Threadpool.Counting

/-! # A program on the ring-buffer pool: `shutdown`

The test program of `tests/shutdown.c` has two halves. Each sets `left` to `SIZE`, creates a pool with a queue of that
size, adds `SIZE` tasks that decrement `left`, and destroys the pool: the first half immediately, to assert that tasks
are left over, the second gracefully, to assert that none is. A half is a script of `Threadpool.Counting`; when it is
over no thread of its pool is left and the mutex is free, so that the second half begins as the first did.

The calls succeed, and the assertion of the graceful half holds in every run. That of the immediate half is about the
speed of the workers: it fails in the runs in which they have executed all tasks before `main` calls
`threadpool_destroy` (`shutdown_halves`). -/

namespace PoolStudy.Threadpool.ShutdownTest

open PoolStudy.Lib.Transition PoolStudy.Lib.Bump
open PoolStudy.Threadpool.Model PoolStudy.Threadpool.Calls PoolStudy.Threadpool.Counting
open PoolStudy.Threadpool.Shutdown

/-- The halves of the program. -/
inductive Half
  | immediate
  | graceful
  deriving DecidableEq

/-- The flags for `threadpool_destroy`. -/
def Half.flags : Half → BitVec 32
  | .immediate => 0
  | .graceful => threadpoolGraceful

/-- The assertion at the end. -/
def Half.test (left : ℤ) : Half → Bool
  | .immediate => decide (left > 0)
  | .graceful => decide (left = 0)

/-- Where `main` is. At `failed` an assertion has failed. -/
inductive Main
  | loop (i : ℕ)
  | inAdd (i : ℕ)
  | inDestroy
  | check
  | done
  | failed
  deriving DecidableEq

/-- The calls of `main`. -/
def call (half : Half) (S : ℕ) : Main → Option (Kind Unit Unit × Main)
  | .loop i => if i < S then some (.add ⟨(), ()⟩, .inAdd i) else some (.destroy half.flags, .inDestroy)
  | _ => none

/-- The call that `main` waits for. -/
def waits (half : Half) : Main → Option (Kind Unit Unit)
  | .inAdd _ => some (.add ⟨(), ()⟩)
  | .inDestroy => some (.destroy half.flags)
  | _ => none

/-- `main` asserts that the call has returned `0`. -/
def back : Main → Ret → Main
  | .inAdd i, none => .loop (i + 1)
  | .inDestroy, none => .check
  | .inAdd _, some _ => .failed
  | .inDestroy, some _ => .failed
  | l, _ => l

variable {n : ℕ}

/-- `main` asserts something about `left`. -/
def own (half : Half) (j : Jobs n) : Main → Option (Jobs n × Main)
  | .check => some (j, if half.test j.var.value then .done else .failed)
  | _ => none

theorem own_cases {half : Half} {j j' : Jobs n} {l l' : Main} (h : own half j l = some (j', l')) :
    l = .check ∧ j' = j ∧ l' = if half.test j.var.value then .done else .failed := by
  cases l <;> cases h
  exact ⟨rfl, rfl, rfl⟩

theorem call_cases {half : Half} {S : ℕ} {l l' : Main} {kind : Kind Unit Unit}
    (h : call half S l = some (kind, l')) :
    ∃ i, l = .loop i ∧ ((i < S ∧ kind = .add ⟨(), ()⟩ ∧ l' = .inAdd i) ∨
      (S ≤ i ∧ kind = .destroy half.flags ∧ l' = .inDestroy)) := by
  cases l with
  | loop i =>
    refine ⟨i, rfl, ?_⟩
    simp only [call] at h
    split_ifs at h with hi
    · cases h
      exact Or.inl ⟨hi, rfl, rfl⟩
    · cases h
      exact Or.inr ⟨not_lt.mp hi, rfl, rfl⟩
  | _ => cases h

/-- **One half of `shutdown`** with `SIZE` tasks. -/
def shutdown (n : ℕ) (half : Half) (S : ℕ) : Script n Main where
  size := S
  value := S
  delta := -1
  first := .loop 0
  call := call half S
  waits := waits half
  back := back
  own := own half
  waits_first := rfl
  waits_call l kind l' h := by
    obtain ⟨i, rfl, ⟨-, rfl, rfl⟩ | ⟨-, rfl, rfl⟩⟩ := call_cases h <;> rfl
  waits_back l ret := by cases l <;> cases ret <;> rfl
  waits_own j l j' l' h := by
    obtain ⟨rfl, rfl, rfl⟩ := own_cases h
    refine ⟨rfl, ?_⟩
    split_ifs <;> rfl
  aside j l j' l' h := by
    obtain ⟨-, rfl, -⟩ := own_cases h
    exact ⟨rfl, fun _ => rfl, rfl, fun _ => id⟩

/-! ### Where `main` is -/

/-- `main` is back from `threadpool_destroy`. -/
def Main.over : Main → Bool
  | .check | .done | .failed => true
  | _ => false

/-- **What `main` knows** where it is: how many tasks it has added, and at the end what `left` was. -/
def AtMain (half : Half) (S : ℕ) (m : Mem n Unit Unit) (left : ℤ) : Main → Prop
  | .loop i => m.accepted.length = i ∧ i ≤ S ∧ m.pool.shutdown = none
  | .inAdd i => m.accepted.length = i ∧ i < S
  | .inDestroy => m.accepted.length = S
  | .check => m.accepted.length = S ∧ (half.flags, none) ∈ m.destroys
  | .done => m.accepted.length = S ∧ (half.flags, none) ∈ m.destroys ∧ half.test left = true
  | .failed => m.accepted.length = S ∧ (half.flags, none) ∈ m.destroys ∧ half.test left = false

variable {half : Half} {S : ℕ} {m : Mem n Unit Unit} {left : ℤ} {l : Main}

theorem AtMain.over (h : AtMain half S m left l) (hl : l.over = true) :
    m.accepted.length = S ∧ (half.flags, none) ∈ m.destroys := by
  cases l with
  | check => exact h
  | done | failed => exact ⟨h.1, h.2.1⟩
  | _ => cases hl

/-- Before the end, `main` knows nothing of `left`. -/
theorem AtMain.same {m' : Mem n Unit Unit} {left' : ℤ} (h : AtMain half S m left l) (hl : l.over = false)
    (ha : m'.accepted = m.accepted) (hs : m'.pool.shutdown = m.pool.shutdown ∨ waits half l ≠ none) :
    AtMain half S m' left' l := by
  cases l with
  | loop i =>
    refine ⟨by rw [ha]; exact h.1, h.2.1, ?_⟩
    rcases hs with hs | hs
    · rw [hs]
      exact h.2.2
    · exact absurd rfl hs
  | inAdd i => exact ⟨by rw [ha]; exact h.1, h.2⟩
  | inDestroy => exact (congrArg List.length ha).trans h
  | _ => cases hl

/-- The invariant of a half. -/
structure HalfInv (half : Half) (S : ℕ) (m : Mem n Unit Unit) (u : Test n Main) : Prop where
  pos : u.jobs.var.pos none = .ret
  main : AtMain half S m u.jobs.var.value u.main

/-- **One step of a half.** -/
theorem HalfInv.step {s : State n Unit Unit} {m' : Mem n Unit Unit} {u u' : Test n Main}
    (h : HalfInv half S s.mem u) (hr : Reach (shutdown n half S).program callsOk (s, u))
    (hs : Sees (shutdown n half S) s.mem u m' u') : HalfInv half S m' u' := by
  have hmain := h.main
  cases hs with
  | @task i j hi ha hs hw hpos =>
    refine ⟨hpos.trans h.pos, ?_⟩
    cases hover : u.main.over with
    | false => exact hmain.same hover ha (Or.inl hs)
    | true =>
      -- no worker is left
      obtain ⟨-, hd⟩ := hmain.over hover
      exact absurd (((shutInv_reach (pool_reach hr).1).returned _ hd).2.1 i) hi
  | own hown hm =>
    obtain ⟨hl, rfl, rfl⟩ := own_cases hown
    subst hm
    refine ⟨h.pos, ?_⟩
    rw [hl] at hmain
    cases htest : half.test u.jobs.var.value with
    | true => exact ⟨hmain.1, hmain.2, htest⟩
    | false => exact ⟨hmain.1, hmain.2, htest⟩
  | call hcall hm =>
    obtain ⟨i, hl, ⟨hi, -, rfl⟩ | ⟨hi, -, rfl⟩⟩ := call_cases hcall
    · subst hm
      rw [hl] at hmain
      exact ⟨h.pos, hmain.1, hi⟩
    · subst hm
      rw [hl] at hmain
      exact ⟨h.pos, show s.mem.accepted.length = S from hmain.1.trans (le_antisymm hmain.2.1 hi)⟩
  | goes hk ha hs =>
    have hover : u.main.over = false := by
      cases hl : u.main <;> rw [hl] at hk <;> first | rfl | cases hk
    exact ⟨h.pos, hmain.same hover ha (Or.inr (by rw [show waits half u.main = _ from hk]; simp))⟩
  | added hk ha hs =>
    refine ⟨h.pos, ?_⟩
    cases hl : u.main with
    | inAdd i =>
      rw [hl] at hmain
      refine ⟨?_, hmain.2, hs⟩
      rw [ha, List.length_append, hmain.1]
      rfl
    | _ => rw [hl] at hk; cases hk
  | full hk hf ha hs =>
    -- fewer tasks have been added than the queue has room for
    have hcount : s.mem.pool.count ≤ s.mem.accepted.length := count_le hr
    have hsize : s.mem.pool.queueSize = S := (pool_reach hr).2
    cases hl : u.main with
    | inAdd i =>
      rw [hl] at hmain
      have hlt : s.mem.accepted.length < S := hmain.1 ▸ hmain.2
      rw [hsize] at hf
      omega
    | _ => rw [hl] at hk; cases hk
  | destroyed hk ha hd =>
    refine ⟨h.pos, ?_⟩
    cases hl : u.main with
    | inDestroy =>
      rw [hl] at hk hmain
      cases hk
      exact ⟨(congrArg List.length ha).trans hmain, hd⟩
    | _ => rw [hl] at hk; cases hk

theorem halfInv_reach {c : State n Unit Unit × Test n Main} (h : Reach (shutdown n half S).program callsOk c) :
    Inv (shutdown n half S) c.1 c.2 ∧ HalfInv half S c.1.mem c.2 := by
  refine Script.invariant _ (fun queue => ⟨rfl, rfl, Nat.zero_le S, rfl⟩) (fun m u kind l hI hc => ?_)
    (fun s u m' u' hr _ hI hs => hI.step hr hs) h
  obtain ⟨i, hl, -⟩ := call_cases hc
  have hmain := hI.main
  rw [hl] at hmain
  exact hmain.2.2

theorem shutdownOf_graceful : shutdownOf Half.graceful.flags = .gracefulShutdown := by decide

/-- **The two halves of `shutdown`**, in every run in which the pthread calls succeed. An assertion fails only in the
immediate half, and only if all tasks have been executed; that half comes to its end only if some have not been, and
the graceful one only if all have. Behind `threadpool_destroy`, where an assertion that fails is the one about `left`,
the call has returned `0` and all tasks had been accepted, every worker has ended, the mutex is free, and `left` is the
number of tasks that have not been executed. -/
theorem shutdown_halves (hn : 0 < n) {c : State n Unit Unit × Test n Main}
    (h : Reach (shutdown n half S).program callsOk c) :
    (c.2.main = .failed → half = .immediate ∧ c.1.mem.done.length = S) ∧
      (c.2.main = .done → (c.1.mem.done.length = S ↔ half = .graceful)) ∧
      (c.2.main.over = true → (half.flags, none) ∈ c.1.mem.destroys ∧ c.1.mem.accepted.length = S ∧
        (∀ i, c.1.worker i = .exited) ∧ c.2.jobs.var.mutex = none ∧
        c.2.jobs.var.value = S - c.1.mem.done.length ∧ c.1.mem.done.length ≤ S) := by
  obtain ⟨hi, hh⟩ := halfInv_reach h
  have hend : c.2.main.over = true → c.1.mem.accepted.length = S ∧ (∀ i, c.1.worker i = .exited) ∧
      c.2.jobs.var.mutex = none ∧ c.2.jobs.var.value = S - c.1.mem.done.length ∧ c.1.mem.done.length ≤ S ∧
      (half = .graceful → c.1.mem.done.length = S) := by
    intro hover
    obtain ⟨hacc, hd⟩ := hh.main.over hover
    obtain ⟨hexited, hval, hpos, hle, hgr⟩ := hi.destroyed h hn hd
    have hval : c.2.jobs.var.value = (S : ℤ) + -1 * c.1.mem.done.length := hval
    rw [hacc] at hle hgr
    refine ⟨hacc, hexited, ?_, by rw [hval]; ring, hle, fun hhalf => hgr ?_⟩
    · -- whoever owned it would be between its lock and its unlock
      by_contra hne
      obtain ⟨t, ht⟩ := Option.ne_none_iff_exists'.mp hne
      have hlocked := (hi.jobs.var.owned t).mpr ht
      have hret : c.2.jobs.var.pos t = .ret := by
        cases t with
        | none => exact hh.pos
        | some i => exact hpos i
      rw [hret] at hlocked
      exact hlocked
    · rw [hhalf]
      exact shutdownOf_graceful
  refine ⟨fun hl => ?_, fun hl => ?_, fun hover => ?_⟩
  · obtain ⟨-, -, -, hval, hle, hgr⟩ := hend (by rw [hl]; rfl)
    have hmain := hh.main
    rw [hl] at hmain
    have htest := hmain.2.2
    rw [hval] at htest
    cases hhalf : half with
    | immediate =>
      rw [hhalf] at htest
      simp only [Half.test, decide_eq_false_iff_not, not_lt] at htest
      exact ⟨rfl, by omega⟩
    | graceful =>
      rw [hhalf] at htest
      simp [Half.test, hgr hhalf] at htest
  · obtain ⟨-, -, -, hval, hle, hgr⟩ := hend (by rw [hl]; rfl)
    have hmain := hh.main
    rw [hl] at hmain
    have htest := hmain.2.2
    rw [hval] at htest
    cases hhalf : half with
    | immediate =>
      rw [hhalf] at htest
      simp only [Half.test, decide_eq_true_eq] at htest
      refine ⟨fun heq => ?_, fun hx => by cases hx⟩
      omega
    | graceful => exact ⟨fun _ => rfl, fun _ => hgr hhalf⟩
  · obtain ⟨h1, h2, h3, h4, h5, -⟩ := hend hover
    exact ⟨(hh.main.over hover).2, h1, h2, h3, h4, h5⟩

/-- One worker and one task, the immediate half: the worker executes the task before `main` calls
`threadpool_destroy`. -/
def quickRun : List ((Tid 1 × Input 1 Unit Unit) ⊕ Option (Fin 1)) :=
  let w : (Tid 1 × Input 1 Unit Unit) ⊕ Option (Fin 1) := .inl (.inl (Fin.last 0), {})
  let d : (Tid 1 × Input 1 Unit Unit) ⊕ Option (Fin 1) := .inl (.inr 0, {})
  [.inl (.inr 0, { call := some (.add (some ()) ()) }), d, d, w, w] ++
    List.replicate 5 (.inr (some (Fin.last 0))) ++ [w] ++
    [.inl (.inr 0, { call := some (.destroy 0) }), d, d, w, w, d, d, d, .inr none]

/-- Its last assertion fails. -/
theorem shutdown_halves_quickRun : ∃ c : State 1 Unit Unit × Test 1 Main,
    c.2.main = .failed ∧ c.1.mem.done.length = 1 ∧ (Half.flags .immediate, none) ∈ c.1.mem.destroys := by
  have h0 : (shutdown 1 .immediate 1).program.init
      (⟨created 1 1 fun _ => ⟨(), ()⟩, fun _ => .lock, fun _ => .outside⟩,
        ⟨⟨Counter.init 1, fun _ => false⟩, .loop 0⟩) := ⟨⟨_, rfl⟩, rfl⟩
  obtain ⟨c, hc, hp⟩ := reach_of_run (shutdown 1 .immediate 1).program callsOk_of_test quickRun
    (fun c => decide (c.2.main = .failed)) h0 (by decide)
  rw [decide_eq_true_eq] at hp
  obtain ⟨hfailed, -, hover⟩ := shutdown_halves Nat.one_pos hc
  exact ⟨c, hp, (hfailed hp).2, (hover (by rw [hp]; rfl)).1⟩

end PoolStudy.Threadpool.ShutdownTest
