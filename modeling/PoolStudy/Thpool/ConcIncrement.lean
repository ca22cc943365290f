import PoolStudy.Lib.Bump
import PoolStudy.Lib.Hosting
import PoolStudy.Thpool.Rest

/-! # A program on the linked-queue pool: `conc_increment`

The test program of `tests/src/conc_increment.c` adds `num_jobs` jobs, each of which increments a variable behind a
mutex of its own, calls `thpool_wait` and prints the variable. Here it runs on the pool of `Thpool.Model`: `main`
is the client of the pool, and the body of `increment` is executed between the call of a job's function and its
return, statement by statement (`Lib.Bump`).

Whatever the threads do, the value printed is the number of the jobs that `thpool_add_work` took, which is
`num_jobs` less the calls that found no memory (`conc_increment_prints`): `main` does not look at what
`thpool_add_work` returns. The pool enters only through what is known of it: its state inside the program is one
that it reaches on its own (`pool_reach`), so that `thpool_wait` covers the jobs added before it. -/

namespace PoolStudy.Thpool.ConcIncrement

open PoolStudy.Lib.Transition PoolStudy.Lib.Threads PoolStudy.Lib.Hosting PoolStudy.Lib.Bump
open PoolStudy.Thpool.Model PoolStudy.Thpool.Steps PoolStudy.Thpool.Queue PoolStudy.Thpool.Jobs
open PoolStudy.Thpool.Wait PoolStudy.Thpool.Pause PoolStudy.Thpool.Rest

/-! ### The program -/

/-- Where `main` is: at the head of its loop, in the calls of the library, or behind them. -/
inductive Main
  | loop (n : ℕ)
  | inAdd (n : ℕ)
  | inWait
  | print
  | done
  deriving DecidableEq

/-- The variables of the program. `refused` counts the calls of `thpool_add_work` that returned `-1`. -/
structure Test (n : ℕ) where
  sum : Counter (Fin n)
  main : Main
  printed : Option ℤ
  refused : ℕ

variable {n : ℕ}

/-- `main` makes a call on the pool: `thpool_add_work` in its loop, then `thpool_wait`. -/
def mainCall (numJobs : ℤ) (u : Test n) (mallocOk : Bool) : Api Unit Unit → Option (Test n)
  | .addWork _ _ =>
    match u.main with
    | .loop j =>
      if j < numJobs then
        some { u with main := .inAdd j, refused := if mallocOk then u.refused else u.refused + 1 }
      else none
    | _ => none
  | .wait =>
    match u.main with
    | .loop j => if j < numJobs then none else some { u with main := .inWait }
    | _ => none
  | _ => none

/-- A worker calls the function of a job, and returns from it when `increment` has. -/
def jobPart (u : Test n) (i : Fin n) : Pos Unit Unit → Option (Test n)
  | .call _ _ _ => some { u with sum := u.sum.enter i }
  | .run _ _ _ _ => if u.sum.pos i = .ret then some u else none
  | _ => some u

/-- **The program takes part in a step of the pool.** -/
def part (numJobs : ℤ) (s : State n Unit Unit Unit) (u : Test n) (a : Tid n Unit × Input n Unit Unit) :
    Option (Test n) :=
  match a.1, a.2.call with
  | .inr _, none => some u
  | .inr k, some api => if s.client k = .outside then mainCall numJobs u (mallocs a.2 s.mem.pool) api else none
  | .inl i, none => jobPart u i (s.worker i).pos
  | .inl _, some _ => none

/-- The worker executes the function of a job. -/
def inRun : Pos Unit Unit → Bool
  | .run _ _ _ _ => true
  | _ => false

/-- **`increment`** on the worker `i`. -/
def increment (u : Test n) (i : Fin n) : Option (Test n) :=
  (u.sum.step 1 i).map fun c => { u with sum := c }

/-- **A step of the program alone**: a statement of `increment`, or `main` between its calls. -/
def own (s : State n Unit Unit Unit) (u : Test n) : Tid n Unit → Option (Test n)
  | .inl i => if inRun (s.worker i).pos then increment u i else none
  | .inr k =>
    match u.main with
    | .inAdd j => if s.client k = .outside then some { u with main := .loop (j + 1) } else none
    | .inWait => if s.client k = .outside then some { u with main := .print } else none
    | .print => some { u with printed := some u.sum.value, main := .done }
    | _ => none

/-- **`conc_increment`** with the arguments `numJobs` and `n`. -/
def concIncrement (n : ℕ) (numJobs : ℤ) :
    User (State n Unit Unit Unit) (Tid n Unit × Input n Unit Unit) (Test n) (Tid n Unit) where
  init u := u = ⟨Counter.init 0, .loop 0, none, 0⟩
  part := part numJobs
  own := own

/-- The program with its pool. -/
abbrev program (n : ℕ) (numJobs : ℤ) := (concIncrement n numJobs).lts (thpool n Unit Unit Unit).lts

/-! ### The pool inside the program -/

/-- `main` calls `thpool_add_work` as long as its loop runs, and `thpool_wait` behind it. -/
theorem mainCall_cases {numJobs : ℤ} {u u' : Test n} {mallocOk : Bool} {api : Api Unit Unit}
    (h : mainCall numJobs u mallocOk api = some u') :
    (∃ j : ℕ, u.main = .loop j ∧ api = .addWork () () ∧ j < numJobs ∧
      u' = { u with main := .inAdd j, refused := if mallocOk then u.refused else u.refused + 1 }) ∨
    ∃ j : ℕ, u.main = .loop j ∧ api = .wait ∧ ¬ j < numJobs ∧ u' = { u with main := .inWait } := by
  cases api with
  | addWork f a =>
    simp only [mainCall] at h
    split at h
    · next j hj =>
      by_cases hlt : j < numJobs
      · rw [if_pos hlt] at h
        exact Or.inl ⟨j, hj, rfl, hlt, (Option.some.inj h).symm⟩
      · rw [if_neg hlt] at h
        cases h
    · cases h
  | wait =>
    simp only [mainCall] at h
    split at h
    · next j hj =>
      split_ifs at h with hlt
      exact Or.inr ⟨j, hj, rfl, hlt, (Option.some.inj h).symm⟩
    · cases h
  | _ => cases h

theorem pool_reach {numJobs : ℤ} {c : State n Unit Unit Unit × Test n}
    (h : Reach (program n numJobs) anyStep c) : Reach (thpool n Unit Unit Unit).lts noPause c.1 := by
  refine User.reach (fun s u a u' _ hp => ?_) h
  obtain ⟨i | k, x⟩ := a
  · cases hx : x.call with
    | none => exact ⟨by simp [hx], by simp [hx]⟩
    | some api => simp [concIncrement, part, hx] at hp
  · cases hx : x.call with
    | none => exact ⟨by simp [hx], by simp [hx]⟩
    | some api =>
      simp only [concIncrement, part, hx] at hp
      split_ifs at hp
      obtain ⟨-, -, rfl, -⟩ | ⟨-, -, rfl, -⟩ := mainCall_cases hp
      · exact ⟨by simp [hx], by simp [hx]⟩
      · exact ⟨by simp [hx], by simp [hx]⟩

/-- What a worker leaves alone as long as it adds nothing. -/
structure SameJobs (p p' : Pool n Unit Unit Unit) : Prop where
  next : p'.next = p.next
  added : p'.added = p.added
  waited : p'.waited = p.waited

/-- **The steps of a worker in the program**: it calls the function of a job, returns from it, or is outside. -/
inductive WorkerPart (i : Fin n) (u : Test n) (p : Pool n Unit Unit Unit) :
    Pos Unit Unit → Test n → Pool n Unit Unit Unit → Pos Unit Unit → Prop
  | enter (j : Ptr) : WorkerPart i u p (.call j () ()) { u with sum := u.sum.enter i }
      { p with executed := p.executed ++ [(j, i)] } (.run j () () none)
  | leave (j : Ptr) (h : u.sum.pos i = .ret) : WorkerPart i u p (.run j () () none) u
      { p with finished := p.finished ++ [j] } (.free j)
  | outside {w w' : Pos Unit Unit} {p' : Pool n Unit Unit Unit} (hw : inRun w = false) (hw' : inRun w' = false)
      (hj : SameJobs p p') (hf : p'.finished = p.finished) : WorkerPart i u p w u p' w'

theorem pullStep_sameJobs {self : Tid n Unit} {x : Input n Unit Unit} {p p' : Pool n Unit Unit Unit} {q q' : Pull}
    (h : PullStep self x p q p' q') : SameJobs p p' := by
  cases h <;> exact ⟨rfl, rfl, rfl⟩

theorem posStep_outside {i : Fin n} {x : Input n Unit Unit} {fl : Flags} {p p' : Pool n Unit Unit Unit}
    {w w' : Pos Unit Unit} (h : PosStep i x fl p w p' w') (hw : inRun w = false) (hc : ∀ j f a, w ≠ .call j f a) :
    inRun w' = false ∧ SameJobs p p' ∧ p'.finished = p.finished := by
  cases h with
  | countLock h _ => cases h <;> exact ⟨rfl, ⟨rfl, rfl, rfl⟩, rfl⟩
  | countUnlock h => cases h <;> exact ⟨rfl, ⟨rfl, rfl, rfl⟩, rfl⟩
  | silent h =>
    cases h with
    | addFail j f a => cases hw
    | _ => exact ⟨rfl, ⟨rfl, rfl, rfl⟩, rfl⟩
  | pull h => exact ⟨rfl, pullStep_sameJobs h, h.frame.finished⟩
  | call j f a => exact absurd rfl (hc j f a)
  | malloc | add | finish => cases hw
  | _ => exact ⟨rfl, ⟨rfl, rfl, rfl⟩, rfl⟩

theorem worker_cases {numJobs : ℤ} {s : State n Unit Unit Unit} {u u' : Test n} {i : Fin n} {x : Input n Unit Unit}
    {r : Mem n Unit Unit Unit × Worker Unit Unit} (huse : InUse s)
    (hnone : ∀ j f a c, (s.worker i).pos = .run j f a c → c = none)
    (hp : part numJobs s u (.inl i, x) = some u') (hs : workerStep i x s.mem (s.worker i) = some r) :
    WorkerPart i u s.mem.pool (s.worker i).pos u' r.1.pool r.2.pos := by
  have hcall : x.call = none := by
    by_contra hne
    obtain ⟨api, hx⟩ := Option.ne_none_iff_exists'.mp hne
    simp [part, hx] at hp
  have hmove : ∃ q, threadDo i x s.mem.flags s.mem.pool (s.worker i).pos = some q ∧ r.1.pool = q.1 ∧
      r.2.pos = q.2 := by
    simp only [workerStep, huse.off i, huse.resumed.signals, Finset.notMem_empty, if_false] at hs
    split_ifs at hs
    obtain ⟨q, hq, rfl⟩ := Option.map_eq_some_iff.mp hs
    exact ⟨q, hq, rfl, rfl⟩
  obtain ⟨q, hq, hpool, hpos⟩ := hmove
  rw [hpool, hpos]
  have hout : (∀ j f a, (s.worker i).pos ≠ .call j f a) → inRun (s.worker i).pos = false → u' = u →
      WorkerPart i u s.mem.pool (s.worker i).pos u' q.1 q.2 := by
    intro hc hw hu
    obtain ⟨h1, h2, h3⟩ := posStep_outside (threadDo_cases hq) hw hc
    rw [hu]
    exact .outside hw h1 h2 h3
  simp only [part, hcall] at hp
  cases hw : (s.worker i).pos with
  | call j f a =>
    simp only [hw, jobPart, Option.some.injEq] at hp
    rw [hw] at hq
    cases hq
    rw [← hp]
    exact .enter j
  | run j f a c =>
    obtain rfl := hnone j f a c hw
    simp only [hw, jobPart] at hp
    split_ifs at hp with hret
    simp only [hw, threadDo, runStep, hcall, Option.some.injEq] at hq
    rw [← hq, ← Option.some.inj hp]
    exact .leave j hret
  | _ =>
    rw [hw] at hout
    simp only [hw, jobPart, Option.some.injEq] at hp
    exact hout (by simp) rfl hp.symm

/-! ### The variable -/

/-- The job has incremented the variable and its function has not returned. -/
def counted (w : Pos Unit Unit) (l : Bumping) : ℕ := if inRun w then l.bumped else 0

/-- **The variable** is incremented once for every job: by those that have finished and by those that have written
and not yet returned. -/
structure SumInv (s : State n Unit Unit Unit) (u : Test n) : Prop where
  adds : ∀ i j f a c, (s.worker i).pos = .run j f a c → c = none
  outside : ∀ i, inRun (s.worker i).pos = false → u.sum.pos i = .ret
  sum : u.sum.Inv 1 0
  writes : u.sum.writes = s.mem.pool.finished.length + ∑ i, counted (s.worker i).pos (u.sum.pos i)

/-- The sum over the workers when one of them moves. -/
theorem counted_move (f : Fin n → Pos Unit Unit) (g : Fin n → Bumping) (i : Fin n) (w : Pos Unit Unit) (l : Bumping) :
    ∑ j, counted (Function.update f i w j) (Function.update g i l j) + counted (f i) (g i) =
      ∑ j, counted (f j) (g j) + counted w l := by
  have h := sum_update (fun _ (p : Pos Unit Unit × Bumping) => counted p.1 p.2) (fun j => (f j, g j)) i (w, l)
  have hpair : (fun j => counted (Function.update f i w j) (Function.update g i l j)) =
      fun j => counted (Function.update (fun j => (f j, g j)) i (w, l) j).1
        (Function.update (fun j => (f j, g j)) i (w, l) j).2 := by
    funext j
    by_cases hj : j = i
    · subst hj; simp
    · simp [hj]
  rw [hpair]
  exact h

/-- `main` leaves the variable alone. -/
theorem SumInv.same {s : State n Unit Unit Unit} {u u' : Test n} (h : SumInv s u) (hu : u'.sum = u.sum) :
    SumInv s u' := by
  refine ⟨h.adds, ?_, ?_, ?_⟩
  · rw [hu]; exact h.outside
  · rw [hu]; exact h.sum
  · rw [hu]; exact h.writes

/-- So do its calls on the pool. -/
theorem SumInv.client {s : State n Unit Unit Unit} {u : Test n} (h : SumInv s u)
    {r : Mem n Unit Unit Unit × Call} (hf : r.1.pool.finished = s.mem.pool.finished) :
    SumInv (s.moveClient () r) u := by
  refine ⟨h.adds, h.outside, h.sum, ?_⟩
  rw [show (s.moveClient () r).mem.pool.finished = _ from hf]
  exact h.writes

/-- A statement of `increment`. -/
theorem SumInv.increment {s : State n Unit Unit Unit} {u u' : Test n} {i : Fin n} (h : SumInv s u)
    (hr : inRun (s.worker i).pos = true) (hs : increment u i = some u') : SumInv s u' := by
  obtain ⟨c, hc, rfl⟩ := Option.map_eq_some_iff.mp hs
  obtain ⟨l, hpos, -, hw⟩ := Counter.step_cases hc
  refine ⟨h.adds, fun k hk => ?_, h.sum.step hc, ?_⟩
  · have hne : k ≠ i := by
      rintro rfl
      rw [hr] at hk
      cases hk
    show c.pos k = .ret
    rw [hpos, Function.update_of_ne hne]
    exact h.outside k hk
  · have h1 := counted_move (fun k => (s.worker k).pos) u.sum.pos i (s.worker i).pos l
    rw [Function.update_eq_self] at h1
    have h2 := h.writes
    simp only [counted, hr, if_true] at h1 h2
    show c.writes = s.mem.pool.finished.length + ∑ k, counted (s.worker k).pos (c.pos k)
    simp only [hpos, counted]
    omega

/-- The worker `i` moves, and its job in `increment` with it. -/
theorem SumInv.move {s : State n Unit Unit Unit} {u u' : Test n} {i : Fin n}
    {r : Mem n Unit Unit Unit × Worker Unit Unit} {l : Bumping} (h : SumInv s u) (hu : u'.sum.Inv 1 0)
    (hpos' : u'.sum.pos = Function.update u.sum.pos i l) (hw : u'.sum.writes = u.sum.writes)
    (hret : inRun r.2.pos = false → l = .ret) (hadds : ∀ j f a c, r.2.pos = .run j f a c → c = none)
    (hcount : counted r.2.pos l + r.1.pool.finished.length =
      counted (s.worker i).pos (u.sum.pos i) + s.mem.pool.finished.length) :
    SumInv (s.moveWorker i r) u' := by
  have hpos : ∀ k, ((s.moveWorker i r).worker k).pos = Function.update (fun k => (s.worker k).pos) i r.2.pos k := by
    intro k
    by_cases hk : k = i
    · subst hk; simp [Config.moveWorker]
    · simp [Config.moveWorker, hk]
  refine ⟨?_, ?_, hu, ?_⟩
  · exact forall_moveWorker (P := fun _ (w : Worker Unit Unit) => ∀ j f a c, w.pos = .run j f a c → c = none) hadds
      fun k _ => h.adds k
  · refine forall_moveWorker (P := fun k (w : Worker Unit Unit) => inRun w.pos = false → u'.sum.pos k = .ret) ?_
      fun k hk hw => ?_
    · rw [hpos', Function.update_self]
      exact hret
    · rw [hpos', Function.update_of_ne hk]
      exact h.outside k hw
  · have h1 := counted_move (fun k => (s.worker k).pos) u.sum.pos i r.2.pos l
    have h2 := h.writes
    show u'.sum.writes = r.1.pool.finished.length + _
    simp only [hpos, hpos', hw]
    omega

/-- A step of a worker of the pool. -/
theorem SumInv.worker {s : State n Unit Unit Unit} {u u' : Test n} {i : Fin n}
    {r : Mem n Unit Unit Unit × Worker Unit Unit} (h : SumInv s u)
    (hs : WorkerPart i u s.mem.pool (s.worker i).pos u' r.1.pool r.2.pos) : SumInv (s.moveWorker i r) u' := by
  have hsame : inRun r.2.pos = false → u.sum.pos i = .ret →
      counted r.2.pos (u.sum.pos i) + r.1.pool.finished.length =
        counted (s.worker i).pos (u.sum.pos i) + s.mem.pool.finished.length → SumInv (s.moveWorker i r) u := by
    intro hout hret hcount
    exact h.move (l := u.sum.pos i) h.sum (Function.update_eq_self ..).symm rfl (fun _ => hret)
      (fun j f a c hw => by rw [hw] at hout; cases hout) hcount
  generalize hpool : r.1.pool = p' at hs hsame
  generalize hw : (s.worker i).pos = w at hs hsame
  generalize hw' : r.2.pos = w' at hs hsame
  cases hs with
  | enter j =>
    have hret : u.sum.pos i = .ret := h.outside i (by rw [hw]; rfl)
    refine h.move (l := .lock) (h.sum.enter hret) rfl rfl (by simp [hw', inRun]) ?_ ?_
    · rintro j f a c hc
      rw [hw'] at hc
      cases hc
      rfl
    · simp [hw, hw', hpool, counted, inRun, Bumping.bumped]
  | leave j hret => exact hsame rfl hret (by simp [counted, inRun, hret, Bumping.bumped]; omega)
  | outside hi hi' hj hf =>
    refine hsame hi' (h.outside i (by rw [hw]; exact hi)) ?_
    simp [hf, counted, hi, hi']

/-! ### The calls of `main` -/

/-- The number of jobs made. -/
def made (p : Pool n Unit Unit Unit) : ℕ := p.next

/-- All jobs made are in the list. -/
def AllIn (p : Pool n Unit Unit Unit) (l : List Ptr) : Prop := ∀ j < p.next, j ∈ l

/-- The node of a `thpool_add_work`. -/
def nodeOf : Model.Add → Ptr
  | .lock j | .push j _ => j

/-- **Where `main` and its call on the pool are.** Every job made has been added when no call adds one, and a
`thpool_wait` waits for all of them. -/
def AtMain (numJobs : ℤ) (p : Pool n Unit Unit Unit) (refused : ℕ) (c : Call) : Main → Prop
  | .loop k => (c = .initSpin ∨ c = .outside) ∧ AllIn p p.added ∧ made p + refused = k ∧ k ≤ numJobs.toNat
  | .inAdd k => ((c = .outside ∧ AllIn p p.added) ∨ ∃ l, c = .add l ∧ ∀ j < p.next, j ∈ p.added ∨ nodeOf l = j) ∧
      made p + refused = k + 1 ∧ k + 1 ≤ numJobs.toNat
  | .inWait => ((∃ l must, (c = .waitLen l must ∨ c = .waitWorking l must) ∧ AllIn p must) ∨
      (c = .outside ∧ ∃ must ∈ p.waited, AllIn p must)) ∧ made p + refused = numJobs.toNat
  | .print | .done => c = .outside ∧ (∃ must ∈ p.waited, AllIn p must) ∧ made p + refused = numJobs.toNat

theorem AtMain.same {numJobs : ℤ} {p p' : Pool n Unit Unit Unit} {refused : ℕ} {c : Call} {l : Main}
    (h : AtMain numJobs p refused c l) (hj : SameJobs p p') : AtMain numJobs p' refused c l := by
  cases l <;> simpa only [AtMain, AllIn, made, hj.next, hj.added, hj.waited] using h

theorem pushStep_sameJobs {self : Tid n Unit} {x : Input n Unit Unit} {p p' : Pool n Unit Unit Unit} {j : Ptr}
    {s s' : Push} (h : PushStep self x p j s p' s') : SameJobs p p' := by
  cases h <;> exact ⟨rfl, rfl, rfl⟩

/-- The call goes on. -/
theorem AtMain.inside {numJobs : ℤ} {m : Mem n Unit Unit Unit} {refused : ℕ} {c : Call} {l : Main}
    {x : Input n Unit Unit} {r : Mem n Unit Unit Unit × Call} (h : AtMain numJobs m.pool refused c l)
    (hx : x.call = none) (hs : callStep () x m c = some r) : AtMain numJobs r.1.pool refused r.2 l := by
  have hout : c ≠ .outside := by
    rintro rfl
    simp [callStep, hx] at hs
  have hcs := callStep_cases hs
  generalize r.1 = m' at hcs ⊢
  generalize r.2 = c' at hcs ⊢
  cases l with
  | loop k =>
    obtain ⟨hc | hc, hall, hk, hle⟩ := h
    · subst hc
      cases hcs with
      | initReady _ => exact ⟨Or.inr rfl, hall, hk, hle⟩
      | waitMove hw => cases hw
    · exact absurd hc hout
  | inAdd k =>
    obtain ⟨⟨hc, -⟩ | ⟨l, rfl, hall⟩, hk, hle⟩ := h
    · exact absurd hc hout
    · cases hcs with
      | add hs =>
        cases hs with
        | lock j _ => exact ⟨Or.inr ⟨_, rfl, hall⟩, hk, hle⟩
        | push j hs =>
          have hj := pushStep_sameJobs hs
          refine ⟨Or.inr ⟨_, rfl, fun j' hj' => ?_⟩, by rw [made, hj.next]; exact hk, hle⟩
          rw [hj.next] at hj'
          rw [hj.added]
          exact hall j' hj'
      | addReturn hs =>
        cases hs with
        | unlock j =>
          refine ⟨Or.inl ⟨rfl, fun j' hj' => ?_⟩, hk, hle⟩
          rcases hall j' hj' with h1 | h1
          · exact List.mem_append_left _ h1
          · exact List.mem_append_right _ (List.mem_singleton.mpr h1.symm)
      | waitMove hw => cases hw
  | inWait =>
    obtain ⟨⟨l, must, hc, hall⟩ | ⟨hc, -⟩, hk⟩ := h
    · rcases hc with rfl | rfl
      · cases hcs with
        | waitMove hw =>
          cases hw with
          | back l l' => exact ⟨Or.inl ⟨l', must, Or.inl rfl, hall⟩, hk⟩
          | empty l must h0 => exact ⟨Or.inl ⟨l, must, Or.inr rfl, hall⟩, hk⟩
      · cases hcs with
        | waitMove hw =>
          cases hw with
          | busy l l' => exact ⟨Or.inl ⟨l', must, Or.inl rfl, hall⟩, hk⟩
        | waitReturn must h0 => exact ⟨Or.inr ⟨rfl, must, by simp, hall⟩, hk⟩
    · exact absurd hc hout
  | print | done => exact absurd h.1 hout

/-- **A step of `main` in the pool.** -/
theorem AtMain.client {numJobs : ℤ} {s : State n Unit Unit Unit} {u u' : Test n} {x : Input n Unit Unit}
    {r : Mem n Unit Unit Unit × Call} (h : AtMain numJobs s.mem.pool u.refused (s.client ()) u.main)
    (hp : part numJobs s u (.inr (), x) = some u') (hs : callStep () x s.mem (s.client ()) = some r) :
    AtMain numJobs r.1.pool u'.refused r.2 u'.main ∧ u'.sum = u.sum ∧ u'.printed = u.printed := by
  cases hx : x.call with
  | none =>
    simp only [part, hx, Option.some.injEq] at hp
    subst hp
    exact ⟨h.inside hx hs, rfl, rfl⟩
  | some api =>
    simp only [part, hx] at hp
    split_ifs at hp with hc
    have hr : r = enter x s.mem api := by
      rw [hc] at hs
      simp only [callStep, hx] at hs
      split_ifs at hs
      exact (Option.some.inj hs).symm
    subst hr
    obtain ⟨j, hm, rfl, hlt, rfl⟩ | ⟨j, hm, rfl, hlt, rfl⟩ := mainCall_cases hp
    · refine ⟨?_, rfl, rfl⟩
      rw [hm] at h
      obtain ⟨-, hall, hk, hle⟩ := h
      have hlt : j + 1 ≤ numJobs.toNat := by omega
      cases hmal : mallocs x s.mem.pool with
      | false =>
        refine ⟨Or.inl (by simp [enter, addWork, hmal, hall]), ?_, hlt⟩
        simp only [enter, addWork, hmal, Bool.false_eq_true, if_false]
        omega
      | true =>
        refine ⟨Or.inr ⟨.lock s.mem.pool.next, by simp [enter, addWork, hmal], ?_⟩, ?_, hlt⟩
        swap
        · simp only [enter, addWork, hmal, if_true]
          show made s.mem.pool + 1 + u.refused = j + 1
          omega
        intro j' hj'
        simp only [enter, addWork, hmal, if_true] at hj' ⊢
        by_cases hn : j' < s.mem.pool.next
        · exact Or.inl (hall j' hn)
        · exact Or.inr (Nat.eq_of_le_of_lt_succ (not_lt.mp hn) hj').symm
    · refine ⟨?_, rfl, rfl⟩
      rw [hm] at h
      obtain ⟨-, hall, hk, hle⟩ := h
      refine ⟨Or.inl ⟨.continuous, s.mem.pool.added, Or.inl rfl, hall⟩, ?_⟩
      show made s.mem.pool + u.refused = numJobs.toNat
      omega

/-! ### What is printed -/

/-- A job that was executed is one of those made. -/
theorem made_of_executed {s : State n Unit Unit Unit} (h : Reach (thpool n Unit Unit Unit).lts noPause s) {j : Ptr}
    (hj : j ∈ s.mem.pool.executed.map Prod.fst) : j < made s.mem.pool := by
  have hfin := final_of_noDestroy (noDestroy_of_noPause h)
  have hpulled : j ∈ (s.mem.pool.pulled : Multiset Ptr) := by
    rw [(jobInv_reach h).pulled]
    exact Multiset.mem_add.mpr (Or.inl (Multiset.mem_add.mpr (Or.inl hj)))
  exact (queueState_reach hfin).queue.guard.data.bound j ((history hfin).2.subset hpulled)

/-- **After a `thpool_wait` for all jobs made**, the variable is their number. -/
theorem sum_of_waited {s : State n Unit Unit Unit} {u : Test n} (h : Reach (thpool n Unit Unit Unit).lts noPause s)
    (hsum : SumInv s u) (hw : ∃ must ∈ s.mem.pool.waited, AllIn s.mem.pool must) : u.sum.value = made s.mem.pool := by
  have hnd := noDestroy_of_noPause h
  have hfin := final_of_noDestroy hnd
  obtain ⟨must, hm, hall⟩ := hw
  have hfinished : ∀ j < made s.mem.pool, j ∈ s.mem.pool.finished := fun j hj =>
    (waitInv_reach hnd).waited must hm j (hall j hj)
  have hexec := (jobInv_reach h).executed
  have hsub : ∀ j ∈ s.mem.pool.finished, j ∈ s.mem.pool.executed.map Prod.fst := by
    intro j hj
    have hin : j ∈ (s.mem.pool.executed.map Prod.fst : Multiset Ptr) := by
      rw [hexec]
      exact Multiset.mem_add.mpr (Or.inl hj)
    exact hin
  -- the jobs finished are those made, each once
  have hlength : s.mem.pool.finished.length = made s.mem.pool := by
    have hnodup : s.mem.pool.finished.Nodup :=
      List.nodup_iff_count_eq_one.mpr fun j hj => (finished_once hfin hj).2
    have hperm : s.mem.pool.finished.Perm (List.range (made s.mem.pool)) := by
      refine (List.perm_ext_iff_of_nodup hnodup List.nodup_range).mpr fun j => ?_
      rw [List.mem_range]
      exact ⟨fun hj => made_of_executed h (hsub j hj), hfinished j⟩
    rw [hperm.length_eq, List.length_range]
  -- nobody executes a job: it would be one that has finished
  have hidle : ∀ i, counted (s.worker i).pos (u.sum.pos i) = 0 := by
    intro i
    cases hp : (s.worker i).pos with
    | run j f a c =>
      have hin : j ∈ ∑ k, running (s.worker k).pos :=
        Multiset.mem_sum.mpr ⟨i, Finset.mem_univ i, by rw [hp]; exact Multiset.mem_singleton_self j⟩
      have hj : j ∈ s.mem.pool.executed.map Prod.fst := by
        have : j ∈ (s.mem.pool.executed.map Prod.fst : Multiset Ptr) := by
          rw [hexec]
          exact Multiset.mem_add.mpr (Or.inr hin)
        exact this
      obtain ⟨h1, h2⟩ := finished_once hfin (hfinished j (made_of_executed h hj))
      have hcount := congrArg (Multiset.count j) hexec
      rw [Multiset.count_add, Multiset.coe_count, Multiset.coe_count, h1, h2] at hcount
      have hpos := Multiset.count_pos.mpr hin
      omega
    | _ => rfl
  rw [hsum.sum.value, hsum.writes, Finset.sum_eq_zero fun i _ => hidle i, hlength]
  simp

/-- **The program and its pool.** -/
structure Inv (numJobs : ℤ) (s : State n Unit Unit Unit) (u : Test n) : Prop where
  sum : SumInv s u
  main : AtMain numJobs s.mem.pool u.refused (s.client ()) u.main
  printed : ∀ v, u.printed = some v → v + u.refused = numJobs.toNat ∧ u.main = .done

theorem Inv.worker {numJobs : ℤ} {s : State n Unit Unit Unit} {u u' : Test n} {i : Fin n}
    {r : Mem n Unit Unit Unit × Worker Unit Unit} (h : Inv numJobs s u)
    (hs : WorkerPart i u s.mem.pool (s.worker i).pos u' r.1.pool r.2.pos) : Inv numJobs (s.moveWorker i r) u' := by
  have hsum := h.sum.worker hs
  have hrest : SameJobs s.mem.pool r.1.pool ∧ u'.refused = u.refused ∧ u'.main = u.main ∧ u'.printed = u.printed := by
    generalize (s.worker i).pos = w at hs
    generalize r.2.pos = w' at hs
    generalize r.1.pool = p' at hs ⊢
    cases hs with
    | outside _ _ hj _ => exact ⟨hj, rfl, rfl, rfl⟩
    | _ => exact ⟨⟨rfl, rfl, rfl⟩, rfl, rfl, rfl⟩
  obtain ⟨hj, h1, h2, h3⟩ := hrest
  refine ⟨hsum, ?_, fun v hv => ?_⟩
  · rw [h1, h2]
    exact h.main.same hj
  · rw [h1, h2]
    exact h.printed v (h3 ▸ hv)

theorem Inv.client {numJobs : ℤ} {s : State n Unit Unit Unit} {u u' : Test n} {x : Input n Unit Unit}
    {r : Mem n Unit Unit Unit × Call} (h : Inv numJobs s u) (hp : part numJobs s u (.inr (), x) = some u')
    (hs : callStep () x s.mem (s.client ()) = some r) : Inv numJobs (s.moveClient () r) u' := by
  obtain ⟨hmain, h1, h4⟩ := h.main.client hp hs
  have hfinished : r.1.pool.finished = s.mem.pool.finished := by
    have hcs := callStep_cases hs
    have hnot : ∀ total d, s.client () ≠ .destroy total d := by
      intro total d hc
      have hm := h.main
      rw [hc] at hm
      cases hu : u.main <;> rw [hu] at hm <;> simp [AtMain] at hm
    generalize s.client () = c at hcs hnot
    generalize r.1 = m' at hcs ⊢
    generalize r.2 = c' at hcs
    cases hcs with
    | add hs | addReturn hs => exact hs.frame.finished
    | destroy _ | destroyReturn _ => exact absurd rfl (hnot _ _)
    | _ => rfl
  refine ⟨(h.sum.client hfinished).same h1, ?_, fun v hv => ?_⟩
  · rw [moveClient_self]
    exact hmain
  · have hdone := (h.printed v (h4 ▸ hv)).2
    have hm := h.main
    rw [hdone] at hm
    obtain ⟨hc, -⟩ := hm
    -- `main` has ended: it makes no further step in the pool
    cases hx : x.call with
    | none => rw [hc] at hs; simp [callStep, hx] at hs
    | some api =>
      simp only [part, hx] at hp
      split_ifs at hp
      obtain ⟨j, hj, -⟩ | ⟨j, hj, -⟩ := mainCall_cases hp <;> rw [hdone] at hj <;> cases hj

theorem inv_reach {numJobs : ℤ} {c : State n Unit Unit Unit × Test n} (h : Reach (program n numJobs) anyStep c) :
    Inv numJobs c.1 c.2 := by
  refine User.invariant (I := Inv numJobs) ?_ ?_ ?_ h
  · rintro _ _ ⟨heap, k0, rfl⟩ rfl
    refine ⟨⟨fun i j f a c hw => by simp [Worker.created] at hw, fun i _ => rfl, Counter.inv_init,
      by simp [Pool.created, Worker.created, counted, inRun, Counter.init]⟩, ?_, fun v hv => (by cases hv)⟩
    exact ⟨Or.inl rfl, fun j hj => absurd hj (Nat.not_lt_zero j), rfl, Nat.zero_le _⟩
  · intro s u a s' u' hr hi _ hp hs
    rcases Program.next_cases hs with ⟨i, x, r, rfl, hw, rfl⟩ | ⟨k, x, r, rfl, hc, rfl⟩
    · exact hi.worker (worker_cases (inUse_reach (pool_reach hr)) (hi.sum.adds i) hp hw)
    · exact hi.client hp hc
  · intro s u b u' hr hi _ ho
    rcases b with i | k
    · change (if inRun (s.worker i).pos then increment u i else none) = some u' at ho
      split_ifs at ho with hrun
      have hsame : u'.refused = u.refused ∧ u'.main = u.main ∧ u'.printed = u.printed := by
        obtain ⟨c, -, rfl⟩ := Option.map_eq_some_iff.mp ho
        exact ⟨rfl, rfl, rfl⟩
      obtain ⟨h1, h2, h3⟩ := hsame
      refine ⟨hi.sum.increment hrun ho, ?_, fun v hv => ?_⟩
      · rw [h1, h2]; exact hi.main
      · rw [h1, h2]; exact hi.printed v (h3 ▸ hv)
    · have hm := hi.main
      have hnot : u.main ≠ .done → u.printed = none := by
        intro hd
        by_contra hne
        obtain ⟨v, hv⟩ := Option.ne_none_iff_exists'.mp hne
        exact hd (hi.printed v hv).2
      change own s u (.inr k) = some u' at ho
      simp only [own] at ho
      split at ho
      · next j hj =>
        split_ifs at ho with hc
        cases ho
        rw [hj] at hm
        obtain ⟨⟨-, hall⟩ | ⟨l, hl, -⟩, hk, hle⟩ := hm
        · refine ⟨hi.sum.same rfl,
            ⟨Or.inr hc, hall, hk, hle⟩, fun v hv => ?_⟩
          exact absurd (hv.symm.trans (hnot (by simp [hj]))) (by simp)
        · exact absurd (hc.symm.trans hl) (by simp)
      · next hj =>
        split_ifs at ho with hc
        cases ho
        rw [hj] at hm
        obtain ⟨⟨l, must, hl, -⟩ | ⟨-, hw⟩, hk⟩ := hm
        · have hc : s.client () = .outside := hc
          rcases hl with hl | hl <;> exact absurd (hc.symm.trans hl) (by simp)
        · refine ⟨hi.sum.same rfl, ⟨hc, hw, hk⟩,
            fun v hv => ?_⟩
          exact absurd (hv.symm.trans (hnot (by simp [hj]))) (by simp)
      · next hj =>
        cases ho
        rw [hj] at hm
        refine ⟨hi.sum.same rfl, hm, fun v hv => ?_⟩
        have hv : u.sum.value = v := Option.some.inj hv
        refine ⟨?_, rfl⟩
        have hsum := sum_of_waited (pool_reach hr) hi.sum hm.2.1
        have hk := hm.2.2
        show v + (u.refused : ℤ) = _
        rw [← hv, hsum]
        exact_mod_cast hk
      · cases ho

/-- **What `conc_increment` prints.** In every run of the program, whatever its arguments, however the threads are
scheduled and whichever calls of `malloc` fail: the value printed and the calls of `thpool_add_work` that were
refused add up to `num_jobs` (to `0` if that is negative). -/
theorem conc_increment_prints {numJobs : ℤ} {c : State n Unit Unit Unit × Test n}
    (h : Reach (program n numJobs) anyStep c) {v : ℤ} (hv : c.2.printed = some v) :
    v + c.2.refused = numJobs.toNat :=
  ((inv_reach h).printed v hv).1

/-- One worker and one job: `main` adds the job, the worker executes it, `main` waits and prints. -/
def printRun : List ((Tid 1 Unit × Input 1 Unit Unit) ⊕ Tid 1 Unit) :=
  let w : Tid 1 Unit := .inl (Fin.last 0)
  let d : Tid 1 Unit := .inr ()
  let pool (ts : List (Tid 1 Unit)) : List ((Tid 1 Unit × Input 1 Unit Unit) ⊕ Tid 1 Unit) :=
    (plainSteps ts).map Sum.inl
  pool [w, w, w, d] ++ [.inl (d, { call := some (.addWork () ()) })] ++ pool (List.replicate 9 d) ++ [.inr d] ++
    pool (List.replicate 19 w) ++ List.replicate 4 (.inr w) ++ pool (List.replicate 5 w) ++
    [.inl (d, { call := some .wait })] ++ pool (List.replicate 6 d) ++ [.inr d, .inr d]

theorem conc_increment_prints_printRun : ∃ c : State 1 Unit Unit Unit × Test 1,
    c.2.printed = some 1 ∧ (1 : ℤ) + c.2.refused = (1 : ℤ).toNat := by
  have h0 : (program 1 1).init (⟨⟨⟨true, false⟩, Pool.created 1 Unit fun _ => ⟨none, (), ()⟩⟩,
      fun _ => Worker.created, initClients ()⟩, ⟨Counter.init 0, .loop 0, none, 0⟩) :=
    ⟨⟨_, (), rfl⟩, rfl⟩
  obtain ⟨c, hc, hp⟩ := reach_of_run (program 1 1) anyStep_of_test printRun
    (fun c => decide (c.2.printed = some 1)) h0 (by decide)
  rw [decide_eq_true_eq] at hp
  exact ⟨c, hp, conc_increment_prints hc hp⟩

end PoolStudy.Thpool.ConcIncrement
