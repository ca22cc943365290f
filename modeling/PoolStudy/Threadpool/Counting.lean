import PoolStudy.Lib.Bump
import PoolStudy.Lib.Hosting
import PoolStudy.Threadpool.Calls
import PoolStudy.Threadpool.Rest

/-! # Programs on the ring-buffer pool whose tasks count

`tests/shutdown.c` and `tests/thrdtest.c` have the same task: it sleeps, and then changes a variable behind a mutex
(`left--` in the one, `done++` in the other). Their `main` is the only thread that calls the library. A `Script` is
such a `main`: the calls it makes, what it does with their results, and its other statements, which may use the mutex
but not write the variable.

* `Script.program`: the script with its pool.
* `JobInv`: the variable counts the tasks that have returned, and those that have written it and not yet returned.
* `Sees`: what one step is for the script; `Script.invariant`: an invariant of the script is what every `Sees` keeps. -/

namespace PoolStudy.Threadpool.Counting

open PoolStudy.Lib.Transition PoolStudy.Lib.Threads PoolStudy.Lib.Hosting PoolStudy.Lib.Bump PoolStudy.Lib.Fifo
open PoolStudy.Threadpool.Model PoolStudy.Threadpool.Steps PoolStudy.Threadpool.Queue
open PoolStudy.Threadpool.Shutdown PoolStudy.Threadpool.Rest PoolStudy.Threadpool.Calls

variable {n : ℕ} {M : Type}

/-! ### The programs -/

/-- The variable with its mutex, which `main` (`none`) uses too, and the workers whose task is back from `usleep`. -/
structure Jobs (n : ℕ) where
  var : Counter (Option (Fin n))
  awake : Fin n → Bool

/-- **`dummy_task`** on the worker `i`. -/
def Jobs.step (d : ℤ) (j : Jobs n) (i : Fin n) : Option (Jobs n) :=
  if j.awake i then (j.var.step d (some i)).map fun c => { j with var := c }
  else some ⟨j.var.enter (some i), Function.update j.awake i true⟩

/-- The worker `i` returns from its task. -/
def Jobs.leave (j : Jobs n) (i : Fin n) : Option (Jobs n) :=
  if j.awake i = true ∧ j.var.pos (some i) = .ret then
    some { j with awake := Function.update j.awake i false }
  else none

/-- `main` leaves the tasks and the variable alone. -/
structure Aside (d : ℤ) (j j' : Jobs n) : Prop where
  awake : j'.awake = j.awake
  pos : ∀ i, j'.var.pos (some i) = j.var.pos (some i)
  writes : j'.var.writes = j.var.writes
  inv : ∀ v0, j.var.Inv d v0 → j'.var.Inv d v0

/-- **A `main`**: the size of its queue, the variable at first and what a task adds to it, the call it makes where it
is and where it then waits for the result, what it does with the result, and its other statements. -/
structure Script (n : ℕ) (M : Type) where
  size : ℕ
  value : ℤ
  delta : ℤ
  first : M
  call : M → Option (Kind Unit Unit × M)
  waits : M → Option (Kind Unit Unit)
  back : M → Ret → M
  own : Jobs n → M → Option (Jobs n × M)
  waits_first : waits first = none
  waits_call : ∀ l kind l', call l = some (kind, l') → waits l' = some kind
  waits_back : ∀ l ret, waits (back l ret) = none
  waits_own : ∀ j l j' l', own j l = some (j', l') → waits l = none ∧ waits l' = none
  aside : ∀ j l j' l', own j l = some (j', l') → Aside delta j j'

/-- The tasks and where `main` is. -/
structure Test (n : ℕ) (M : Type) where
  jobs : Jobs n
  main : M

/-- The call that is asked for. -/
def asked : Api Unit Unit → Option (Kind Unit Unit)
  | .add f a => f.map fun f => .add ⟨f, a⟩
  | .destroy flags => some (.destroy flags)

/-- `main` calls the library. -/
def Script.startCall (P : Script n M) (u : Test n M) (api : Api Unit Unit) : Option (Test n M) :=
  (P.call u.main).bind fun r => if asked api = some r.1 then some { u with main := r.2 } else none

/-- `main` goes on in its call. -/
def Script.inCall (P : Script n M) (u : Test n M) (m m' : Mem n Unit Unit) : Test n M :=
  match returned m m' with
  | some ret => { u with main := P.back u.main ret }
  | none => u

/-- **The program takes part in a step of the pool.** `main` is the client `0`. -/
def Script.part (P : Script n M) (s : State n Unit Unit) (u : Test n M) (a : Tid n × Input n Unit Unit) :
    Option (Test n M) :=
  match a.1, a.2.call with
  | .inl i, none =>
    match runs (s.worker i) with
    | some _ => (u.jobs.leave i).map fun j => { u with jobs := j }
    | none => some u
  | .inl _, some _ => none
  | .inr k, some api => if k = 0 ∧ (s.client k).isOutside = true then P.startCall u api else none
  | .inr k, none =>
    if k = 0 then (callStep (.inr k) a.2 s.mem (s.client k)).map fun r => P.inCall u s.mem r.1 else none

/-- **A step of the program alone**, by `main` or by a worker in its task. -/
def Script.alone (P : Script n M) (s : State n Unit Unit) (u : Test n M) : Option (Fin n) → Option (Test n M)
  | none => (P.own u.jobs u.main).map fun r => ⟨r.1, r.2⟩
  | some i =>
    if (runs (s.worker i)).isSome then (u.jobs.step P.delta i).map fun j => { u with jobs := j } else none

/-- The program beside the pool. -/
def Script.user (P : Script n M) :
    User (State n Unit Unit) (Tid n × Input n Unit Unit) (Test n M) (Option (Fin n)) where
  init u := u = ⟨⟨Counter.init P.value, fun _ => false⟩, P.first⟩
  part := P.part
  own := P.alone

/-- **The program with its pool.** -/
abbrev Script.program (P : Script n M) := P.user.lts (poolOf n Unit Unit P.size)

/-- The pthread calls of the pool succeed. -/
def callsOk (_ : State n Unit Unit × Test n M) : (Tid n × Input n Unit Unit) ⊕ Option (Fin n) → Prop
  | .inl a => a.2.Ok
  | .inr _ => True

/-- The test for such a step. -/
def callsOkTest (_ : State n Unit Unit × Test n M) : (Tid n × Input n Unit Unit) ⊕ Option (Fin n) → Bool
  | .inl a => decide a.2.Ok
  | .inr _ => true

theorem callsOk_of_test (c : State n Unit Unit × Test n M) (a : (Tid n × Input n Unit Unit) ⊕ Option (Fin n))
    (h : callsOkTest c a = true) : callsOk c a := by
  cases a with
  | inl a => simpa only [callsOkTest, callsOk, decide_eq_true_eq] using h
  | inr b => trivial

theorem pool_reach {P : Script n M} {c : State n Unit Unit × Test n M} (h : Reach P.program callsOk c) :
    Reach (threadpool n Unit Unit).lts pthreadOk c.1 ∧ c.1.mem.pool.queueSize = P.size :=
  reach_poolOf (User.reach (fun _ _ _ _ hok _ => hok) h)

/-! ### The tasks -/

/-- The task has written the variable. -/
def wrote (p : Bool × Bumping) : ℕ := if p.1 then p.2.bumped else 0

/-- Where the worker is in its task. -/
def Jobs.place (j : Jobs n) (i : Fin n) : Bool × Bumping := (j.awake i, j.var.pos (some i))

/-- **The tasks count.** -/
structure JobInv (d v0 : ℤ) (s : State n Unit Unit) (j : Jobs n) : Prop where
  bare : ∀ i t c, s.worker i = .run t c → c = .outside
  idle : ∀ i, runs (s.worker i) = none → j.awake i = false
  quiet : ∀ i, j.awake i = false → j.var.pos (some i) = .ret
  var : j.var.Inv d v0
  writes : j.var.writes = s.mem.done.length + ∑ i, wrote (j.place i)

section Jobs

variable {d v0 : ℤ} {s : State n Unit Unit} {j j' : Jobs n} {i : Fin n}

/-- **A worker moves in its task**, from one place to another. -/
structure Moves (i : Fin n) (p : Bool × Bumping) (j j' : Jobs n) : Prop where
  awake : j'.awake = Function.update j.awake i p.1
  pos : j'.var.pos = Function.update j.var.pos (some i) p.2

theorem Moves.place {p : Bool × Bumping} (h : Moves i p j j') : j'.place = Function.update j.place i p := by
  funext k
  by_cases hk : k = i
  · subst hk
    simp [Jobs.place, h.awake, h.pos]
  · simp [Jobs.place, h.awake, h.pos, hk]

theorem Moves.sum {p : Bool × Bumping} (h : Moves i p j j') :
    ∑ k, wrote (j'.place k) + wrote (j.place i) = ∑ k, wrote (j.place k) + wrote p := by
  rw [h.place]
  exact sum_update (fun _ => wrote) j.place i p

/-- What is known of the workers after one of them has moved. -/
theorem JobInv.quiet_move (h : JobInv d v0 s j) {p : Bool × Bumping} (hm : Moves i p j j')
    (hp : p.1 = false → p.2 = .ret) (k : Fin n) (hk : j'.awake k = false) : j'.var.pos (some k) = .ret := by
  have hplace := congrFun hm.place k
  by_cases hki : k = i
  · subst hki
    rw [Function.update_self] at hplace
    obtain ⟨h1, h2⟩ := Prod.mk.inj hplace
    rw [h2]
    exact hp (h1.symm.trans hk)
  · rw [Function.update_of_ne hki] at hplace
    obtain ⟨h1, h2⟩ := Prod.mk.inj hplace
    rw [h2]
    exact h.quiet k (h1.symm.trans hk)

/-- **A statement of `dummy_task`.** -/
theorem JobInv.step (h : JobInv d v0 s j) (hr : (runs (s.worker i)).isSome = true) (hs : j.step d i = some j') :
    JobInv d v0 s j' ∧ j.var.writes ≤ j'.var.writes ∧ j'.var.pos none = j.var.pos none := by
  have hidle : ∀ p, Moves i p j j' → ∀ k, runs (s.worker k) = none → j'.awake k = false := by
    intro p hm k hk
    have hne : k ≠ i := by
      rintro rfl
      rw [hk] at hr
      cases hr
    rw [hm.awake, Function.update_of_ne hne]
    exact h.idle k hk
  unfold Jobs.step at hs
  split_ifs at hs with hawake
  · obtain ⟨c, hc, rfl⟩ := Option.map_eq_some_iff.mp hs
    obtain ⟨l, hpos, -, hw⟩ := Counter.step_cases hc
    have hle := Counter.step_bumped hc
    have hm : Moves i (true, l) j { j with var := c } :=
      ⟨by rw [← hawake, Function.update_eq_self], hpos⟩
    have hsum := hm.sum
    have hwrites := h.writes
    rw [hpos, Function.update_self] at hle
    refine ⟨⟨h.bare, hidle _ hm, h.quiet_move hm (by simp), h.var.step hc, ?_⟩, ?_, ?_⟩
    · simp only [wrote, Jobs.place, hawake, if_true] at hsum hwrites ⊢
      omega
    · show j.var.writes ≤ c.writes
      omega
    · show c.pos none = _
      rw [hpos, Function.update_of_ne (by simp)]
  · cases hs
    simp only [Bool.not_eq_true] at hawake
    have hm : Moves i (true, .lock) j ⟨j.var.enter (some i), Function.update j.awake i true⟩ := ⟨rfl, rfl⟩
    have hsum := hm.sum
    have hwrites := h.writes
    refine ⟨⟨h.bare, hidle _ hm, h.quiet_move hm (by simp), h.var.enter (h.quiet i hawake), ?_⟩, le_rfl, ?_⟩
    · rw [show wrote (j.place i) = 0 by simp [wrote, Jobs.place, hawake]] at hsum
      rw [show wrote (true, Bumping.lock) = 0 from rfl] at hsum
      show j.var.writes = _
      omega
    · rw [hm.pos, Function.update_of_ne (by simp)]

/-- `main` outside of its calls. -/
theorem JobInv.aside (h : JobInv d v0 s j) (ha : Aside d j j') : JobInv d v0 s j' := by
  refine ⟨h.bare, ?_, ?_, ha.inv v0 h.var, ?_⟩
  · rw [ha.awake]
    exact h.idle
  · intro i hi
    rw [ha.pos]
    exact h.quiet i (by rw [← ha.awake]; exact hi)
  · have hplace : j'.place = j.place := by
      funext i
      simp only [Jobs.place, ha.awake, ha.pos]
    rw [ha.writes, hplace]
    exact h.writes

/-- A step of `main` in the pool. -/
theorem JobInv.client (h : JobInv d v0 s j) {k : ℕ} {r : Mem n Unit Unit × Call Unit Unit}
    (hd : r.1.done = s.mem.done) : JobInv d v0 (s.moveClient k r) j := by
  refine ⟨h.bare, h.idle, h.quiet, h.var, ?_⟩
  rw [show (s.moveClient k r).mem.done = _ from hd]
  exact h.writes

/-- **A step of a worker in the pool.** -/
theorem JobInv.worker {P : Script n M} {u u' : Test n M} {x : Input n Unit Unit}
    {r : Mem n Unit Unit × Worker Unit Unit} (h : JobInv d v0 s u.jobs) (hcall : x.call = none)
    (hp : P.part s u (.inl i, x) = some u') (he : WorkerEffect s.mem r.1 (s.worker i) r.2) :
    JobInv d v0 (s.moveWorker i r) u'.jobs ∧ r.1.accepted = s.mem.accepted ∧
      u' = { u with jobs := u'.jobs } ∧ u'.jobs.var = u.jobs.var := by
  simp only [Script.part, hcall] at hp
  have hsame : runs (s.worker i) = none → u' = u := by
    intro hr
    rw [hr] at hp
    exact (Option.some.inj hp).symm
  have hbare : (∀ t c, r.2 = .run t c → c = .outside) →
      ∀ k t c, (s.moveWorker i r).worker k = .run t c → c = .outside := by
    intro hr
    exact forall_moveWorker (P := fun _ (w : Worker Unit Unit) => ∀ t c, w = .run t c → c = .outside) hr
      fun k _ => h.bare k
  have hidle : ∀ b : Fin n → Bool, (runs r.2 = none → b i = false) → (∀ k, k ≠ i → b k = u.jobs.awake k) →
      ∀ k, runs ((s.moveWorker i r).worker k) = none → b k = false := by
    intro b hi hk
    refine forall_moveWorker (P := fun k (w : Worker Unit Unit) => runs w = none → b k = false) hi fun k hne hw => ?_
    rw [hk k hne]
    exact h.idle k hw
  generalize hw : s.worker i = w at he hp hsame
  generalize hw' : r.2 = w' at he hbare hidle
  cases he with
  | grabs hr hpend ha hd =>
    obtain rfl := hsame hr
    have hawake := h.idle i (by rw [hw]; exact hr)
    refine ⟨⟨hbare (fun t c hc => by cases hc; rfl), hidle _ (fun _ => hawake) (fun _ _ => rfl), h.quiet, h.var, ?_⟩,
      ha, rfl, rfl⟩
    rw [show (s.moveWorker i r).mem.done = _ from hd]
    exact h.writes
  | finishes hr hpend ha hd =>
    simp only [runs, Option.map_eq_some_iff, Jobs.leave] at hp
    obtain ⟨j', hj, rfl⟩ := hp
    split_ifs at hj with hleave
    cases hj
    have hm : Moves i (false, .ret) u.jobs { u.jobs with awake := Function.update u.jobs.awake i false } :=
      ⟨rfl, by rw [← hleave.2, Function.update_eq_self]⟩
    have hsum := hm.sum
    have hwrites := h.writes
    refine ⟨⟨hbare (fun t c hc => by rw [hc] at hr; cases hr), hidle _ (fun _ => Function.update_self ..)
      (fun k hk => Function.update_of_ne hk _ _), h.quiet_move hm (fun _ => rfl), h.var, ?_⟩, ha, rfl, rfl⟩
    rw [show (s.moveWorker i r).mem.done = _ from hd, List.length_append, List.length_singleton]
    rw [show wrote (u.jobs.place i) = 1 by simp [wrote, Jobs.place, hleave.1, hleave.2, Bumping.bumped]] at hsum
    rw [show wrote (false, Bumping.ret) = 0 from rfl] at hsum
    change u.jobs.var.writes =
      _ + ∑ k, wrote (Jobs.place { u.jobs with awake := Function.update u.jobs.awake i false } k)
    omega
  | idles hr hr' ht =>
    obtain rfl := hsame hr
    have hawake := h.idle i (by rw [hw]; exact hr)
    refine ⟨⟨hbare (fun t c hc => by rw [hc] at hr'; cases hr'), hidle _ (fun _ => hawake) (fun _ _ => rfl), h.quiet,
      h.var, ?_⟩, ht.accepted, rfl, rfl⟩
    rw [show (s.moveWorker i r).mem.done = _ from ht.done]
    exact h.writes

/-- **When the workers have ended**, the variable counts the tasks executed, and no task has the mutex. -/
theorem JobInv.ended (h : JobInv d v0 s j) (hx : ∀ i, s.worker i = .exited) :
    j.var.value = v0 + d * s.mem.done.length ∧ ∀ i, j.var.pos (some i) = .ret := by
  have hawake : ∀ i, j.awake i = false := fun i => h.idle i (by rw [hx i]; rfl)
  refine ⟨?_, fun i => h.quiet i (hawake i)⟩
  rw [h.var.value, h.writes, Finset.sum_eq_zero fun i _ => by simp [wrote, Jobs.place, hawake i], add_zero]

end Jobs

/-! ### What the script sees -/

/-- **A step as the script sees it**: the tasks go on; `main` executes a statement, makes a call, waits for it, or is
back from it. -/
inductive Sees (P : Script n M) (m : Mem n Unit Unit) (u : Test n M) (m' : Mem n Unit Unit) : Test n M → Prop
  | task {i : Fin n} {j : Jobs n} (hi : i ∉ m.exited) (ha : m'.accepted = m.accepted)
      (hs : m'.pool.shutdown = m.pool.shutdown) (hw : u.jobs.var.writes ≤ j.var.writes)
      (hpos : j.var.pos none = u.jobs.var.pos none) : Sees P m u m' { u with jobs := j }
  | own {j : Jobs n} {l : M} (h : P.own u.jobs u.main = some (j, l)) (hm : m' = m) : Sees P m u m' ⟨j, l⟩
  | call {kind : Kind Unit Unit} {l : M} (h : P.call u.main = some (kind, l)) (hm : m' = m) :
      Sees P m u m' { u with main := l }
  | goes {kind : Kind Unit Unit} (h : P.waits u.main = some kind) (ha : m'.accepted = m.accepted)
      (hs : m'.pool.shutdown = m.pool.shutdown ∨ ∃ f, kind = .destroy f) : Sees P m u m' u
  | added {t : Task Unit Unit} (h : P.waits u.main = some (.add t)) (ha : m'.accepted = m.accepted ++ [t])
      (hs : m'.pool.shutdown = none) : Sees P m u m' { u with main := P.back u.main none }
  | full {t : Task Unit Unit} (h : P.waits u.main = some (.add t)) (hf : m.pool.count = m.pool.queueSize)
      (ha : m'.accepted = m.accepted) (hs : m'.pool.shutdown = none) :
      Sees P m u m' { u with main := P.back u.main (some .queueFull) }
  | destroyed {f : BitVec 32} (h : P.waits u.main = some (.destroy f)) (ha : m'.accepted = m.accepted)
      (hd : (f, none) ∈ m'.destroys) : Sees P m u m' { u with main := P.back u.main none }

/-- **The program and its pool**: the tasks count, `main` is in the pool where it waits, and it adds tasks only before
the shutdown. -/
structure Inv (P : Script n M) (s : State n Unit Unit) (u : Test n M) : Prop where
  jobs : JobInv P.delta P.value s u.jobs
  call : InCall s.mem (P.waits u.main) (s.client 0)
  early : ∀ t, P.waits u.main = some (.add t) → s.mem.pool.shutdown = none

section Steps

variable {P : Script n M} {s s' : State n Unit Unit} {u u' : Test n M}

/-- **A step of a worker.** -/
theorem Inv.worker (h : Inv P s u) {i : Fin n} {x : Input n Unit Unit} {r : Mem n Unit Unit × Worker Unit Unit}
    (hring : RingOk s.mem.pool) (hwork : WorkInv s.mem s.worker) (hp : P.part s u (.inl i, x) = some u')
    (hs : workerStep i x s.mem (s.worker i) = some r) :
    Inv P (s.moveWorker i r) u' ∧ Sees P s.mem u r.1 u' := by
  have hcall : x.call = none := by
    by_contra hne
    obtain ⟨api, hx⟩ := Option.ne_none_iff_exists'.mp hne
    simp [Script.part, hx] at hp
  have hlive : i ∉ s.mem.exited := by
    rw [hwork.exited]
    intro hw
    rw [hw] at hs
    cases hs
  obtain ⟨heff, hshut⟩ := workerStep_effect hring hcall (h.jobs.bare i) hs
  obtain ⟨hjobs, hacc, hu, hvar⟩ := h.jobs.worker hcall hp heff
  have hmain : u'.main = u.main := by rw [hu]
  refine ⟨⟨hjobs, ?_, ?_⟩, ?_⟩
  · rw [hmain]
    exact h.call.same hshut
  · rw [hmain]
    exact fun t ht => hshut.trans (h.early t ht)
  · rw [hu]
    exact .task hlive hacc hshut (by rw [hvar]) (by rw [hvar])

/-- `main` makes a call. -/
theorem Inv.enter (h : Inv P s u) {x : Input n Unit Unit} {api : Api Unit Unit}
    {r : Mem n Unit Unit × Call Unit Unit} (hx : x.call = some api) (hout : (s.client 0).isOutside = true)
    (hopen : ∀ kind l, P.call u.main = some (kind, l) → s.mem.pool.shutdown = none)
    (hp : P.startCall u api = some u') (hs : callStep (.inr 0) x s.mem (s.client 0) = some r) :
    Inv P (s.moveClient 0 r) u' ∧ Sees P s.mem u r.1 u' := by
  obtain ⟨⟨kind, l⟩, hcall, hp⟩ := Option.bind_eq_some_iff.mp hp
  split_ifs at hp with hasked
  cases hp
  have hshut := hopen kind l hcall
  have hc : s.client 0 = .outside := by
    cases hc : s.client 0 <;> rw [hc] at hout <;> first | rfl | cases hout
  rw [hc] at hs
  obtain rfl := callStep_entry hx hs
  refine ⟨⟨h.jobs.client rfl, ?_, fun _ _ => hshut⟩, .call hcall rfl⟩
  rw [P.waits_call _ _ _ hcall, moveClient_self]
  rcases api with ⟨_ | f, a⟩ | flags
  · cases hasked
  · cases hasked
    exact Or.inl rfl
  · cases hasked
    exact Or.inl ⟨Or.inl rfl, hshut⟩

/-- **`main` goes on in its call.** -/
theorem Inv.inCall (h : Inv P s u) {x : Input n Unit Unit} {r : Mem n Unit Unit × Call Unit Unit} (hx : x.Ok)
    (hcall : x.call = none) (hring : RingOk s.mem.pool)
    (hs : callStep (.inr 0) x s.mem (s.client 0) = some r) :
    Inv P (s.moveClient 0 r) (P.inCall u s.mem r.1) ∧ Sees P s.mem u r.1 (P.inCall u s.mem r.1) := by
  have hin := h.call
  cases hkind : P.waits u.main with
  | none =>
    rw [hkind] at hin
    rw [show s.client 0 = .outside from hin, callStep_idle hcall] at hs
    cases hs
  | some kind =>
    rw [hkind] at hin
    have hearly : ∀ t, kind = .add t → s.mem.pool.shutdown = none := fun t ht => h.early t (by rw [hkind, ht])
    have heff := callStep_effect hx hring hin hearly (callStep_cases hs).2
    -- a call that has returned leaves `main` outside of the pool
    have hback : ∀ ret, r.2 = .outside → r.1.done = s.mem.done →
        Inv P (s.moveClient 0 r) { u with main := P.back u.main ret } := by
      intro ret hr hd
      refine ⟨h.jobs.client hd, ?_, fun t ht => ?_⟩
      · rw [P.waits_back, moveClient_self]
        exact hr
      · rw [P.waits_back] at ht
        cases ht
    generalize hr2 : r.2 = c at heff hback
    cases heff with
    | goes hr hc ht hsh =>
      rw [Script.inCall, hr]
      refine ⟨⟨h.jobs.client ht.done, ?_, fun t hadd => ?_⟩, .goes hkind ht.accepted hsh⟩
      · rw [hkind, moveClient_self, hr2]
        exact hc
      · rcases hsh with hsh | ⟨f, rfl⟩
        · exact hsh.trans (h.early t hadd)
        · rw [hkind] at hadd
          cases hadd
    | adds hr hp ha hd hsh =>
      rw [Script.inCall, hr]
      exact ⟨hback none rfl hd, .added hkind ha (hsh.trans (hearly _ rfl))⟩
    | full hr hf ht hsh =>
      rw [Script.inCall, hr]
      exact ⟨hback _ rfl ht.done, .full hkind hf ht.accepted (hsh.trans (hearly _ rfl))⟩
    | destroys hr ht hd =>
      rw [Script.inCall, hr]
      exact ⟨hback none rfl ht.done, .destroyed hkind ht.accepted hd⟩

/-- **A step of the program alone.** -/
theorem Inv.alone (h : Inv P s u) (hwork : WorkInv s.mem s.worker) {b : Option (Fin n)}
    (hs : P.alone s u b = some u') :
    Inv P s u' ∧ Sees P s.mem u s.mem u' := by
  cases b with
  | none =>
    obtain ⟨⟨j, l⟩, hown, rfl⟩ := Option.map_eq_some_iff.mp hs
    obtain ⟨h1, h2⟩ := P.waits_own _ _ _ _ hown
    have hcall := h.call
    rw [h1] at hcall
    refine ⟨⟨h.jobs.aside (P.aside _ _ _ _ hown), ?_, fun t ht => ?_⟩, .own hown rfl⟩
    · rw [h2]
      exact hcall
    · rw [h2] at ht
      cases ht
  | some i =>
    simp only [Script.alone] at hs
    split_ifs at hs with hr
    obtain ⟨j, hj, rfl⟩ := Option.map_eq_some_iff.mp hs
    obtain ⟨hjobs, hw, hpos⟩ := h.jobs.step hr hj
    have hlive : i ∉ s.mem.exited := by
      rw [hwork.exited]
      intro hw
      rw [hw] at hr
      cases hr
    exact ⟨⟨hjobs, h.call, h.early⟩, .task hlive rfl rfl hw hpos⟩

/-- **The invariants of a script** are those that every step keeps as the script sees it. Where `main` makes a call
the pool must not have been shut down. -/
theorem Script.invariant (P : Script n M) {I : Mem n Unit Unit → Test n M → Prop}
    (h0 : ∀ queue, I (created n P.size queue) ⟨⟨Counter.init P.value, fun _ => false⟩, P.first⟩)
    (hopen : ∀ m u kind l, I m u → P.call u.main = some (kind, l) → m.pool.shutdown = none)
    (hstep : ∀ s u m' u', Reach P.program callsOk (s, u) → Inv P s u → I s.mem u → Sees P s.mem u m' u' → I m' u')
    {c : State n Unit Unit × Test n M} (h : Reach P.program callsOk c) : Inv P c.1 c.2 ∧ I c.1.mem c.2 := by
  refine User.invariant (I := fun s u => Inv P s u ∧ I s.mem u) ?_ ?_ ?_ h
  · rintro _ _ ⟨queue, rfl⟩ rfl
    refine ⟨⟨⟨fun i t c hw => (by cases hw), fun _ _ => rfl, fun _ _ => rfl, Counter.inv_init, ?_⟩, ?_, fun t ht => ?_⟩,
      h0 queue⟩
    · simp [created, Counter.init, wrote, Jobs.place]
    · rw [P.waits_first]
      rfl
    · rfl
  · rintro s u a s' u' hr ⟨hi, hI⟩ hok hp hs
    have hring := (refines_fifo ((pool_reach hr).1.mono announces_of_ok)).1
    rcases Program.next_cases hs with ⟨i, x, r, rfl, hw, rfl⟩ | ⟨k, x, r, rfl, hc, rfl⟩
    · obtain ⟨h1, h2⟩ := hi.worker hring (shutInv_reach (pool_reach hr).1).work hp hw
      exact ⟨h1, hstep s u _ u' hr hi hI h2⟩
    · change P.part s u (.inr k, x) = some u' at hp
      cases hx : x.call with
      | some api =>
        simp only [Script.part, hx] at hp
        split_ifs at hp with hk
        obtain ⟨rfl, hout⟩ := hk
        obtain ⟨h1, h2⟩ := hi.enter hx hout (fun kind l => hopen _ _ kind l hI) hp hc
        exact ⟨h1, hstep s u _ u' hr hi hI h2⟩
      | none =>
        simp only [Script.part, hx] at hp
        split_ifs at hp with hk
        subst hk
        have hc' : callStep (.inr 0) x s.mem (s.client 0) = some r := hc
        rw [hc', Option.map_some, Option.some.injEq] at hp
        subst hp
        obtain ⟨h1, h2⟩ := hi.inCall hok hx hring hc'
        exact ⟨h1, hstep s u _ _ hr hi hI h2⟩
  · rintro s u b u' hr ⟨hi, hI⟩ - ho
    obtain ⟨h1, h2⟩ := hi.alone (shutInv_reach (pool_reach hr).1).work ho
    exact ⟨h1, hstep s u _ u' hr hi hI h2⟩

/-! ### What is known of the tasks -/

/-- The tasks waiting are among those accepted. -/
theorem count_le {c : State n Unit Unit × Test n M} (h : Reach P.program callsOk c) :
    c.1.mem.pool.count ≤ c.1.mem.accepted.length := by
  obtain ⟨hok, hfifo⟩ := refines_fifo ((pool_reach h).1.mono announces_of_ok)
  have hacc : c.1.mem.accepted = c.1.mem.dequeued ++ c.1.mem.pool.pending := (fifo_history hfifo).1
  have hlen := hok.length_pending
  rw [hacc, List.length_append]
  omega

/-- **After the call of `threadpool_destroy`** every worker has ended, the variable counts the tasks executed, which are
accepted ones, all of them if the shutdown was graceful. -/
theorem Inv.destroyed (h : Inv P s u) (hr : Reach P.program callsOk (s, u)) (hn : 0 < n) {f : BitVec 32}
    (hf : (f, none) ∈ s.mem.destroys) :
    (∀ i, s.worker i = .exited) ∧ u.jobs.var.value = P.value + P.delta * s.mem.done.length ∧
      (∀ i, u.jobs.var.pos (some i) = .ret) ∧ s.mem.done.length ≤ s.mem.accepted.length ∧
      (shutdownOf f = .gracefulShutdown → s.mem.done.length = s.mem.accepted.length) := by
  have hpool : Reach (threadpool n Unit Unit).lts pthreadOk s := (pool_reach hr).1
  have hshut := shutInv_reach hpool
  obtain ⟨hsd, hall, -⟩ := hshut.returned f hf
  have hexited : ∀ i, s.worker i = .exited := fun i => (hshut.work.exited i).mp (hall i)
  obtain ⟨hval, hpos⟩ := h.jobs.ended hexited
  obtain ⟨hok, hfifo⟩ := refines_fifo (hpool.mono announces_of_ok)
  have hacc : s.mem.accepted = s.mem.dequeued ++ s.mem.pool.pending := (fifo_history hfifo).1
  have hperm := (hshut.work.dequeued_perm hall).length_eq
  refine ⟨hexited, hval, hpos, ?_, fun hg => ?_⟩
  · rw [hacc, List.length_append]
    omega
  · rcases atRest_of_returned hn hpool hf with ⟨hnone, -⟩ | ⟨f', hf', -, -, hdone⟩
    · rw [hsd] at hnone
      cases hnone
    · refine (hdone ?_).length_eq
      have hsd' := (hshut.returned f' hf').1
      rw [hsd, Option.some.injEq] at hsd'
      rw [← hsd', hg]

end Steps

end PoolStudy.Threadpool.Counting
