import PoolStudy.Lib.Relay
import PoolStudy.Heavy.Pools

/-! # `heavy`: the tasks

The invariant of the program (`Inv`) rests on a function `place` that tells for every task where it is: not yet added,
in a pool, in the hands of a worker, or over (`Lib.Relay`). A worker writes `tasks[k]` only while it has the task `k`
in its hands, so that the value is known from the place, and `left` counts the tasks that are not over.

Here are the steps of the program that leave the pools alone, `dummy_task` and `main` outside of their calls. -/

namespace PoolStudy.Heavy

open PoolStudy.Lib.Threads PoolStudy.Lib.Bump PoolStudy.Lib.Relay
open PoolStudy.Threadpool.Model PoolStudy.Threadpool.Calls

variable {n Q S : ℕ}

/-- The tasks of the pools. -/
def queues (s : Pools n Q S) (q : Fin Q) : List (Fin S) := waiting (s q).mem

/-- The worker has passed its task on. -/
def handed (u : Test n Q S) (p : Fin Q × Fin n) : Bool :=
  match u.job p with
  | .ret => true
  | .dec => decide ((u.left.pos (some p)).bumped = 1)
  | _ => false

/-- The task a worker has in its hands. -/
def hold (s : Pools n Q S) (u : Test n Q S) (p : Fin Q × Fin n) : Option (Fin S) :=
  if handed u p then none else argument (workers s p)

/-- The tasks that `main` has not added yet. -/
def todo : Main Q S → Fin S → Prop
  | .loop i, k => i ≤ k
  | .add j, k | .inAdd j, k => j ≤ k
  | _, _ => False

/-- `main` has left its loop. -/
def late : Main Q S → Prop
  | .destroy _ | .inDestroy _ | .done => True
  | _ => False

/-- `main` has not begun to destroy the pool `q`. -/
def untouched (q : Fin Q) : Main Q S → Prop
  | .destroy j => j ≤ q
  | .inDestroy j => j < q
  | .done => False
  | _ => True

/-- **The value of `tasks[k]`** while a worker of the pool `q` has the task. -/
def JobAt (q : Fin Q) (v : ℕ) : Job Q → Prop
  | .load => v = q
  | .store w => v = q ∧ w = q
  | .test => v = q + 1
  | .index => v = q + 1 ∧ v < Q
  | .add r | .inAdd r => v = q + 1 ∧ v = r
  | .dec => v = q + 1 ∧ v = Q
  | .ret => False

/-- **The value of `tasks[k]`** is the number of pools the task has passed. -/
def ValueAt (u : Test n Q S) (v : ℕ) : Place (Fin Q) (Fin Q × Fin n) → Prop
  | .out => v = 0
  | .queued q => v = q
  | .held p => JobAt p.1 v (u.job p)
  | .over => v = Q

/-- The number of pools to which a task has been added. -/
def level : Place (Fin Q) (Fin Q × Fin n) → ℕ
  | .out => 0
  | .queued q => q + 1
  | .held p => p.1 + 1
  | .over => Q

/-- The call a thread makes on the pool `q`. -/
def calling (s : Pools n Q S) (u : Test n Q S) (q : Fin Q) : Thread n Q → Option (Kind Unit (Fin S))
  | none =>
    match u.main with
    | .inAdd k => if q.val = 0 then some (.add ⟨(), k⟩) else none
    | .inDestroy r => if r = q then some (.destroy 0) else none
    | _ => none
  | some p => if u.job p = .inAdd q then (argument (workers s p)).map fun k => .add ⟨(), k⟩ else none

/-- **The program in a configuration.** -/
structure Inv (place : Fin S → Place (Fin Q) (Fin Q × Fin n)) (s : Pools n Q S) (u : Test n Q S) : Prop where
  placed : Placed place (todo u.main) (queues s) (hold s u)
  value : ∀ k, ValueAt u (u.tasks k) (place k)
  added : ∀ q k, (added (s q).mem).count k = if q.val < level (place k) then 1 else 0
  bare : ∀ p t c, workers s p = .run t c → c = .outside
  idle : ∀ p, argument (workers s p) = none → u.job p = .load
  calls : ∀ q th, InCall (s q).mem (calling s u q th) (clients s q (Encodable.encode th))
  shut : ∀ q, untouched q u.main → (s q).mem.pool.shutdown = none
  left : u.left.Inv (-1) S
  writes : u.left.writes = (Finset.univ.filter fun k => place k = .over).card
  quiet : ∀ p, u.job p ≠ .dec → u.left.pos (some p) = .ret
  quietMain : u.main ≠ .look → u.left.pos none = .ret
  copy : u.copy ≤ 0 → ∀ k, place k = .over
  late : late u.main → ∀ k, place k = .over
  passed : u.failed = false

variable {place : Fin S → Place (Fin Q) (Fin Q × Fin n)} {s s' : Pools n Q S} {u u' : Test n Q S}
  {p : Fin Q × Fin n} {k : Fin S}

/-- The tasks in the hands of the workers when the worker `p` moves. -/
theorem hold_move (hw : ∀ r, r ≠ p → workers s' r = workers s r) (hj : ∀ r, r ≠ p → u'.job r = u.job r)
    (hl : ∀ r, r ≠ p → u'.left.pos (some r) = u.left.pos (some r)) :
    hold s' u' = Function.update (hold s u) p (hold s' u' p) := by
  funext r
  by_cases hr : r = p
  · subst hr
    rw [Function.update_self]
  · rw [Function.update_of_ne hr]
    unfold hold handed
    rw [hj r hr, hl r hr, hw r hr]

/-- The value of a task that is not in the hands of `p`. -/
theorem ValueAt.move {v : ℕ} {x : Place (Fin Q) (Fin Q × Fin n)} (h : ValueAt u v x) (hx : x ≠ .held p)
    (hj : ∀ r, r ≠ p → u'.job r = u.job r) : ValueAt u' v x := by
  cases x with
  | held r =>
    have hr : r ≠ p := by
      rintro rfl
      exact hx rfl
    show JobAt r.1 v (u'.job r)
    rw [hj r hr]
    exact h
  | _ => exact h

/-- The calls of the threads when the worker `p` moves outside of its call. -/
theorem calling_move (hw : ∀ r, r ≠ p → workers s' r = workers s r) (hm : u'.main = u.main)
    (hj : ∀ r, r ≠ p → u'.job r = u.job r) {q : Fin Q} (h : u.job p ≠ .inAdd q)
    (h' : u'.job p ≠ .inAdd q) (th : Thread n Q) :
    calling s' u' q th = calling s u q th := by
  cases th with
  | none => simp [calling, hm]
  | some r =>
    by_cases hr : r = p
    · subst hr
      simp [calling, h, h']
    · simp [calling, hj r hr, hw r hr]

/-- **The worker `p` moves in `dummy_task`** and keeps its task, or has passed it on before. -/
theorem Inv.job (h : Inv place s u) (hm : u'.main = u.main) (hc : u'.copy = u.copy) (hf : u'.failed = u.failed)
    (hj : ∀ r, r ≠ p → u'.job r = u.job r) (hl : ∀ r, r ≠ some p → u'.left.pos r = u.left.pos r)
    (hwork : argument (workers s p) ≠ none) (hin : ∀ q, u.job p ≠ .inAdd q) (hin' : ∀ q, u'.job p ≠ .inAdd q)
    (hold' : hold s u' p = hold s u p) (hv : ∀ k, hold s u p ≠ some k → u'.tasks k = u.tasks k)
    (hvk : ∀ k, hold s u p = some k → JobAt p.1 (u'.tasks k) (u'.job p)) (hleft : u'.left.Inv (-1) S)
    (hw : u'.left.writes = u.left.writes) (hquiet : u'.job p ≠ .dec → u'.left.pos (some p) = .ret) :
    Inv place s u' := by
  have hl' : ∀ r, r ≠ p → u'.left.pos (some r) = u.left.pos (some r) := fun r hr => hl (some r) (by simpa using hr)
  refine ⟨?_, fun k => ?_, h.added, h.bare, fun r hr => ?_, fun q th => ?_, ?_, hleft, hw.trans h.writes,
    fun r hr => ?_, fun hmain => ?_, ?_, ?_, hf.trans h.passed⟩
  · rw [hm, hold_move (fun _ _ => rfl) hj hl', hold', Function.update_eq_self]
    exact h.placed
  · by_cases hk : place k = .held p
    · rw [hk]
      exact hvk k ((h.placed.held p k).mp hk)
    · rw [hv k fun hp => hk ((h.placed.held p k).mpr hp)]
      exact (h.value k).move hk hj
  · have hrp : r ≠ p := by
      rintro rfl
      exact hwork hr
    rw [hj r hrp]
    exact h.idle r hr
  · rw [calling_move (fun _ _ => rfl) hm hj (hin q) (hin' q) th]
    exact h.calls q th
  · rw [hm]
    exact h.shut
  · by_cases hrp : r = p
    · subst hrp
      exact hquiet hr
    · rw [hl' r hrp]
      exact h.quiet r (by rwa [hj r hrp] at hr)
  · rw [hl none (by simp)]
    exact h.quietMain (by rwa [hm] at hmain)
  · rw [hc]
    exact h.copy
  · rw [hm]
    exact h.late

/-- The tasks that are over when the task `k` has moved to `x`. -/
theorem over_update (hk : place k ≠ .over) (x : Place (Fin Q) (Fin Q × Fin n)) :
    (Finset.univ.filter fun j => Function.update place k x j = .over).card =
      (Finset.univ.filter fun j => place j = .over).card + if x = .over then 1 else 0 := by
  split_ifs with hx
  · have hins : (Finset.univ.filter fun j => Function.update place k x j = .over) =
        insert k (Finset.univ.filter fun j => place j = .over) := by
      ext j
      by_cases hj : j = k
      · subst hj; simp [hx]
      · simp [hj]
    rw [hins, Finset.card_insert_of_notMem (by simp [hk])]
  · rw [add_zero]
    congr 1
    ext j
    by_cases hj : j = k
    · subst hj; simp [hx, hk]
    · simp [hj]

/-- **`left--`** has been written: the task is over. -/
theorem Inv.decrement (h : Inv place s u) (hk : argument (workers s p) = some k) (hjob : u.job p = .dec)
    {c : Counter (Thread n Q)} (hs : u.left.step (-1) (some p) = some c) (hold0 : (u.left.pos (some p)).bumped = 0)
    (hnew : (c.pos (some p)).bumped = 1) :
    Inv (Function.update place k .over) s { u with left := c } := by
  obtain ⟨l, hpos, -, hwrites⟩ := Counter.step_cases hs
  have hl : l.bumped = 1 := by
    rw [hpos, Function.update_self] at hnew
    exact hnew
  have hother : ∀ r, r ≠ some p → c.pos r = u.left.pos r := by
    intro r hr
    rw [hpos, Function.update_of_ne hr]
  have hhold : hold s u p = some k := by simp [hold, handed, hjob, hold0, hk]
  have hplace := (h.placed.held p k).mpr hhold
  have hvalue := h.value k
  rw [hplace] at hvalue
  have hv : u.tasks k = p.1 + 1 ∧ u.tasks k = Q := by simpa [ValueAt, JobAt, hjob] using hvalue
  refine { h with
    placed := ?_
    value := fun j => ?_
    added := fun q j => ?_
    left := h.left.step hs
    writes := ?_
    quiet := fun r hr => ?_
    quietMain := fun hmain => (hother none (by simp)).trans (h.quietMain hmain)
    copy := fun hc j => ?_
    late := fun hlate j => ?_ }
  · have hdrop := h.placed.drop hhold
    have hset : hold s { u with left := c } = Function.update (hold s u) p none := by
      have hl' : ∀ r, r ≠ p → ({ u with left := c } : Test n Q S).left.pos (some r) = u.left.pos (some r) :=
        fun r hr => hother (some r) (by simpa using hr)
      rw [hold_move (by intros; rfl) (by intros; rfl) hl']
      congr 1
      simp [hold, handed, hjob, hnew]
    rw [hset]
    exact hdrop
  · by_cases hjk : j = k
    · subst hjk
      rw [Function.update_self]
      exact hv.2
    · rw [Function.update_of_ne hjk]
      refine (h.value j).move (p := p) (fun hp => hjk ?_) fun _ _ => rfl
      exact Option.some.inj (((h.placed.held p j).mp hp).symm.trans hhold)
  · rw [h.added q j]
    by_cases hjk : j = k
    · subst hjk
      rw [Function.update_self, hplace]
      show (if q.val < p.1.val + 1 then 1 else 0) = if q.val < Q then 1 else 0
      rw [← hv.1, hv.2]
    · rw [Function.update_of_ne hjk]
  · show c.writes = _
    rw [over_update (by simp [hplace]), if_pos rfl, ← h.writes]
    omega
  · have hrp : r ≠ p := by
      rintro rfl
      exact hr hjob
    exact (hother (some r) (by simpa using hrp)).trans (h.quiet r hr)
  · have := h.copy hc k
    rw [hplace] at this
    cases this
  · have := h.late hlate k
    rw [hplace] at this
    cases this

/-- The worker has its task, and is neither in its call nor at `left`. -/
def plain : Job Q → Bool
  | .load | .store _ | .test | .index | .add _ => true
  | _ => false

theorem not_handed_of_plain (h : plain (u.job p) = true) : handed u p = false := by
  unfold handed
  cases hj : u.job p with
  | dec | ret => rw [hj] at h; cases h
  | _ => rfl

/-- The value of the task in the hands of `p`. -/
theorem Inv.jobAt (h : Inv place s u) (hk : hold s u p = some k) : JobAt p.1 (u.tasks k) (u.job p) := by
  have hv := h.value k
  rw [(h.placed.held p k).mpr hk] at hv
  exact hv

/-- The worker `p` goes on to `j`, with `v` in `tasks[k]`. -/
theorem Inv.advance (h : Inv place s u) (hk : argument (workers s p) = some k) (hp : plain (u.job p) = true)
    {j : Job Q} (hj : plain j = true) {v : ℕ} (hv : JobAt p.1 v j) :
    Inv place s { u with tasks := Function.update u.tasks k v, job := Function.update u.job p j } := by
  have hh := not_handed_of_plain hp
  have hhold : hold s u p = some k := by simp [hold, hh, hk]
  have hne : ∀ l : Job Q, plain l = true → l ≠ .dec ∧ ∀ q, l ≠ .inAdd q := by
    intro l hl
    refine ⟨?_, fun q => ?_⟩ <;> rintro rfl <;> cases hl
  have hself : Function.update u.job p j p = j := Function.update_self ..
  refine h.job (p := p) rfl rfl rfl (fun r hr => Function.update_of_ne hr ..) (fun _ _ => rfl) (by simp [hk])
    (hne _ hp).2 (fun q => ?_) ?_ (fun i hi => ?_) (fun i hi => ?_) h.left rfl fun _ => h.quiet p (hne _ hp).1
  · show Function.update u.job p j p ≠ .inAdd q
    rw [hself]
    exact (hne j hj).2 q
  · rw [hhold, hold, not_handed_of_plain (by simpa using hj), if_neg (by simp), hk]
  · refine Function.update_of_ne ?_ ..
    rintro rfl
    exact hi hhold
  · obtain rfl := Option.some.inj (hhold.symm.trans hi)
    show JobAt p.1 (Function.update u.tasks k v k) (Function.update u.job p j p)
    rw [hself, Function.update_self]
    exact hv

/-- The worker `p` enters `left--`. -/
theorem Inv.enterDec (h : Inv place s u) (hk : argument (workers s p) = some k) (hp : u.job p = .test)
    (hv : ¬ u.tasks k < Q) :
    Inv place s { u with job := Function.update u.job p .dec, left := u.left.enter (some p) } := by
  have hhold : hold s u p = some k := by simp [hold, handed, hp, hk]
  have hat : u.tasks k = p.1 + 1 := by
    have := h.jobAt hhold
    rw [hp] at this
    exact this
  have hself : Function.update u.job p (.dec : Job Q) p = .dec := Function.update_self ..
  refine h.job (p := p) rfl rfl rfl (fun r hr => Function.update_of_ne hr ..) (fun r hr => Function.update_of_ne hr ..)
    (by simp [hk]) (by simp [hp]) (by simp) ?_ (fun _ _ => rfl) (fun i hi => ?_)
    (h.left.enter (h.quiet p (by simp [hp]))) rfl fun hne => absurd hself hne
  · simp [hold, handed, hp, Counter.enter, Bumping.bumped]
  · obtain rfl := Option.some.inj (hhold.symm.trans hi)
    show JobAt p.1 (u.tasks k) (Function.update u.job p .dec p)
    rw [hself]
    have hlt := p.1.isLt
    exact ⟨hat, by omega⟩

/-- A statement of `left--`. -/
theorem Inv.stepDec (h : Inv place s u) (hk : argument (workers s p) = some k) (hp : u.job p = .dec)
    {c : Counter (Thread n Q)} (hc : u.left.step (-1) (some p) = some c) :
    ∃ place', Inv place' s { u with left := c } := by
  have hle := Counter.step_bumped hc
  obtain ⟨l, hpos, -, hwrites⟩ := Counter.step_cases hc
  have hl : c.pos (some p) = l := by rw [hpos, Function.update_self]
  by_cases hsame : (c.pos (some p)).bumped = (u.left.pos (some p)).bumped
  · refine ⟨place, h.job (p := p) rfl rfl rfl (fun _ _ => rfl) (fun r hr => ?_) (by simp [hk]) (by simp [hp])
      (by simp [hp]) ?_ (fun _ _ => rfl) (fun j hj => h.jobAt hj) (h.left.step hc) ?_ fun hne => absurd hp hne⟩
    · show c.pos r = u.left.pos r
      rw [hpos, Function.update_of_ne hr]
    · simp [hold, handed, hp, hsame]
    · rw [hl] at hsame
      show c.writes = u.left.writes
      omega
  · have h1 : (c.pos (some p)).bumped ≤ 1 := by
      cases c.pos (some p) <;> simp [Bumping.bumped]
    exact ⟨_, h.decrement hk hp hc (by omega) (by omega)⟩

/-- **A step of `dummy_task`** outside of its call. -/
theorem Inv.dummyTask (h : Inv place s u) (hk : argument (workers s p) = some k)
    (hs : dummyTask u p k = some u') : ∃ place', Inv place' s u' := by
  have hvalue : plain (u.job p) = true → JobAt p.1 (u.tasks k) (u.job p) := by
    intro hp
    exact h.jobAt (by simp [hold, not_handed_of_plain hp, hk])
  have hadvance := fun (j : Job Q) (hp : plain (u.job p) = true) (hj : plain j = true)
    (hv : JobAt p.1 (u.tasks k) j) => by
      have := h.advance hk hp hj hv
      rwa [Function.update_eq_self] at this
  unfold Heavy.dummyTask at hs
  cases hjob : u.job p with
  | load =>
    rw [hjob] at hs hvalue
    cases hs
    have hv : u.tasks k = p.1 := hvalue rfl
    exact ⟨place, hadvance _ (by rw [hjob]; rfl) rfl ⟨hv, hv⟩⟩
  | store v =>
    rw [hjob] at hs hvalue
    cases hs
    have hv : u.tasks k = p.1 ∧ v = p.1 := hvalue rfl
    exact ⟨place, h.advance hk (by rw [hjob]; rfl) rfl (congrArg (· + 1) hv.2)⟩
  | test =>
    rw [hjob] at hs hvalue
    have hv : u.tasks k = p.1 + 1 := hvalue rfl
    dsimp only at hs
    split_ifs at hs with hlt
    · cases hs
      exact ⟨place, hadvance _ (by rw [hjob]; rfl) rfl ⟨hv, hlt⟩⟩
    · cases hs
      exact ⟨place, h.enterDec hk hjob hlt⟩
  | index =>
    rw [hjob] at hs hvalue
    have hv : u.tasks k = p.1 + 1 ∧ u.tasks k < Q := hvalue rfl
    dsimp only at hs
    rw [dif_pos hv.2] at hs
    cases hs
    exact ⟨place, hadvance (.add ⟨u.tasks k, hv.2⟩) (by rw [hjob]; rfl) rfl ⟨hv.1, rfl⟩⟩
  | dec =>
    rw [hjob] at hs
    obtain ⟨c, hc, rfl⟩ := Option.map_eq_some_iff.mp hs
    exact h.stepDec hk hjob hc
  | add q | inAdd q | ret => rw [hjob] at hs; cases hs

/-- `main` is in a call. -/
def busy : Main Q S → Bool
  | .inAdd _ | .inDestroy _ => true
  | _ => false

/-- The calls of the threads when `main` moves outside of its calls. -/
theorem calling_main (hj : u'.job = u.job) (h : busy u.main = false) (h' : busy u'.main = false) (q : Fin Q)
    (th : Thread n Q) : calling s u' q th = calling s u q th := by
  have hnone : ∀ v : Test n Q S, busy v.main = false → calling s v q none = none := by
    intro v hv
    cases hm : v.main with
    | inAdd _ | inDestroy _ => rw [hm] at hv; cases hv
    | _ => simp [calling, hm]
  cases th with
  | none => rw [hnone u h, hnone u' h']
  | some r => simp [calling, hj]

/-- **`main` moves** outside of its calls. -/
theorem Inv.main (h : Inv place s u) (hj : u'.job = u.job) (hf : u'.failed = u.failed)
    (hv : ∀ k, u'.tasks k = u.tasks k) (htodo : ∀ k, todo u'.main k ↔ todo u.main k) (hc : busy u.main = false)
    (hc' : busy u'.main = false) (hu : ∀ q, untouched q u'.main → untouched q u.main)
    (hl : ∀ r, u'.left.pos (some r) = u.left.pos (some r)) (hleft : u'.left.Inv (-1) S)
    (hw : u'.left.writes = u.left.writes) (hquiet : u'.main ≠ .look → u'.left.pos none = .ret)
    (hcopy : u'.copy ≤ 0 → ∀ k, place k = .over) (hlate : Heavy.late u'.main → ∀ k, place k = .over) :
    Inv place s u' := by
  refine ⟨h.placed.same htodo rfl ?_, fun k => ?_, h.added, h.bare, ?_, fun q th => ?_, fun q hq => ?_, hleft,
    hw.trans h.writes, fun r hr => ?_, hquiet, hcopy, hlate, hf.trans h.passed⟩
  · funext r
    unfold hold handed
    rw [hj, hl r]
  · have hval := h.value k
    rw [hv k]
    cases hk : place k with
    | held r =>
      rw [hk] at hval
      show JobAt r.1 _ (u'.job r)
      rw [hj]
      exact hval
    | _ => rw [hk] at hval; exact hval
  · rw [hj]
    exact h.idle
  · rw [calling_main hj hc hc' q th]
    exact h.calls q th
  · exact h.shut q (hu q hq)
  · rw [hl r]
    exact h.quiet r (by rwa [hj] at hr)

/-- When `main` has seen that `left` is not positive, all tasks are over. -/
theorem Inv.all_over (h : Inv place s u) (hv : u.left.value ≤ 0) (k : Fin S) : place k = .over := by
  have hvalue := h.left.value
  have hcard : (Finset.univ.filter fun k => place k = .over).card ≤ S := by
    simpa using Finset.card_le_univ (Finset.univ.filter fun k => place k = .over)
  have hw := h.writes
  have hall : (Finset.univ.filter fun k => place k = .over) = Finset.univ := by
    refine Finset.eq_univ_of_card _ ?_
    rw [Fintype.card_fin]
    omega
  have hk := Finset.mem_univ k
  rw [← hall] at hk
  exact (Finset.mem_filter.mp hk).2

/-- `main` in the critical section of its loop. -/
theorem Inv.look (h : Inv place s u) (hm : u.main = .look) {c : Counter (Thread n Q)} {v : ℤ}
    (hother : ∀ r, r ≠ none → c.pos r = u.left.pos r) (hc : c.Inv (-1) S) (hw : c.writes = u.left.writes)
    (hv : v ≤ 0 → ∀ k, place k = .over) : Inv place s { u with left := c, copy := v, main := .look } :=
  h.main rfl rfl (fun _ => rfl) (fun _ => by rw [hm]) (by rw [hm]; rfl) rfl (fun _ _ => by rw [hm]; trivial)
    (fun r => hother (some r) (by simp)) hc hw (fun hne => absurd rfl hne) hv fun hl => hl.elim

/-- **A step of `main`** outside of its calls. -/
theorem Inv.mainStep (h : Inv place s u) (hs : mainStep u = some u') : Inv place s u' := by
  unfold Heavy.mainStep at hs
  cases hm : u.main with
  | loop i =>
    have hret := h.quietMain (by simp [hm])
    rw [hm] at hs
    dsimp only at hs
    split_ifs at hs with hi
    · cases hs
      refine h.main rfl rfl (fun k => ?_) (fun k => ?_) (by rw [hm]; rfl) rfl (fun _ _ => by rw [hm]; trivial)
        (fun _ => rfl) h.left rfl (fun _ => hret) h.copy fun hl => hl.elim
      · by_cases hk : k = ⟨i, hi⟩
        · subst hk
          have hout : place ⟨i, hi⟩ = .out := (h.placed.out _).mpr (by rw [hm]; exact le_rfl)
          have hval := h.value ⟨i, hi⟩
          rw [hout] at hval
          exact (Function.update_self ..).trans hval.symm
        · exact Function.update_of_ne hk ..
      · rw [hm]
        exact Iff.rfl
    · cases hs
      refine h.main rfl rfl (fun _ => rfl) (fun k => ?_) (by rw [hm]; rfl) rfl (fun _ _ => by rw [hm]; trivial)
        (fun _ => rfl) h.left rfl (fun _ => hret) h.copy fun hl => hl.elim
      rw [hm]
      have hk := k.isLt
      exact iff_of_false id fun hik : i ≤ k => by omega
  | poll =>
    have hret := h.quietMain (by simp [hm])
    rw [hm] at hs
    dsimp only at hs
    split_ifs at hs with hpos
    · cases hs
      exact h.main rfl rfl (fun _ => rfl) (fun k => by rw [hm]; rfl) (by rw [hm]; rfl) rfl
        (fun _ _ => by rw [hm]; trivial) (fun r => by simp [Counter.enter]) (h.left.enter hret) rfl
        (fun hne => absurd rfl hne) h.copy fun hl => hl.elim
    · cases hs
      exact h.main rfl rfl (fun _ => rfl) (fun k => by rw [hm]; rfl) (by rw [hm]; rfl) rfl
        (fun _ _ => by rw [hm]; trivial) (fun _ => rfl) h.left rfl (fun _ => hret) h.copy
        fun _ => h.copy (by omega)
  | look =>
    rw [hm] at hs
    dsimp only at hs
    split at hs
    · next c v hl =>
      cases hs
      obtain ⟨hinv, hv⟩ := h.left.look hl
      obtain ⟨-, rfl⟩ := Counter.look_cases hl
      refine h.look hm (fun r hr => Function.update_of_ne hr ..) hinv rfl fun hle => ?_
      exact h.all_over (by omega)
    · next hl =>
      split_ifs at hs with hret
      · cases hs
        exact h.main rfl rfl (fun _ => rfl) (fun k => by rw [hm]; rfl) (by rw [hm]; rfl) rfl
          (fun _ _ => by rw [hm]; trivial) (fun _ => rfl) h.left rfl (fun _ => hret) h.copy fun hl => hl.elim
      · obtain ⟨c, hc, rfl⟩ := Option.map_eq_some_iff.mp hs
        obtain ⟨l, hpos, -, -⟩ := Counter.step_cases hc
        refine h.look hm (fun r hr => ?_) (h.left.step hc) (Counter.step_looks hl hc) h.copy
        rw [hpos, Function.update_of_ne hr]
  | destroy q =>
    rw [hm] at hs
    dsimp only at hs
    split_ifs at hs with hq
    cases hs
    exact h.main rfl rfl (fun _ => rfl) (fun k => by rw [hm]; rfl) (by rw [hm]; rfl) rfl (fun _ hu => hu.elim)
      (fun _ => rfl) h.left rfl (fun _ => h.quietMain (by simp [hm])) h.copy fun _ => h.late (by rw [hm]; trivial)
  | add k | inAdd k | inDestroy q | done => rw [hm] at hs; cases hs

end PoolStudy.Heavy
