import PoolStudy.Heavy.Tasks

/-! # `heavy`: whole runs

The steps of the pools keep the invariant: a worker takes a task or returns from one, a thread begins a call, goes on
in it, and is back. A call of `threadpool_add` finds room, since the task to be added is not among those that wait
there and no pool has fewer places than there are tasks, and it finds the pool in use, since `main` destroys the pools
only when all tasks are over (`Inv.room`). -/

namespace PoolStudy.Heavy

open PoolStudy.Lib.Transition PoolStudy.Lib.Threads PoolStudy.Lib.Hosting PoolStudy.Lib.Bump PoolStudy.Lib.Relay
open PoolStudy.Threadpool.Model PoolStudy.Threadpool.Steps PoolStudy.Threadpool.Queue PoolStudy.Threadpool.Calls

variable {n Q S : ℕ}

variable {place : Fin S → Place (Fin Q) (Fin Q × Fin n)} {s s' : Pools n Q S} {u u' : Test n Q S}
  {p : Fin Q × Fin n} {k : Fin S}

/-- What the pools show when the pool `q` moves. -/
theorem update_mem {β : Type} (f : Mem n Unit (Fin S) → β) (q : Fin Q) (c : State n Unit (Fin S)) :
    (fun r => f (Function.update s q c r).mem) = Function.update (fun r => f (s r).mem) q (f c.mem) := by
  funext r
  by_cases hr : r = q
  · subst hr; simp
  · simp [hr]

/-- A worker moves, and no task is added. It is at the beginning of `dummy_task` then. -/
theorem Inv.worker {place' : Fin S → Place (Fin Q) (Fin Q × Fin n)} {q : Fin Q} {i : Fin n}
    {r : Mem n Unit (Fin S) × Worker Unit (Fin S)} (h : Inv place s u)
    (hplaced : Placed place' (todo u.main) (Function.update (queues s) q (waiting r.1))
      (Function.update (hold s u) (q, i) (argument r.2)))
    (hover : ∀ k, place' k = .over ↔ place k = .over) (hlevel : ∀ k, level (place' k) = level (place k))
    (hvalue : ∀ k, ValueAt { u with job := Function.update u.job (q, i) .load } (u.tasks k) (place' k))
    (hadded : Heavy.added r.1 = Heavy.added (s q).mem) (hshut : r.1.pool.shutdown = (s q).mem.pool.shutdown)
    (hbare : ∀ t c, r.2 = .run t c → c = .outside) (hin : ∀ q', u.job (q, i) ≠ .inAdd q')
    (hret : u.left.pos (some (q, i)) = .ret) :
    Inv place' (Function.update s q ((s q).moveWorker i r))
      { u with job := Function.update u.job (q, i) .load } := by
  set s' := Function.update s q ((s q).moveWorker i r) with hs'
  set u' : Test n Q S := { u with job := Function.update u.job (q, i) .load } with hu'
  have hself : u'.job (q, i) = .load := Function.update_self ..
  have hj : ∀ p, p ≠ (q, i) → u'.job p = u.job p := fun p hp => Function.update_of_ne hp ..
  have hw : workers s' = Function.update (workers s) (q, i) r.2 := workers_moveWorker s q i r
  have hother : ∀ p, p ≠ (q, i) → workers s' p = workers s p := by
    intro p hp
    rw [hw, Function.update_of_ne hp]
  have hshut' : ∀ p, (s' p).mem.pool.shutdown = (s p).mem.pool.shutdown := by
    intro p
    have hf := congrFun (update_mem (s := s) (fun m => m.pool.shutdown) q ((s q).moveWorker i r)) p
    rw [hf, show ((s q).moveWorker i r).mem.pool.shutdown = (s q).mem.pool.shutdown from hshut]
    exact congrFun (Function.update_eq_self q _) p
  refine ⟨?_, hvalue, fun p k => ?_, fun p t c hp => ?_, fun p hp => ?_, fun p th => ?_, fun p hp => ?_, h.left, ?_,
    fun p hp => ?_, h.quietMain, fun hc k => ?_, fun hl k => ?_, h.passed⟩
  · have hq : queues s' = Function.update (queues s) q (waiting r.1) := update_mem waiting q _
    have hnew : hold s' u' (q, i) = argument r.2 := by simp [hold, handed, hself, hw]
    rw [hq, hold_move hother hj (by intros; rfl), hnew]
    exact hplaced
  · have hf := congrFun (update_mem (s := s) Heavy.added q ((s q).moveWorker i r)) p
    rw [hf, show Heavy.added ((s q).moveWorker i r).mem = Heavy.added (s q).mem from hadded, hlevel k,
      Function.update_eq_self q (fun r => Heavy.added (s r).mem)]
    exact h.added p k
  · rw [hw] at hp
    by_cases hpq : p = (q, i)
    · subst hpq
      rw [Function.update_self] at hp
      exact hbare t c hp
    · rw [Function.update_of_ne hpq] at hp
      exact h.bare p t c hp
  · by_cases hpq : p = (q, i)
    · subst hpq
      exact hself
    · rw [hother p hpq] at hp
      exact (hj p hpq).trans (h.idle p hp)
  · rw [calling_move hother (by rfl) hj (hin p) (by simp [hself]) th, hs', clients_moveWorker]
    exact (h.calls p th).same (hshut' p)
  · exact (hshut' p).trans (h.shut p hp)
  · simp only [hover]
    exact h.writes
  · by_cases hpq : p = (q, i)
    · subst hpq
      exact hret
    · exact h.quiet p (by rwa [hj p hpq] at hp)
  · exact (hover k).mpr (h.copy hc k)
  · exact (hover k).mpr (h.late hl k)

/-- A worker that runs no task has none in its hands. -/
theorem hold_none (hp : argument (workers s p) = none) : hold s u p = none := by
  simp [hold, hp]

theorem hold_handed (hp : handed u p = true) : hold s u p = none := by
  simp [hold, hp]

/-- **A step of a worker of the pool `q`.** -/
theorem Inv.workerStep (h : Inv place s u) {q : Fin Q} {i : Fin n} {x : Input n Unit (Fin S)}
    {r : Mem n Unit (Fin S) × Worker Unit (Fin S)} (hring : RingOk (s q).mem.pool)
    (hu : part s u (q, .inl i, x) = some u') (hs : workerStep i x (s q).mem ((s q).worker i) = some r) :
    ∃ place', Inv place' (Function.update s q ((s q).moveWorker i r)) u' := by
  have hcall : x.call = none := by
    by_contra hne
    obtain ⟨api, hx⟩ := Option.ne_none_iff_exists'.mp hne
    simp [part, hx] at hu
  simp only [part, hcall] at hu
  obtain ⟨heff, hshut⟩ := workerStep_effect (w := (s q).worker i) hring hcall (h.bare (q, i)) hs
  have hload : argument (workers s (q, i)) = none → u.job (q, i) = .load := h.idle (q, i)
  have hsame : argument (workers s (q, i)) = none → u' = { u with job := Function.update u.job (q, i) .load } := by
    intro hw
    rw [hw] at hu
    rw [← hload hw, Function.update_eq_self]
    exact (Option.some.inj hu).symm
  have hret : u.job (q, i) ≠ .dec → u.left.pos (some (q, i)) = .ret := h.quiet (q, i)
  -- the tasks stay where they are when the worker has none before and after the step
  have hrest : r.1.pool.pending = (s q).mem.pool.pending → r.1.accepted = (s q).mem.accepted →
      argument r.2 = none → hold s u (q, i) = none →
      (∀ q', u.job (q, i) ≠ .inAdd q') → u.left.pos (some (q, i)) = .ret →
      Inv place (Function.update s q ((s q).moveWorker i r))
        { u with job := Function.update u.job (q, i) .load } := by
    intro hp ha hr hh hin hpos
    refine h.worker ?_ (fun _ => Iff.rfl) (fun _ => rfl) (fun j => ?_) (added_same ha) hshut ?_ hin hpos
    · rw [waiting_same hp, hr, ← hh, Function.update_eq_self, show waiting (s q).mem = queues s q from rfl,
        Function.update_eq_self]
      exact h.placed
    · refine (h.value j).move (p := (q, i)) (fun hp => ?_) fun p hp => Function.update_of_ne hp ..
      rw [(h.placed.held (q, i) j).mp hp] at hh
      cases hh
    · intro t c hrun
      rw [hrun] at hr
      cases hr
  generalize hw : (s q).worker i = w at heff
  generalize hw' : r.2 = w' at heff hrest
  cases heff with
  | @grabs w t hruns hp ha hd =>
    have hnone : argument (workers s (q, i)) = none := by
      rw [workers, hw]
      exact argument_none hruns
    obtain ⟨f, k⟩ := t
    have hq : waiting (s q).mem = k :: waiting r.1 := by rw [waiting, hp, List.map_cons, waiting]
    have hplace : place k = .queued q := (h.placed.queued q k).mpr (by
      show k ∈ waiting (s q).mem
      rw [hq]
      exact List.mem_cons_self)
    have hload' := hload hnone
    rw [hsame hnone]
    refine ⟨Function.update place k (.held (q, i)), h.worker ?_ (fun j => ?_) (fun j => ?_) (fun j => ?_)
      (added_same ha) hshut (fun t c hrun => ?_) (by simp [hload']) (hret (by simp [hload']))⟩
    · rw [hw']
      exact h.placed.pop hq (hold_none hnone)
    · by_cases hj : j = k
      · subst hj; simp [hplace]
      · rw [Function.update_of_ne hj]
    · by_cases hj : j = k
      · subst hj; simp [hplace, level]
      · rw [Function.update_of_ne hj]
    · by_cases hj : j = k
      · subst hj
        have hv := h.value j
        rw [hplace] at hv
        rw [Function.update_self]
        show JobAt q _ (Function.update u.job (q, i) .load (q, i))
        rw [Function.update_self]
        exact hv
      · rw [Function.update_of_ne hj]
        refine (h.value j).move (p := (q, i)) (fun hp => ?_) fun p hp => Function.update_of_ne hp ..
        have hheld := (h.placed.held (q, i) j).mp hp
        rw [hold_none hnone] at hheld
        cases hheld
    · rw [hw'] at hrun
      cases hrun
      rfl
  | @finishes t w hruns hp ha hd =>
    have harg := argument_none hruns
    have hsome : argument (workers s (q, i)) = some t.argument := by
      rw [workers, hw]
      rfl
    rw [hsome] at hu
    dsimp only at hu
    split_ifs at hu with hr
    have hjob : u.job (q, i) = .ret ∨ (u.job (q, i) = .dec ∧ u.left.pos (some (q, i)) = .ret) := by
      unfold returns at hr
      cases hj : u.job (q, i) with
      | ret => exact Or.inl rfl
      | dec => rw [hj] at hr; exact Or.inr ⟨rfl, of_decide_eq_true hr⟩
      | _ => rw [hj] at hr; cases hr
    rw [← Option.some.inj hu]
    rcases hjob with hj | ⟨hj, hpos⟩
    · exact ⟨place, hrest hp ha harg (hold_handed (by simp [handed, hj])) (by simp [hj]) (hret (by simp [hj]))⟩
    · exact ⟨place, hrest hp ha harg (hold_handed (by simp [handed, hj, hpos, Bumping.bumped])) (by simp [hj]) hpos⟩
  | idles hruns hruns' ht =>
    have hnone : argument (workers s (q, i)) = none := by
      rw [workers, hw]
      exact argument_none hruns
    have hload' := hload hnone
    rw [hsame hnone]
    exact ⟨place, hrest ht.pending ht.accepted (argument_none hruns') (hold_none hnone) (by simp [hload'])
      (hret (by simp [hload']))⟩

/-- **A thread moves in a call** on the pool `q`: what it leaves of the program. -/
theorem Inv.client {place' : Fin S → Place (Fin Q) (Fin Q × Fin n)} {q : Fin Q} {z : Thread n Q}
    {r : Mem n Unit (Fin S) × Call Unit (Fin S)} (h : Inv place s u)
    (hplaced : Placed place' (todo u'.main) (Function.update (queues s) q (waiting r.1)) (hold s u'))
    (hvalue : ∀ k, ValueAt u' (u'.tasks k) (place' k))
    (hadded : ∀ k, (Heavy.added r.1).count k = if q.val < level (place' k) then 1 else 0)
    (hlevel : ∀ p k, p ≠ q → (p.val < level (place' k) ↔ p.val < level (place k)))
    (hover : ∀ k, place' k = .over ↔ place k = .over)
    (hidle : ∀ p, argument (workers s p) = none → u'.job p = .load)
    (hcall : InCall r.1 (calling s u' q z) r.2)
    (hcalls : ∀ p t, ¬ (p = q ∧ t = z) → calling s u' p t = calling s u p t)
    (hkeep : ∀ t, t ≠ z → (∃ f, calling s u q t = some (.destroy f)) → r.1.pool.shutdown = (s q).mem.pool.shutdown)
    (hshut : ∀ p, p ≠ q → untouched p u'.main → untouched p u.main)
    (hshut' : untouched q u'.main → r.1.pool.shutdown = none)
    (hleft : u'.left = u.left) (hdec : ∀ p, u.job p = .dec → u'.job p = .dec)
    (hlook : u.main = .look → u'.main = .look) (hcopy : u'.copy = u.copy)
    (hlate : Heavy.late u'.main → Heavy.late u.main) (hf : u'.failed = false) :
    Inv place' (Function.update s q ((s q).moveClient (Encodable.encode z) r)) u' := by
  set s' := Function.update s q ((s q).moveClient (Encodable.encode z) r) with hs'
  have hw : workers s' = workers s := workers_moveClient s q _ r
  have hmem : ∀ p, p ≠ q → (s' p).mem = (s p).mem := by
    intro p hp
    rw [hs', Function.update_of_ne hp]
  have hself : (s' q).mem = r.1 := by
    rw [hs', Function.update_self]
    rfl
  have hcalling : calling s' u' = calling s u' := by
    funext p t
    cases t <;> simp [calling, hw]
  refine ⟨?_, hvalue, fun p k => ?_, ?_, ?_, fun p t => ?_, fun p hp => ?_, ?_, ?_, fun p hp => ?_, fun hm => ?_,
    fun hc k => ?_, fun hl k => ?_, hf⟩
  · have hq : queues s' = Function.update (queues s) q (waiting r.1) := update_mem waiting q _
    have hh : hold s' u' = hold s u' := by
      funext p
      simp [hold, hw]
    rw [hq, hh]
    exact hplaced
  · by_cases hp : p = q
    · subst hp
      rw [hself]
      exact hadded k
    · rw [hmem p hp, h.added p k]
      simp only [hlevel p k hp]
  · rw [hw]
    exact h.bare
  · rw [hw]
    exact hidle
  · rw [hcalling, hs', clients_moveClient, ← hs']
    by_cases hpt : p = q ∧ t = z
    · obtain ⟨rfl, rfl⟩ := hpt
      rw [if_pos ⟨rfl, rfl⟩, hself]
      exact hcall
    · have hne : ¬ (p = q ∧ Encodable.encode t = Encodable.encode z) :=
        fun hpe => hpt ⟨hpe.1, Encodable.encode_injective hpe.2⟩
      rw [if_neg hne, hcalls p t hpt]
      by_cases hp : p = q
      · subst hp
        have hold := h.calls p t
        rw [hself]
        cases hkind : calling s u p t with
        | none => rw [hkind] at hold; exact hold
        | some kind =>
          rw [hkind] at hold
          cases kind with
          | add k => exact hold
          | destroy f => exact hold.same (hkeep t (fun ht => hpt ⟨rfl, ht⟩) ⟨f, hkind⟩)
      · rw [hmem p hp]
        exact h.calls p t
  · by_cases hpq : p = q
    · subst hpq
      rw [hself]
      exact hshut' hp
    · rw [hmem p hpq]
      exact h.shut p (hshut p hpq hp)
  · rw [hleft]
    exact h.left
  · rw [hleft, h.writes]
    simp only [hover]
  · rw [hleft]
    exact h.quiet p fun hd => hp (hdec p hd)
  · rw [hleft]
    exact h.quietMain fun hl => hm (hlook hl)
  · exact (hover k).mpr (h.copy (hcopy ▸ hc) k)
  · exact (hover k).mpr (h.late (hlate hl) k)

/-- **A thread begins a call.** -/
theorem Inv.start (h : Inv place s u) {q : Fin Q} {th : Thread n Q} {api : Api Unit (Fin S)}
    {x : Input n Unit (Fin S)} {r : Mem n Unit (Fin S) × Call Unit (Fin S)} (hx : x.call = some api)
    (hu : startCall s u q th api = some u') (hc : clients s q (Encodable.encode th) = .outside)
    (hs : callStep (.inr (Encodable.encode th)) x (s q).mem .outside = some r) :
    Inv place (Function.update s q ((s q).moveClient (Encodable.encode th) r)) u' := by
  have hqueues : Function.update (queues s) q (waiting (s q).mem) = queues s := Function.update_eq_self ..
  have hadded : ∀ k, (Heavy.added (s q).mem).count k = if q.val < level (place k) then 1 else 0 := h.added q
  obtain rfl := callStep_entry hx hs
  match th, api, hu with
  | none, .add (some _) k, hu =>
    simp only [startCall] at hu
    split_ifs at hu with hm
    obtain ⟨hm, hq⟩ := hm
    cases hu
    refine h.client (z := none) ?_ h.value hadded (fun _ _ _ => Iff.rfl) (fun _ => Iff.rfl) h.idle ?_
      (fun p t hpt => ?_) (fun _ _ _ => rfl) (fun _ _ _ => by rw [hm]; trivial)
      (fun _ => h.shut q (by rw [hm]; trivial)) rfl (fun _ hd => hd) (fun hl => by rw [hm] at hl; cases hl) rfl
      (fun hl => hl.elim) h.passed
    · rw [hqueues]
      refine h.placed.same (fun j => ?_) rfl rfl
      rw [hm]
      rfl
    · simp [calling, hq, InCall, entry]
    · cases t with
      | none =>
        have hp : p.val ≠ 0 := fun hp => hpt ⟨Fin.ext (hp.trans hq.symm), rfl⟩
        simp [calling, hm, hp]
      | some _ => rfl
  | none, .destroy flags, hu =>
    simp only [startCall] at hu
    split_ifs at hu with hm
    obtain ⟨hm, rfl⟩ := hm
    cases hu
    have hall := h.late (by rw [hm]; trivial)
    refine h.client (z := none) ?_ h.value hadded (fun _ _ _ => Iff.rfl) (fun _ => Iff.rfl) h.idle ?_
      (fun p t hpt => ?_) (fun _ _ _ => rfl) (fun p _ hp => ?_) (fun hp => absurd hp (lt_irrefl q))
      rfl (fun _ hd => hd) (fun hl => by rw [hm] at hl; cases hl) rfl (fun _ => by rw [hm]; trivial) h.passed
    · rw [hqueues]
      refine h.placed.same (fun j => ?_) rfl rfl
      rw [hm]
      rfl
    · have hshut := h.shut q (by rw [hm]; exact le_rfl)
      simp [calling, InCall, entry, hshut]
    · cases t with
      | none =>
        have hp : q ≠ p := fun hp => hpt ⟨hp.symm, rfl⟩
        simp [calling, hm, hp]
      | some _ => rfl
    · rw [hm]
      exact le_of_lt (Fin.lt_def.mp hp)
  | some p, .add (some _) k, hu =>
    simp only [startCall] at hu
    split_ifs at hu with hm
    obtain ⟨hm, harg⟩ := hm
    cases hu
    have hself : Function.update u.job p (.inAdd q) p = .inAdd q := Function.update_self ..
    have hhold : hold s u p = some k := by simp [hold, handed, hm, harg]
    have hat := h.jobAt hhold
    rw [hm] at hat
    refine h.client (z := some p) ?_ (fun j => ?_) hadded (fun _ _ _ => Iff.rfl) (fun _ => Iff.rfl) (fun r hr => ?_) ?_
      (fun r t hrt => ?_) (fun _ _ _ => rfl) (fun _ _ hp => hp) (fun hp => h.shut q hp) rfl (fun r hd => ?_)
      (fun hl => hl) rfl (fun hl => hl) h.passed
    · have hsame : hold s { u with job := Function.update u.job p (.inAdd q) } = hold s u := by
        refine (hold_move (p := p) (by intros; rfl) (fun r hr => Function.update_of_ne hr ..) (by intros; rfl)).trans ?_
        have hnew : hold s { u with job := Function.update u.job p (.inAdd q) } p = hold s u p := by
          simp [hold, handed, hm]
        rw [hnew, Function.update_eq_self]
      rw [hqueues, hsame]
      exact h.placed
    · by_cases hj : place j = .held p
      · have hjk : j = k := Option.some.inj (((h.placed.held p j).mp hj).symm.trans hhold)
        rw [hj, hjk]
        show JobAt p.1 (u.tasks k) (Function.update u.job p (.inAdd q) p)
        rw [hself]
        exact hat
      · exact (h.value j).move hj fun r hr => Function.update_of_ne hr ..
    · have hrp : r ≠ p := by
        rintro rfl
        rw [harg] at hr
        cases hr
      exact (Function.update_of_ne hrp ..).trans (h.idle r hr)
    · simp [calling, harg, InCall, entry]
    · cases t with
      | none => rfl
      | some t =>
        by_cases htp : t = p
        · subst htp
          have hrq : q ≠ r := fun hrq => hrt ⟨hrq.symm, rfl⟩
          simp [calling, hm, hrq]
        · simp [calling, htp]
    · have hrp : r ≠ p := by
        rintro rfl
        rw [hm] at hd
        cases hd
      exact (Function.update_of_ne hrp ..).trans hd

/-- **Who makes which call.** -/
theorem calling_cases {q : Fin Q} {th : Thread n Q} {kind : Kind Unit (Fin S)} (h : calling s u q th = some kind) :
    (∃ k, th = none ∧ kind = .add ⟨(), k⟩ ∧ u.main = .inAdd k ∧ q.val = 0) ∨
    (th = none ∧ kind = .destroy 0 ∧ u.main = .inDestroy q) ∨
    ∃ p k, th = some p ∧ kind = .add ⟨(), k⟩ ∧ u.job p = .inAdd q ∧ argument (workers s p) = some k := by
  cases th with
  | none =>
    simp only [calling] at h
    split at h
    · next k hm =>
      split_ifs at h with hq
      cases h
      exact Or.inl ⟨k, rfl, rfl, hm, hq⟩
    · next r hm =>
      split_ifs at h with hr
      cases h
      exact Or.inr (Or.inl ⟨rfl, rfl, by rw [hm, hr]⟩)
    · cases h
  | some p =>
    simp only [calling] at h
    split_ifs at h with hj
    obtain ⟨k, hk, rfl⟩ := Option.map_eq_some_iff.mp h
    exact Or.inr (Or.inr ⟨p, k, rfl, rfl, hj, hk⟩)

/-- Where a task is that a thread adds. -/
theorem Inv.adding (h : Inv place s u) {q : Fin Q} {th : Thread n Q} (hk : calling s u q th = some (.add ⟨(), k⟩)) :
    place k = .out ∨ ∃ p, place k = .held p := by
  rcases calling_cases hk with ⟨j, -, hj, hm, -⟩ | ⟨-, hj, -⟩ | ⟨p, j, -, hj, hjob, harg⟩
  · cases hj
    exact Or.inl ((h.placed.out k).mpr (by rw [hm]; exact le_rfl))
  · cases hj
  · cases hj
    exact Or.inr ⟨p, (h.placed.held p k).mpr (by simp [hold, handed, hjob, harg])⟩

/-- **The pool to which a task is added has room for it and is not shut down.** -/
theorem Inv.room (h : Inv place s u) {q : Fin Q} {th : Thread n Q} (hring : RingOk (s q).mem.pool)
    (hsize : (s q).mem.pool.queueSize = S) (hk : calling s u q th = some (.add ⟨(), k⟩)) :
    (s q).mem.pool.count ≠ (s q).mem.pool.queueSize ∧ (s q).mem.pool.shutdown = none := by
  have hplace := h.adding hk
  have hover : place k ≠ .over := by
    rcases hplace with hp | ⟨p, hp⟩ <;> simp [hp]
  have hqueued : place k ≠ .queued q := by
    rcases hplace with hp | ⟨p, hp⟩ <;> simp [hp]
  have hlt := h.placed.length_lt hqueued
  rw [Fintype.card_fin] at hlt
  have hlen : ((queues s q).length : ℤ) = (s q).mem.pool.count := by
    rw [queues, waiting, List.length_map]
    exact hring.length_pending
  refine ⟨by omega, h.shut q ?_⟩
  cases hm : u.main with
  | destroy _ | inDestroy _ | done => exact absurd (h.late (by rw [hm]; trivial) k) hover
  | _ => trivial

/-- A call goes on. -/
theorem Inv.goes (h : Inv place s u) {q : Fin Q} {th : Thread n Q} {kind : Kind Unit (Fin S)}
    {r : Mem n Unit (Fin S) × Call Unit (Fin S)} (hkind : calling s u q th = some kind)
    (hc : InCall r.1 (some kind) r.2) (ht : SameTasks (s q).mem r.1)
    (hs : r.1.pool.shutdown = (s q).mem.pool.shutdown ∨ ∃ f, kind = .destroy f) :
    Inv place (Function.update s q ((s q).moveClient (Encodable.encode th) r)) u := by
  refine h.client ?_ h.value (fun k => ?_) (fun _ _ _ => Iff.rfl) (fun _ => Iff.rfl) h.idle (by rw [hkind]; exact hc)
    (fun _ _ _ => rfl) (fun t ht' hd => ?_) (fun _ _ hp => hp) (fun hp => ?_) rfl (fun _ hd => hd) (fun hl => hl) rfl
    (fun hl => hl) h.passed
  · rw [waiting_same ht.pending, show waiting (s q).mem = queues s q from rfl, Function.update_eq_self]
    exact h.placed
  · rw [added_same ht.accepted]
    exact h.added q k
  · rcases hs with hs | ⟨f, rfl⟩
    · exact hs
    · -- only `main` destroys
      rcases calling_cases hkind with ⟨_, -, hj, -⟩ | ⟨rfl, -, -⟩ | ⟨_, _, -, hj, -⟩
      · cases hj
      · obtain ⟨g, hd⟩ := hd
        rcases calling_cases hd with ⟨_, -, hj, -⟩ | ⟨rfl, -, -⟩ | ⟨_, _, -, hj, -⟩
        · cases hj
        · exact absurd rfl ht'
        · cases hj
      · cases hj
  · rcases hs with hs | ⟨f, rfl⟩
    · exact hs.trans (h.shut q hp)
    · rcases calling_cases hkind with ⟨_, -, hj, -⟩ | ⟨-, -, hm⟩ | ⟨_, _, -, hj, -⟩
      · cases hj
      · rw [hm] at hp
        exact absurd hp (lt_irrefl q)
      · cases hj

/-- The count of the tasks added, when the task `k` comes to the pool `q`. -/
theorem count_added {l : List (Fin S)} {q : Fin Q} (hl : ∀ j, l.count j = if q.val < level (place j) then 1 else 0)
    (hk : level (place k) = q) (j : Fin S) :
    (l ++ [k]).count j = if q.val < level (Function.update place k (.queued q) j) then 1 else 0 := by
  by_cases hj : j = k
  · subst hj
    rw [List.count_append, hl j, hk, Function.update_self]
    simp [level]
  · have hnot : [k].count j = 0 := List.count_eq_zero.mpr (by simpa using hj)
    rw [List.count_append, hl j, Function.update_of_ne hj, hnot, add_zero]

theorem level_added {q : Fin Q} (hk : level (place k) = q) (p : Fin Q) (j : Fin S) (hp : p ≠ q) :
    p.val < level (Function.update place k (.queued q) j) ↔ p.val < level (place j) := by
  by_cases hj : j = k
  · subst hj
    have hpq : p.val ≠ q.val := fun hpq => hp (Fin.ext hpq)
    rw [Function.update_self, hk]
    show p.val < q.val + 1 ↔ p.val < q.val
    omega
  · rw [Function.update_of_ne hj]

/-- A task that moves on is not over before and after. -/
theorem over_queued {q : Fin Q} (hk : place k ≠ .over) (j : Fin S) :
    Function.update place k (.queued q) j = .over ↔ place j = .over := by
  by_cases hj : j = k
  · subst hj; simp [hk]
  · rw [Function.update_of_ne hj]

/-- **`main` has added the task `k`** to the first pool. -/
theorem Inv.mainAdded (h : Inv place s u) {q : Fin Q} {r : Mem n Unit (Fin S) × Call Unit (Fin S)}
    (hm : u.main = .inAdd k) (hq : q.val = 0) (hw : waiting r.1 = waiting (s q).mem ++ [k])
    (ha : Heavy.added r.1 = Heavy.added (s q).mem ++ [k]) (hs : r.1.pool.shutdown = (s q).mem.pool.shutdown)
    (hc : r.2 = .outside) :
    Inv (Function.update place k (.queued q))
      (Function.update s q ((s q).moveClient (Encodable.encode (none : Thread n Q)) r))
      { u with main := .loop (k + 1) } := by
  have htodo : todo u.main k := by rw [hm]; exact le_rfl
  have hout := (h.placed.out k).mpr htodo
  have hlevel : level (place k) = q := by rw [hout, hq]; rfl
  refine h.client (z := none) ?_ (fun j => ?_) (fun j => ?_) (fun p j => level_added hlevel p j)
    (over_queued (by simp [hout])) h.idle ?_ (fun p t hpt => ?_) (fun _ _ _ => hs) (fun _ _ _ => by rw [hm]; trivial)
    (fun _ => hs.trans (h.shut q (by rw [hm]; trivial))) rfl (fun _ hd => hd) (fun hl => by rw [hm] at hl; cases hl) rfl
    (fun hl => hl.elim) h.passed
  · rw [hw]
    refine h.placed.put htodo (fun j => ?_) q
    rw [hm]
    show k.val + 1 ≤ j.val ↔ k.val ≤ j.val ∧ j ≠ k
    rw [Ne, Fin.ext_iff]
    omega
  · by_cases hj : j = k
    · subst hj
      have hv := h.value j
      rw [hout] at hv
      rw [Function.update_self]
      exact hv.trans hq.symm
    · rw [Function.update_of_ne hj]
      have hv := h.value j
      cases hp : place j <;> rw [hp] at hv <;> exact hv
  · rw [ha]
    exact count_added (h.added q) hlevel j
  · exact hc
  · cases t with
    | none =>
      have hp : p.val ≠ 0 := fun hp => hpt ⟨Fin.ext (hp.trans hq.symm), rfl⟩
      simp [calling, hm, hp]
    | some _ => rfl

/-- **A worker has added its task** to the next pool. -/
theorem Inv.jobAdded (h : Inv place s u) {q : Fin Q} {r : Mem n Unit (Fin S) × Call Unit (Fin S)}
    (hjob : u.job p = .inAdd q) (hk : argument (workers s p) = some k)
    (hw : waiting r.1 = waiting (s q).mem ++ [k]) (ha : Heavy.added r.1 = Heavy.added (s q).mem ++ [k])
    (hs : r.1.pool.shutdown = (s q).mem.pool.shutdown) (hc : r.2 = .outside) :
    Inv (Function.update place k (.queued q))
      (Function.update s q ((s q).moveClient (Encodable.encode (some p : Thread n Q)) r))
      { u with job := Function.update u.job p .ret } := by
  have hhold : hold s u p = some k := by simp [hold, handed, hjob, hk]
  have hheld := (h.placed.held p k).mpr hhold
  have hat : u.tasks k = p.1 + 1 ∧ u.tasks k = q := by
    have := h.jobAt hhold
    rw [hjob] at this
    exact this
  have hlevel : level (place k) = q := by
    rw [hheld]
    exact hat.1.symm.trans hat.2
  have hother : ∀ r, r ≠ p → Function.update u.job p .ret r = u.job r := fun r hr => Function.update_of_ne hr ..
  refine h.client (z := some p) ?_ (fun j => ?_) (fun j => ?_) (fun p j => level_added hlevel p j)
    (over_queued (by simp [hheld])) (fun r hr => ?_) ?_ (fun r t hrt => ?_) (fun _ _ _ => hs) (fun _ _ hp => hp)
    (fun hp => hs.trans (h.shut q hp)) rfl (fun r hd => ?_) (fun hl => hl) rfl (fun hl => hl) h.passed
  · have hset : hold s { u with job := Function.update u.job p .ret } = Function.update (hold s u) p none := by
      refine (hold_move (p := p) (by intros; rfl) hother (by intros; rfl)).trans ?_
      congr 1
      simp [hold, handed]
    rw [hw, hset]
    exact h.placed.push hhold q
  · by_cases hj : j = k
    · subst hj
      rw [Function.update_self]
      exact hat.2
    · rw [Function.update_of_ne hj]
      refine (h.value j).move (p := p) (fun hp => hj ?_) hother
      exact Option.some.inj (((h.placed.held p j).mp hp).symm.trans hhold)
  · rw [ha]
    exact count_added (h.added q) hlevel j
  · have hrp : r ≠ p := by
      rintro rfl
      rw [hk] at hr
      cases hr
    exact (hother r hrp).trans (h.idle r hr)
  · rw [hc]
    simp [calling, InCall]
  · cases t with
    | none => rfl
    | some t =>
      by_cases htp : t = p
      · subst htp
        have hrq : q ≠ r := fun hrq => hrt ⟨hrq.symm, rfl⟩
        simp [calling, hjob, hrq]
      · simp [calling, htp]
  · have hrp : r ≠ p := by
      rintro rfl
      rw [hjob] at hd
      cases hd
    exact (hother r hrp).trans hd

/-- **`main` has destroyed the pool `q`.** -/
theorem Inv.destroyed (h : Inv place s u) {q : Fin Q} {r : Mem n Unit (Fin S) × Call Unit (Fin S)}
    (hm : u.main = .inDestroy q) (ht : SameTasks (s q).mem r.1) (hc : r.2 = .outside) :
    Inv place (Function.update s q ((s q).moveClient (Encodable.encode (none : Thread n Q)) r))
      { u with main := .destroy (q + 1) } := by
  refine h.client (z := none) ?_ h.value (fun k => ?_) (fun _ _ _ => Iff.rfl) (fun _ => Iff.rfl) h.idle ?_
    (fun p t hpt => ?_) (fun t hne hd => ?_) (fun p hpq hp => ?_) (fun hp => ?_) rfl (fun _ hd => hd)
    (fun hl => by rw [hm] at hl; cases hl) rfl (fun _ => by rw [hm]; trivial) h.passed
  · rw [waiting_same ht.pending, show waiting (s q).mem = queues s q from rfl, Function.update_eq_self]
    refine h.placed.same (fun j => ?_) rfl rfl
    rw [hm]
    rfl
  · rw [added_same ht.accepted]
    exact h.added q k
  · exact hc
  · cases t with
    | none =>
      have hp : q ≠ p := fun hp => hpt ⟨hp.symm, rfl⟩
      simp [calling, hm, hp]
    | some _ => rfl
  · obtain ⟨f, hd⟩ := hd
    rcases calling_cases hd with ⟨_, -, hj, -⟩ | ⟨rfl, -, -⟩ | ⟨_, _, -, hj, -⟩
    · cases hj
    · exact absurd rfl hne
    · cases hj
  · rw [hm]
    have hp' : q.val + 1 ≤ p.val := hp
    exact Fin.lt_def.mpr (by omega)
  · have hp' : q.val + 1 ≤ q.val := hp
    omega

/-- **A step of a call.** -/
theorem Inv.callStep (h : Inv place s u) {q : Fin Q} {th : Thread n Q} {x : Input n Unit (Fin S)}
    {r : Mem n Unit (Fin S) × Call Unit (Fin S)} (hring : RingOk (s q).mem.pool)
    (hsize : (s q).mem.pool.queueSize = S) (hx : x.Ok) (hcall : x.call = none)
    (hs : callStep (.inr (Encodable.encode th)) x (s q).mem (clients s q (Encodable.encode th)) = some r) :
    ∃ place', Inv place' (Function.update s q ((s q).moveClient (Encodable.encode th) r))
      (inCall u th (s q).mem r.1) := by
  have hin := h.calls q th
  cases hkind : calling s u q th with
  | none =>
    rw [hkind] at hin
    rw [show clients s q (Encodable.encode th) = .outside from hin] at hs
    rw [callStep_idle hcall] at hs
    cases hs
  | some kind =>
    rw [hkind] at hin
    have hroom : ∀ t, kind = .add t → (s q).mem.pool.count ≠ (s q).mem.pool.queueSize ∧
        (s q).mem.pool.shutdown = none :=
      fun t ht => h.room hring hsize (hkind.trans (congrArg some ht))
    have heff := callStep_effect hx hring hin (fun t ht => (hroom t ht).2)
      (callStep_cases hs).2
    generalize hr2 : r.2 = c at heff
    cases heff with
    | goes hr hc ht hsh =>
      refine ⟨place, ?_⟩
      rw [inCall, hr]
      exact h.goes hkind (hr2 ▸ hc) ht hsh
    | @adds t hr hp ha hd hsh =>
      have hw : waiting r.1 = waiting (s q).mem ++ [t.argument] := by rw [waiting, hp, List.map_append]; rfl
      have ha' : Heavy.added r.1 = Heavy.added (s q).mem ++ [t.argument] := by
        rw [Heavy.added, ha, List.map_append]
        rfl
      refine ⟨Function.update place t.argument (.queued q), ?_⟩
      rw [inCall, hr]
      rcases calling_cases hkind with ⟨j, rfl, hj, hm, hq⟩ | ⟨-, hj, -⟩ | ⟨p, j, rfl, hj, hjob, harg⟩
      · cases hj
        simpa [endCall, hm] using h.mainAdded hm hq hw ha' hsh hr2
      · cases hj
      · cases hj
        simpa [endCall] using h.jobAdded hjob harg hw ha' hsh hr2
    | full hr hf ht hsh => exact absurd hf (hroom _ rfl).1
    | destroys hr ht hd =>
      refine ⟨place, ?_⟩
      rw [inCall, hr]
      rcases calling_cases hkind with ⟨j, -, hj, -⟩ | ⟨rfl, -, hm⟩ | ⟨p, j, -, hj, -⟩
      · cases hj
      · simpa [endCall, hm] using h.destroyed hm ht hr2
      · cases hj

/-! ### Whole runs -/

theorem inv_init {s : Pools n Q S} {u : Test n Q S} (hs : ∀ q, (poolOf n Unit (Fin S) S).init (s q))
    (hu : (heavy n Q S).init u) : Inv (fun _ => .out) s u := by
  cases hu
  have hpool : ∀ q, ∃ queue, s q = ⟨created n S queue, fun _ => .lock, fun _ => .outside⟩ := hs
  have hworkers : ∀ p, workers s p = .lock := by
    intro p
    obtain ⟨queue, hq⟩ := hpool p.1
    rw [workers, hq]
  have hmem : ∀ q, waiting (s q).mem = [] ∧ added (s q).mem = [] ∧ (s q).mem.pool.shutdown = none := by
    intro q
    obtain ⟨queue, hq⟩ := hpool q
    rw [hq]
    exact ⟨rfl, rfl, rfl⟩
  refine ⟨⟨fun k => ?_, fun q => ?_, fun q k => ?_, fun p k => ?_⟩, fun _ => rfl, fun q k => ?_, fun p t c hp => ?_,
    fun _ _ => rfl, fun q th => ?_, fun q _ => (hmem q).2.2, Counter.inv_init, ?_, fun _ _ => rfl, fun _ => rfl,
    fun hc => absurd hc (by simp), fun hl => hl.elim, rfl⟩
  · exact iff_of_true rfl (Nat.zero_le k)
  · rw [queues, (hmem q).1]
    exact List.nodup_nil
  · rw [queues, (hmem q).1]
    simp
  · rw [hold_none (by rw [hworkers p]; rfl)]
    simp
  · rw [(hmem q).2.1]
    rfl
  · rw [hworkers p] at hp
    cases hp
  · have hnone : calling s ⟨fun _ => 0, Counter.init S, fun _ => .load, .loop 0, 1, false⟩ q th = none := by
      cases th <;> simp [calling]
    obtain ⟨queue, hq⟩ := hpool q
    rw [hnone, clients, hq]
    rfl
  · simp [Counter.init]

/-- **The program in every run.** -/
theorem inv_reach {c : Pools n Q S × Test n Q S} (h : Reach (program n Q S) callsOk c) :
    ∃ place, Inv place c.1 c.2 := by
  refine User.invariant (I := fun s u => ∃ place, Inv place s u) ?_ ?_ ?_ h
  · intro s u hs hu
    exact ⟨_, inv_init hs hu⟩
  · rintro s u ⟨q, tid, x⟩ s' u' hr ⟨place, hi⟩ hok hu hn
    obtain ⟨hring, hsize⟩ := pool_ring hr q
    obtain ⟨c', hc', rfl⟩ := Option.map_eq_some_iff.mp hn
    rcases Program.next_cases hc' with ⟨i, y, r, heq, hs, rfl⟩ | ⟨k, y, r, heq, hs, rfl⟩
    · cases heq
      exact hi.workerStep hring hu hs
    · cases heq
      cases hx : x.call with
      | none =>
        simp only [heavy, part, hx] at hu
        obtain ⟨th, hth, hu⟩ := Option.bind_eq_some_iff.mp hu
        obtain ⟨r', hr', rfl⟩ := Option.map_eq_some_iff.mp hu
        obtain rfl := Encodable.mem_decode₂.mp hth
        obtain rfl : r' = r := Option.some.inj (hr'.symm.trans hs)
        exact hi.callStep hring hsize hok hx hs
      | some api =>
        simp only [heavy, part, hx] at hu
        obtain ⟨th, hth, hu⟩ := Option.bind_eq_some_iff.mp hu
        obtain rfl := Encodable.mem_decode₂.mp hth
        split_ifs at hu with hout
        have hc : clients s q (Encodable.encode th) = .outside := by
          cases hcl : clients s q (Encodable.encode th) with
          | outside => rfl
          | _ => rw [show (s q).client (Encodable.encode th) = _ from hcl] at hout; cases hout
        refine ⟨place, hi.start hx hu hc ?_⟩
        rw [← hc]
        exact hs
  · rintro s u (_ | p) u' _ ⟨place, hi⟩ _ hu
    · exact ⟨place, hi.mainStep hu⟩
    · obtain ⟨k, hk, hu⟩ := Option.bind_eq_some_iff.mp hu
      exact hi.dummyTask hk hu

/-- **`heavy` passes.** In every run in which the pthread calls succeed no assertion fails and no index is outside of
its array: no `threadpool_add` is refused and every `threadpool_destroy` succeeds. No two threads have the same task
in their hands, a task is added to a pool at most once and only after it was added to the pools before. When `main`
has left its loop, every task has been added to every pool, `tasks[k]` is `QUEUES` for all `k`, `left` is `0`, and
nothing waits in the pools that are now destroyed without the graceful flag. -/
theorem heavy_passes {c : Pools n Q S × Test n Q S} (h : Reach (program n Q S) callsOk c) :
    c.2.failed = false ∧
    (∀ p p' k, hold c.1 c.2 p = some k → hold c.1 c.2 p' = some k → p = p') ∧
    (∀ q k, (added (c.1 q).mem).count k ≤ 1) ∧
    (∀ q q' k, q' < q → k ∈ added (c.1 q).mem → k ∈ added (c.1 q').mem) ∧
    (late c.2.main → (∀ q k, (added (c.1 q).mem).count k = 1) ∧ (∀ k, c.2.tasks k = Q) ∧ c.2.left.value = 0 ∧
      ∀ q, waiting (c.1 q).mem = []) := by
  obtain ⟨place, hi⟩ := inv_reach h
  refine ⟨hi.passed, fun p p' k hp hp' => ?_, fun q k => ?_, fun q q' k hq hk => ?_, fun hl => ?_⟩
  · have h1 := (hi.placed.held p k).mpr hp
    rw [(hi.placed.held p' k).mpr hp'] at h1
    cases h1
    rfl
  · rw [hi.added q k]
    split_ifs <;> omega
  · rw [← List.count_pos_iff, hi.added] at hk ⊢
    have hlt : q.val < level (place k) := by
      by_contra hge
      rw [if_neg hge] at hk
      exact absurd hk (lt_irrefl 0)
    rw [if_pos (lt_trans (Fin.lt_def.mp hq) hlt)]
    exact one_pos
  · have hall := hi.late hl
    refine ⟨fun q k => ?_, fun k => ?_, ?_, fun q => ?_⟩
    · rw [hi.added q k, hall k]
      exact if_pos q.isLt
    · have hv := hi.value k
      rw [hall k] at hv
      exact hv
    · have hcard : (Finset.univ.filter fun k => place k = .over).card = S := by
        rw [Finset.filter_true_of_mem fun k _ => hall k, Finset.card_univ, Fintype.card_fin]
      have hval := hi.left.value
      rw [hi.writes, hcard] at hval
      omega
    · refine List.eq_nil_iff_forall_not_mem.mpr fun k hk => ?_
      have hq := (hi.placed.queued q k).mpr hk
      rw [hall k] at hq
      cases hq

/-- The test for `callsOk`. -/
def callsTest (_ : Pools n Q S × Test n Q S) : (Fin Q × Tid n × Input n Unit (Fin S)) ⊕ Thread n Q → Bool
  | .inl a => decide a.2.2.Ok
  | .inr _ => true

theorem callsOk_of_test (c : Pools n Q S × Test n Q S) (a : (Fin Q × Tid n × Input n Unit (Fin S)) ⊕ Thread n Q)
    (h : callsTest c a = true) : callsOk c a := by
  cases a with
  | inl a => exact of_decide_eq_true (p := a.2.2.Ok) h
  | inr th => trivial

/-- The pools of `relayRun`. -/
def firstPool : Fin 2 := Fin.castSucc (Fin.last 0)

/-- The second of them. -/
def secondPool : Fin 2 := Fin.last 1

/-- A step of the only worker of a pool. -/
def workerMove (q : Fin 2) : (Fin 2 × Tid 1 × Input 1 Unit (Fin 1)) ⊕ Thread 1 2 := .inl (q, .inl (Fin.last 0), {})

/-- `threadpool_add` of the only task by the client `k`. -/
def addMoves (q : Fin 2) (k : ℕ) : List ((Fin 2 × Tid 1 × Input 1 Unit (Fin 1)) ⊕ Thread 1 2) :=
  [.inl (q, .inr k, { call := some (.add (some ()) (Fin.last 0)) }), .inl (q, .inr k, {}), .inl (q, .inr k, {})]

/-- A step of `dummy_task` on the worker of a pool. -/
def jobMove (q : Fin 2) : (Fin 2 × Tid 1 × Input 1 Unit (Fin 1)) ⊕ Thread 1 2 := .inr (some (q, Fin.last 0))

/-- One task and two pools with one worker each: `main` adds the task, both workers run it, and `main` looks at
`left`. -/
def relayRun : List ((Fin 2 × Tid 1 × Input 1 Unit (Fin 1)) ⊕ Thread 1 2) :=
  [.inr none] ++ addMoves firstPool 0 ++ [.inr none, workerMove firstPool, workerMove firstPool] ++
  List.replicate 4 (jobMove firstPool) ++ addMoves secondPool 1 ++
  [workerMove firstPool, workerMove secondPool, workerMove secondPool] ++ List.replicate 7 (jobMove secondPool) ++
  List.replicate 7 (.inr none)

/-- The pools and the variables before `relayRun`. -/
def relayStart : Pools 1 2 1 × Test 1 2 1 :=
  (fun _ => ⟨created 1 1 fun _ => ⟨(), Fin.last 0⟩, fun _ => .lock, fun _ => .outside⟩,
    ⟨fun _ => 0, Counter.init 1, fun _ => .load, .loop 0, 1, false⟩)

theorem heavy_passes_relayRun : ∃ c : Pools 1 2 1 × Test 1 2 1, c.2.main = .destroy 0 ∧ ∀ k, c.2.tasks k = 2 := by
  have hinit : (program 1 2 1).init relayStart := ⟨fun _ => ⟨_, rfl⟩, rfl⟩
  obtain ⟨c, hr, hp⟩ := reach_of_run (program 1 2 1) callsOk_of_test relayRun
    (fun c => decide (c.2.main = .destroy 0)) hinit (by decide +kernel)
  have hm := of_decide_eq_true hp
  exact ⟨c, hm, ((heavy_passes hr).2.2.2.2 (by rw [hm]; trivial)).2.1⟩

end PoolStudy.Heavy
