import PoolStudy.Workqueue.Exit

/-! # The work queue: the traversal of `workqueue_shutdown`

`workqueue_shutdown` follows the list of the workers without the mutex: it sets `terminate` in a record and
then reads `next` from it. A worker that sees `terminate` frees its record, which may come in between.

Every worker is marked or still ahead of the traversal (`Marks`), so a traversal that comes to its end has
marked all of them. No freed record is touched as long as no worker frees its record while a traversal is at
it or has it ahead (`traversal_safe_iff`). -/

namespace PoolStudy.Workqueue.Traversal

open PoolStudy.Lib.Transition PoolStudy.Lib.Threads PoolStudy.Lib.Chain
open PoolStudy.Workqueue.Model PoolStudy.Workqueue.Steps PoolStudy.Workqueue.Jobs PoolStudy.Workqueue.Exit

variable {n : ℕ} {J : Type} [DecidableEq J]

/-! ### The list of the workers -/

/-- All workers added one after the other are on the list. -/
theorem waiting_foldl {α : Type} [DecidableEq α] (l : LList α) {q : List α} (h : Waiting l q) (as : List α)
    (hn : (as.reverse ++ q).Nodup) : Waiting (as.foldl LList.llAdd l) (as.reverse ++ q) := by
  induction as generalizing l q with
  | nil => exact h
  | cons a as ih =>
    rw [List.reverse_cons, List.append_assoc] at hn ⊢
    refine ih (l.llAdd a) (h.add fun hin => ?_) hn
    exact (List.nodup_cons.mp hn.of_append_right).1 hin

omit [DecidableEq J] in
/-- **`workqueue_init`** leaves every worker on the list, which is linked from its head to its end. -/
theorem ahead_init (links : J → Links J) (i : Fin n) :
    Ahead (nextOf (workqueueInit n links).queue.workers) (workqueueInit n links).queue.workers.list i := by
  have hw := waiting_foldl ⟨fun _ => ⟨none, none⟩, none⟩ (q := []) ⟨rfl, by simp⟩ (List.finRange n)
    (by simpa using List.nodup_finRange n)
  exact ⟨_, hw.linked, by simp⟩

/-! ### Marking -/

/-- The pointer from which the workers are still to be marked; before the call, the head of the list. -/
def toMark (l : LList (Fin n)) : Call n J → Option (Fin n)
  | .mark w => some w
  | .next w => (l.links w).next
  | .shutLock | .shutIn | .shutUnlock => none
  | .outside | .addLock _ | .addIn _ | .addUnlock | .head => l.list

/-- Every worker has been told to terminate or is still to be marked. -/
def Marks (m : Mem n J) (c : Call n J) : Prop :=
  ∀ i, m.terminate i = true ∨ Ahead (nextOf m.queue.workers) (toMark m.queue.workers c) i

/-- What a step may do to the workers' records: the links stay, marks stay, and the list is emptied when all
workers are marked. -/
structure Later (m m' : Mem n J) : Prop where
  links : m'.queue.workers.links = m.queue.workers.links
  marked : ∀ i, m.terminate i = true → m'.terminate i = true
  list : m'.queue.workers.list = m.queue.workers.list ∨
    (m'.queue.workers.list = none ∧ ∀ i, m'.terminate i = true)

omit [DecidableEq J] in
theorem Later.same {m m' : Mem n J} (hw : m'.queue.workers = m.queue.workers)
    (ht : m'.terminate = m.terminate) : Later m m' :=
  ⟨by rw [hw], fun i hi => by rw [ht]; exact hi, Or.inl (by rw [hw])⟩

omit [DecidableEq J] in
theorem Later.nextOf {m m' : Mem n J} (h : Later m m') : nextOf m'.queue.workers = nextOf m.queue.workers := by
  funext i
  simp only [Jobs.nextOf, h.links]

omit [DecidableEq J] in
/-- The pointer of another call: it stays, unless the list has been emptied. -/
theorem Later.toMark {m m' : Mem n J} (h : Later m m') (c : Call n J) :
    toMark m'.queue.workers c = toMark m.queue.workers c ∨ ∀ i, m'.terminate i = true := by
  rcases h.list with hl | ⟨-, hall⟩
  · left
    cases c <;> simp [Traversal.toMark, hl, h.links]
  · exact Or.inr hall

omit [DecidableEq J] in
theorem Marks.later {m m' : Mem n J} {c : Call n J} (h : Marks m c) (hl : Later m m') : Marks m' c := by
  intro i
  rcases hl.toMark c with hp | hall
  · rw [hl.nextOf, hp]
    exact (h i).imp_left (hl.marked i)
  · exact Or.inl (hall i)

omit [DecidableEq J] in
theorem toMark_atWorker (l : LList (Fin n)) (p : Option (Fin n)) :
    toMark (J := J) l (atWorker p) = p := by
  cases p <;> rfl

theorem callStep_marks {self : Tid n} {x : Input n J} {m m' : Mem n J} {c c' : Call n J}
    (hs : CallStep self x m c m' c') (h : Marks m c) : Later m m' ∧ Marks m' c' := by
  cases hs with
  | head =>
    refine ⟨.same rfl rfl, fun i => ?_⟩
    rw [toMark_atWorker]
    exact h i
  | mark w hw =>
    have hmark : ∀ i, Function.update m.terminate w true i = true ↔ i = w ∨ m.terminate i = true := by
      intro i
      by_cases hiw : i = w <;> simp [hiw]
    refine ⟨⟨rfl, fun i hi => (hmark i).mpr (Or.inr hi), Or.inl rfl⟩, fun i => ?_⟩
    rcases h i with hi | ha
    · exact Or.inl ((hmark i).mpr (Or.inr hi))
    · exact ha.uncons.imp_left fun hiw => (hmark i).mpr (Or.inl hiw)
  | next w hw =>
    refine ⟨.same rfl rfl, fun i => ?_⟩
    rw [toMark_atWorker]
    exact h i
  | shutIn =>
    have hall : ∀ i, m.terminate i = true := fun i => (h i).resolve_right not_ahead_none
    exact ⟨⟨rfl, fun i hi => hi, Or.inr ⟨rfl, hall⟩⟩, fun i => Or.inl (hall i)⟩
  | shutUnlock => exact ⟨.same rfl rfl, fun i => Or.inl ((h i).resolve_right not_ahead_none)⟩
  | _ => exact ⟨.same rfl rfl, h⟩

theorem workerStep_marks {i : Fin n} {x : Input n J} {m m' : Mem n J} {w w' : Worker n J}
    (hs : WorkerStep i x m w m' w') (h : Marks m (workerCall w)) : Later m m' ∧ Marks m' (workerCall w') := by
  cases hs with
  | call job hs => exact callStep_marks hs h
  | _ => exact ⟨.same rfl rfl, h⟩

/-- A chain leads from every worker's record to the end, and every worker is marked or ahead of every
traversal. -/
structure MarksInv (c : State n J) : Prop where
  chain : ∀ w, Ahead (nextOf c.mem.queue.workers) (some w) w
  marks : ∀ t, Marks c.mem (callAt c t)

theorem marks_reach {ok : State n J → Tid n × Input n J → Prop} {c : State n J}
    (h : Reach (workqueue n J).lts ok c) : MarksInv c := by
  refine Program.invariant (I := MarksInv) ?_ ?_ ?_ h
  · rintro _ ⟨links, rfl⟩
    refine ⟨fun w => (ahead_init links w).self, ?_⟩
    rintro (i | k) j <;> exact Or.inr (ahead_init links j)
  · intro c i x r _ hi _ hs
    obtain ⟨hlater, hm⟩ := workerStep_marks (workerStep_cases hs) (hi.marks (.inl i))
    refine ⟨fun w => ?_, fun t => ?_⟩
    · rw [show nextOf (c.moveWorker i r).mem.queue.workers = _ from hlater.nextOf]
      exact hi.chain w
    · rw [callAt, view_moveWorker]
      by_cases ht : t = .inl i
      · rw [ht, Function.update_self]
        exact hm
      · rw [Function.update_of_ne ht]
        exact (hi.marks t).later hlater
  · intro c k x r _ hi _ hs
    obtain ⟨hlater, hm⟩ := callStep_marks (callStep_cases hs) (hi.marks (.inr k))
    refine ⟨fun w => ?_, fun t => ?_⟩
    · rw [show nextOf (c.moveClient k r).mem.queue.workers = _ from hlater.nextOf]
      exact hi.chain w
    · rw [callAt, view_moveClient]
      by_cases ht : t = .inr k
      · rw [ht, Function.update_self]
        exact hm
      · rw [Function.update_of_ne ht]
        exact (hi.marks t).later hlater

/-! ### Freed records -/

/-- The record a traversal is at, from which it goes on. -/
def pointer (l : LList (Fin n)) : Call n J → Option (Fin n)
  | .head => l.list
  | .mark w | .next w => some w
  | .outside | .addLock _ | .addIn _ | .addUnlock | .shutLock | .shutIn | .shutUnlock => none

/-- A traversal is at the record of `i` or still comes to it. -/
def Comes (m : Mem n J) (c : Call n J) (i : Fin n) : Prop :=
  Ahead (nextOf m.queue.workers) (pointer m.queue.workers c) i

/-- The traversal of the thread `t` comes to a freed record. -/
def Doomed (c : State n J) (t : Tid n) : Prop := ∃ i ∈ c.mem.freed, Comes c.mem (callAt c t) i

/-- The thread can call the library. -/
def canCall (c : State n J) : Tid n → Prop := c.view (fun w => ∃ job, w = .run job .outside) (· = .outside)

/-- **A worker frees its record only when no traversal comes to it**, and a traversal starts only when the
list is clear of freed records. -/
def passed (c : State n J) (a : Tid n × Input n J) : Prop :=
  (∀ i, a.1 = .inl i → c.worker i = .free → ∀ t, ¬ Comes c.mem (callAt c t) i) ∧
  (canCall c a.1 → a.2.call = some .shutdown → ∀ i ∈ c.mem.freed, ¬ Comes c.mem .head i)

omit [DecidableEq J] in
theorem pointer_atWorker (l : LList (Fin n)) (p : Option (Fin n)) : pointer (J := J) l (atWorker p) = p := by
  cases p <;> rfl

omit [DecidableEq J] in
/-- What a traversal comes to after a step of another thread it came to before. -/
theorem Comes.before {m m' : Mem n J} {c : Call n J} {i : Fin n} (hl : Later m m') (h : Comes m' c i) :
    Comes m c i := by
  unfold Comes at h ⊢
  rw [hl.nextOf] at h
  rcases hl.list with hlist | ⟨hnone, -⟩
  · cases c <;> simpa [pointer, hlist] using h
  · cases c with
    | head => exact absurd (by simpa only [pointer, hnone] using h) not_ahead_none
    | _ => exact h

/-- What a traversal comes to after its own step it came to before, unless the step starts it. -/
theorem callStep_comes {self : Tid n} {x : Input n J} {m m' : Mem n J} {c c' : Call n J} {i : Fin n}
    (hs : CallStep self x m c m' c') (h : Comes m' c' i) :
    Comes m c i ∨ (c = .outside ∧ x.call = some .shutdown ∧ Comes m .head i) := by
  cases hs with
  | callShutdown hx => exact Or.inr ⟨rfl, hx, h⟩
  | head =>
    rw [Comes, pointer_atWorker] at h
    exact Or.inl h
  | mark w hw => exact Or.inl h
  | next w hw =>
    rw [Comes, pointer_atWorker] at h
    exact Or.inl h.cons
  | _ => exact absurd h not_ahead_none

theorem callStep_freed {self : Tid n} {x : Input n J} {m m' : Mem n J} {c c' : Call n J}
    (hs : CallStep self x m c m' c') : m'.freed = m.freed := by
  cases hs <;> rfl

theorem workerStep_freed {i : Fin n} {x : Input n J} {m m' : Mem n J} {w w' : Worker n J}
    (hs : WorkerStep i x m w m' w') :
    (m'.freed = m.freed ∧ w ≠ .free) ∨ (w = .free ∧ w' = .exit ∧ m' = { m with freed := insert i m.freed }) := by
  cases hs with
  | free => exact Or.inr ⟨rfl, rfl, rfl⟩
  | call job hs => exact Or.inl ⟨callStep_freed hs, by simp⟩
  | _ => exact Or.inl ⟨rfl, by simp⟩

theorem workerStep_comes {i j : Fin n} {x : Input n J} {m m' : Mem n J} {w w' : Worker n J}
    (hs : WorkerStep i x m w m' w') (h : Comes m' (workerCall w') j) :
    Comes m (workerCall w) j ∨
      ((∃ job, w = .run job .outside) ∧ x.call = some .shutdown ∧ Comes m .head j) := by
  cases hs with
  | call job hs =>
    refine (callStep_comes hs h).imp_right fun ⟨hc, hx⟩ => ⟨⟨job, ?_⟩, hx⟩
    rw [hc]
  | _ => exact absurd h not_ahead_none

/-! ### Steps -/

/-- **A step of a worker**: it dooms a traversal iff it breaks the condition. -/
theorem doomed_moveWorker {c : State n J} {i : Fin n} {x : Input n J} {r : Mem n J × Worker n J}
    (h : ∀ t, ¬ Doomed c t) (hr : Reach (workqueue n J).lts anyStep c)
    (hs : WorkerStep i x c.mem (c.worker i) r.1 r.2) :
    (∀ t, ¬ Doomed (c.moveWorker i r) t) ↔ passed c (.inl i, x) := by
  have hlater := (workerStep_marks hs ((marks_reach hr).marks (.inl i))).1
  constructor
  · intro hclear
    refine ⟨fun j hj hfree t hcomes => ?_, fun hcan hx j hj hcomes => ?_⟩
    · cases hj
      rcases workerStep_freed hs with ⟨-, hne⟩ | ⟨-, hw', hm'⟩
      · exact hne hfree
      · refine hclear t ⟨i, ?_, ?_⟩
        · show i ∈ r.1.freed
          rw [hm']
          exact Finset.mem_insert_self ..
        · show Comes r.1 (callAt _ t) i
          rw [callAt, view_moveWorker, hw', hm']
          by_cases ht : t = .inl i
          · rw [ht, callAt, view_inl, hfree] at hcomes
            exact absurd hcomes not_ahead_none
          · rw [Function.update_of_ne ht]
            exact hcomes
    · obtain ⟨job, hrun⟩ : ∃ job, c.worker i = .run job .outside := hcan
      refine hclear (.inl i) ⟨j, ?_, ?_⟩
      · rcases workerStep_freed hs with ⟨hf, -⟩ | ⟨hfree, -⟩
        · show j ∈ r.1.freed
          rw [hf]
          exact hj
        · rw [hrun] at hfree; cases hfree
      · show Comes r.1 (callAt _ (.inl i)) j
        rw [callAt, view_moveWorker, Function.update_self]
        rw [hrun] at hs
        generalize r.1 = m', r.2 = w' at hs
        cases hs with
        | finish job hn => rw [hx] at hn; cases hn
        | call job hc =>
          cases hc with
          | callAdd ha => rw [hx] at ha; cases ha
          | callShutdown _ => exact hcomes
  · rintro ⟨hfree, hcall⟩ t ⟨j, hj, hcomes⟩
    change j ∈ r.1.freed at hj
    change Comes r.1 (callAt _ t) j at hcomes
    rw [callAt, view_moveWorker] at hcomes
    -- the traversal came to `j` before the step, or the step starts it
    have hbefore : Comes c.mem (callAt c t) j ∨ (canCall c (.inl i) ∧ x.call = some .shutdown ∧
        Comes c.mem .head j) := by
      by_cases ht : t = .inl i
      · rw [ht, Function.update_self] at hcomes
        rw [ht]
        exact workerStep_comes hs hcomes
      · rw [Function.update_of_ne ht] at hcomes
        exact Or.inl (hcomes.before hlater)
    rcases workerStep_freed hs with ⟨hf, -⟩ | ⟨hw, -, hm'⟩
    · rw [hf] at hj
      rcases hbefore with hb | ⟨hcan, hx, hb⟩
      · exact h t ⟨j, hj, hb⟩
      · exact hcall hcan hx j hj hb
    · rcases hbefore with hb | ⟨⟨job, hrun⟩, -, -⟩
      · rw [hm'] at hj
        rcases Finset.mem_insert.mp hj with rfl | hj
        · exact hfree j rfl hw t hb
        · exact h t ⟨j, hj, hb⟩
      · rw [hrun] at hw; cases hw

/-- **A step of a client**. -/
theorem doomed_moveClient {c : State n J} {k : ℕ} {x : Input n J} {r : Mem n J × Call n J}
    (h : ∀ t, ¬ Doomed c t) (hr : Reach (workqueue n J).lts anyStep c)
    (hs : CallStep (.inr k) x c.mem (c.client k) r.1 r.2) :
    (∀ t, ¬ Doomed (c.moveClient k r) t) ↔ passed c (.inr k, x) := by
  have hlater := (callStep_marks hs ((marks_reach hr).marks (.inr k))).1
  have hf := callStep_freed hs
  constructor
  · intro hclear
    refine ⟨fun j hj => (by cases hj), fun hcan hx j hj hcomes => ?_⟩
    refine hclear (.inr k) ⟨j, by show j ∈ r.1.freed; rw [hf]; exact hj, ?_⟩
    show Comes r.1 (callAt _ (.inr k)) j
    rw [callAt, view_moveClient, Function.update_self]
    rw [show c.client k = .outside from hcan] at hs
    generalize r.1 = m', r.2 = c' at hs
    cases hs with
    | callAdd ha => rw [hx] at ha; cases ha
    | callShutdown _ => exact hcomes
  · rintro ⟨-, hcall⟩ t ⟨j, hj, hcomes⟩
    change j ∈ r.1.freed at hj
    change Comes r.1 (callAt _ t) j at hcomes
    rw [callAt, view_moveClient] at hcomes
    rw [hf] at hj
    by_cases ht : t = .inr k
    · rw [ht, Function.update_self] at hcomes
      rcases callStep_comes hs hcomes with hb | ⟨hcan, hx, hb⟩
      · exact h (.inr k) ⟨j, hj, hb⟩
      · exact hcall hcan hx j hj hb
    · rw [Function.update_of_ne ht] at hcomes
      exact h t ⟨j, hj, hcomes.before hlater⟩

theorem doomed_next {c c' : State n J} {a : Tid n × Input n J} (h : ∀ t, ¬ Doomed c t)
    (hr : Reach (workqueue n J).lts anyStep c) (hs : (workqueue n J).lts.next c a = some c') :
    (∀ t, ¬ Doomed c' t) ↔ passed c a := by
  rcases Program.next_cases hs with ⟨i, x, r, rfl, hw, rfl⟩ | ⟨k, x, r, rfl, hw, rfl⟩
  · exact doomed_moveWorker h hr (workerStep_cases hw)
  · exact doomed_moveClient h hr (callStep_cases hw)

/-! ### A doomed traversal -/

/-- A worker that has freed its record has left its loop. -/
theorem freed_left {ok : State n J → Tid n × Input n J → Prop} {c : State n J}
    (h : Reach (workqueue n J).lts ok c) : ∀ i ∈ c.mem.freed, left (c.worker i) = true := by
  refine Program.invariant (I := fun c : State n J => ∀ i ∈ c.mem.freed, left (c.worker i) = true) ?_ ?_ ?_ h
  · rintro _ ⟨links, rfl⟩ i hi
    simp [workqueueInit] at hi
  · intro c i x r _ hi _ hs j hj
    rw [left_moveWorker hs]
    rcases workerStep_freed (workerStep_cases hs) with ⟨hf, -⟩ | ⟨hw, -, hm'⟩
    · exact Or.inl (hi j (hf ▸ hj))
    · change j ∈ r.1.freed at hj
      rw [hm'] at hj
      rcases Finset.mem_insert.mp hj with rfl | hj
      · left
        rw [hw]
        rfl
      · exact Or.inl (hi j hj)
  · intro c k x r _ hi _ hs j hj
    exact hi j (callStep_freed (callStep_cases hs) ▸ hj)

/-- While a worker is gone, no thread clears the list of the workers: the gone worker owns the mutex. -/
theorem not_shutIn {c : State n J} (h : Reach (workqueue n J).lts anyStep c) {i : Fin n}
    (hi : left (c.worker i) = true) (t : Tid n) : callAt c t ≠ .shutIn := by
  intro ht
  have howns := left_owns h hi
  have hsec : c.mem.queue.jobsMutex = some t := by
    refine ((guarded_reach h).owned t).mp ?_
    rcases t with j | k
    · obtain ⟨job, hj⟩ : ∃ job, c.worker j = .run job .shutIn := by
        rw [callAt, view_inl] at ht
        generalize c.worker j = w at ht
        cases w with
        | run job d => exact ⟨job, by rw [show d = .shutIn from ht]⟩
        | _ => cases ht
      simp [view_inl, hj, workerSection, callSection]
    · rw [view_inr, show c.client k = .shutIn from ht]
      simp [callSection]
  obtain rfl : t = .inl i := by simpa using hsec.symm.trans howns
  rw [callAt, view_inl] at ht
  generalize c.worker i = w at hi ht
  cases w with
  | free | exit | exited => cases ht
  | _ => cases hi

theorem callStep_workers {self : Tid n} {x : Input n J} {m m' : Mem n J} {c c' : Call n J}
    (hs : CallStep self x m c m' c') (hc : c ≠ .shutIn) : m'.queue.workers = m.queue.workers := by
  cases hs with
  | shutIn => exact absurd rfl hc
  | _ => rfl

theorem workerStep_workers {i : Fin n} {x : Input n J} {m m' : Mem n J} {w w' : Worker n J}
    (hs : WorkerStep i x m w m' w') (hc : workerCall w ≠ .shutIn) : m'.queue.workers = m.queue.workers := by
  cases hs with
  | call job hs => exact callStep_workers hs hc
  | _ => rfl

/-- A traversal does not get past a freed record. -/
theorem callStep_stuck {self : Tid n} {x : Input n J} {m m' : Mem n J} {c c' : Call n J} {i : Fin n}
    (hs : CallStep self x m c m' c') (hi : i ∈ m.freed) (h : Comes m c i) : Comes m' c' i := by
  cases hs with
  | head =>
    rw [Comes, pointer_atWorker]
    exact h
  | mark w hw => exact h
  | next w hw =>
    rw [Comes, pointer_atWorker]
    exact h.uncons.resolve_left fun hiw => hw (hiw ▸ hi)
  | _ => exact absurd h not_ahead_none

theorem workerStep_stuck {i j : Fin n} {x : Input n J} {m m' : Mem n J} {w w' : Worker n J}
    (hs : WorkerStep i x m w m' w') (hj : j ∈ m.freed) (h : Comes m (workerCall w) j) :
    Comes m' (workerCall w') j := by
  cases hs with
  | call job hs => exact callStep_stuck hs hj h
  | _ => exact absurd h not_ahead_none

/-- **A doomed traversal stays doomed**: it never comes to its end. -/
theorem doomed_runs {c c' : State n J} {t : Tid n} (h : Reach (workqueue n J).lts anyStep c)
    (hd : Doomed c t) (hr : Runs (workqueue n J).lts anyStep c c') : Doomed c' t := by
  refine (Runs.keeps (P := fun c : State n J => Reach (workqueue n J).lts anyStep c ∧ Doomed c t) ?_ hr
    ⟨h, hd⟩).2
  rintro c a c' ⟨h, i, hi, hcomes⟩ _ hs
  refine ⟨h.next trivial hs, i, ?_⟩
  have hshut := not_shutIn h (freed_left h i hi)
  rcases Program.next_cases hs with ⟨j, x, r, rfl, hw, rfl⟩ | ⟨k, x, r, rfl, hw, rfl⟩
  · have hs := workerStep_cases hw
    refine ⟨?_, ?_⟩
    · show i ∈ r.1.freed
      rcases workerStep_freed hs with ⟨hf, -⟩ | ⟨-, -, hm'⟩
      · exact hf ▸ hi
      · rw [hm']
        exact Finset.mem_insert_of_mem hi
    · show Comes r.1 (callAt _ t) i
      rw [callAt, view_moveWorker]
      by_cases ht : t = .inl j
      · rw [ht, Function.update_self]
        exact workerStep_stuck hs hi (by rw [ht] at hcomes; exact hcomes)
      · rw [Function.update_of_ne ht, Comes, workerStep_workers hs (hshut (.inl j))]
        exact hcomes
  · have hs := callStep_cases hw
    refine ⟨by show i ∈ r.1.freed; rw [callStep_freed hs]; exact hi, ?_⟩
    show Comes r.1 (callAt _ t) i
    rw [callAt, view_moveClient]
    by_cases ht : t = .inr k
    · rw [ht, Function.update_self]
      exact callStep_stuck hs hi (by rw [ht] at hcomes; exact hcomes)
    · rw [Function.update_of_ne ht, Comes, callStep_workers hs (hshut (.inr k))]
      exact hcomes

/-! ### The condition -/

theorem not_doomed_reach {c : State n J} (h : Reach (workqueue n J).lts passed c) (t : Tid n) :
    ¬ Doomed c t := by
  refine h.induct (I := fun c : State n J => ∀ t, ¬ Doomed c t) ?_ ?_ t
  · rintro _ ⟨links, rfl⟩ t ⟨i, hi, -⟩
    simp [workqueueInit] at hi
  · intro c a c' hc hi hok hs
    exact (doomed_next hi (hc.mono fun _ _ _ => trivial) hs).mpr hok

/-- The traversal of the thread is over: it is on its way to `waiting_jobs = NULL` or past it. -/
def traversed : Call n J → Prop
  | .shutLock | .shutIn | .shutUnlock => True
  | _ => False

omit [DecidableEq J] in
theorem toMark_traversed {l : LList (Fin n)} {c : Call n J} (h : traversed c) : toMark l c = none := by
  cases c <;> first | rfl | exact h.elim

omit [DecidableEq J] in
theorem pointer_traversed {l : LList (Fin n)} {c : Call n J} (h : traversed c) : pointer l c = none := by
  cases c <;> first | rfl | exact h.elim

/-- **`workqueue_shutdown` marks every worker and touches no freed record as long as no worker frees its
record while a traversal is at it or before it.** A step that breaks the condition leaves some traversal with
a freed record that it never gets past. -/
theorem traversal_safe_iff (numWorkers : ℤ) :
    (∀ (c : State (workerCount numWorkers) J) (t : Tid _),
      Reach (workqueue (workerCount numWorkers) J).lts passed c →
      (∀ w, callAt c t = .mark w ∨ callAt c t = .next w → w ∉ c.mem.freed)) ∧
    (∀ (c : State (workerCount numWorkers) J) (t : Tid _),
      Reach (workqueue (workerCount numWorkers) J).lts anyStep c → traversed (callAt c t) →
      ∀ i, c.mem.terminate i = true) ∧
    (∀ (c c' : State (workerCount numWorkers) J) (a : Tid _ × Input _ J),
      Reach (workqueue (workerCount numWorkers) J).lts anyStep c → (∀ t, ¬ Doomed c t) →
      (workqueue (workerCount numWorkers) J).lts.next c a = some c' → ((∀ t, ¬ Doomed c' t) ↔ passed c a)) ∧
    (∀ (c c' : State (workerCount numWorkers) J) (t : Tid _),
      Reach (workqueue (workerCount numWorkers) J).lts anyStep c → Doomed c t →
      Runs (workqueue (workerCount numWorkers) J).lts anyStep c c' →
      Doomed c' t ∧ ¬ traversed (callAt c' t)) := by
  refine ⟨fun c t h w hw hfreed => ?_, fun c t h ht i => ?_, fun c c' a h hd hs => doomed_next hd h hs,
    fun c c' t h hd hr => ?_⟩
  · refine not_doomed_reach h t ⟨w, hfreed, ?_⟩
    have hchain := (marks_reach h).chain w
    rcases hw with hw | hw <;> rw [Comes, hw] <;> exact hchain
  · refine ((marks_reach h).marks t i).resolve_right ?_
    rw [toMark_traversed ht]
    exact not_ahead_none
  · have hd' := doomed_runs h hd hr
    refine ⟨hd', fun ht => ?_⟩
    obtain ⟨i, -, hcomes⟩ := hd'
    rw [Comes, pointer_traversed ht] at hcomes
    exact not_ahead_none hcomes

/-- The test for steps before any worker frees its record. -/
def noneFreed (c : State n J) (a : Tid n × Input n J) : Bool :=
  decide (c.mem.freed = ∅) && match a.1 with
    | .inl i => decide (c.worker i ≠ .free)
    | .inr _ => true

theorem passed_of_test (c : State n J) (a : Tid n × Input n J) (h : noneFreed c a = true) : passed c a := by
  simp only [noneFreed, Bool.and_eq_true, decide_eq_true_eq] at h
  refine ⟨fun i hi hfree => ?_, fun _ _ i hi => ?_⟩
  · have hw := h.2
    rw [hi] at hw
    simp [hfree] at hw
  · rw [h.1] at hi
    cases hi

/-- A client shuts the queue down and has come to the end of its traversal. -/
def traversalRun : List (Tid (workerCount 2) × Input (workerCount 2) ℕ) :=
  (.inr 0, { call := some .shutdown }) :: List.replicate 5 (.inr 0, {})

theorem traversal_safe_iff_traversalRun : ∃ c : State (workerCount 2) ℕ,
    Reach (workqueue (workerCount 2) ℕ).lts passed c ∧ callAt c (.inr 0) = .shutLock ∧
      ∀ i, c.mem.terminate i = true := by
  obtain ⟨c, hc, hp⟩ := reach_of_run (workqueue (workerCount 2) ℕ).lts passed_of_test traversalRun
    (fun c => decide (c.client 0 = .shutLock)) ⟨fun _ => ⟨none, none⟩, rfl⟩ (by decide)
  simp only [decide_eq_true_eq] at hp
  have hcall : callAt c (.inr 0) = .shutLock := hp
  exact ⟨c, hc, hcall, (traversal_safe_iff (J := ℕ) 2).2.1 c (.inr 0) (hc.mono fun _ _ _ => trivial)
    (by rw [hcall]; trivial)⟩

/-- The traversal has marked the only worker; the worker sees `terminate` and frees its record before the
traversal reads its `next`. -/
def lateRun : List (Tid (workerCount 1) × Input (workerCount 1) ℕ) :=
  [(.inr 0, { call := some .shutdown }), (.inr 0, {}), (.inr 0, {}), (.inl 0, {}), (.inl 0, {}), (.inl 0, {}),
   (.inl 0, {}), (.inl 0, {})]

/-- **The traversal reads a freed record**: `next` of a worker that has already freed it. -/
theorem traversal_reads_freed_lateRun : ∃ c : State (workerCount 1) ℕ,
    Reach (workqueue (workerCount 1) ℕ).lts anyStep c ∧ callAt c (.inr 0) = .next 0 ∧ 0 ∈ c.mem.freed := by
  obtain ⟨c, hc, hp⟩ := reach_of_run (workqueue (workerCount 1) ℕ).lts anyStep_of_test lateRun
    (fun c => decide (c.client 0 = .next 0) && decide (0 ∈ c.mem.freed)) ⟨fun _ => ⟨none, none⟩, rfl⟩
    (by decide)
  simp only [Bool.and_eq_true, decide_eq_true_eq] at hp
  exact ⟨c, hc, hp.1, hp.2⟩

end PoolStudy.Workqueue.Traversal
