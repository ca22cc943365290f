import PoolStudy.Workqueue.Traversal

/-! # The work queue: `workqueue_shutdown` in a signal handler

`sighandler` of `echoserver_threaded.c` calls `killServer`, which calls `workqueue_shutdown`. A signal is delivered to
some thread of the process, wherever this thread is: the handler runs in its place, under its identity, and the thread
goes on when the handler has returned. `jobs_mutex` is not recursive.

If the thread owns `jobs_mutex` when the signal comes, the handler waits for a mutex that only the thread it has
interrupted could give back: it never returns, nobody ever gets the mutex, and no job is added or handed out any more.
Otherwise the handler can return, with all workers told to terminate (`handler_returns_iff`). -/

namespace PoolStudy.Workqueue.Signals

open PoolStudy.Lib.Transition PoolStudy.Lib.Threads PoolStudy.Lib.Chain
open PoolStudy.Workqueue.Model PoolStudy.Workqueue.Steps PoolStudy.Workqueue.Jobs PoolStudy.Workqueue.Exit
open PoolStudy.Workqueue.Traversal

variable {n : ℕ} {J : Type} [DecidableEq J]

/-! ### Threads and a handler -/

/-- The work queue, and the thread that is interrupted with the place of its handler. -/
abbrev Handled (n : ℕ) (J : Type) := State n J × Option (Tid n × Call n J)

/-- A thread takes a step, a signal is delivered to a thread, or the handler takes a step. -/
inductive Act (n : ℕ) (J : Type)
  | step (a : Tid n × Input n J)
  | signal (t : Tid n)
  | handler

/-- The handler of the thread `t`. -/
def handlerStep (c : State n J) (t : Tid n) (p : Call n J) : Option (Handled n J) :=
  (callStep t {} c.mem p).map fun r =>
    ({ c with mem := r.1 }, if r.2 = .outside then none else some (t, r.2))

/-- **The work queue with signals.** A thread that is interrupted takes no step. -/
def signalled (n : ℕ) (J : Type) [DecidableEq J] : Lts (Handled n J) (Act n J) where
  init s := (workqueue n J).init s.1 ∧ s.2 = none
  next s
    | .step a =>
      if s.2.map Prod.fst = some a.1 then none else ((workqueue n J).lts.next s.1 a).map fun c => (c, s.2)
    | .signal t =>
      match s.2 with
      | none => some (s.1, some (t, .head))
      | some _ => none
    | .handler => s.2.bind fun r => handlerStep s.1 r.1 r.2

theorem next_step {s s' : Handled n J} {a : Tid n × Input n J} (h : (signalled n J).next s (.step a) = some s') :
    s.2.map Prod.fst ≠ some a.1 ∧ ∃ c, (workqueue n J).lts.next s.1 a = some c ∧ s' = (c, s.2) := by
  simp only [signalled] at h
  split_ifs at h with hne
  obtain ⟨c, hc, rfl⟩ := Option.map_eq_some_iff.mp h
  exact ⟨hne, c, hc, rfl⟩

theorem next_handler {c : State n J} {t : Tid n} {p : Call n J} {s' : Handled n J}
    (h : (signalled n J).next (c, some (t, p)) .handler = some s') :
    ∃ m' p', CallStep t {} c.mem p m' p' ∧
      s' = ({ c with mem := m' }, if p' = .outside then none else some (t, p')) := by
  obtain ⟨r, hr, rfl⟩ := Option.map_eq_some_iff.mp h
  exact ⟨r.1, r.2, callStep_cases hr, rfl⟩

/-! ### The interrupted thread owns the mutex -/

/-- A call that does not own the mutex, while another thread does, leaves the mutex and the jobs alone. -/
theorem callStep_shut {self : Tid n} {x : Input n J} {m m' : Mem n J} {c c' : Call n J}
    (hs : CallStep self x m c m' c') (hc : callSection c = .out) (hm : m.queue.jobsMutex ≠ none) :
    m'.queue.jobsMutex = m.queue.jobsMutex ∧ m'.added = m.added ∧ m'.taken = m.taken ∧ callSection c' = .out ∧
      (shutting c → shutting c') := by
  cases hs with
  | callAdd | callShutdown => exact ⟨rfl, rfl, rfl, rfl, fun h => absurd h id⟩
  | mark => exact ⟨rfl, rfl, rfl, rfl, fun _ => trivial⟩
  | head =>
    refine ⟨rfl, rfl, rfl, ?_, fun _ => ?_⟩
    · cases m.queue.workers.list <;> rfl
    · cases m.queue.workers.list <;> trivial
  | next w =>
    refine ⟨rfl, rfl, rfl, ?_, fun _ => ?_⟩
    · cases (m.queue.workers.links w).next <;> rfl
    · cases (m.queue.workers.links w).next <;> trivial
  | addLock job hl | shutLock hl => exact absurd hl hm
  | addIn | addUnlock | shutIn | shutUnlock => cases hc

theorem workerStep_shut {i : Fin n} {x : Input n J} {m m' : Mem n J} {w w' : Worker n J}
    (hs : WorkerStep i x m w m' w') (hw : workerSection w = .out) (hm : m.queue.jobsMutex ≠ none) :
    m'.queue.jobsMutex = m.queue.jobsMutex ∧ m'.added = m.added ∧ m'.taken = m.taken ∧ workerSection w' = .out := by
  cases hs with
  | lock hl | wake _ hl => exact absurd hl hm
  | spurious | finish => exact ⟨rfl, rfl, rfl, rfl⟩
  | call job hs =>
    obtain ⟨h1, h2, h3, h4, -⟩ := callStep_shut hs hw hm
    exact ⟨h1, h2, h3, h4⟩
  | _ => cases hw

/-- **The handler waits for its own thread**: the mutex is owned by the thread it has interrupted, and all others are
outside of the sections. -/
structure Stuck (t : Tid n) (c0 : State n J) (s : Handled n J) : Prop where
  handler : ∃ p, s.2 = some (t, p) ∧ shutting p ∧ callSection p = .out
  mutex : s.1.mem.queue.jobsMutex = some t
  out : ∀ u, u ≠ t → s.1.view workerSection callSection u = .out
  added : s.1.mem.added = c0.mem.added
  taken : s.1.mem.taken = c0.mem.taken

theorem Stuck.next {t : Tid n} {c0 : State n J} {s s' : Handled n J} {a : Act n J} (h : Stuck t c0 s)
    (hs : (signalled n J).next s a = some s') : Stuck t c0 s' := by
  obtain ⟨p, hp, hshut, hsec⟩ := h.handler
  have hm : s.1.mem.queue.jobsMutex ≠ none := by simp [h.mutex]
  cases a with
  | signal u =>
    simp only [signalled, hp] at hs
    cases hs
  | handler =>
    obtain ⟨c, r⟩ := s
    obtain rfl : r = some (t, p) := hp
    obtain ⟨m', p', hstep, rfl⟩ := next_handler hs
    obtain ⟨h1, h2, h3, h4, h5⟩ := callStep_shut hstep hsec hm
    have hne : p' ≠ .outside := by
      rintro rfl
      exact h5 hshut
    refine ⟨⟨p', if_neg hne, h5 hshut, h4⟩, h1.trans h.mutex, h.out, h2.trans h.added, h3.trans h.taken⟩
  | step a =>
    obtain ⟨hne, c, hc, rfl⟩ := next_step hs
    have hat : a.1 ≠ t := by
      intro he
      rw [hp, he] at hne
      exact hne rfl
    have hout := h.out a.1 hat
    rcases Program.next_cases hc with ⟨i, x, r, rfl, hw, rfl⟩ | ⟨k, x, r, rfl, hw, rfl⟩
    · obtain ⟨h1, h2, h3, h4⟩ := workerStep_shut (workerStep_cases hw) hout hm
      refine ⟨h.handler, h1.trans h.mutex, fun u hu => ?_, h2.trans h.added, h3.trans h.taken⟩
      rw [view_moveWorker]
      by_cases hui : u = .inl i
      · rw [hui, Function.update_self]
        exact h4
      · rw [Function.update_of_ne hui]
        exact h.out u hu
    · obtain ⟨h1, h2, h3, h4, -⟩ := callStep_shut (callStep_cases hw) hout hm
      refine ⟨h.handler, h1.trans h.mutex, fun u hu => ?_, h2.trans h.added, h3.trans h.taken⟩
      rw [view_moveClient]
      by_cases huk : u = .inr k
      · rw [huk, Function.update_self]
        exact h4
      · rw [Function.update_of_ne huk]
        exact h.out u hu

/-- **For ever.** -/
theorem Stuck.runs {t : Tid n} {c0 : State n J} {s s' : Handled n J} (h : Stuck t c0 s)
    (hr : Runs (signalled n J) anyStep s s') : Stuck t c0 s' :=
  Runs.keeps (P := Stuck t c0) (fun _ _ _ h _ hs => h.next hs) hr h

/-! ### Before the signal -/

/-- `workqueue_shutdown` is not called. -/
def noShutdown (_ : State n J) (a : Tid n × Input n J) : Prop := a.2.call ≠ some .shutdown

/-- **What holds before any shutdown**: no worker is told to terminate, none has left, and all are on the list. -/
structure Before (c : State n J) : Prop where
  guarded : Guarded c.mem.queue.jobsMutex .out (c.view workerSection callSection) (Knows c.mem)
  terminate : ∀ i, c.mem.terminate i = false
  stays : ∀ i, left (c.worker i) = false
  calls : ∀ t, ¬ shutting (callAt c t)
  freed : c.mem.freed = ∅
  workers : ∃ q, Linked (nextOf c.mem.queue.workers) c.mem.queue.workers.list q ∧ ∀ i, i ∈ q

/-- The workers' records are the same. -/
structure SameRecords (m m' : Mem n J) : Prop where
  terminate : m'.terminate = m.terminate
  freed : m'.freed = m.freed
  workers : m'.queue.workers = m.queue.workers

theorem callStep_records {self : Tid n} {x : Input n J} {m m' : Mem n J} {c c' : Call n J}
    (hs : CallStep self x m c m' c') (hc : ¬ shutting c) : SameRecords m m' := by
  cases hs with
  | mark | shutIn => exact absurd trivial hc
  | _ => exact ⟨rfl, rfl, rfl⟩

theorem workerStep_records {i : Fin n} {x : Input n J} {m m' : Mem n J} {w w' : Worker n J}
    (hs : WorkerStep i x m w m' w') (hc : ¬ shutting (workerCall w)) (ht : m.terminate i = false)
    (hl : left w = false) : SameRecords m m' ∧ left w' = false := by
  cases hs with
  | break2 h => rw [ht] at h; cases h
  | call job hs => exact ⟨callStep_records hs hc, rfl⟩
  | free | exit => cases hl
  | _ => exact ⟨⟨rfl, rfl, rfl⟩, rfl⟩

omit [DecidableEq J] in
theorem Before.same {c c' : State n J} (h : Before c) (hr : SameRecords c.mem c'.mem)
    (hg : Guarded c'.mem.queue.jobsMutex .out (c'.view workerSection callSection) (Knows c'.mem))
    (hl : ∀ i, left (c'.worker i) = false) (hc : ∀ t, ¬ shutting (callAt c' t)) : Before c' :=
  ⟨hg, by rw [hr.terminate]; exact h.terminate, hl, hc, by rw [hr.freed]; exact h.freed,
    by rw [hr.workers]; exact h.workers⟩

theorem Before.next {c c' : State n J} {a : Tid n × Input n J} (h : Before c) (ha : noShutdown c a)
    (hs : (workqueue n J).lts.next c a = some c') : Before c' := by
  rcases Program.next_cases hs with ⟨i, x, r, rfl, hw, rfl⟩ | ⟨k, x, r, rfl, hw, rfl⟩
  · have hstep := workerStep_cases hw
    obtain ⟨hr, hleft⟩ := workerStep_records hstep (h.calls (.inl i)) (h.terminate i) (h.stays i)
    refine h.same hr ?_ ?_ fun t => ?_
    · rw [view_moveWorker]
      exact workerStep_guarded hstep h.guarded rfl
    · exact forall_moveWorker (P := fun _ (w : Worker n J) => left w = false) hleft fun j _ => h.stays j
    · rw [callAt, view_moveWorker]
      by_cases ht : t = .inl i
      · rw [ht, Function.update_self]
        exact workerStep_shutting hstep (h.calls (.inl i)) ha
      · rw [Function.update_of_ne ht]
        exact h.calls t
  · have hstep := callStep_cases hw
    refine h.same (callStep_records hstep (h.calls (.inr k))) ?_ h.stays fun t => ?_
    · rw [view_moveClient]
      exact callStep_guarded hstep h.guarded rfl
    · rw [callAt, view_moveClient]
      by_cases ht : t = .inr k
      · rw [ht, Function.update_self]
        exact callStep_shutting hstep (h.calls (.inr k)) ha
      · rw [Function.update_of_ne ht]
        exact h.calls t

theorem before_reach {c : State n J} (h : Reach (workqueue n J).lts noShutdown c) : Before c := by
  refine h.induct (I := Before) ?_ fun c a c' _ hi hok hs => hi.next hok hs
  rintro c ⟨links, rfl⟩
  have hw := waiting_foldl ⟨fun _ => ⟨none, none⟩, none⟩ (q := []) ⟨rfl, by simp⟩ (List.finRange n)
    (by simpa using List.nodup_finRange n)
  have h0 : Reach (workqueue n J).lts noShutdown _ := .init ⟨links, rfl⟩
  refine ⟨guarded_reach h0, fun i => rfl, fun i => rfl, ?_, rfl, _, hw.linked, ?_⟩
  · rintro (i | k) <;> exact id
  · simp

/-! ### The owner gives the mutex back -/

/-- The steps a call has left behind the mutex. -/
def callLeft : Call n J → ℕ
  | .addIn _ => 2
  | .addUnlock => 1
  | _ => 0

/-- The steps a worker has left behind the mutex. -/
def workerLeft : Worker n J → ℕ
  | .whileTest => 4
  | .terminate => 3
  | .take | .whileTerminate => 2
  | .unlock _ | .wait => 1
  | .run _ c => callLeft c
  | _ => 0

/-- The steps the owner of the mutex has left. -/
def ownerLeft (c : State n J) : ℕ :=
  match c.mem.queue.jobsMutex with
  | none => 0
  | some t => c.view workerLeft callLeft t

omit [DecidableEq J] in
theorem signal_all (ws : Finset (Fin n)) : signal ws ws = some ∅ := by
  simp [signal]

/-- A step of a call behind the mutex. -/
theorem call_leaves (self : Tid n) {m : Mem n J} {c : Call n J} (hc : ¬ shutting c) (hin : callSection c ≠ .out) :
    ∃ r, callStep self { wake := m.queue.jobsCond } m c = some r ∧ 0 < callLeft c ∧
      (r.1.queue.jobsMutex = none ∨ (r.1.queue.jobsMutex = m.queue.jobsMutex ∧ callLeft r.2 < callLeft c)) := by
  cases c with
  | addIn job =>
    refine ⟨(withJob m job ∅, .addUnlock), ?_, by simp [callLeft], Or.inr ⟨rfl, by simp [callLeft]⟩⟩
    simp [callStep, addSection, signal_all, withJob]
  | addUnlock => exact ⟨_, rfl, by simp [callLeft], Or.inl rfl⟩
  | shutIn | shutUnlock => exact absurd trivial hc
  | _ => exact absurd rfl hin

/-- A step of a worker behind the mutex. -/
theorem worker_leaves {i : Fin n} {m : Mem n J} {w : Worker n J} (hc : ¬ shutting (workerCall w))
    (ht : m.terminate i = false) (hl : left w = false) (hin : workerSection w ≠ .out) :
    ∃ r, workerStep i { wake := m.queue.jobsCond } m w = some r ∧ 0 < workerLeft w ∧
      (r.1.queue.jobsMutex = none ∨ (r.1.queue.jobsMutex = m.queue.jobsMutex ∧ workerLeft r.2 < workerLeft w)) := by
  cases w with
  | whileTest =>
    refine ⟨_, rfl, by simp [workerLeft], Or.inr ⟨rfl, ?_⟩⟩
    show workerLeft (if m.queue.waitingJobs.list = none then _ else _) < 4
    split_ifs <;> simp [workerLeft]
  | whileTerminate =>
    refine ⟨(m, .wait), by simp [workerStep, ht], by simp [workerLeft], Or.inr ⟨rfl, by simp [workerLeft]⟩⟩
  | terminate =>
    refine ⟨(m, .take), by simp [workerStep, ht], by simp [workerLeft], Or.inr ⟨rfl, by simp [workerLeft]⟩⟩
  | take =>
    refine ⟨_, rfl, by simp [workerLeft], Or.inr ⟨?_, by simp [workerLeft]⟩⟩
    unfold Mem.takeJob
    split <;> rfl
  | wait => exact ⟨_, rfl, by simp [workerLeft], Or.inl rfl⟩
  | unlock job => exact ⟨_, rfl, by simp [workerLeft], Or.inl rfl⟩
  | run job c =>
    obtain ⟨r, hr, hpos, hleft⟩ := call_leaves (.inl i) (c := c) (m := m) hc hin
    refine ⟨(r.1, .run job r.2), ?_, hpos, hleft⟩
    have hne : c ≠ .outside := by
      rintro rfl
      exact hin rfl
    simp [workerStep, hne, hr]
  | lock | blocked => exact absurd rfl hin
  | free | exit | exited => cases hl

/-- **The owner of the mutex can go on**, and is closer to giving it back. -/
theorem owner_goes {c : State n J} {u : Tid n} (h : Before c) (hu : c.mem.queue.jobsMutex = some u) :
    ∃ x c', x.call = none ∧ (workqueue n J).lts.next c (u, x) = some c' ∧ ownerLeft c' < ownerLeft c ∧
      (c'.mem.queue.jobsMutex = none ∨ c'.mem.queue.jobsMutex = some u) := by
  have hin := (h.guarded.owned u).mpr hu
  rcases u with i | k
  · obtain ⟨r, hr, hpos, hleft⟩ := worker_leaves (h.calls (.inl i)) (h.terminate i) (h.stays i) hin
    refine ⟨_, _, rfl, Program.next_worker hr, ?_, ?_⟩
    · rw [show ownerLeft c = workerLeft (c.worker i) by simp [ownerLeft, hu]]
      rcases hleft with hnone | ⟨hsame, hlt⟩
      · rw [show ownerLeft (c.moveWorker i r) = 0 by simp [ownerLeft, Config.moveWorker, hnone]]
        exact hpos
      · rw [show ownerLeft (c.moveWorker i r) = workerLeft r.2 by
          simp [ownerLeft, Config.moveWorker, hsame, hu]]
        exact hlt
    · exact hleft.imp id fun hsame => hsame.1.trans hu
  · obtain ⟨r, hr, hpos, hleft⟩ := call_leaves (.inr k) (c := c.client k) (m := c.mem) (h.calls (.inr k)) hin
    have hnext : (workqueue n J).lts.next c (.inr k, { wake := c.mem.queue.jobsCond }) = some (c.moveClient k r) :=
      Program.next_client hr
    refine ⟨_, _, rfl, hnext, ?_, ?_⟩
    · rw [show ownerLeft c = callLeft (c.client k) by simp [ownerLeft, hu]]
      rcases hleft with hnone | ⟨hsame, hlt⟩
      · rw [show ownerLeft (c.moveClient k r) = 0 by simp [ownerLeft, Config.moveClient, hnone]]
        exact hpos
      · rw [show ownerLeft (c.moveClient k r) = callLeft r.2 by
          simp [ownerLeft, Config.moveClient, hsame, hu]]
        exact hlt
    · exact hleft.imp id fun hsame => hsame.1.trans hu

/-- The handler is at its first step, and the thread it has interrupted does not own the mutex. -/
structure Waits (t : Tid n) (s : Handled n J) : Prop where
  handler : s.2 = some (t, .head)
  before : Before s.1
  mutex : s.1.mem.queue.jobsMutex ≠ some t

theorem Waits.goes {t : Tid n} {s : Handled n J} (h : Waits t s) (hfree : s.1.mem.queue.jobsMutex ≠ none) :
    ∃ s', Runs (signalled n J) anyStep s s' ∧ Waits t s' ∧ ownerLeft s'.1 < ownerLeft s.1 := by
  obtain ⟨u, hu⟩ := Option.ne_none_iff_exists'.mp hfree
  obtain ⟨x, c', hx, hnext, hlt, hmutex⟩ := owner_goes h.before hu
  have hut : u ≠ t := by
    rintro rfl
    exact h.mutex hu
  refine ⟨(c', s.2), .single ⟨.step (u, x), trivial, ?_⟩, ⟨h.handler, ?_, ?_⟩, hlt⟩
  · simp [signalled, h.handler, hut.symm, hnext]
  · exact h.before.next (by simp [noShutdown, hx]) hnext
  · rcases hmutex with hm | hm
    · simp [hm]
    · simp [hm, hut]

/-- **The mutex becomes free** while the handler of another thread waits. -/
theorem runs_to_free {c : State n J} {t : Tid n} (h : Before c) (ht : c.mem.queue.jobsMutex ≠ some t) :
    ∃ c', Runs (signalled n J) anyStep (c, some (t, .head)) (c', some (t, .head)) ∧ Before c' ∧
      c'.mem.queue.jobsMutex = none := by
  have hw : Waits t (c, some (t, .head)) := ⟨rfl, h, ht⟩
  obtain ⟨⟨c', p⟩, hr, hw', hfree⟩ := runs_of_measure (fun s => ownerLeft s.1) (fun s hs hf => hs.goes hf) hw
  obtain rfl : p = some (t, .head) := hw'.handler
  exact ⟨c', hr, hw'.before, hfree⟩

/-! ### The handler -/

/-- A step of the handler. -/
theorem handler_goes {c : State n J} {t : Tid n} {m m' : Mem n J} {p p' : Call n J}
    (h : callStep t {} m p = some (m', p')) (hp : p' ≠ .outside) :
    Step (signalled n J) anyStep ({ c with mem := m }, some (t, p)) ({ c with mem := m' }, some (t, p')) := by
  refine ⟨.handler, trivial, ?_⟩
  simp [signalled, handlerStep, h, hp]

omit [DecidableEq J] in
theorem atWorker_ne (p : Option (Fin n)) : (atWorker p : Call n J) ≠ .outside := by
  cases p <;> simp [atWorker]

/-- **The traversal** by the handler alone. -/
theorem traverse (c : State n J) (t : Tid n) (q : List (Fin n)) : ∀ (p : Option (Fin n)) (m : Mem n J),
    Linked (nextOf m.queue.workers) p q → m.freed = ∅ →
    ∃ m', Runs (signalled n J) anyStep ({ c with mem := m }, some (t, atWorker p))
        ({ c with mem := m' }, some (t, .shutLock)) ∧
      m'.queue = m.queue ∧ ∀ i, m.terminate i = true ∨ i ∈ q → m'.terminate i = true := by
  induction q with
  | nil =>
    intro p m hp _
    obtain rfl : p = none := hp
    exact ⟨m, .refl, rfl, fun i hi => hi.resolve_right (List.not_mem_nil)⟩
  | cons w q ih =>
    rintro p m ⟨rfl, hlinked⟩ hfreed
    have hw : w ∉ m.freed := by simp [hfreed]
    obtain ⟨m', hr, hq, hmark⟩ := ih (nextOf m.queue.workers w)
      { m with terminate := Function.update m.terminate w true } hlinked hfreed
    refine ⟨m', ?_, hq, fun i hi => hmark i ?_⟩
    · have h1 : callStep t {} m (.mark w) =
          some ({ m with terminate := Function.update m.terminate w true }, .next w) := by
        simp [callStep, hw]
      have h2 : callStep t {} { m with terminate := Function.update m.terminate w true } (.next w) =
          some ({ m with terminate := Function.update m.terminate w true }, atWorker (nextOf m.queue.workers w)) := by
        simp [callStep, hw, nextOf]
      exact ((Relation.ReflTransGen.single (handler_goes h1 (by simp))).tail
        (handler_goes h2 (atWorker_ne _))).trans hr
    · by_cases hiw : i = w
      · left
        simp [hiw]
      · rcases hi with hi | hi
        · left
          simpa [hiw] using hi
        · exact Or.inr ((List.mem_cons.mp hi).resolve_left hiw)

/-- **The handler returns** once the mutex is free. -/
theorem handler_ends {c : State n J} {t : Tid n} (h : Before c) (hfree : c.mem.queue.jobsMutex = none) :
    ∃ c', Runs (signalled n J) anyStep (c, some (t, .head)) (c', none) ∧ (∀ i, c'.mem.terminate i = true) ∧
      c'.mem.queue.waitingJobs.list = none := by
  obtain ⟨q, hlinked, hall⟩ := h.workers
  obtain ⟨m, hr, hq, hmark⟩ := traverse c t q c.mem.queue.workers.list c.mem hlinked h.freed
  have hlock : callStep t {} m .shutLock = some (locked m t, .shutIn) := by
    simp [callStep, Mem.lock, hq, hfree, locked]
  have hfirst : Step (signalled n J) anyStep (c, some (t, .head))
      (c, some (t, atWorker c.mem.queue.workers.list)) :=
    handler_goes (c := c) (m := c.mem) rfl (atWorker_ne _)
  refine ⟨{ c with mem := (shutdownSection (locked m t)).unlock }, ?_, fun i => hmark i (Or.inr (hall i)), rfl⟩
  refine (((Relation.ReflTransGen.single hfirst).trans hr).tail (handler_goes hlock (by simp))).trans ?_
  have hin : Step (signalled n J) anyStep ({ c with mem := locked m t }, some (t, .shutIn))
      ({ c with mem := shutdownSection (locked m t) }, some (t, .shutUnlock)) :=
    handler_goes rfl (by simp)
  exact (Relation.ReflTransGen.single hin).tail ⟨.handler, trivial, rfl⟩

/-- **`workqueue_shutdown` in a signal handler.** A signal comes while no shutdown has been asked for. If the thread to
which it is delivered owns `jobs_mutex`, then in every run from there the handler never returns, the thread never
gives the mutex back, and no job is added or handed out. If it does not own the mutex, the handler can return, and
then every worker has been told to terminate and no job waits. -/
theorem handler_returns_iff {c : State n J} (h : Reach (workqueue n J).lts noShutdown c) (t : Tid n) :
    (c.mem.queue.jobsMutex = some t → ∀ s, Runs (signalled n J) anyStep (c, some (t, .head)) s →
      (∃ p, s.2 = some (t, p)) ∧ s.1.mem.queue.jobsMutex = some t ∧ s.1.mem.added = c.mem.added ∧
        s.1.mem.taken = c.mem.taken) ∧
    (c.mem.queue.jobsMutex ≠ some t → ∃ c', Runs (signalled n J) anyStep (c, some (t, .head)) (c', none) ∧
      (∀ i, c'.mem.terminate i = true) ∧ c'.mem.queue.waitingJobs.list = none) := by
  have hb := before_reach h
  refine ⟨fun ht s hr => ?_, fun ht => ?_⟩
  · have hstuck : Stuck t c (c, some (t, .head)) := by
      refine ⟨⟨.head, rfl, trivial, rfl⟩, ht, fun u hu => ?_, rfl, rfl⟩
      by_contra hne
      have hown := (hb.guarded.owned u).mp hne
      rw [ht, Option.some.injEq] at hown
      exact hu hown.symm
    have hs := hstuck.runs hr
    obtain ⟨p, hp, -⟩ := hs.handler
    exact ⟨⟨p, hp⟩, hs.mutex, hs.added, hs.taken⟩
  · obtain ⟨c1, hr1, hb1, hfree⟩ := runs_to_free hb ht
    obtain ⟨c', hr, hall, hlist⟩ := handler_ends (t := t) hb1 hfree
    exact ⟨c', hr1.trans hr, hall, hlist⟩

/-- The test for steps without a shutdown. -/
def noShutdownTest (_ : State n J) (a : Tid n × Input n J) : Bool := decide (a.2.call ≠ some .shutdown)

theorem noShutdown_of_test (c : State n J) (a : Tid n × Input n J) (h : noShutdownTest c a = true) :
    noShutdown c a := by
  simpa only [noShutdownTest, noShutdown, decide_eq_true_eq] using h

/-- `on_accept` has taken the mutex to add a job. -/
def acceptRun : List (Tid (workerCount 2) × Input (workerCount 2) ℕ) :=
  [(.inr 0, { call := some (.addJob 5) }), (.inr 0, {})]

/-- The signal comes to the main thread in this moment. -/
theorem handler_returns_iff_acceptRun : ∃ c : State (workerCount 2) ℕ, c.mem.queue.jobsMutex = some (.inr 0) ∧
    ∀ s, Runs (signalled (workerCount 2) ℕ) anyStep (c, some (.inr 0, .head)) s → ∃ p, s.2 = some (.inr 0, p) := by
  obtain ⟨c, hc, hp⟩ := reach_of_run (workqueue (workerCount 2) ℕ).lts noShutdown_of_test acceptRun
    (fun c => decide (c.mem.queue.jobsMutex = some (.inr 0))) ⟨fun _ => ⟨none, none⟩, rfl⟩ (by decide)
  rw [decide_eq_true_eq] at hp
  exact ⟨c, hp, fun s hr => ((handler_returns_iff hc (.inr 0)).1 hp s hr).1⟩

end PoolStudy.Workqueue.Signals
