import PoolStudy.ChatPool.Queue

/-! # `poolDestroy` drains the queue

A worker leaves its loop only when it has seen, under the mutex, that the counter is zero and `shutdown` is
set. So when the first worker leaves, everything that had been added when `poolDestroy` was called has been
dequeued, and what is still in the hands of other workers is finished before they leave and the joins are
over. The clean-up loop takes no lock and may race with calls of `poolAddWorker`; but links only ever lead
from an item to one added later (`Drain.links`), so it never reaches an item that had been added before the
call.

`Drain` is about the items that had been added when `poolDestroy` was called, `At` about where its callers
are: behind the joins all workers have left. The queue invariant holds until the clean-up begins. -/

namespace PoolStudy.ChatPool.Destroy

open PoolStudy.Lib.Transition PoolStudy.Lib.Threads PoolStudy.Lib.Chain
open PoolStudy.ChatPool.Model PoolStudy.ChatPool.Steps PoolStudy.ChatPool.Queue

variable {n : ℕ} {κ σ ℓ A I : Type} {C : Code n κ σ ℓ A I}

/-! ### The items that had been added -/

/-- Pointers stay inside the heap. -/
structure Closed (m : Mem n κ σ A) : Prop where
  head : ∀ p, m.pool.queueHead = some p → p < m.fresh
  next : ∀ p q, p < m.fresh → (m.heap p).next = some q → q < m.fresh

/-- **The items `d.added` that had been added when `poolDestroy` was called.** -/
structure Drain (d : Before) (m : Mem n κ σ A) : Prop where
  returned : d.returned ⊆ d.added
  added : d.added ⊆ m.added
  links : ∀ p q, p < m.fresh → (m.heap p).next = some q → q ∈ d.added → p ∈ d.added
  left : m.exited.Nonempty → (∀ p ∈ d.added, p ∈ m.dequeued) ∧ ∀ p, m.pool.queueHead = some p → p ∉ d.added
  cleaned : ∀ p ∈ m.cleaned, p ∉ d.added

section Drain

variable {m m' : Mem n κ σ A} {d : Before}

/-- A step that changes neither the list nor what has been dequeued. -/
structure SameItems (m m' : Mem n κ σ A) : Prop where
  heap : m'.heap = m.heap
  fresh : m'.fresh = m.fresh
  head : m'.pool.queueHead = m.pool.queueHead
  added : m'.added = m.added
  dequeued : m'.dequeued = m.dequeued
  cleaned : m'.cleaned = m.cleaned

theorem Closed.same (h : Closed m) (hs : SameItems m m') : Closed m' :=
  ⟨by rw [hs.head, hs.fresh]; exact h.head, by rw [hs.heap, hs.fresh]; exact h.next⟩

theorem Drain.same (h : Drain d m) (hs : SameItems m m') (he : m'.exited = m.exited) : Drain d m' := by
  obtain ⟨e1, e2, e3, e4, e5, e6⟩ := hs
  obtain ⟨h1, h2, h3, h4, h5⟩ := h
  exact ⟨h1, by rwa [e4], by rwa [e1, e2], by rwa [he, e3, e5], by rwa [e6]⟩

theorem next_newWorker (a : A) (e : σ) (p : Ptr) :
    ((Mem.newWorker { m with ext := e } a).heap p).next = if p = m.fresh then none else (m.heap p).next := by
  by_cases hp : p = m.fresh
  · subst hp
    simp [Mem.newWorker]
  · simp [Mem.newWorker, hp]

theorem Closed.newWorker (h : Closed m) (a : A) (e : σ) : Closed (Mem.newWorker { m with ext := e } a) := by
  refine ⟨fun p hp => Nat.lt_succ_of_lt (h.head p hp), fun p q hp hq => ?_⟩
  rw [next_newWorker] at hq
  split_ifs at hq with hpf
  exact Nat.lt_succ_of_lt (h.next p q (Nat.lt_of_le_of_ne (Nat.le_of_lt_succ hp) hpf) hq)

theorem Drain.newWorker (h : Drain d m) (a : A) (e : σ) : Drain d (Mem.newWorker { m with ext := e } a) := by
  refine ⟨h.returned, h.added, fun p q hp hq => ?_, h.left, h.cleaned⟩
  rw [next_newWorker] at hq
  split_ifs at hq with hpf
  exact h.links p q (Nat.lt_of_le_of_ne (Nat.le_of_lt_succ hp) hpf) hq

/-- The links after `p` was linked: the old ones, or one to `p`. -/
theorem next_link {p r q : Ptr} {member : Option Ptr} (h : ((m.link p member).heap r).next = some q) :
    q = p ∨ (m.heap r).next = some q := by
  cases member with
  | none => exact Or.inr h
  | some s =>
    by_cases hr : r = s
    · subst hr
      simp only [Mem.link, Function.update_self, Option.some.injEq] at h
      exact Or.inl h.symm
    · simp only [Mem.link, Function.update_of_ne hr] at h
      exact Or.inr h

theorem head_link {p q : Ptr} {member : Option Ptr} (h : (m.link p member).pool.queueHead = some q) :
    q = p ∨ m.pool.queueHead = some q := by
  cases member with
  | none => exact Or.inl (Option.some.inj h).symm
  | some s => exact Or.inr h

theorem fresh_link {p : Ptr} {member : Option Ptr} : (m.link p member).fresh = m.fresh := by
  cases member <;> rfl

theorem Closed.link {p : Ptr} {member : Option Ptr} (h : Closed m) (hp : p < m.fresh) :
    Closed (m.link p member) := by
  refine ⟨fun q hq => ?_, fun _ q hr hq => ?_⟩
  · rw [fresh_link]
    rcases head_link hq with rfl | hq
    · exact hp
    · exact h.head q hq
  · rw [fresh_link] at hr ⊢
    rcases next_link hq with rfl | hq
    · exact hp
    · exact h.next _ q hr hq

/-- **A later item is linked**: links from it to the old ones do not arise. -/
theorem Drain.link {p : Ptr} {member : Option Ptr} (h : Drain d m) (hp : p ∉ m.added) :
    Drain d (m.link p member) := by
  have hpd : p ∉ d.added := fun hin => hp (h.added hin)
  refine ⟨h.returned, by cases member <;> exact h.added, fun r q hr hq hqd => ?_, fun he => ?_,
    by cases member <;> exact h.cleaned⟩
  · rw [fresh_link] at hr
    rcases next_link hq with rfl | hq
    · exact absurd hqd hpd
    · exact h.links r q hr hq hqd
  · obtain ⟨h1, h2⟩ := h.left (by cases member <;> exact he)
    refine ⟨by cases member <;> exact h1, fun q hq => ?_⟩
    rcases head_link hq with rfl | hq
    · exact hpd
    · exact h2 q hq

theorem Drain.count (h : Drain d m) (p : Ptr) : Drain d (m.count p) :=
  ⟨h.returned, fun _ hr => List.mem_append_left _ (h.added hr), h.links, h.left, h.cleaned⟩

/-- **The first item is removed**: the next one is a later item too. -/
theorem Drain.next_head {p : Ptr} (h : Drain d m) (hc : Closed m) (hp : m.pool.queueHead = some p)
    (he : m.exited.Nonempty) : ∀ q, (m.heap p).next = some q → q ∉ d.added := by
  intro q hq hqd
  exact (h.left he).2 p hp (h.links p q (hc.head p hp) hq hqd)

theorem Drain.take {p : Ptr} (h : Drain d m) (hc : Closed m) (hp : m.pool.queueHead = some p) :
    Drain d (withoutHead m p) :=
  ⟨h.returned, h.added, h.links,
    fun he => ⟨fun q hq => List.mem_append_left _ ((h.left he).1 q hq), h.next_head hc hp he⟩, h.cleaned⟩

theorem Drain.clean {p : Ptr} (h : Drain d m) (hc : Closed m) (hp : m.pool.queueHead = some p)
    (he : m.exited.Nonempty) : Drain d (cleanedHead m p) := by
  refine ⟨h.returned, h.added, h.links, fun he => ⟨(h.left he).1, h.next_head hc hp he⟩, fun q hq => ?_⟩
  rcases List.mem_append.mp hq with hq | hq
  · exact h.cleaned q hq
  · rw [List.mem_singleton.mp hq]
    exact (h.left he).2 p hp

theorem Closed.removed {p : Ptr} (h : Closed m) (hp : m.pool.queueHead = some p)
    (hh : m'.pool.queueHead = (m.heap p).next) (he : m'.heap = m.heap) (hf : m'.fresh = m.fresh) :
    Closed m' := by
  refine ⟨fun q hq => ?_, by rw [he, hf]; exact h.next⟩
  rw [hf]
  rw [hh] at hq
  exact h.next p q (h.head p hp) hq

end Drain

/-- The snapshot that a call takes before anyone has left. -/
theorem drain_call {m : Mem n κ σ A} (hr : m.returned ⊆ m.added) (he : ¬ m.exited.Nonempty)
    (hc : m.cleaned = []) (hu : ∀ p, p < m.fresh → p ∉ m.added → (m.heap p).next = none) :
    Drain ⟨m.added, m.returned⟩ m := by
  refine ⟨hr, List.Subset.refl _, fun p q hp hq _ => ?_, fun he' => absurd he' he, by simp [hc]⟩
  by_contra hnot
  rw [hu p hp hnot] at hq
  cases hq

/-- **A worker leaves**: the queue is empty, so everything that had been added has been dequeued. -/
theorem Drain.exit {d : Before} {m : Mem n κ σ A} {i : Fin n} (h : Drain d m) (hq : QueueAt m (waiting m))
    (hz : m.pool.curQueueSize = 0) : Drain d { m.unlock with exited := insert i m.exited } := by
  have hnil : waiting m = [] := by
    have hsize := hq.size
    rw [hz] at hsize
    exact List.length_eq_zero_iff.mp (by exact_mod_cast hsize.symm)
  have hall : m.dequeued = m.added := by
    have hhist := hq.history
    rwa [hnil, List.append_nil] at hhist
  have hhead : m.pool.queueHead = none := by
    have hl := hq.linked
    rwa [hnil] at hl
  refine ⟨h.returned, h.added, h.links, fun _ => ⟨fun p hp => ?_, fun p hp => ?_⟩, h.cleaned⟩
  · show p ∈ m.dequeued
    rw [hall]
    exact h.added hp
  · cases (show m.pool.queueHead = some p from hp).symm.trans hhead

/-! ### What a step does to the items -/

/-- **The effect of a step on the items**: `d` is drained in the new memory if it was in the old one, and
pointers stay inside the heap. -/
structure ItemStep (m m' : Mem n κ σ A) : Prop where
  closed : Closed m → Closed m'
  drain : ∀ d, Drain d m → Drain d m'

theorem SameItems.step {m m' : Mem n κ σ A} (h : SameItems m m') (he : m'.exited = m.exited) :
    ItemStep m m' :=
  ⟨fun hc => hc.same h, fun _ hd => hd.same h he⟩

theorem callStep_items {self : Tid n κ} {x : Input n I} {m m' : Mem n κ σ A} {c c' : Call ℓ}
    (hs : CallStep C self x m c m' c') (hc : Closed m)
    (hn : ∀ p, callNode c = some p → p < m.fresh ∧ p ∉ m.added) (hl : cleaning c → m.exited.Nonempty) :
    ItemStep m m' := by
  cases hs with
  | add h => exact ⟨fun hc => hc.newWorker _ _, fun d hd => hd.newWorker _ _⟩
  | append p member l hh =>
    obtain ⟨hlt, hnot⟩ := hn p rfl
    have hc' : Closed (m.link p member) := hc.link hlt
    exact ⟨fun _ => ⟨hc'.head, hc'.next⟩, fun d hd => (hd.link hnot).count p⟩
  | appendAbort p member l hh =>
    obtain ⟨hlt, hnot⟩ := hn p rfl
    exact ⟨fun hc => hc.link hlt, fun d hd => hd.link hnot⟩
  | cleanOne d ok hp =>
    exact ⟨fun hc => hc.removed hp rfl rfl rfl, fun d hd => hd.clean hc hp (hl trivial)⟩
  | _ => exact SameItems.step ⟨rfl, rfl, rfl, rfl, rfl, rfl⟩ rfl

theorem workerStep_items {i : Fin n} {x : Input n I} {m m' : Mem n κ σ A} {w w' : Worker ℓ}
    (hs : WorkerStep C i x m w m' w') (hc : Closed m)
    (hn : ∀ p, workerNode w = some p → p < m.fresh ∧ p ∉ m.added)
    (hl : ∀ e, workerCall w = some e → ¬ cleaning e) (hq : QueueAt m (waiting m))
    (hk : w = .exitUnlock → m.pool.curQueueSize = 0) : ItemStep m m' := by
  cases hs with
  | exit => exact ⟨fun hc => hc.same ⟨rfl, rfl, rfl, rfl, rfl, rfl⟩, fun d hd => hd.exit hq (hk rfl)⟩
  | take hz hp => exact ⟨fun hc => hc.removed hp rfl rfl rfl, fun d hd => hd.take hc hp⟩
  | call p hs => exact callStep_items hs hc hn fun hcl => absurd hcl (hl _ rfl)
  | _ => exact SameItems.step ⟨rfl, rfl, rfl, rfl, rfl, rfl⟩ rfl

/-! ### Control -/

/-- What a position in a call says about the memory. -/
def At (m : Mem n κ σ A) : Call ℓ → Prop
  | .addUnlock p _ | .addSignal p _ => p ∈ m.added
  | .destroyTest d _ _ => m.pool.shutdown = false → Drain d m
  | .destroySet d _ => Drain d m
  | .destroyCast d _ => Drain d m ∧ m.pool.shutdown = true
  | .join d i _ => Drain d m ∧ m.pool.shutdown = true ∧ ∀ j : Fin n, j.val < i → j ∈ m.exited
  | .clean d _ | .destroyFree d _ => Drain d m ∧ m.pool.threadid = false
  | _ => True

/-- What the stages of `poolDestroy` imply, in the memory alone. -/
structure Stages (m : Mem n κ σ A) : Prop where
  returned : m.returned ⊆ m.added
  exited : m.exited.Nonempty → m.pool.shutdown = true
  cleaned : m.cleaned ≠ [] → m.pool.shutdown = true
  threadid : m.pool.threadid = false → m.pool.shutdown = true ∧ ∀ i, i ∈ m.exited
  destroyed : ∀ d ∈ m.destroyed, Drain d m ∧ m.pool.threadid = false

/-- What stays true of a memory. -/
structure Later (m m' : Mem n κ σ A) : Prop where
  added : m.added ⊆ m'.added
  exited : m.exited ⊆ m'.exited
  shutdown : m.pool.shutdown = true → m'.pool.shutdown = true
  threadid : m.pool.threadid = false → m'.pool.threadid = false

theorem Later.threadid_true {m m' : Mem n κ σ A} (h : Later m m') (ht : m'.pool.threadid = true) :
    m.pool.threadid = true := by
  by_contra hne
  rw [h.threadid (by simpa using hne)] at ht
  cases ht

theorem Later.shutdown_false {m m' : Mem n κ σ A} (h : Later m m') (ht : m'.pool.shutdown = false) :
    m.pool.shutdown = false := by
  by_contra hne
  rw [h.shutdown (by simpa using hne)] at ht
  cases ht

/-- The other threads keep what their positions say. -/
theorem Later.call {m m' : Mem n κ σ A} (h : Later m m') (hi : ItemStep m m') {d : Call ℓ} (hd : At m d) :
    At m' d := by
  cases d with
  | addUnlock p l | addSignal p l => exact h.added hd
  | destroyTest e ok failed => exact fun hf => hi.drain e (hd (h.shutdown_false hf))
  | destroySet e ok => exact hi.drain e hd
  | destroyCast e ok => exact ⟨hi.drain e hd.1, h.shutdown hd.2⟩
  | join e i ok => exact ⟨hi.drain e hd.1, h.shutdown hd.2.1, fun j hj => h.exited (hd.2.2 j hj)⟩
  | clean e ok | destroyFree e ok => exact ⟨hi.drain e hd.1, h.threadid hd.2⟩
  | _ => trivial

theorem callStep_later {self : Tid n κ} {x : Input n I} {m m' : Mem n κ σ A} {c c' : Call ℓ}
    (hs : CallStep C self x m c m' c') : Later m m' := by
  cases hs with
  | append p member l hh =>
    cases member <;> exact ⟨List.subset_append_left _ _, subset_rfl, id, id⟩
  | appendAbort p member l hh => cases member <;> exact ⟨List.Subset.refl _, subset_rfl, id, id⟩
  | set d ok => exact ⟨List.Subset.refl _, subset_rfl, fun _ => rfl, id⟩
  | joinEnd d ok hi => exact ⟨List.Subset.refl _, subset_rfl, id, fun _ => rfl⟩
  | _ => exact ⟨List.Subset.refl _, subset_rfl, id, id⟩

theorem workerStep_later {i : Fin n} {x : Input n I} {m m' : Mem n κ σ A} {w w' : Worker ℓ}
    (hs : WorkerStep C i x m w m' w') : Later m m' := by
  cases hs with
  | exit => exact ⟨List.Subset.refl _, Finset.subset_insert _ _, id, id⟩
  | call p hs => exact callStep_later hs
  | _ => exact ⟨List.Subset.refl _, subset_rfl, id, id⟩

theorem callStep_exited {self : Tid n κ} {x : Input n I} {m m' : Mem n κ σ A} {c c' : Call ℓ}
    (hs : CallStep C self x m c m' c') : m'.exited = m.exited := by
  cases hs with
  | append p member l hh | appendAbort p member l hh => cases member <;> rfl
  | _ => rfl

theorem callStep_at {self : Tid n κ} {x : Input n I} {m m' : Mem n κ σ A} {c c' : Call ℓ}
    (hs : CallStep C self x m c m' c') (hi : ItemStep m m') (h : At m c)
    (hnew : m.pool.shutdown = false → Drain ⟨m.added, m.returned⟩ m) : At m' c' := by
  cases hs with
  | append p member l hh => cases member <;> exact List.mem_append_right _ (List.mem_singleton_self p)
  | addUnlock p l => exact h
  | destroy hst => exact fun hf => hi.drain _ (hnew hf)
  | test d ok failed hf => exact h hf
  | set d ok => exact ⟨hi.drain d h, rfl⟩
  | cast d ok => exact ⟨hi.drain d h.1, h.2, fun j hj => absurd hj (Nat.not_lt_zero _)⟩
  | joinOne d ok i hin =>
    refine ⟨h.1, h.2.1, fun j hj => ?_⟩
    rcases Nat.lt_succ_iff_lt_or_eq.mp hj with hj | hj
    · exact h.2.2 j hj
    · rwa [Fin.ext hj]
  | joinEnd d ok hn => exact ⟨hi.drain d h.1, rfl⟩
  | cleanOne d ok hp => exact ⟨hi.drain d h.1, h.2⟩
  | cleanEnd d ok hp => exact h
  | _ => trivial

theorem callStep_stages {self : Tid n κ} {x : Input n I} {m m' : Mem n κ σ A} {c c' : Call ℓ}
    (hs : CallStep C self x m c m' c') (hi : ItemStep m m') (h : Stages m) (ha : At m c) : Stages m' := by
  obtain ⟨h1, h2, h3, h4, h5⟩ := h
  have h5' : ∀ d ∈ m.destroyed, Drain d m' := fun d hd => hi.drain d (h5 d hd).1
  cases hs with
  | append p member l hh =>
    cases member <;> exact ⟨fun r hr => List.mem_append_left _ (h1 hr), h2, h3, h4,
      fun d hd => ⟨h5' d hd, (h5 d hd).2⟩⟩
  | appendAbort p member l hh =>
    cases member <;> exact ⟨h1, h2, h3, h4, fun d hd => ⟨h5' d hd, (h5 d hd).2⟩⟩
  | addSignal p l hw =>
    refine ⟨fun r hr => ?_, h2, h3, h4, fun d hd => ⟨h5' d hd, (h5 d hd).2⟩⟩
    rcases List.mem_append.mp hr with hr | hr
    · exact h1 hr
    · rw [List.mem_singleton.mp hr]
      exact ha
  | set e ok =>
    exact ⟨h1, fun _ => rfl, fun _ => rfl, fun ht => ⟨rfl, (h4 ht).2⟩, fun d hd => ⟨h5' d hd, (h5 d hd).2⟩⟩
  | joinEnd e ok hn =>
    exact ⟨h1, h2, h3, fun _ => ⟨ha.2.1, fun j => ha.2.2 j (Nat.lt_of_lt_of_le j.isLt hn)⟩,
      fun d hd => ⟨h5' d hd, rfl⟩⟩
  | cleanOne e ok hp =>
    exact ⟨h1, h2, fun _ => (h4 ha.2).1, h4, fun d hd => ⟨h5' d hd, (h5 d hd).2⟩⟩
  | free e ok =>
    refine ⟨h1, h2, h3, h4, fun d hd => ?_⟩
    rcases List.mem_append.mp hd with hd | hd
    · exact ⟨h5' d hd, (h5 d hd).2⟩
    · rw [List.mem_singleton.mp hd]
      exact ⟨hi.drain e ha.1, ha.2⟩
  | _ => exact ⟨h1, h2, h3, h4, fun d hd => ⟨h5' d hd, (h5 d hd).2⟩⟩

theorem workerStep_stages {i : Fin n} {x : Input n I} {m m' : Mem n κ σ A} {w w' : Worker ℓ}
    (hs : WorkerStep C i x m w m' w') (hi : ItemStep m m') (h : Stages m)
    (ha : ∀ d, workerCall w = some d → At m d) (hk : w = .exitUnlock → m.pool.shutdown = true) :
    Stages m' := by
  obtain ⟨h1, h2, h3, h4, h5⟩ := h
  have h5' : ∀ d ∈ m.destroyed, Drain d m' := fun d hd => hi.drain d (h5 d hd).1
  cases hs with
  | exit =>
    exact ⟨h1, fun _ => hk rfl, h3, fun ht => ⟨(h4 ht).1, fun j => Finset.mem_insert_of_mem ((h4 ht).2 j)⟩,
      fun d hd => ⟨h5' d hd, (h5 d hd).2⟩⟩
  | call p hs => exact callStep_stages hs hi ⟨h1, h2, h3, h4, h5⟩ (ha _ rfl)
  | _ => exact ⟨h1, h2, h3, h4, fun d hd => ⟨h5' d hd, (h5 d hd).2⟩⟩

/-! ### Runs -/

section Runs

variable [DecidableEq κ]

theorem callStep_nodes {self : Tid n κ} {x : Input n I} {m m' : Mem n κ σ A} {c c' : Call ℓ}
    {nd : Tid n κ → Option Ptr} (hs : CallStep C self x m c m' c') (h : NodeInv m nd)
    (hb : nd self = callNode c) : NodeInv m' (Function.update nd self (callNode c')) := by
  cases hs with
  | add hst => exact h.new rfl rfl
  | append p member l hh => exact h.add hb (by cases member <;> rfl) (by cases member <;> rfl)
  | appendAbort p member l hh => exact h.drop (by cases member <;> rfl) (by cases member <;> rfl)
  | _ => exact h.same rfl rfl hb.symm

/-- **The invariant.** -/
structure DestroyInv (c : State n κ σ ℓ A) : Prop where
  calls : ∀ t d, callAt c t = some d → At c.mem d
  stages : Stages c.mem
  exits : ∀ i ∈ c.mem.exited, c.worker i = .exited
  nodes : NodeInv c.mem (c.view workerNode callNode)
  queue : c.mem.pool.threadid = true →
    QueueInv c.mem (c.view workerSection callSection) (c.view workerNode callNode)
  hands : Hands c.mem c.worker
  nodup : c.mem.dequeued.Nodup
  closed : Closed c.mem

omit [DecidableEq κ] in
/-- Until the clean-up begins the calls are not in it. -/
theorem DestroyInv.not_cleaning {c : State n κ σ ℓ A} (h : DestroyInv c) (ht : c.mem.pool.threadid = true)
    {t : Tid n κ} {d : Call ℓ} (hd : callAt c t = some d) : ¬ cleaning d := by
  intro hc
  have ha := h.calls t d hd
  cases d with
  | clean e ok | destroyFree e ok => exact Bool.false_ne_true (ha.2.symm.trans ht)
  | _ => exact hc

omit [DecidableEq κ] in
/-- A worker that has not left runs before the clean-up. -/
theorem DestroyInv.threadid_of_worker {c : State n κ σ ℓ A} (h : DestroyInv c) {i : Fin n}
    (hw : c.worker i ≠ .exited) : c.mem.pool.threadid = true := by
  by_contra hne
  have hf : c.mem.pool.threadid = false := by simpa using hne
  exact hw (h.exits i ((h.stages.threadid hf).2 i))

omit [DecidableEq κ] in
/-- Before `shutdown` is set, the snapshot of a call is one to be drained. -/
theorem DestroyInv.call {c : State n κ σ ℓ A} (h : DestroyInv c) (hf : c.mem.pool.shutdown = false) :
    Drain ⟨c.mem.added, c.mem.returned⟩ c.mem := by
  have hno : ¬ c.mem.pool.shutdown = true := by simp [hf]
  have ht : c.mem.pool.threadid = true := by
    by_contra hne
    exact hno (h.stages.threadid (by simpa using hne)).1
  refine drain_call h.stages.returned (fun he => hno (h.stages.exited he)) ?_ (h.queue ht).unlinked
  by_contra hne
  exact hno (h.stages.cleaned hne)

omit [DecidableEq κ] in
theorem workerStep_exited {i : Fin n} {x : Input n I} {m m' : Mem n κ σ A} {f : Fin n → Worker ℓ}
    {w' : Worker ℓ} (hs : WorkerStep C i x m (f i) m' w') (h : ∀ j ∈ m.exited, f j = .exited) :
    ∀ j ∈ m'.exited, Function.update f i w' j = .exited := by
  -- the others stay, and the moving worker has not left before
  have hkeep : m'.exited = m.exited → f i ≠ .exited →
      ∀ j ∈ m'.exited, Function.update f i w' j = .exited := by
    intro he hne j hj
    rw [he] at hj
    have hji : j ≠ i := by
      rintro rfl
      exact hne (h j hj)
    rw [Function.update_of_ne hji]
    exact h j hj
  generalize hw : f i = w at hs hkeep
  cases hs with
  | exit =>
    intro j hj
    by_cases hji : j = i
    · subst hji
      exact Function.update_self ..
    · rw [Function.update_of_ne hji]
      exact h j ((Finset.mem_insert.mp hj).resolve_left hji)
  | call p hs => exact hkeep (callStep_exited hs) (by simp)
  | _ => exact hkeep rfl (by simp)

theorem DestroyInv.moveWorker {c : State n κ σ ℓ A} {i : Fin n} {x : Input n I} {r : Mem n κ σ A × Worker ℓ}
    (h : DestroyInv c) (hr : (chatPool C).workerStep i x c.mem (c.worker i) = some r) :
    DestroyInv (c.moveWorker i r) := by
  have hs := workerStep_cases hr
  have hnext := Program.next_worker hr
  have hlive : c.worker i ≠ .exited := by
    intro hw
    rw [hw] at hs
    cases hs
  have ht := h.threadid_of_worker hlive
  have hq := h.queue ht
  have hempty : c.worker i = .exitUnlock → c.mem.pool.curQueueSize = 0 ∧ c.mem.pool.shutdown = true := by
    intro hw
    have hsec : c.view workerSection callSection (.inl i) = .empty := by rw [view_inl, hw]; rfl
    have := hq.knows (t := .inl i) (by simp [hsec])
    rwa [hsec] at this
  have hcl : ∀ d, workerCall (c.worker i) = some d → ¬ cleaning d := fun d hd =>
    h.not_cleaning ht (t := .inl i) hd
  have hq' : QueueInv r.1 ((c.moveWorker i r).view workerSection callSection)
      ((c.moveWorker i r).view workerNode callNode) := by
    rw [view_moveWorker, view_moveWorker]
    exact workerStep_queue hs hq rfl rfl hcl
  have hitems := workerStep_items hs h.closed (h.nodes.node (.inl i)) hcl hq.queue fun hw => (hempty hw).1
  refine ⟨?_, workerStep_stages hs hitems h.stages (h.calls (.inl i)) fun hw => (hempty hw).2,
    workerStep_exited hs h.exits, hq'.nodes, fun _ => hq', workerStep_hands hs h.hands, ?_,
    hitems.closed h.closed⟩
  · exact next_calls hnext h.calls (fun d => (workerStep_later hs).call hitems) (fun l => trivial)
      fun d d' hst hd => callStep_at hst hitems hd h.call
  · have hnd := hq'.queue.nodup
    rw [← hq'.queue.history] at hnd
    exact hnd.of_append_left

theorem DestroyInv.moveClient {c : State n κ σ ℓ A} {k : κ} {x : Input n I} {r : Mem n κ σ A × Call ℓ}
    (h0 : 0 < n) (h : DestroyInv c) (hr : (chatPool C).clientStep k x c.mem (c.client k) = some r) :
    DestroyInv (c.moveClient k r) := by
  have hs := callStep_cases hr
  have hnext := Program.next_client hr
  have hdone := callStep_hands hs
  have ha := h.calls (.inr k) _ rfl
  have hleft : cleaning (c.client k) → c.mem.exited.Nonempty := by
    intro hcl
    have hf : c.mem.pool.threadid = false := by
      by_contra hne
      exact h.not_cleaning (by simpa using hne) (t := .inr k) rfl hcl
    exact ⟨⟨0, h0⟩, (h.stages.threadid hf).2 _⟩
  have hitems := callStep_items hs h.closed (h.nodes.node (.inr k)) hleft
  refine ⟨?_, callStep_stages hs hitems h.stages ha, fun i hi => ?_, ?_, fun ht => ?_, ?_, ?_,
    hitems.closed h.closed⟩
  · exact next_calls hnext h.calls (fun d => (callStep_later hs).call hitems) (fun l => trivial)
      fun d d' hst hd => callStep_at hst hitems hd h.call
  · exact h.exits i (callStep_exited hs ▸ hi)
  · rw [view_moveClient]
    exact callStep_nodes hs h.nodes rfl
  · have ht' := (callStep_later hs).threadid_true ht
    rw [view_moveClient, view_moveClient]
    exact callStep_queue hs (h.queue ht') rfl rfl (h.not_cleaning ht' (t := .inr k) rfl)
  · show (r.1.dequeued : Multiset Ptr) = r.1.finished + ∑ i, hand (c.worker i)
    rw [hdone.1, hdone.2]
    exact h.hands
  · show r.1.dequeued.Nodup
    rw [hdone.1]
    exact h.nodup

theorem destroyInv_reach (h0 : 0 < n) {c : State n κ σ ℓ A} (h : Reach (chatPool C).lts anyStep c) :
    DestroyInv c := by
  refine Program.invariant (I := DestroyInv) ?_ ?_ ?_ h
  · rintro _ ⟨e, heap, -, rfl⟩
    have hi := inv_init (n := n) e heap C.main
    refine ⟨?_, ?_, by simp [poolInit], hi.queue.nodes, fun _ => hi.queue, hi.hands, List.nodup_nil, ?_⟩
    · rintro (i | k) d hd
      · cases hd
      · cases hd
        trivial
    · constructor <;> simp [poolInit]
    · exact ⟨fun p hp => by simp [poolInit] at hp, fun p q hp => absurd hp (Nat.not_lt_zero p)⟩
  · intro c i x r _ hi _ hr
    exact hi.moveWorker hr
  · intro c k x r _ hi _ hr
    exact hi.moveClient h0 hr

/-! ### The contract -/

/-- **`poolDestroy` drains the queue.** For every code that uses a pool with at least one worker, and every
call of `poolDestroy` that has returned `0`: every item whose `poolAddWorker` had returned before the call has
been run to completion exactly once, and the clean-up loop has freed only items that had not been added
before the call. -/
theorem poolDestroy_drains {c : State n κ σ ℓ A} (h0 : 0 < n) (h : Reach (chatPool C).lts anyStep c)
    {d : Before} (hd : d ∈ c.mem.destroyed) :
    (∀ p ∈ d.returned, c.mem.finished.count p = 1) ∧ ∀ p ∈ c.mem.cleaned, p ∉ d.added := by
  have hi := destroyInv_reach h0 h
  obtain ⟨hdr, hf⟩ := hi.stages.destroyed d hd
  have hall := (hi.stages.threadid hf).2
  have hhands : ∀ i, hand (c.worker i) = 0 := fun i => by
    rw [hi.exits i (hall i)]
    rfl
  have hperm : c.mem.dequeued.Perm c.mem.finished := by
    have := hi.hands
    unfold Hands at this
    rw [Finset.sum_eq_zero fun i _ => hhands i, add_zero] at this
    exact Multiset.coe_eq_coe.mp this
  refine ⟨fun p hp => ?_, hdr.cleaned⟩
  rw [← hperm.count_eq p]
  exact List.count_eq_one_of_mem hi.nodup ((hdr.left ⟨⟨0, h0⟩, hall _⟩).1 p (hdr.returned hp))

end Runs

/-- An item is added, `poolDestroy` called, the worker runs the item and leaves; a second item, added by
another client, is freed by the clean-up loop. -/
def drainRun : List (Tid 1 Bool × Input 1 (Option (Act Unit ℕ))) :=
  let w : Tid 1 Bool := .inl (Fin.last 0)
  let d : Tid 1 Bool := .inr false
  let e : Tid 1 Bool := .inr true
  [does d (.add 7 ())] ++ List.replicate 5 (silent d) ++ [does d (.destroy () ())] ++
    List.replicate 3 (silent d) ++ List.replicate 5 (silent w) ++ [does w .ret] ++
    List.replicate 5 (silent w) ++ [does e (.add 8 ())] ++ List.replicate 5 (silent e) ++
    List.replicate 5 (silent d)

theorem poolDestroy_drains_drainRun : ∃ c : State 1 Bool Unit Unit ℕ,
    Reach (chatPool (anyCode 1 Bool)).lts anyStep c ∧ c.mem.cleaned = [1] ∧
      c.mem.destroyed = [⟨[0], [0]⟩] ∧ c.mem.finished.count 0 = 1 := by
  obtain ⟨c, hc, hp⟩ := reach_of_run (chatPool (anyCode 1 Bool)).lts anyStep_of_test drainRun
    (fun c => decide (c.mem.cleaned = [1]) && decide (c.mem.destroyed = [⟨[0], [0]⟩]))
    ⟨(), fun _ => ⟨0, none⟩, trivial, rfl⟩ (by decide)
  simp only [Bool.and_eq_true, decide_eq_true_eq] at hp
  have hd : (⟨[0], [0]⟩ : Before) ∈ c.mem.destroyed := by simp [hp.2]
  exact ⟨c, hc, hp.1, hp.2, (poolDestroy_drains Nat.one_pos hc hd).1 0 (by simp)⟩

end PoolStudy.ChatPool.Destroy
