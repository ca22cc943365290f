import PoolStudy.Lib.Chain
import PoolStudy.ChatPool.Steps
import Mathlib.Algebra.Order.BigOperators.Group.Finset
import Mathlib.Algebra.Order.Group.Multiset

/-! # The pool of the chat server is an exactly-once FIFO

`threadRoutine` tests the counter and removes through the pointer, and `poolAddWorker` finds the end of the
list by walking it. The queue is what has been added and not dequeued (`waiting`); the invariant (`QueueInv`)
says that `queueHead` starts a chain of these items, that `curQueueSize` is their number (they are too few for
the `int` to overflow), and what the owner of the mutex knows (`Knows`): the walk is at an item of the chain and
ends at the last, and a worker that goes on to the removal has seen a non-zero counter. A failed assertion is a
position whose knowledge is `False`.

The items dequeued are those that have been run and those in the hands of a worker (`Hands`).
`chatPool_fifo` puts the two together. -/

namespace PoolStudy.ChatPool.Queue

open PoolStudy.Lib.Transition PoolStudy.Lib.Threads PoolStudy.Lib.IntCounter PoolStudy.Lib.Chain
open PoolStudy.ChatPool.Model PoolStudy.ChatPool.Steps

variable {n : ℕ} {κ σ ℓ A I : Type} {C : Code n κ σ ℓ A I}

/-! ### The chain -/

/-- The link of every item. -/
def nextOf (m : Mem n κ σ A) (p : Ptr) : Option Ptr := (m.heap p).next

/-- The items added and not dequeued. -/
def waiting (m : Mem n κ σ A) : List Ptr := m.added.drop m.dequeued.length

/-- **The queue at rest**: the items `q` wait. -/
structure QueueAt (m : Mem n κ σ A) (q : List Ptr) : Prop where
  history : m.dequeued ++ q = m.added
  linked : Linked (nextOf m) m.pool.queueHead q
  size : m.pool.curQueueSize = q.length
  nodup : m.added.Nodup

section QueueAt

variable {m m' : Mem n κ σ A} {q : List Ptr} {p : Ptr}

theorem QueueAt.waiting_eq (h : QueueAt m q) : waiting m = q := by
  rw [waiting, ← h.history, List.drop_left]

theorem QueueAt.mem_added (h : QueueAt m q) (hp : p ∈ q) : p ∈ m.added := by
  rw [← h.history]
  exact List.mem_append_right _ hp

theorem QueueAt.nodup_queue (h : QueueAt m q) : q.Nodup := by
  have := h.nodup
  rw [← h.history] at this
  exact this.of_append_right

/-- The memory is the same as far as the queue is concerned; `shutdown` may have been set. -/
structure SameQueue (m m' : Mem n κ σ A) : Prop where
  heap : m'.heap = m.heap
  fresh : m'.fresh = m.fresh
  head : m'.pool.queueHead = m.pool.queueHead
  size : m'.pool.curQueueSize = m.pool.curQueueSize
  added : m'.added = m.added
  dequeued : m'.dequeued = m.dequeued
  shutdown : m.pool.shutdown = true → m'.pool.shutdown = true

theorem SameQueue.refl (m : Mem n κ σ A) : SameQueue m m := ⟨rfl, rfl, rfl, rfl, rfl, rfl, id⟩

theorem QueueAt.same (h : QueueAt m q) (hs : SameQueue m m') : QueueAt m' q := by
  obtain ⟨h1, -, h3, h4, h5, h6, -⟩ := hs
  refine ⟨by rw [h5, h6, h.history], ?_, by rw [h4, h.size], by rw [h5]; exact h.nodup⟩
  rw [h3]
  exact h.linked.congr fun p _ => by rw [nextOf, nextOf, h1]

/-- A new item is not on the chain. -/
theorem QueueAt.newWorker (h : QueueAt m q) (hb : ∀ p ∈ m.added, p < m.fresh) (a : A) :
    QueueAt (m.newWorker a) q := by
  refine ⟨h.history, h.linked.congr fun p hp => ?_, h.size, h.nodup⟩
  have hne : p ≠ m.fresh := Nat.ne_of_lt (hb p (h.mem_added hp))
  simp only [nextOf, Mem.newWorker, Function.update_of_ne hne]

theorem nextOf_link (m : Mem n κ σ A) (p r : Ptr) :
    nextOf (m.link p (some r)) = Function.update (nextOf m) r (some p) := by
  funext s
  by_cases hs : s = r
  · subst hs
    simp [nextOf, Mem.link]
  · simp [nextOf, Mem.link, hs]

/-- **The new item is linked behind the last one**, or made the head of an empty list. -/
theorem QueueAt.append {member : Option Ptr} (h : QueueAt m q) (hp : p ∉ m.added)
    (hf : Fits m.fresh m.dequeued.length) (hb : ∀ r ∈ m.added, r < m.fresh) (hlt : p < m.fresh)
    (hn : (m.heap p).next = none) (hm : q.getLast? = member) :
    QueueAt ((m.link p member).count p) (q ++ [p]) := by
  have hpq : p ∉ q := fun hin => hp (h.mem_added hin)
  have hnodup : (m.added ++ [p]).Nodup :=
    List.nodup_append.mpr ⟨h.nodup, List.nodup_singleton p, fun a ha b hb' hab => by
      rw [List.mem_singleton] at hb'
      exact hp (hb' ▸ hab ▸ ha)⟩
  have hhist : m.dequeued ++ (q ++ [p]) = m.added ++ [p] := by rw [← List.append_assoc, h.history]
  have hbound : ∀ r ∈ m.added ++ [p], r < m.fresh := fun r hr => by
    rcases List.mem_append.mp hr with hr | hr
    · exact hb r hr
    · rwa [List.mem_singleton.mp hr]
  have hsize : wrap (m.pool.curQueueSize + 1) = ((q ++ [p]).length : ℤ) := by
    rw [h.size]
    exact wrap_raise hf (hhist ▸ hnodup) (hhist ▸ hbound)
  cases member with
  | none =>
    obtain rfl : q = [] := List.getLast?_eq_none_iff.mp hm
    exact ⟨hhist, ⟨rfl, hn⟩, hsize, hnodup⟩
  | some r =>
    refine ⟨hhist, ?_, hsize, hnodup⟩
    show Linked (nextOf (m.link p (some r))) m.pool.queueHead (q ++ [p])
    rw [nextOf_link]
    exact h.linked.snoc hm h.nodup_queue hpq hn

/-- The first item, and what waits behind it. -/
theorem QueueAt.head_waiting (h : QueueAt m q) (hp : m.pool.queueHead = some p) :
    q = p :: waiting (withoutHead m p) := by
  have hl := h.linked
  rw [hp] at hl
  obtain ⟨q', rfl, -⟩ := hl.uncons
  have hh := h.history
  rw [List.append_cons] at hh
  show p :: q' = p :: m.added.drop (m.dequeued ++ [p]).length
  rw [← hh, List.drop_left]

/-- **The first item is removed.** -/
theorem QueueAt.take (h : QueueAt m q) (hf : Fits m.fresh m.dequeued.length) (hb : ∀ r ∈ m.added, r < m.fresh)
    (hp : m.pool.queueHead = some p) : QueueAt (withoutHead m p) (waiting (withoutHead m p)) := by
  have hq := h.head_waiting hp
  generalize waiting (withoutHead m p) = q' at hq ⊢
  subst hq
  have hl := h.linked
  rw [hp] at hl
  obtain ⟨_, he, hl'⟩ := hl.uncons
  cases he
  have hh := h.history
  refine ⟨by simp [withoutHead, ← hh], hl', ?_, h.nodup⟩
  show wrap (m.pool.curQueueSize - 1) = q'.length
  rw [h.size]
  exact wrap_lower hf (hh ▸ h.nodup) (hh ▸ hb)

end QueueAt

/-! ### What the owner of the mutex knows -/

/-- Where a thread is with respect to the mutex. -/
inductive Section
  | out
  | inside
  | member (q : Ptr)
  | last (member : Option Ptr)
  | tested
  | empty
  | nonzero
  | aborted
  deriving DecidableEq

/-- The section of a call. -/
def callSection : Call ℓ → Section
  | .addHead _ _ | .addUnlock _ _ => .inside
  | .walk _ q _ => .member q
  | .append _ member _ => .last member
  | .aborted => .aborted
  | _ => .out

/-- The section of a worker. -/
def workerSection : Worker ℓ → Section
  | .whileTest | .wait | .unlock _ => .inside
  | .ifTest => .tested
  | .exitUnlock => .empty
  | .take => .nonzero
  | .run _ c => callSection c
  | .aborted => .aborted
  | .lock | .blocked | .free _ | .exited => .out

/-- **The knowledge of the owner.** -/
def Knows (m : Mem n κ σ A) : Section → Prop
  | .member q => q ∈ waiting m
  | .last member => (waiting m).getLast? = member
  | .tested => m.pool.curQueueSize ≠ 0 ∨ m.pool.shutdown = true
  | .empty => m.pool.curQueueSize = 0 ∧ m.pool.shutdown = true
  | .nonzero => m.pool.curQueueSize ≠ 0
  | .aborted => False
  | .out | .inside => True

theorem Knows.same {m m' : Mem n κ σ A} (hs : SameQueue m m') (s : Section) (h : Knows m s) :
    Knows m' s := by
  obtain ⟨-, -, -, h4, h5, h6, h7⟩ := hs
  have hw : waiting m' = waiting m := by rw [waiting, waiting, h5, h6]
  cases s with
  | tested => exact h.imp (fun hz => by rwa [h4]) h7
  | empty => exact ⟨by rw [h4]; exact h.1, h7 h.2⟩
  | member q | last q => simpa only [Knows, hw] using h
  | nonzero => simpa only [Knows, h4] using h
  | out | inside | aborted => exact h

/-- The new item of a call that has not linked it yet. -/
def callNode : Call ℓ → Option Ptr
  | .addLock p _ | .addHead p _ | .walk p _ _ | .append p _ _ => some p
  | _ => none

/-- The new item of a worker whose item adds one. -/
def workerNode : Worker ℓ → Option Ptr
  | .run _ c => callNode c
  | _ => none

/-! ### New items -/

/-- **The new items `nd` of the threads** are theirs alone and have not been added. -/
structure NodeInv (m : Mem n κ σ A) (nd : Tid n κ → Option Ptr) : Prop where
  bound : ∀ p ∈ m.added, p < m.fresh
  node : ∀ t p, nd t = some p → p < m.fresh ∧ p ∉ m.added
  inj : ∀ t t' p, nd t = some p → nd t' = some p → t = t'

section NodeInv

variable [DecidableEq κ] {m m' : Mem n κ σ A} {nd : Tid n κ → Option Ptr} {t : Tid n κ} {b : Option Ptr}

theorem NodeInv.same (h : NodeInv m nd) (hf : m'.fresh = m.fresh) (ha : m'.added = m.added)
    (hb : b = nd t) : NodeInv m' (Function.update nd t b) := by
  rw [hb, Function.update_eq_self]
  exact ⟨by rw [hf, ha]; exact h.bound, by rw [hf, ha]; exact h.node, h.inj⟩

theorem NodeInv.new (h : NodeInv m nd) (hf : m'.fresh = m.fresh + 1) (ha : m'.added = m.added) :
    NodeInv m' (Function.update nd t (some m.fresh)) := by
  refine ⟨fun p hp => ?_, fun t' p hp => ?_, fun t1 t2 p h1 h2 => ?_⟩
  · rw [ha] at hp
    rw [hf]
    exact Nat.lt_succ_of_lt (h.bound p hp)
  · rw [hf, ha]
    by_cases ht : t' = t
    · subst ht
      rw [Function.update_self] at hp
      cases hp
      exact ⟨Nat.lt_succ_self _, fun hin => absurd (h.bound _ hin) (lt_irrefl _)⟩
    · rw [Function.update_of_ne ht] at hp
      obtain ⟨hlt, hnot⟩ := h.node t' p hp
      exact ⟨Nat.lt_succ_of_lt hlt, hnot⟩
  · -- the fresh pointer is nobody else's
    have hother : ∀ t', nd t' = some p → p ≠ m.fresh := fun t' hp => Nat.ne_of_lt (h.node t' p hp).1
    by_cases h1t : t1 = t <;> by_cases h2t : t2 = t
    · rw [h1t, h2t]
    · subst h1t
      rw [Function.update_self] at h1
      rw [Function.update_of_ne h2t] at h2
      exact absurd (Option.some.inj h1).symm (hother t2 h2)
    · subst h2t
      rw [Function.update_self] at h2
      rw [Function.update_of_ne h1t] at h1
      exact absurd (Option.some.inj h2).symm (hother t1 h1)
    · rw [Function.update_of_ne h1t] at h1
      rw [Function.update_of_ne h2t] at h2
      exact h.inj t1 t2 p h1 h2

/-- The new items of the other threads. -/
theorem node_of_drop {t' : Tid n κ} {r : Ptr} (hr : Function.update nd t none t' = some r) :
    t' ≠ t ∧ nd t' = some r := by
  by_cases ht : t' = t
  · subst ht
    rw [Function.update_self] at hr
    cases hr
  · rw [Function.update_of_ne ht] at hr
    exact ⟨ht, hr⟩

theorem NodeInv.drop (h : NodeInv m nd) (hf : m'.fresh = m.fresh) (ha : m'.added = m.added) :
    NodeInv m' (Function.update nd t none) := by
  refine ⟨by rw [hf, ha]; exact h.bound, fun t' r hr => ?_, fun t1 t2 r h1 h2 => ?_⟩
  · rw [hf, ha]
    exact h.node t' r (node_of_drop hr).2
  · exact h.inj t1 t2 r (node_of_drop h1).2 (node_of_drop h2).2

theorem NodeInv.add {p : Ptr} (h : NodeInv m nd) (hp : nd t = some p) (hf : m'.fresh = m.fresh)
    (ha : m'.added = m.added ++ [p]) : NodeInv m' (Function.update nd t none) := by
  refine ⟨fun r hr => ?_, fun t' r hr => ?_, fun t1 t2 r h1 h2 => ?_⟩
  · rw [ha] at hr
    rw [hf]
    rcases List.mem_append.mp hr with hr | hr
    · exact h.bound r hr
    · rw [List.mem_singleton.mp hr]
      exact (h.node t p hp).1
  · obtain ⟨ht, hr⟩ := node_of_drop hr
    obtain ⟨hlt, hnot⟩ := h.node t' r hr
    rw [hf, ha, List.mem_append, List.mem_singleton]
    refine ⟨hlt, ?_⟩
    rintro (h1 | rfl)
    · exact hnot h1
    · exact ht (h.inj t' t r hr hp)
  · exact h.inj t1 t2 r (node_of_drop h1).2 (node_of_drop h2).2

end NodeInv

/-! ### The invariant of the queue -/

/-- **The invariant**, for the sections `acc` and the new items `nd` of the threads. -/
structure QueueInv (m : Mem n κ σ A) (acc : Tid n κ → Section) (nd : Tid n κ → Option Ptr) : Prop where
  queue : QueueAt m (waiting m)
  guard : Guarded m.pool.queueLock .out acc (Knows m)
  nodes : NodeInv m nd
  fits : Fits m.fresh m.dequeued.length
  unlinked : ∀ p, p < m.fresh → p ∉ m.added → (m.heap p).next = none

section QueueInv

variable [DecidableEq κ] {m m' : Mem n κ σ A} {acc : Tid n κ → Section} {nd : Tid n κ → Option Ptr}
  {t : Tid n κ} {a : Section} {b : Option Ptr}

/-- Steps that do not touch the queue. -/
theorem QueueInv.same (h : QueueInv m acc nd) (hs : SameQueue m m') {acc' : Tid n κ → Section}
    (hg : Guarded m'.pool.queueLock .out acc' (Knows m')) (hb : b = nd t) :
    QueueInv m' acc' (Function.update nd t b) := by
  have hw : waiting m' = waiting m := by rw [waiting, waiting, hs.added, hs.dequeued]
  refine ⟨by rw [hw]; exact h.queue.same hs, hg, h.nodes.same hs.fresh hs.added hb, ?_, ?_⟩
  · rw [hs.fresh, hs.dequeued]
    exact h.fits
  · rw [hs.fresh, hs.added, hs.heap]
    exact h.unlinked

/-- A step outside the sections that does not touch the queue. -/
theorem QueueInv.stay (h : QueueInv m acc nd) (hs : SameQueue m m')
    (hl : m'.pool.queueLock = m.pool.queueLock) (ha : a = acc t) (hb : b = nd t) :
    QueueInv m' (Function.update acc t a) (Function.update nd t b) := by
  refine h.same hs ?_ hb
  rw [hl]
  exact h.guard.stay ha fun s => Knows.same hs s

/-- A step into, inside or out of a section that does not touch the queue. -/
theorem QueueInv.act (h : QueueInv m acc nd) (hs : SameQueue m m')
    (hfree : acc t = .out → m.pool.queueLock = none)
    (hl : (a = .out ∧ m'.pool.queueLock = none) ∨ (a ≠ .out ∧ m'.pool.queueLock = some t))
    (hk : Knows m (acc t) → Knows m' a) (hb : b = nd t) :
    QueueInv m' (Function.update acc t a) (Function.update nd t b) :=
  h.same hs (h.guard.act hfree hl hk) hb

/-- The mutex is taken. -/
theorem QueueInv.lock (h : QueueInv m acc nd) (hfree : m.pool.queueLock = none) (hb : b = nd t) :
    QueueInv (locked m t) (Function.update acc t .inside) (Function.update nd t b) :=
  h.act ⟨rfl, rfl, rfl, rfl, rfl, rfl, id⟩ (fun _ => hfree) (Or.inr ⟨by simp, rfl⟩) (fun _ => trivial) hb

/-- The owner goes on and keeps the mutex. -/
theorem QueueInv.go (h : QueueInv m acc nd) (hin : acc t ≠ .out) (ha : a ≠ .out)
    (hk : Knows m (acc t) → Knows m a) (hb : b = nd t) :
    QueueInv m (Function.update acc t a) (Function.update nd t b) :=
  h.act (SameQueue.refl m) (fun he => absurd he hin) (Or.inr ⟨ha, (h.guard.owned t).mp hin⟩) hk hb

/-- The owner gives the mutex back. -/
theorem QueueInv.unlock (h : QueueInv m acc nd) (hin : acc t ≠ .out) (hs : SameQueue m m')
    (hl : m'.pool.queueLock = none) (hb : b = nd t) :
    QueueInv m' (Function.update acc t .out) (Function.update nd t b) :=
  h.act hs (fun he => absurd he hin) (Or.inl ⟨rfl, hl⟩) (fun _ => trivial) hb

omit [DecidableEq κ] in
/-- The owner knows the assertion of its position. -/
theorem QueueInv.knows (h : QueueInv m acc nd) (hin : acc t ≠ .out) : Knows m (acc t) :=
  h.guard.mine fun he => absurd he hin

/-- The new item of `poolAddWorker`. -/
theorem QueueInv.newWorker (h : QueueInv m acc nd) (e : σ) (x : A) (hr : m.hasRoom) (ha : a = acc t) :
    QueueInv (Mem.newWorker { m with ext := e } x) (Function.update acc t a)
      (Function.update nd t (some m.fresh)) := by
  have hs : SameQueue m { m with ext := e } := ⟨rfl, rfl, rfl, rfl, rfl, rfl, id⟩
  refine ⟨(h.queue.same hs).newWorker h.nodes.bound x, h.guard.stay ha fun s hk => hk,
    h.nodes.new rfl rfl, Fits.of_hasRoom hr, fun p hp hnot => ?_⟩
  by_cases hne : p = m.fresh
  · subst hne
    simp [Mem.newWorker]
  · have hlt : p < m.fresh := Nat.lt_of_le_of_ne (Nat.le_of_lt_succ hp) hne
    simpa only [Mem.newWorker, Function.update_of_ne hne] using h.unlinked p hlt hnot

omit [DecidableEq κ] in
/-- The chain after the link starts somewhere. -/
theorem QueueInv.head_link {p : Ptr} {member : Option Ptr} (h : QueueInv m acc nd)
    (ha : acc t = .last member) : (m.link p member).pool.queueHead ≠ none := by
  have hk : (waiting m).getLast? = member := by
    have := h.knows (t := t) (by simp [ha])
    rwa [ha] at this
  cases member with
  | none => simp [Mem.link]
  | some r =>
    intro hnone
    have hl := h.queue.linked
    rw [show m.pool.queueHead = none from hnone] at hl
    rw [hl.eq_nil] at hk
    cases hk

/-- **The end of the section of `poolAddWorker`.** -/
theorem QueueInv.append {p : Ptr} {member : Option Ptr} (h : QueueInv m acc nd)
    (ha : acc t = .last member) (hb : nd t = some p) :
    QueueInv ((m.link p member).count p) (Function.update acc t .inside) (Function.update nd t none) := by
  have hin : acc t ≠ .out := by simp [ha]
  have hk : (waiting m).getLast? = member := by
    have := h.knows hin
    rwa [ha] at this
  obtain ⟨hlt, hnot⟩ := h.nodes.node t p hb
  have hq := h.queue.append hnot h.fits h.nodes.bound hlt (h.unlinked p hlt hnot) hk
  have hlock : ((m.link p member).count p).pool.queueLock = m.pool.queueLock := by cases member <;> rfl
  have hadded : ((m.link p member).count p).added = m.added ++ [p] := by cases member <;> rfl
  have hfresh : ((m.link p member).count p).fresh = m.fresh := by cases member <;> rfl
  have hdeq : ((m.link p member).count p).dequeued = m.dequeued := by cases member <;> rfl
  refine ⟨by rw [hq.waiting_eq]; exact hq, ?_, h.nodes.add hb hfresh hadded, ?_, fun r hr hnr => ?_⟩
  · refine h.guard.act (fun he => absurd he hin) (Or.inr ⟨by simp, ?_⟩) fun _ => trivial
    rw [hlock]
    exact (h.guard.owned t).mp hin
  · rw [hfresh, hdeq]
    exact h.fits
  · rw [hfresh] at hr
    rw [hadded, List.mem_append, not_or] at hnr
    cases member with
    | none => exact h.unlinked r hr hnr.1
    | some q =>
      -- the member that was written is on the chain, `r` is not
      have hne : r ≠ q := fun he => hnr.1 (h.queue.mem_added (he ▸ List.mem_of_getLast? hk))
      show nextOf (m.link p (some q)) r = none
      rw [nextOf_link, Function.update_of_ne hne]
      exact h.unlinked r hr hnr.1

/-- **A worker removes the first item.** -/
theorem QueueInv.take {p : Ptr} (h : QueueInv m acc nd) (ha : acc t = .nonzero)
    (hp : m.pool.queueHead = some p) (hb : b = nd t) :
    QueueInv (withoutHead m p) (Function.update acc t .inside) (Function.update nd t b) := by
  have hin : acc t ≠ .out := by simp [ha]
  refine ⟨h.queue.take h.fits h.nodes.bound hp, ?_, h.nodes.same rfl rfl hb, h.fits.mono (by simp [withoutHead]),
    h.unlinked⟩
  exact h.guard.act (fun he => absurd he hin) (Or.inr ⟨by simp, (h.guard.owned t).mp hin⟩) fun _ => trivial

omit [DecidableEq κ] in
/-- With a counter that is not zero there is an item to remove. -/
theorem QueueInv.head_take (h : QueueInv m acc nd) (ha : acc t = .nonzero) :
    m.pool.curQueueSize ≠ 0 ∧ m.pool.queueHead ≠ none := by
  have hk : m.pool.curQueueSize ≠ 0 := by
    have := h.knows (t := t) (by simp [ha])
    rwa [ha] at this
  refine ⟨hk, fun hnone => hk ?_⟩
  have hl := h.queue.linked
  rw [hnone] at hl
  rw [h.queue.size, hl.eq_nil]
  rfl

end QueueInv

/-! ### Steps -/

/-- The thread is in the clean-up loop of `poolDestroy`, or behind it. -/
def cleaning : Call ℓ → Prop
  | .clean _ _ | .destroyFree _ _ => True
  | _ => False

instance (c : Call ℓ) : Decidable (cleaning c) := by
  cases c <;> unfold cleaning <;> infer_instance

section Steps

variable [DecidableEq κ] {m m' : Mem n κ σ A} {acc : Tid n κ → Section} {nd : Tid n κ → Option Ptr}

theorem callStep_queue {self : Tid n κ} {x : Input n I} {c c' : Call ℓ} (hs : CallStep C self x m c m' c')
    (h : QueueInv m acc nd) (ha : acc self = callSection c) (hb : nd self = callNode c)
    (hc : ¬ cleaning c) :
    QueueInv m' (Function.update acc self (callSection c')) (Function.update nd self (callNode c')) := by
  have hin : callSection c ≠ .out → acc self ≠ .out := fun hne => ha ▸ hne
  cases hs with
  | add hst hr => exact h.newWorker _ _ hr ha.symm
  | addLock p l hl => exact h.lock hl hb.symm
  | addHead p l hq =>
    refine h.go (hin (by simp [callSection])) (by simp [callSection]) (fun _ => ?_) hb.symm
    have hl := h.queue.linked
    rw [hq] at hl
    obtain ⟨q', hq', -⟩ := hl.uncons
    show _ ∈ waiting m
    rw [hq']
    exact List.mem_cons_self
  | addEmpty p l hq =>
    refine h.go (hin (by simp [callSection])) (by simp [callSection]) (fun _ => ?_) hb.symm
    have hl := h.queue.linked
    rw [hq] at hl
    show (waiting m).getLast? = none
    rw [hl.eq_nil]
    rfl
  | walk p q l hr =>
    refine h.go (hin (by simp [callSection])) (by simp [callSection]) (fun hk => ?_) hb.symm
    rw [ha] at hk
    exact h.queue.linked.mem_next hk hr
  | walkEnd p q l hr =>
    refine h.go (hin (by simp [callSection])) (by simp [callSection]) (fun hk => ?_) hb.symm
    rw [ha] at hk
    exact h.queue.linked.getLast? hk hr
  | append p member l hh => exact h.append ha hb
  | appendAbort p member l hh => exact absurd hh (h.head_link ha)
  | addUnlock p l =>
    exact h.unlock (hin (by simp [callSection])) ⟨rfl, rfl, rfl, rfl, rfl, rfl, id⟩ rfl hb.symm
  | set d ok => exact h.stay ⟨rfl, rfl, rfl, rfl, rfl, rfl, fun _ => rfl⟩ rfl ha.symm hb.symm
  | cleanOne d ok hp => exact absurd trivial hc
  | _ => exact h.stay ⟨rfl, rfl, rfl, rfl, rfl, rfl, id⟩ rfl ha.symm hb.symm

theorem workerStep_queue {i : Fin n} {x : Input n I} {w w' : Worker ℓ} (hs : WorkerStep C i x m w m' w')
    (h : QueueInv m acc nd) (ha : acc (.inl i) = workerSection w) (hb : nd (.inl i) = workerNode w)
    (hc : ∀ c, workerCall w = some c → ¬ cleaning c) :
    QueueInv m' (Function.update acc (.inl i) (workerSection w'))
      (Function.update nd (.inl i) (workerNode w')) := by
  have hin : workerSection w ≠ .out → acc (.inl i) ≠ .out := fun hne => ha ▸ hne
  cases hs with
  | lock hl | wake hi hl => exact h.lock hl hb.symm
  | mustWait hz hd =>
    exact h.go (hin (by simp [workerSection])) (by simp [workerSection]) (fun _ => trivial) hb.symm
  | goOn hz => exact h.go (hin (by simp [workerSection])) (by simp [workerSection]) (fun _ => hz) hb.symm
  | wait | exit | unlock p =>
    exact h.unlock (hin (by simp [workerSection])) ⟨rfl, rfl, rfl, rfl, rfl, rfl, id⟩ rfl hb.symm
  | leave hz hd =>
    exact h.go (hin (by simp [workerSection])) (by simp [workerSection]) (fun _ => ⟨hz, hd⟩) hb.symm
  | stay hz =>
    refine h.go (hin (by simp [workerSection])) (by simp [workerSection]) (fun hk hzero => ?_) hb.symm
    rw [ha] at hk
    exact hz ⟨hzero, hk.resolve_left fun hne => hne hzero⟩
  | take hz hp => exact h.take ha hp hb.symm
  | takeAbort hz =>
    obtain ⟨h1, h2⟩ := h.head_take ha
    exact (hz.elim h1 h2).elim
  | call p hs => exact callStep_queue hs h ha hb (hc _ rfl)
  | _ => exact h.stay ⟨rfl, rfl, rfl, rfl, rfl, rfl, id⟩ rfl ha.symm hb.symm

end Steps

/-! ### The items in the hands of the workers -/

/-- The item a worker has dequeued and whose function has not returned. -/
def holds : Worker ℓ → Option Ptr
  | .unlock p | .run p _ => some p
  | _ => none

/-- The same as a multiset. -/
def hand (w : Worker ℓ) : Multiset Ptr := (holds w).toList

/-- **The ledger**: what was dequeued has been run or is in the hands of a worker. -/
def Hands (m : Mem n κ σ A) (f : Fin n → Worker ℓ) : Prop :=
  (m.dequeued : Multiset Ptr) = m.finished + ∑ i, hand (f i)

theorem callStep_hands {self : Tid n κ} {x : Input n I} {m m' : Mem n κ σ A} {c c' : Call ℓ}
    (hs : CallStep C self x m c m' c') : m'.dequeued = m.dequeued ∧ m'.finished = m.finished := by
  cases hs with
  | append p member l hh | appendAbort p member l hh => cases member <;> exact ⟨rfl, rfl⟩
  | _ => exact ⟨rfl, rfl⟩

theorem workerStep_hands {i : Fin n} {x : Input n I} {m m' : Mem n κ σ A} {f : Fin n → Worker ℓ}
    {w' : Worker ℓ} (hs : WorkerStep C i x m (f i) m' w') (h : Hands m f) :
    Hands m' (Function.update f i w') := by
  refine ledger_move (fun _ => hand) h ?_
  generalize hw : f i = w at hs
  cases hs with
  | take hz hp =>
    simp only [withoutHead, hand, holds, ← Multiset.coe_add, Option.toList_some, Option.toList_none,
      Multiset.coe_singleton, Multiset.coe_nil]
    abel
  | finish p hst =>
    simp only [hand, holds, ← Multiset.coe_add, Option.toList_some, Option.toList_none,
      Multiset.coe_singleton, Multiset.coe_nil]
    abel
  | call p hs =>
    obtain ⟨h1, h2⟩ := callStep_hands hs
    rw [h1, h2]
    rfl
  | _ => rfl

/-- **No item is run twice**: neither again after it has been run, nor by two workers. -/
def RunOnce (m : Mem n κ σ A) (f : Fin n → Worker ℓ) : Prop :=
  m.finished.Nodup ∧ ∀ i p, holds (f i) = some p → p ∈ m.dequeued ∧ p ∉ m.finished ∧
    ∀ j, holds (f j) = some p → j = i

theorem Hands.runOnce {m : Mem n κ σ A} {f : Fin n → Worker ℓ} (h : Hands m f) (hn : m.dequeued.Nodup) :
    RunOnce m f := by
  have hnd : (m.finished + ∑ i, hand (f i) : Multiset Ptr).Nodup := by
    rw [← h]
    exact Multiset.coe_nodup.mpr hn
  obtain ⟨hf, hs, hdisj⟩ := Multiset.nodup_add.mp hnd
  have hmem : ∀ i p, holds (f i) = some p → p ∈ hand (f i) := fun i p hp => by simp [hand, hp]
  have hle : ∀ i, hand (f i) ≤ ∑ j, hand (f j) := fun i =>
    Finset.single_le_sum (f := fun j => hand (f j)) (fun _ _ => Multiset.zero_le _) (Finset.mem_univ i)
  refine ⟨Multiset.coe_nodup.mp hf, fun i p hp => ⟨?_, fun hin => ?_, fun j hj => ?_⟩⟩
  · have : p ∈ (m.dequeued : Multiset Ptr) := by
      rw [h]
      exact Multiset.mem_add.mpr (Or.inr (Multiset.mem_of_le (hle i) (hmem i p hp)))
    exact Multiset.mem_coe.mp this
  · exact Multiset.disjoint_left.mp hdisj (Multiset.mem_coe.mpr hin)
      (Multiset.mem_of_le (hle i) (hmem i p hp))
  · by_contra hne
    -- two workers with the same item would put it twice into the sum
    have hsub : hand (f i) + hand (f j) ≤ ∑ k, hand (f k) := by
      rw [← Finset.add_sum_erase Finset.univ (fun k => hand (f k)) (Finset.mem_univ i)]
      refine add_le_add le_rfl ?_
      exact Finset.single_le_sum (f := fun k => hand (f k)) (fun _ _ => Multiset.zero_le _)
        (Finset.mem_erase.mpr ⟨hne, Finset.mem_univ j⟩)
    have := Multiset.nodup_add.mp (Multiset.nodup_of_le hsub hs)
    exact Multiset.disjoint_left.mp this.2.2 (hmem i p hp) (hmem j p hj)

/-! ### Runs -/

variable [DecidableEq κ]

/-- **The queue and the hands of the workers**, in a configuration. -/
structure Inv (c : State n κ σ ℓ A) : Prop where
  queue : QueueInv c.mem (c.view workerSection callSection) (c.view workerNode callNode)
  hands : Hands c.mem c.worker

theorem Inv.moveWorker {c : State n κ σ ℓ A} {i : Fin n} {x : Input n I} {r : Mem n κ σ A × Worker ℓ}
    (h : Inv c) (hs : WorkerStep C i x c.mem (c.worker i) r.1 r.2)
    (hc : ∀ d, workerCall (c.worker i) = some d → ¬ cleaning d) : Inv (c.moveWorker i r) := by
  refine ⟨?_, workerStep_hands hs h.hands⟩
  rw [view_moveWorker, view_moveWorker]
  exact workerStep_queue hs h.queue rfl rfl hc

theorem Inv.moveClient {c : State n κ σ ℓ A} {k : κ} {x : Input n I} {r : Mem n κ σ A × Call ℓ}
    (h : Inv c) (hs : CallStep C (.inr k) x c.mem (c.client k) r.1 r.2) (hc : ¬ cleaning (c.client k)) :
    Inv (c.moveClient k r) := by
  refine ⟨?_, ?_⟩
  · rw [view_moveClient, view_moveClient]
    exact callStep_queue hs h.queue rfl rfl hc
  · obtain ⟨h1, h2⟩ := callStep_hands hs
    have := h.hands
    unfold Hands at this ⊢
    show (r.1.dequeued : Multiset Ptr) = r.1.finished + ∑ i, hand (c.worker i)
    rw [h1, h2, this]

omit [DecidableEq κ] in
theorem inv_init (e : σ) (heap : Ptr → Item A) (l : κ → ℓ) :
    Inv (⟨poolInit n κ e heap, fun _ => .lock, fun k => .code (l k)⟩ : State n κ σ ℓ A) := by
  refine ⟨⟨⟨rfl, rfl, rfl, List.nodup_nil⟩, ⟨?_, trivial⟩, ⟨by simp [poolInit], ?_, ?_⟩, Nat.zero_le _, ?_⟩, ?_⟩
  · rintro (i | k) <;> simp [workerSection, callSection, poolInit]
  · rintro (i | k) p hp <;> cases hp
  · rintro (i | k) t' p hp <;> cases hp
  · intro p hp
    exact absurd hp (Nat.not_lt_zero p)
  · simp [Hands, poolInit, hand, holds]

/-- The step is not one of the clean-up loop. -/
def noCleanup (c : State n κ σ ℓ A) (a : Tid n κ × Input n I) : Prop :=
  ∀ d, callAt c a.1 = some d → ¬ cleaning d

theorem inv_reach {c : State n κ σ ℓ A} (h : Reach (chatPool C).lts noCleanup c) : Inv c := by
  refine Program.invariant (I := Inv) ?_ ?_ ?_ h
  · rintro _ ⟨e, heap, -, rfl⟩
    exact inv_init e heap C.main
  · intro c i x r _ hi hok hs
    exact hi.moveWorker (workerStep_cases hs) hok
  · intro c k x r _ hi hok hs
    exact hi.moveClient (callStep_cases hs) (hok _ rfl)

omit [DecidableEq κ] in
/-- No assertion has failed. -/
theorem Inv.not_aborted {c : State n κ σ ℓ A} (h : Inv c) (t : Tid n κ) :
    c.view workerSection callSection t ≠ .aborted := by
  intro ht
  have := h.queue.knows (t := t) (by simp [ht])
  rwa [ht] at this

/-- The assertion at line 49 of `poolAddWorker`, or one of those at lines 99 and 100 of `threadRoutine`, has
failed in the thread. -/
def assertFailed (c : State n κ σ ℓ A) : Tid n κ → Prop
  | .inl i => c.worker i = .aborted ∨ ∃ p, c.worker i = .run p .aborted
  | .inr k => c.client k = .aborted

/-- **The pool is an exactly-once FIFO.** For every code that uses it and every number of workers, in every
state reached without the clean-up loop of `poolDestroy`: `queueHead` starts a chain of `curQueueSize`
distinct items, the items dequeued followed by this chain are the items added, no item is run twice, and no
assertion has failed. -/
theorem chatPool_fifo {c : State n κ σ ℓ A} (h : Reach (chatPool C).lts noCleanup c) :
    (∃ q, Linked (nextOf c.mem) c.mem.pool.queueHead q ∧ q.Nodup ∧
      c.mem.pool.curQueueSize = q.length ∧ c.mem.dequeued ++ q = c.mem.added ∧ c.mem.added.Nodup) ∧
    RunOnce c.mem c.worker ∧ ∀ t, ¬ assertFailed c t := by
  have hi := inv_reach h
  have hq := hi.queue.queue
  refine ⟨⟨_, hq.linked, hq.nodup_queue, hq.size, hq.history, hq.nodup⟩, hi.hands.runOnce ?_, ?_⟩
  · have := hq.nodup
    rw [← hq.history] at this
    exact this.of_append_left
  · rintro (i | k) hf
    · refine hi.not_aborted (.inl i) ?_
      rcases hf with hf | ⟨p, hf⟩ <;> rw [view_inl, hf] <;> rfl
    · refine hi.not_aborted (.inr k) ?_
      rw [view_inr, show c.client k = .aborted from hf]
      rfl

/-- The test for a step outside the clean-up loop. -/
def noCleanupTest (c : State n κ σ ℓ A) (a : Tid n κ × Input n I) : Bool :=
  match callAt c a.1 with
  | some d => decide (¬ cleaning d)
  | none => true

omit [DecidableEq κ] in
theorem noCleanup_of_test (c : State n κ σ ℓ A) (a : Tid n κ × Input n I) (h : noCleanupTest c a = true) :
    noCleanup c a := by
  intro d hd
  simpa [noCleanupTest, hd] using h

/-- A client adds two items; the worker dequeues and runs the first and dequeues the second. -/
def twoItemsRun : List (Tid 1 Unit × Input 1 (Option (Act Unit ℕ))) :=
  let w : Tid 1 Unit := .inl (Fin.last 0)
  let d : Tid 1 Unit := .inr ()
  [does d (.add 7 ())] ++ List.replicate 5 (silent d) ++ [does d (.add 8 ())] ++
    List.replicate 6 (silent d) ++ List.replicate 5 (silent w) ++ [does w .ret] ++
    List.replicate 5 (silent w)

theorem chatPool_fifo_twoItemsRun : ∃ c : State 1 Unit Unit Unit ℕ,
    Reach (chatPool (anyCode 1 Unit)).lts noCleanup c ∧ c.mem.finished = [0] ∧
      c.mem.dequeued = [0, 1] ∧ RunOnce c.mem c.worker := by
  obtain ⟨c, hc, hp⟩ := reach_of_run (chatPool (anyCode 1 Unit)).lts noCleanup_of_test twoItemsRun
    (fun c => decide (c.mem.finished = [0]) && decide (c.mem.dequeued = [0, 1]))
    ⟨(), fun _ => ⟨0, none⟩, trivial, rfl⟩ (by decide)
  simp only [Bool.and_eq_true, decide_eq_true_eq] at hp
  exact ⟨c, hc, hp.1, hp.2, (chatPool_fifo hc).2.1⟩

end PoolStudy.ChatPool.Queue
