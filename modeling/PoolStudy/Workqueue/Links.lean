import PoolStudy.Workqueue.Jobs

/-! # Which lists the macros keep doubly linked

`LL_ADD` and `LL_REMOVE` are meant for doubly linked lists: an item has the links `prev` and `next`, and
`LL_REMOVE` repairs the links of both neighbours. But `LL_ADD` does not set the back link of the item that
was first before. So no item ever gets a back link, and as soon as there are two items they are linked
in one direction only.

`lists` builds a list by the macros and keeps beside it the items that should be on it. It is doubly linked
(`DoublyLinked`) in every run that adds items to the empty list only, and the first step of a run that adds
to another list breaks it (`doublyLinked_runs`). What the links are used for goes wrong later: in the runs
that remove the first item only, the list has the right items in the right order, and `LL_REMOVE` of any
other item leaves that item on the list and loses everything behind it (`remove_cuts`). The waiting jobs of
the work queue are such a list (`waitingJobs_built`). -/

namespace PoolStudy.Workqueue.Links

open PoolStudy.Lib.Transition PoolStudy.Lib.Threads PoolStudy.Lib.Chain
open PoolStudy.Workqueue.Model PoolStudy.Workqueue.Steps PoolStudy.Workqueue.Jobs

variable {α : Type}

/-! ### Lists built by the macros -/

/-- A list, and the items that should be on it, the first one first. -/
structure Built (α : Type) where
  list : LList α
  items : List α

/-- The uses of the macros. -/
inductive Op (α : Type)
  | add (item : α)
  | remove (item : α)

/-- **Lists built from `NULL`**, with any links in the items at first: a fresh item is added, a member is
removed. -/
def lists (α : Type) [DecidableEq α] : Lts (Built α) (Op α) where
  init s := s.list.list = none ∧ s.items = []
  next s
    | .add item => if item ∈ s.items then none else some ⟨s.list.llAdd item, item :: s.items⟩
    | .remove item => if item ∈ s.items then some ⟨s.list.llRemove item, s.items.erase item⟩ else none

/-- **The list is doubly linked and has the items `q`, in this order.** -/
structure DoublyLinked (l : LList α) (q : List α) : Prop where
  linked : Linked (nextOf l) l.list q
  back : ∀ a ∈ q, ∀ b ∈ q, (l.links a).next = some b ↔ (l.links b).prev = some a
  first : ∀ a, l.list = some a → (l.links a).prev = none

/-- Items are added to the empty list only. -/
def addsToEmpty (s : Built α) : Op α → Prop
  | .add _ => s.items = []
  | .remove _ => True

/-- Only the first item is removed. -/
def removesFirst (s : Built α) : Op α → Prop
  | .add _ => True
  | .remove item => s.items.head? = some item

theorem next_cases [DecidableEq α] {s s' : Built α} {a : Op α} (h : (lists α).next s a = some s') :
    (∃ item, a = .add item ∧ item ∉ s.items ∧ s' = ⟨s.list.llAdd item, item :: s.items⟩) ∨
    (∃ item, a = .remove item ∧ item ∈ s.items ∧ s' = ⟨s.list.llRemove item, s.items.erase item⟩) := by
  cases a with
  | add item =>
    simp only [lists] at h
    split_ifs at h with hm
    cases h
    exact Or.inl ⟨item, rfl, hm, rfl⟩
  | remove item =>
    simp only [lists] at h
    split_ifs at h with hm
    cases h
    exact Or.inr ⟨item, rfl, hm, rfl⟩

/-! ### One list -/

/-- The first item has no back link, for no item has one. -/
theorem waiting_first {l : LList α} {q : List α} (h : Waiting l q) {a : α} (ha : l.list = some a) :
    (l.links a).prev = none := by
  have hl := h.linked
  rw [ha] at hl
  obtain ⟨q', rfl, -⟩ := hl.uncons
  exact h.prev a List.mem_cons_self

/-- **Without back links a list is doubly linked as long as it has at most one item.** -/
theorem doublyLinked_iff {l : LList α} {q : List α} (h : Waiting l q) :
    DoublyLinked l q ↔ q.length ≤ 1 := by
  constructor
  · intro hd
    rcases q with _ | ⟨a, _ | ⟨b, q⟩⟩
    · exact Nat.zero_le 1
    · exact le_rfl
    · have hnext : (l.links a).next = some b := h.linked.2.1
      have hprev := (hd.back a (by simp) b (by simp)).mp hnext
      rw [h.prev b (by simp)] at hprev
      cases hprev
  · intro hlen
    refine ⟨h.linked, fun a ha b hb => ?_, fun a => waiting_first h⟩
    rcases q with _ | ⟨c, _ | ⟨d, q⟩⟩
    · cases ha
    · obtain rfl := List.mem_singleton.mp ha
      have hnext : (l.links a).next = none := h.linked.2
      simp [hnext, h.prev b hb]
    · simp at hlen

@[simp] theorem list_setPrev [DecidableEq α] (l : LList α) (x : α) (p : Option α) :
    (l.setPrev x p).list = l.list := rfl

@[simp] theorem list_setNext [DecidableEq α] (l : LList α) (x : α) (p : Option α) :
    (l.setNext x p).list = l.list := rfl

@[simp] theorem nextOf_setPrev [DecidableEq α] (l : LList α) (x : α) (p : Option α) :
    nextOf (l.setPrev x p) = nextOf l := by
  funext i
  by_cases hi : i = x
  · subst hi; simp [nextOf, LList.setPrev]
  · simp [nextOf, LList.setPrev, hi]

@[simp] theorem nextOf_setNext [DecidableEq α] (l : LList α) (x : α) (p : Option α) :
    nextOf (l.setNext x p) = Function.update (nextOf l) x p := by
  funext i
  by_cases hi : i = x
  · subst hi; simp [nextOf, LList.setNext]
  · simp [nextOf, LList.setNext, hi]

/-- `LL_REMOVE` of an item without a back link that is not the first: no `next` changes but its own. -/
theorem llRemove_later [DecidableEq α] {l : LList α} {x : α} (hl : l.list ≠ some x)
    (hx : (l.links x).prev = none) :
    (l.llRemove x).list = l.list ∧ nextOf (l.llRemove x) = Function.update (nextOf l) x none := by
  cases hn : (l.links x).next with
  | none => simp [LList.llRemove, hx, hn, hl]
  | some y => simp [LList.llRemove, hx, hn, hl]

/-- **A removed item that is not the first stays on the list, and ends it.** -/
theorem remove_cuts [DecidableEq α] {l : LList α} {q r : List α} {x : α} (h : Waiting l (q ++ x :: r))
    (hn : (q ++ x :: r).Nodup) (hq : q ≠ []) :
    Linked (nextOf (l.llRemove x)) (l.llRemove x).list (q ++ [x]) := by
  have hxq : x ∉ q := fun hm => (List.nodup_append.mp hn).2.2 x hm x List.mem_cons_self rfl
  have hl : l.list ≠ some x := by
    intro hl
    obtain ⟨y, q, rfl⟩ := List.exists_cons_of_ne_nil hq
    have hy : l.list = some y := h.linked.1
    obtain rfl : x = y := Option.some.inj (hl.symm.trans hy)
    exact hxq List.mem_cons_self
  obtain ⟨hlist, hnext⟩ := llRemove_later hl (h.prev x (by simp))
  rw [hlist, hnext]
  exact h.linked.cut hxq

/-- **`LL_REMOVE` yields the list without the item if and only if the item is the first.** -/
theorem remove_exact_iff [DecidableEq α] {l : LList α} {q : List α} {x : α} (h : Waiting l q)
    (hn : q.Nodup) (hx : x ∈ q) :
    Linked (nextOf (l.llRemove x)) (l.llRemove x).list (q.erase x) ↔ q.head? = some x := by
  constructor
  · intro hlinked
    obtain ⟨p, r, rfl⟩ := List.append_of_mem hx
    by_contra hhead
    have hp : p ≠ [] := by
      rintro rfl
      exact hhead rfl
    -- the removed item is on the list, but not among the remaining items
    have heq := hlinked.unique (remove_cuts h hn hp)
    have hmem : x ∈ (p ++ x :: r).erase x := heq ▸ List.mem_append_right p List.mem_cons_self
    exact hn.not_mem_erase hmem
  · intro hhead
    obtain ⟨q', rfl⟩ := List.head?_eq_some_iff.mp hhead
    obtain ⟨q'', hq, hw⟩ := h.remove h.linked.1 hn
    cases hq
    rw [List.erase_cons_head]
    exact hw.linked

/-! ### Runs -/

/-- **The invariant of the runs that remove the first item only.** -/
structure Inv (s : Built α) : Prop where
  waiting : Waiting s.list s.items
  nodup : s.items.Nodup

theorem Inv.next [DecidableEq α] {s s' : Built α} {a : Op α} (h : Inv s) (hok : removesFirst s a)
    (hs : (lists α).next s a = some s') : Inv s' := by
  rcases next_cases hs with ⟨x, rfl, hx, rfl⟩ | ⟨x, rfl, hx, rfl⟩
  · exact ⟨h.waiting.add hx, List.nodup_cons.mpr ⟨hx, h.nodup⟩⟩
  · obtain ⟨q, hq⟩ := List.head?_eq_some_iff.mp hok
    have hw := h.waiting
    have hn := h.nodup
    rw [hq] at hw hn
    obtain ⟨q', hq', hw⟩ := hw.remove hw.linked.1 hn
    cases hq'
    refine ⟨?_, h.nodup.erase x⟩
    simpa only [hq, List.erase_cons_head] using hw

theorem inv_reach [DecidableEq α] {s : Built α} (h : Reach (lists α) removesFirst s) : Inv s := by
  refine h.induct ?_ fun s a s' _ hi hok hs => hi.next hok hs
  rintro ⟨l, q⟩ ⟨hl, rfl⟩
  exact ⟨⟨hl, fun j hj => by cases hj⟩, List.nodup_nil⟩

/-- With at most one item on the list, a removal is one of the first item. -/
theorem removesFirst_of_length {s : Built α} {x : α} (hlen : s.items.length ≤ 1) (hx : x ∈ s.items) :
    removesFirst s (.remove x) := by
  obtain ⟨l, _ | ⟨y, _ | ⟨z, q⟩⟩⟩ := s
  · cases hx
  · obtain rfl := List.mem_singleton.mp hx
    rfl
  · simp at hlen

theorem reach_single [DecidableEq α] {s : Built α} (h : Reach (lists α) addsToEmpty s) :
    Reach (lists α) removesFirst s ∧ s.items.length ≤ 1 := by
  refine h.induct (I := fun s => Reach (lists α) removesFirst s ∧ s.items.length ≤ 1) ?_ ?_
  · rintro s ⟨hl, hq⟩
    exact ⟨.init ⟨hl, hq⟩, by simp [hq]⟩
  · rintro s a s' _ ⟨hr, hlen⟩ hok hs
    rcases next_cases hs with ⟨x, rfl, hx, rfl⟩ | ⟨x, rfl, hx, rfl⟩
    · have hempty : s.items = [] := hok
      exact ⟨hr.next (a := .add x) trivial hs, by simp [hempty]⟩
    · exact ⟨hr.next (removesFirst_of_length hlen hx) hs, (List.length_erase_le).trans hlen⟩

theorem doublyLinked_of_reach [DecidableEq α] {s : Built α} (h : Reach (lists α) addsToEmpty s) :
    DoublyLinked s.list s.items := by
  obtain ⟨hr, hlen⟩ := reach_single h
  exact (doublyLinked_iff (inv_reach hr).waiting).mpr hlen

/-- **When the macros keep a doubly linked list.** A run that adds items to the empty list only has a doubly
linked list with the right items in every state, and the next step of such a run keeps it so if and only if it
adds no item to a list that is not empty. Where items are added freely and only first items were removed, the
list has the right items in the right order and no back link at its head, and `LL_REMOVE` of a member yields
the list without it if and only if the member is the first. -/
theorem doublyLinked_runs (α : Type) [DecidableEq α] :
    (∀ s, Reach (lists α) addsToEmpty s → DoublyLinked s.list s.items) ∧
    (∀ s, Reach (lists α) addsToEmpty s → ∀ a s', (lists α).next s a = some s' →
      (DoublyLinked s'.list s'.items ↔ addsToEmpty s a)) ∧
    (∀ s, Reach (lists α) removesFirst s → Linked (nextOf s.list) s.list.list s.items ∧
      (∀ a, s.list.list = some a → (s.list.links a).prev = none) ∧
      ∀ x ∈ s.items, Linked (nextOf (s.list.llRemove x)) (s.list.llRemove x).list (s.items.erase x) ↔
        s.items.head? = some x) := by
  refine ⟨fun s h => doublyLinked_of_reach h, fun s h a s' hs => ⟨fun hd => ?_, fun hok => ?_⟩,
    fun s h => ?_⟩
  · rcases next_cases hs with ⟨x, rfl, hx, rfl⟩ | ⟨x, rfl, hx, rfl⟩
    · have hi := (inv_reach (reach_single h).1).next (a := .add x) trivial hs
      have hlen := (doublyLinked_iff hi.waiting).mp hd
      exact List.length_eq_zero_iff.mp (by simpa using hlen)
    · trivial
  · exact doublyLinked_of_reach (h.next hok hs)
  · have hi := inv_reach h
    exact ⟨hi.waiting.linked, fun a => waiting_first hi.waiting,
      fun x hx => remove_exact_iff hi.waiting hi.nodup hx⟩

/-- The empty list, no links set. -/
def emptyList : Built ℕ := ⟨⟨fun _ => ⟨none, none⟩, none⟩, []⟩

/-- The state after adding the items 1, 2 and 3. -/
def threeItems : Built ℕ :=
  ⟨((emptyList.list.llAdd 1).llAdd 2).llAdd 3, [3, 2, 1]⟩

theorem reach_threeItems : Reach (lists ℕ) removesFirst threeItems := by
  have h0 : Reach (lists ℕ) removesFirst emptyList := .init ⟨rfl, rfl⟩
  have h1 := h0.next (show removesFirst _ (.add 1) from trivial) rfl
  have h2 := h1.next (show removesFirst _ (.add 2) from trivial) rfl
  exact h2.next (show removesFirst _ (.add 3) from trivial) rfl

/-- **The removed item stays and another is lost**: after adding 1, 2 and 3, the item 2 behind 3 has no back
link, and `LL_REMOVE` of 2 leaves the items 3 and 2 on the list, where 3 and 1 should be. -/
theorem removed_stays_threeItems :
    Reach (lists ℕ) anyStep threeItems ∧ ¬ DoublyLinked threeItems.list threeItems.items ∧
    ∃ s, (lists ℕ).next threeItems (.remove 2) = some s ∧ s.items = [3, 1] ∧
      Linked (nextOf s.list) s.list.list [3, 2] ∧ ¬ DoublyLinked s.list s.items := by
  have hcut : Linked (nextOf (threeItems.list.llRemove 2)) (threeItems.list.llRemove 2).list [3, 2] := by
    simp only [Linked]
    decide
  refine ⟨reach_threeItems.mono fun _ _ _ => trivial, fun hd => ?_, _, rfl, rfl, hcut, fun hd => ?_⟩
  · have hback := (hd.back 3 (by decide) 2 (by decide)).mp (by decide)
    revert hback
    decide
  · have heq : threeItems.items.erase 2 = [3, 2] := hd.linked.unique hcut
    revert heq
    decide

/-- A list with one item is doubly linked, and of three items the first can be removed. -/
theorem doublyLinked_runs_threeItems : DoublyLinked (emptyList.list.llAdd 1) [1] ∧
    Linked (nextOf (threeItems.list.llRemove 3)) (threeItems.list.llRemove 3).list [2, 1] := by
  obtain ⟨h1, -, h3⟩ := doublyLinked_runs ℕ
  have h0 : Reach (lists ℕ) addsToEmpty emptyList := .init ⟨rfl, rfl⟩
  have hone : Reach (lists ℕ) addsToEmpty ⟨emptyList.list.llAdd 1, [1]⟩ :=
    h0.next (show addsToEmpty _ (.add 1) from rfl) rfl
  obtain ⟨-, -, hremove⟩ := h3 threeItems reach_threeItems
  exact ⟨h1 _ hone, (hremove 3 (by decide)).mpr rfl⟩

/-! ### The waiting jobs -/

variable {n : ℕ} {J : Type} [DecidableEq J]

/-- The list is built by the macros, and only first items were removed. -/
def BuiltFirst (l : LList J) : Prop := ∃ q, Reach (lists J) removesFirst ⟨l, q⟩

theorem BuiltFirst.add {l : LList J} {q : List J} {job : J} (h : BuiltFirst l) (hq : Waiting l q)
    (hj : job ∉ q) : BuiltFirst (l.llAdd job) := by
  obtain ⟨q', hr⟩ := h
  obtain rfl : q' = q := (inv_reach hr).waiting.linked.unique hq.linked
  exact ⟨job :: q', hr.next (a := .add job) trivial (if_neg hj)⟩

theorem BuiltFirst.take {l : LList J} {job : J} (h : BuiltFirst l) (hl : l.list = some job) :
    BuiltFirst (l.llRemove job) := by
  obtain ⟨q, hr⟩ := h
  have hlinked : Linked (nextOf l) l.list q := (inv_reach hr).waiting.linked
  rw [hl] at hlinked
  obtain ⟨q, rfl, -⟩ := hlinked.uncons
  exact ⟨_, hr.next (a := .remove job) rfl (if_pos List.mem_cons_self)⟩

theorem callStep_builtFirst {self : Tid n} {x : Input n J} {m m' : Mem n J} {c c' : Call n J}
    (hs : CallStep self x m c m' c') (h : BuiltFirst m.queue.waitingJobs) (hi : JobsInv m)
    (hc : ¬ shutting c) (hf : ∀ job, c = .addIn job → job ∉ m.added) :
    BuiltFirst m'.queue.waitingJobs := by
  cases hs with
  | addIn job hw =>
    obtain ⟨q, hq, hperm⟩ := hi.jobs
    exact h.add hq fun hm => hf job rfl (hperm.mem_iff.mp (List.mem_append_right _ hm))
  | shutIn => exact absurd trivial hc
  | _ => exact h

theorem workerStep_builtFirst {i : Fin n} {x : Input n J} {m m' : Mem n J} {w w' : Worker n J}
    (hs : WorkerStep i x m w m' w') (h : BuiltFirst m.queue.waitingJobs) (hi : JobsInv m)
    (hc : ¬ shutting (workerCall w)) (hf : ∀ job, workerCall w = .addIn job → job ∉ m.added) :
    BuiltFirst m'.queue.waitingJobs := by
  cases hs with
  | take hl => exact h.take hl
  | call job hs => exact callStep_builtFirst hs h hi hc hf
  | _ => exact h

/-- **The work queue uses the macros where they work.** As long as the queue is not shut down, its list of
waiting jobs is built by adding fresh jobs and removing first ones. -/
theorem waitingJobs_built [NeZero n] {c : State n J} (h : Reach (workqueue n J).lts freshJobs c) :
    BuiltFirst c.mem.queue.waitingJobs := by
  refine Program.invariant (I := fun c => BuiltFirst c.mem.queue.waitingJobs) ?_ ?_ ?_ h
  · rintro _ ⟨links, rfl⟩
    exact ⟨[], .init ⟨rfl, rfl⟩⟩
  · intro c i x r hr hb hok hs
    have hi := Jobs.inv_reach hr
    exact workerStep_builtFirst (workerStep_cases hs) hb hi.jobs (hi.noShutdown (.inl i)) hok.2
  · intro c k x r hr hb hok hs
    have hi := Jobs.inv_reach hr
    exact callStep_builtFirst (callStep_cases hs) hb hi.jobs (hi.noShutdown (.inr k)) hok.2

end PoolStudy.Workqueue.Links
