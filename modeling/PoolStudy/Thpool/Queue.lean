import PoolStudy.Thpool.Teardown
import PoolStudy.Lib.Chain

/-! # The linked job queue is a FIFO

`rwmutex` guards the queue. Between two operations `front` starts the chain of the jobs that were pushed
and not pulled, `rear` is its last node and `len` its length (`Rest`), which is too small for the `int` to
overflow as every node of the chain has had its memory (`Shape.fits`); inside an operation the owner's
position says how far the pointers have got (`AtPush`, `AtPull`), and `Shape` ties the chain to the
history: the jobs pulled, followed by the chain, are the jobs pushed. Every statement of `jobqueue_push`
and `jobqueue_pull` leads from the shape of its position to that of the next (`pushStep_shape`,
`pullStep_shape`); everything else leaves the shape alone (`Shape.quiet`).

A node belongs to the thread that is about to push it, and to one only (`NodeInv`), so no node is pushed
twice. -/

namespace PoolStudy.Thpool.Queue

open PoolStudy.Lib.Transition PoolStudy.Lib.Threads PoolStudy.Lib.IntCounter PoolStudy.Lib.Chain
open PoolStudy.Thpool.Model PoolStudy.Thpool.Steps PoolStudy.Thpool.Teardown

variable {n : ℕ} {κ F A : Type}

/-! ### Shapes -/

/-- The `prev` links. -/
def prevOf (p : Pool n κ F A) (j : Ptr) : Option Ptr := (p.heap j).prev

/-- **The queue at rest**: a chain from `front` to `rear` of length `len`. -/
structure Rest (p : Pool n κ F A) (q : List Ptr) : Prop where
  chain : Linked (prevOf p) p.front q
  rear : p.rear = q.getLast?
  len : p.len = q.length

/-- The queue `q` while the node `j` is pushed. -/
def AtPush (p : Pool n κ F A) (q : List Ptr) (j : Ptr) : Push → Prop
  | .prev => Rest p q
  | .switch => Rest p q ∧ prevOf p j = none
  | .front => q = [] ∧ p.len = 0 ∧ prevOf p j = none
  | .rear => q = [] ∧ p.len = 0 ∧ prevOf p j = none ∧ p.front = some j
  | .rearPrev => Rest p q ∧ q ≠ [] ∧ prevOf p j = none
  | .rearNew => Linked (prevOf p) p.front (q ++ [j]) ∧ p.len = q.length
  | .inc => Linked (prevOf p) p.front (q ++ [j]) ∧ p.rear = some j ∧ p.len = q.length
  | .postLock | .post | .ret => Rest p q

/-- The queue `q` while a job is pulled; `job_p` is the first of `q` until `len` is lowered. -/
def AtPull (p : Pool n κ F A) (q : List Ptr) : Pull → Prop
  | .front => Rest p q
  | .switch j => Rest p q ∧ j = p.front
  | .front1 j => p.len = 1 ∧ ∃ r, j = some r ∧ q = [r]
  | .rear1 j => p.len = 1 ∧ p.front = none ∧ ∃ r, j = some r ∧ q = [r]
  | .frontPrev j => Rest p q ∧ ∃ r l, j = some r ∧ q = r :: l ∧ l ≠ []
  | .dec j => ∃ r l, j = some r ∧ q = r :: l ∧ Linked (prevOf p) p.front l ∧ p.rear = l.getLast? ∧
      p.len = l.length + 1
  | .ifLen _ | .postLock _ | .post _ | .ret _ => Rest p q

/-- Where a thread is in a section of `rwmutex`. -/
inductive Access
  | out
  | push (j : Ptr) (s : Push)
  | pull (q : Pull)

def At (p : Pool n κ F A) (q : List Ptr) : Access → Prop
  | .out => Rest p q
  | .push j s => j < p.next ∧ AtPush p q j s
  | .pull s => AtPull p q s

/-- **The queue and its history**, with the owner of `rwmutex` at `a`. -/
structure Shape (p : Pool n κ F A) (a : Access) : Prop where
  nodup : p.pushed.Nodup
  bound : ∀ j ∈ p.pushed, j < p.next
  fits : Fits p.next p.pulled.length
  queue : ∃ q, p.pushed = p.pulled ++ q ∧ At p q a

/-- A step that leaves the queue, its nodes and its history alone. -/
structure Quiet (p p' : Pool n κ F A) : Prop where
  rwmutex : p'.rwmutex = p.rwmutex
  front : p'.front = p.front
  rear : p'.rear = p.rear
  len : p'.len = p.len
  pushed : p'.pushed = p.pushed
  pulled : p'.pulled = p.pulled
  next : p.next ≤ p'.next
  fits : Fits p.next p.pulled.length → Fits p'.next p'.pulled.length
  prev : ∀ j < p.next, prevOf p' j = prevOf p j

theorem Quiet.of_same {p p' : Pool n κ F A} (h1 : p'.rwmutex = p.rwmutex) (h2 : p'.front = p.front)
    (h3 : p'.rear = p.rear) (h4 : p'.len = p.len) (h5 : p'.pushed = p.pushed)
    (h6 : p'.pulled = p.pulled) (h7 : p'.next = p.next) (h8 : p'.heap = p.heap) : Quiet p p' :=
  ⟨h1, h2, h3, h4, h5, h6, h7.ge, fun h => by rw [h6, h7]; exact h, fun j _ => by rw [prevOf, h8, prevOf]⟩

theorem Rest.quiet {p p' : Pool n κ F A} (hq : Quiet p p') {q : List Ptr} (hb : ∀ j ∈ q, j < p.next)
    (h : Rest p q) : Rest p' q := by
  refine ⟨?_, by rw [hq.rear, h.rear], by rw [hq.len, h.len]⟩
  rw [hq.front]
  exact h.chain.congr fun j hj => hq.prev j (hb j hj)

theorem At.quiet {p p' : Pool n κ F A} (hq : Quiet p p') {q : List Ptr} (hb : ∀ j ∈ q, j < p.next) :
    ∀ a, At p q a → At p' q a
  | .out, h => Rest.quiet hq hb h
  | .push j s, ⟨hj, h⟩ => by
    refine ⟨lt_of_lt_of_le hj hq.next, ?_⟩
    -- with the new node the chain is still below `next`
    have hb' : ∀ i ∈ q ++ [j], i < p.next := by
      intro i hi
      rcases List.mem_append.mp hi with hi | hi
      · exact hb i hi
      · rw [List.mem_singleton.mp hi]; exact hj
    cases s with
    | prev => exact Rest.quiet hq hb h
    | switch => exact ⟨Rest.quiet hq hb h.1, by rw [hq.prev j hj, h.2]⟩
    | front => exact ⟨h.1, by rw [hq.len, h.2.1], by rw [hq.prev j hj, h.2.2]⟩
    | rear => exact ⟨h.1, by rw [hq.len, h.2.1], by rw [hq.prev j hj, h.2.2.1], by rw [hq.front, h.2.2.2]⟩
    | rearPrev => exact ⟨Rest.quiet hq hb h.1, h.2.1, by rw [hq.prev j hj, h.2.2]⟩
    | rearNew =>
      refine ⟨?_, by rw [hq.len, h.2]⟩
      rw [hq.front]
      exact h.1.congr fun i hi => hq.prev i (hb' i hi)
    | inc =>
      refine ⟨?_, by rw [hq.rear, h.2.1], by rw [hq.len, h.2.2]⟩
      rw [hq.front]
      exact h.1.congr fun i hi => hq.prev i (hb' i hi)
    | _ => exact Rest.quiet hq hb h
  | .pull s, h => by
    cases s with
    | switch j => exact ⟨Rest.quiet hq hb h.1, by rw [hq.front, h.2]⟩
    | front1 j => exact ⟨by rw [hq.len, h.1], h.2⟩
    | rear1 j => exact ⟨by rw [hq.len, h.1], by rw [hq.front, h.2.1], h.2.2⟩
    | frontPrev j => exact ⟨Rest.quiet hq hb h.1, h.2⟩
    | dec j =>
      obtain ⟨r, l, rfl, rfl, hl, hr, hlen⟩ := h
      refine ⟨r, l, rfl, rfl, ?_, by rw [hq.rear, hr], by rw [hq.len, hlen]⟩
      rw [hq.front]
      exact hl.congr fun i hi => hq.prev i (hb i (List.mem_cons_of_mem r hi))
    | _ => exact Rest.quiet hq hb h

/-- **Everything else leaves the shape alone.** -/
theorem Shape.quiet {p p' : Pool n κ F A} (hq : Quiet p p') (a : Access) (h : Shape p a) :
    Shape p' a := by
  obtain ⟨q, hh, hat⟩ := h.queue
  refine ⟨by rw [hq.pushed]; exact h.nodup, fun j hj => ?_, hq.fits h.fits, q,
    by rw [hq.pushed, hq.pulled, hh], ?_⟩
  · rw [hq.pushed] at hj
    exact lt_of_lt_of_le (h.bound j hj) hq.next
  · exact At.quiet hq (fun j hj => h.bound j (by rw [hh]; exact List.mem_append_right _ hj)) a hat

/-! ### The statements of the two operations -/

theorem prevOf_update (p : Pool n κ F A) (r : Ptr) (a : Option Ptr) :
    prevOf { p with heap := Function.update p.heap r { p.heap r with prev := a } } =
      Function.update (prevOf p) r a := by
  funext j
  by_cases hj : j = r
  · subst hj; simp [prevOf]
  · simp [prevOf, hj]

/-- `len` is `0` exactly for the empty queue. -/
theorem Rest.nil_iff {p : Pool n κ F A} {q : List Ptr} (h : Rest p q) : p.len = 0 ↔ q = [] := by
  rw [h.len, ← List.length_eq_zero_iff]
  omega

/-- `len` is the length of the queue at every moment. -/
theorem at_len {p : Pool n κ F A} {q : List Ptr} {a : Access} (h : At p q a) : p.len = q.length := by
  cases a with
  | out => exact Rest.len h
  | push j s =>
    obtain ⟨-, h⟩ := h
    cases s with
    | switch => exact h.1.len
    | front => obtain ⟨rfl, hl, -⟩ := h; simpa using hl
    | rear => obtain ⟨rfl, hl, -⟩ := h; simpa using hl
    | rearPrev => exact h.1.len
    | rearNew => exact h.2
    | inc => exact h.2.2
    | _ => exact Rest.len h
  | pull s =>
    cases s with
    | switch j => exact h.1.len
    | front1 j => obtain ⟨hl, r, -, rfl⟩ := h; simpa using hl
    | rear1 j => obtain ⟨hl, -, r, -, rfl⟩ := h; simpa using hl
    | frontPrev j => exact h.1.len
    | dec j => obtain ⟨r, l, -, rfl, -, -, hl⟩ := h; simpa using hl
    | _ => exact Rest.len h

/-- **A statement of `jobqueue_push`.** The node is new until `len` is raised. -/
theorem pushStep_shape {self : Tid n κ} {x : Input n F A} {p p' : Pool n κ F A} {j : Ptr} {s s' : Push}
    (h : PushStep self x p j s p' s') (hj : s ∈ [.prev, .rearPrev, .inc] → j ∉ p.pushed)
    (hs : Shape p (.push j s)) : Shape p' (.push j s') := by
  obtain ⟨hnd, hbd, hft, q, hh, hlt, hat⟩ := hs
  have hnq : s ∈ [.prev, .rearPrev, .inc] → j ∉ q := fun hm hq =>
    hj hm (by rw [hh]; exact List.mem_append_right _ hq)
  cases h with
  | prev =>
    refine ⟨hnd, hbd, hft, q, hh, hlt, ⟨?_, hat.rear, hat.len⟩, by simp [prevOf]⟩
    rw [prevOf_update]
    refine hat.chain.congr fun i hi => Function.update_of_ne ?_ _ _
    rintro rfl
    exact hnq (by simp) hi
  | switch0 hl =>
    exact ⟨hnd, hbd, hft, q, hh, hlt, hat.1.nil_iff.mp hl, hl, hat.2⟩
  | switchD hl =>
    exact ⟨hnd, hbd, hft, q, hh, hlt, hat.1, fun hq => hl (hat.1.nil_iff.mpr hq), hat.2⟩
  | front => exact ⟨hnd, hbd, hft, q, hh, hlt, hat.1, hat.2.1, hat.2.2, rfl⟩
  | rear =>
    obtain ⟨rfl, hl, hp, hf⟩ := hat
    exact ⟨hnd, hbd, hft, [], hh, hlt, ⟨hf, hp⟩, rfl, hl⟩
  | rearPrev r hr =>
    refine ⟨hnd, hbd, hft, q, hh, hlt, ?_, hat.1.len⟩
    rw [prevOf_update]
    have hqn : q.Nodup := by rw [hh] at hnd; exact (List.nodup_append.mp hnd).2.1
    exact hat.1.chain.snoc (by rw [← hat.1.rear, hr]) hqn (hnq (by simp)) hat.2.2
  | rearNew => exact ⟨hnd, hbd, hft, q, hh, hlt, hat.1, rfl, hat.2⟩
  | inc =>
    have hnd' : (p.pushed ++ [j]).Nodup := List.nodup_append.mpr ⟨hnd, List.nodup_singleton j, by
      rintro a ha b hb rfl
      rw [List.mem_singleton] at hb
      exact hj (by simp) (hb ▸ ha)⟩
    have hbd' : ∀ i ∈ p.pushed ++ [j], i < p.next := by
      intro i hi
      rcases List.mem_append.mp hi with hi | hi
      · exact hbd i hi
      · rw [List.mem_singleton.mp hi]; exact hlt
    have hh' : p.pushed ++ [j] = p.pulled ++ (q ++ [j]) := by rw [hh, List.append_assoc]
    refine ⟨hnd', hbd', hft, q ++ [j], hh', hlt, hat.1, by simp [hat.2.1], ?_⟩
    show wrap (p.len + 1) = (q ++ [j]).length
    rw [hat.2.2]
    exact wrap_raise hft (hh' ▸ hnd') (hh' ▸ hbd')
  | postLock _ => exact ⟨hnd, hbd, hft, q, hh, hlt, hat.chain, hat.rear, hat.len⟩
  | post ws _ => exact ⟨hnd, hbd, hft, q, hh, hlt, hat.chain, hat.rear, hat.len⟩

/-- **A statement of `jobqueue_pull`.** -/
theorem pullStep_shape {self : Tid n κ} {x : Input n F A} {p p' : Pool n κ F A} {s s' : Pull}
    (h : PullStep self x p s p' s') (hs : Shape p (.pull s)) : Shape p' (.pull s') := by
  obtain ⟨hnd, hbd, hft, q, hh, hat⟩ := hs
  cases h with
  | front => exact ⟨hnd, hbd, hft, q, hh, hat, rfl⟩
  | switch0 j hl => exact ⟨hnd, hbd, hft, q, hh, hat.1⟩
  | switch1 j hl =>
    obtain ⟨hr, hj⟩ := hat
    have hlen : q.length = 1 := by have := hr.len; omega
    obtain ⟨r, rfl⟩ := List.length_eq_one_iff.mp hlen
    exact ⟨hnd, hbd, hft, [r], hh, hl, r, by rw [hj, hr.chain.1], rfl⟩
  | switchD j h0 h1 =>
    obtain ⟨hr, hj⟩ := hat
    have hlen := hr.len
    cases q with
    | nil => exact absurd (hr.nil_iff.mpr rfl) h0
    | cons r l =>
      refine ⟨hnd, hbd, hft, r :: l, hh, hr, r, l, by rw [hj, hr.chain.1], rfl, ?_⟩
      rintro rfl
      exact h1 (by simpa using hlen)
  | front1 j => exact ⟨hnd, hbd, hft, q, hh, hat.1, rfl, hat.2⟩
  | rear1 j =>
    obtain ⟨hl, hf, r, rfl, rfl⟩ := hat
    exact ⟨hnd, hbd, hft, [r], hh, r, [], rfl, rfl, hf, rfl, by simpa using hl⟩
  | frontPrev r =>
    obtain ⟨hr, r', l, hj, rfl, hl⟩ := hat
    cases hj
    refine ⟨hnd, hbd, hft, r :: l, hh, r, l, rfl, rfl, hr.chain.2, ?_, by simpa using hr.len⟩
    have hlast : (r :: l).getLast? = l.getLast? := by
      cases l with
      | nil => exact absurd rfl hl
      | cons z l => exact List.getLast?_cons_cons
    rw [← hlast]
    exact hr.rear
  | dec j =>
    obtain ⟨r, l, rfl, rfl, hl, hr, hlen⟩ := hat
    refine ⟨hnd, hbd, hft.mono (by simp), l, by simp [hh], hl, hr, ?_⟩
    show wrap (p.len - 1) = l.length
    have hsize : p.len = (r :: l).length := by simp [hlen]
    rw [hsize]
    exact wrap_lower hft (hh ▸ hnd) (hh ▸ hbd)
  | ifLen j _ => exact ⟨hnd, hbd, hft, q, hh, hat⟩
  | ifNot j _ => exact ⟨hnd, hbd, hft, q, hh, hat⟩
  | postLock j _ => exact ⟨hnd, hbd, hft, q, hh, hat.chain, hat.rear, hat.len⟩
  | post j ws _ => exact ⟨hnd, hbd, hft, q, hh, hat.chain, hat.rear, hat.len⟩

theorem pullStep_same {self : Tid n κ} {x : Input n F A} {p p' : Pool n κ F A} {s s' : Pull}
    (h : PullStep self x p s p' s') :
    p'.rwmutex = p.rwmutex ∧ p'.pushed = p.pushed ∧ p'.next = p.next := by
  cases h <;> exact ⟨rfl, rfl, rfl⟩

/-! ### The threads and the queue -/

/-- `jobqueue_push` has not yet raised `len`. -/
def Push.before : Push → Bool
  | .postLock | .post | .ret => false
  | _ => true

/-- The section of a `thpool_add_work`. -/
def addAccess : Option Add → Access
  | some (.push j s) => .push j s
  | _ => .out

/-- The node a `thpool_add_work` is about to push. -/
def addNode : Option Add → Option Ptr
  | none => none
  | some (.lock j) => some j
  | some (.push j s) => if Push.before s then some j else none

def posAccess : Pos F A → Access
  | .pull q => .pull q
  | .run _ _ _ c => addAccess c
  | _ => .out

def callAccess : Call → Access
  | .add c => addAccess (some c)
  | _ => .out

def posNode : Pos F A → Option Ptr
  | .run _ _ _ c => addNode c
  | _ => none

def callNode : Call → Option Ptr
  | .add c => addNode (some c)
  | _ => none

/-- **The queue behind its mutex**, for the sections `acc` of the threads and the nodes `nd` they are
about to push. Every node made has been pushed or is about to be. -/
structure QueueInv (p : Pool n κ F A) (acc : Tid n κ → Access) (nd : Tid n κ → Option Ptr) : Prop where
  guard : Guarded p.rwmutex .out acc (Shape p)
  fresh : ∀ t j, nd t = some j → j < p.next ∧ j ∉ p.pushed
  inj : ∀ t t' j, nd t = some j → nd t' = some j → t = t'
  all : ∀ j < p.next, j ∈ p.pushed ∨ ∃ t, nd t = some j

section QueueInv

variable [DecidableEq κ] {p p' : Pool n κ F A} {acc : Tid n κ → Access} {nd : Tid n κ → Option Ptr}
  {t : Tid n κ}

/-- A step that leaves the queue alone. -/
theorem QueueInv.quiet (h : QueueInv p acc nd) (hq : Quiet p p') (hn : p'.next = p.next) {a : Access}
    {b : Option Ptr} (ha : a = acc t) (hb : b = nd t) :
    QueueInv p' (Function.update acc t a) (Function.update nd t b) := by
  rw [hb, Function.update_eq_self]
  refine ⟨?_, ?_, h.inj, ?_⟩
  · rw [hq.rwmutex]
    exact h.guard.stay ha (Shape.quiet hq)
  · rw [hn, hq.pushed]; exact h.fresh
  · rw [hn, hq.pushed]; exact h.all

/-- A step in a section that pushes nothing. -/
theorem QueueInv.inside (h : QueueInv p acc nd) {a : Access} {b : Option Ptr}
    (hfree : acc t = .out → p.rwmutex = none)
    (hl : (a = .out ∧ p'.rwmutex = none) ∨ (a ≠ .out ∧ p'.rwmutex = some t))
    (hs : Shape p (acc t) → Shape p' a) (hb : b = nd t) (hp : p'.pushed = p.pushed)
    (hn : p'.next = p.next) : QueueInv p' (Function.update acc t a) (Function.update nd t b) := by
  rw [hb, Function.update_eq_self]
  refine ⟨h.guard.act hfree hl hs, ?_, h.inj, ?_⟩
  · rw [hn, hp]; exact h.fresh
  · rw [hn, hp]; exact h.all

/-- A new node. -/
theorem QueueInv.malloc (h : QueueInv p acc nd) (f : F) (a : A) (hr : p.hasRoom) (ha : acc t = .out)
    (hb : nd t = none) :
    QueueInv (mallocPool p f a) (Function.update acc t .out) (Function.update nd t (some p.next)) := by
  have hq : Quiet p (mallocPool p f a) := by
    refine ⟨rfl, rfl, rfl, rfl, rfl, rfl, Nat.le_succ _, fun _ => Fits.of_hasRoom hr, fun j hj => ?_⟩
    have hne : j ≠ p.next := Nat.ne_of_lt hj
    simp [prevOf, mallocPool, hne]
  -- the nodes of the others are older
  have hold : ∀ s j, Function.update nd t (some p.next) s = some j →
      (s = t ∧ j = p.next) ∨ (s ≠ t ∧ nd s = some j) := by
    intro s j hj
    by_cases hs : s = t
    · subst hs
      rw [Function.update_self] at hj
      exact Or.inl ⟨rfl, (Option.some.inj hj).symm⟩
    · rw [Function.update_of_ne hs] at hj
      exact Or.inr ⟨hs, hj⟩
  refine ⟨h.guard.stay ha.symm (Shape.quiet hq), fun s j hj => ?_, fun s s' j hj hj' => ?_,
    fun j hj => ?_⟩
  · rcases hold s j hj with ⟨-, rfl⟩ | ⟨-, hj⟩
    · have hshape := h.guard.data.bound
      exact ⟨Nat.lt_succ_self _, fun hm => absurd (hshape _ hm) (lt_irrefl _)⟩
    · exact ⟨Nat.lt_succ_of_lt (h.fresh s j hj).1, (h.fresh s j hj).2⟩
  · rcases hold s j hj with ⟨hs, hn⟩ | ⟨-, hj⟩
    · rcases hold s' j hj' with ⟨hs', -⟩ | ⟨-, hj'⟩
      · rw [hs, hs']
      · exact absurd (h.fresh s' j hj').1 hn.not_lt
    · rcases hold s' j hj' with ⟨-, hn⟩ | ⟨-, hj'⟩
      · exact absurd (h.fresh s j hj).1 hn.not_lt
      · exact h.inj s s' j hj hj'
  · rcases Nat.lt_succ_iff_lt_or_eq.mp hj with hj | rfl
    · rcases h.all j hj with hm | ⟨s, hs⟩
      · exact Or.inl hm
      · refine Or.inr ⟨s, ?_⟩
        have hst : s ≠ t := by rintro rfl; rw [hb] at hs; cases hs
        rw [Function.update_of_ne hst, hs]
    · exact Or.inr ⟨t, Function.update_self _ _ _⟩

/-- The statement that raises `len`. -/
theorem QueueInv.inc (h : QueueInv p acc nd) {x : Input n F A} {j : Ptr}
    (ha : acc t = .push j .inc) (hb : nd t = some j) :
    QueueInv { p with len := wrap (p.len + 1), pushed := p.pushed ++ [j] }
      (Function.update acc t (.push j .postLock)) (Function.update nd t none) := by
  have hold : ∀ s i, Function.update nd t none s = some i → s ≠ t ∧ nd s = some i := by
    intro s i hi
    by_cases hs : s = t
    · subst hs; rw [Function.update_self] at hi; cases hi
    · rw [Function.update_of_ne hs] at hi; exact ⟨hs, hi⟩
  have hlock := (h.guard.owned t).mp (by rw [ha]; simp)
  refine ⟨h.guard.act (fun ho => by rw [ha] at ho; cases ho) (Or.inr ⟨by simp, hlock⟩) fun hs => ?_,
    fun s i hi => ?_, fun s s' i hi hi' => h.inj s s' i (hold s i hi).2 (hold s' i hi').2,
    fun i hi => ?_⟩
  · rw [ha] at hs
    exact pushStep_shape (PushStep.inc : PushStep t x p j _ _ _) (fun _ => (h.fresh t j hb).2) hs
  · obtain ⟨hs, hi⟩ := hold s i hi
    refine ⟨(h.fresh s i hi).1, fun hm => ?_⟩
    rcases List.mem_append.mp hm with hm | hm
    · exact (h.fresh s i hi).2 hm
    · rw [List.mem_singleton.mp hm] at hi
      exact hs (h.inj s t j hi hb)
  · rcases h.all i hi with hm | ⟨s, hs⟩
    · exact Or.inl (List.mem_append_left _ hm)
    · by_cases hst : s = t
      · subst hst
        rw [hb] at hs
        exact Or.inl (by simp [Option.some.inj hs])
      · exact Or.inr ⟨s, by rw [Function.update_of_ne hst, hs]⟩

/-- **A step of `thpool_add_work`.** -/
theorem QueueInv.add (h : QueueInv p acc nd) {x : Input n F A} {c : Add} {c' : Option Add}
    (hs : AddStep t x p c p' c') (ha : acc t = addAccess (some c)) (hb : nd t = addNode (some c)) :
    QueueInv p' (Function.update acc t (addAccess c')) (Function.update nd t (addNode c')) := by
  cases hs with
  | lock j hl =>
    refine h.inside (fun _ => hl) (Or.inr ⟨by simp [addAccess], rfl⟩) (fun hsh => ?_) hb.symm rfl rfl
    obtain ⟨hnd, hbd, hft, q, hh, hat⟩ := hsh
    rw [ha] at hat
    exact ⟨hnd, hbd, hft, q, hh, (h.fresh t j hb).1, hat.chain, hat.rear, hat.len⟩
  | unlock j =>
    refine h.inside (fun ho => by rw [ha] at ho; cases ho) (Or.inl ⟨rfl, rfl⟩) (fun hsh => ?_) hb.symm
      rfl rfl
    obtain ⟨hnd, hbd, hft, q, hh, hat⟩ := hsh
    rw [ha] at hat
    exact ⟨hnd, hbd, hft, q, hh, hat.2.chain, hat.2.rear, hat.2.len⟩
  | @push j s s' _ hp =>
    have hlock := (h.guard.owned t).mp (by rw [ha]; simp [addAccess])
    have hsame : p'.rwmutex = p.rwmutex → p'.pushed = p.pushed → p'.next = p.next →
        addNode (some (.push j s')) = addNode (some (.push j s)) → _ :=
      fun h1 h2 h3 h4 => h.inside (t := t) (a := .push j s') (b := addNode (some (.push j s')))
        (fun ho => by rw [ha] at ho; cases ho) (Or.inr ⟨by simp, h1.trans hlock⟩)
        (fun hsh => pushStep_shape hp (fun hm => (h.fresh t j (by
          rw [hb]; rcases s <;> simp [addNode, Push.before] at hm ⊢)).2) (by rw [ha] at hsh; exact hsh))
        (h4.trans hb.symm) h2 h3
    cases hp with
    | inc => exact h.inc (x := x) ha hb
    | _ => exact hsame rfl rfl rfl rfl

/-- **A step of `thread_do`.** -/
theorem QueueInv.pos (h : QueueInv p acc nd) {i : Fin n} {x : Input n F A} {fl : Flags} {w w' : Pos F A}
    (hs : PosStep i x fl p w p' w') (ha : acc (.inl i) = posAccess w) (hb : nd (.inl i) = posNode w) :
    QueueInv p' (Function.update acc (.inl i) (posAccess w'))
      (Function.update nd (.inl i) (posNode w')) := by
  have hquiet : Quiet p p' → p'.next = p.next → posAccess w' = posAccess w → posNode w' = posNode w → _ :=
    fun hq hn h1 h2 => h.quiet hq hn (h1.trans ha.symm) (h2.trans hb.symm)
  cases hs with
  | countLock hw _ => cases hw <;> exact hquiet (.of_same rfl rfl rfl rfl rfl rfl rfl rfl) rfl rfl rfl
  | countUnlock hw => cases hw <;> exact hquiet (.of_same rfl rfl rfl rfl rfl rfl rfl rfl) rfl rfl rfl
  | silent hw => cases hw <;> exact hquiet (.of_same rfl rfl rfl rfl rfl rfl rfl rfl) rfl rfl rfl
  | semLock hw _ =>
    rcases hw with rfl | ⟨rfl, -⟩ <;>
      exact hquiet (.of_same rfl rfl rfl rfl rfl rfl rfl rfl) rfl rfl rfl
  | pullLock hl =>
    refine h.inside (fun _ => hl) (Or.inr ⟨by simp [posAccess], rfl⟩) (fun hsh => ?_) hb.symm rfl rfl
    rw [ha] at hsh
    obtain ⟨hnd, hbd, hft, q, hh, hat⟩ := hsh
    exact ⟨hnd, hbd, hft, q, hh, hat.chain, hat.rear, hat.len⟩
  | @pull q q' _ hp =>
    have hlock := (h.guard.owned _).mp (by rw [ha]; simp [posAccess])
    obtain ⟨h1, h2, h3⟩ := pullStep_same hp
    refine h.inside (fun ho => by rw [ha] at ho; cases ho)
      (Or.inr ⟨by simp [posAccess], h1.trans hlock⟩) (fun hsh => ?_) hb.symm h2 h3
    rw [ha] at hsh
    exact pullStep_shape hp hsh
  | pullUnlock j =>
    refine h.inside (fun ho => by rw [ha] at ho; cases ho) (Or.inl ⟨rfl, rfl⟩) (fun hsh => ?_) hb.symm
      rfl rfl
    rw [ha] at hsh
    obtain ⟨hnd, hbd, hft, q, hh, hat⟩ := hsh
    exact ⟨hnd, hbd, hft, q, hh, hat.chain, hat.rear, hat.len⟩
  | malloc j f a f' a' hr => exact h.malloc f' a' hr ha hb
  | add j f a hs => exact h.add hs ha hb
  | _ => exact hquiet (.of_same rfl rfl rfl rfl rfl rfl rfl rfl) rfl rfl rfl

/-- `jobqueue_clear` has seen `len = 0`. -/
def emptied : Destroy → Prop
  | .clearFront | .clearRear | .clearSem | .clearLen | .freeSem | .freeQueue | .freeThread _
  | .freeThreads | .freePool => True
  | _ => False

/-- **A step of `thpool_destroy`**, which finds `rwmutex` free behind its polling loops. -/
theorem QueueInv.destroy (h : QueueInv p acc nd) {x : Input n F A} {m m' : Mem n κ F A} {total : ℤ}
    {d : Destroy} {d' : Option Destroy} (hs : DestroyStep t x m total d m' d') (hm : m.pool = p)
    (hfree : polled d → p.rwmutex = none) (hempty : emptied d → p.len = 0) (ha : acc t = .out)
    (hb : nd t = none) :
    QueueInv m'.pool (Function.update acc t .out) (Function.update nd t none) ∧
      (emptied (d'.getD .freePool) → m'.pool.len = 0) := by
  subst hm
  have hquiet : Quiet m.pool m'.pool → m'.pool.next = m.pool.next → _ :=
    fun hq hn => h.quiet hq hn ha.symm hb.symm
  -- the pointers of an empty queue are null already
  have hnull : m.pool.len = 0 → Shape m.pool .out → m.pool.front = none ∧ m.pool.rear = none ∧
      m.pool.pushed = m.pool.pulled := by
    rintro hl ⟨-, -, -, q, hh, hat⟩
    obtain rfl := hat.nil_iff.mp hl
    exact ⟨hat.chain, hat.rear, by simpa using hh⟩
  have hkeep : polled d → m.pool.len = 0 → m'.pool.rwmutex = none → m'.pool.front = none →
      m'.pool.rear = none → m'.pool.len = 0 → m'.pool.pushed = m.pool.pushed →
      m'.pool.pulled = m.pool.pulled → m'.pool.next = m.pool.next →
      QueueInv m'.pool (Function.update acc t .out) (Function.update nd t none) := by
    intro hp hl h1 h2 h3 h4 h5 h6 h7
    refine h.inside (fun _ => hfree hp) (Or.inl ⟨rfl, h1⟩) (fun hsh => ?_) hb.symm h5 h7
    rw [ha] at hsh
    obtain ⟨-, -, hpp⟩ := hnull hl hsh
    refine ⟨by rw [h5]; exact hsh.nodup, by rw [h5, h7]; exact hsh.bound, by rw [h6, h7]; exact hsh.fits, [],
      by simp [h5, h6, hpp], ?_⟩
    exact ⟨h2, h3, by simpa using h4⟩
  have hdata : polled d → Shape m.pool .out := fun hp => by
    have := h.guard.mine (fun _ => hfree hp) (t := t)
    rwa [ha] at this
  cases hs with
  | clearPull hr =>
    refine ⟨?_, fun he => he.elim⟩
    have hI := pullRun_induct (I := fun p' q => p'.rwmutex = m.pool.rwmutex ∧
      p'.pushed = m.pool.pushed ∧ p'.next = m.pool.next ∧ Shape p' (.pull q))
      (fun p1 q1 p2 q2 ⟨h1, h2, h3, h4⟩ hp => by
        obtain ⟨g1, g2, g3⟩ := pullStep_same hp
        exact ⟨g1.trans h1, g2.trans h2, g3.trans h3, pullStep_shape hp h4⟩) _ _ _ _ hr
      ⟨rfl, rfl, rfl, (hdata trivial).nodup, (hdata trivial).bound, (hdata trivial).fits,
        (hdata trivial).queue⟩
    obtain ⟨h1, h2, h3, hsh⟩ := hI
    refine h.inside (fun _ => hfree trivial) (Or.inl ⟨rfl, h1.trans (hfree trivial)⟩) (fun _ => ?_)
      hb.symm h2 h3
    obtain ⟨hnd, hbd, hft, q, hh, hat⟩ := hsh
    exact ⟨hnd, hbd, hft, q, hh, hat.chain, hat.rear, hat.len⟩
  | clearEnd hl =>
    exact ⟨hquiet (.of_same rfl rfl rfl rfl rfl rfl rfl rfl) rfl, fun _ => hl⟩
  | clearFront =>
    have hl := hempty trivial
    have hsh := hdata trivial
    exact ⟨hkeep trivial hl (hfree trivial) rfl (hnull hl hsh).2.1 hl rfl rfl rfl,
      fun _ => hl⟩
  | clearRear =>
    have hl := hempty trivial
    have hsh := hdata trivial
    exact ⟨hkeep trivial hl (hfree trivial) (hnull hl hsh).1 rfl hl rfl rfl rfl,
      fun _ => hl⟩
  | clearLen =>
    have hl := hempty trivial
    have hsh := hdata trivial
    exact ⟨hkeep trivial hl (hfree trivial) (hnull hl hsh).1 (hnull hl hsh).2.1 rfl rfl rfl rfl,
      fun _ => rfl⟩
  | _ =>
    refine ⟨hquiet (.of_same rfl rfl rfl rfl rfl rfl rfl rfl) rfl, fun he => ?_⟩
    first | exact he.elim | exact hempty trivial

end QueueInv

/-! ### The queue in every reachable state -/

variable [DecidableEq κ]

def workerAccess (w : Worker F A) : Access := posAccess w.pos

def workerNode (w : Worker F A) : Option Ptr := posNode w.pos

/-- **The queue in a configuration**; behind `jobqueue_clear` it is empty. -/
structure QueueState (c : State n κ F A) : Prop where
  queue : QueueInv c.mem.pool (c.view workerAccess callAccess) (c.view workerNode callNode)
  empty : ∀ k total d, c.client k = .destroy total d → emptied d → c.mem.pool.len = 0
  gone : c.mem.pool.stage = .gone → c.mem.pool.len = 0

theorem polled_of_emptied {d : Destroy} (h : emptied d) : polled d := by
  cases d <;> trivial

omit [DecidableEq κ] in
/-- Behind the polling loops nobody is in a section of `rwmutex`. -/
theorem rwmutex_free {c : State n κ F A} (hs : StageInv c) {k : κ} {total : ℤ} {d : Destroy}
    (hk : c.client k = .destroy total d) (hd : polled d)
    (hq : QueueInv c.mem.pool (c.view workerAccess callAccess) (c.view workerNode callNode)) :
    c.mem.pool.rwmutex = none := by
  cases hl : c.mem.pool.rwmutex with
  | none => rfl
  | some t =>
    have hacc := (hq.guard.owned t).mpr hl
    rcases t with i | k'
    · have hleft := hs.dead k total d hk hd i
      refine absurd ?_ hacc
      show posAccess (c.worker i).pos = .out
      cases hpos : (c.worker i).pos <;> simp_all [left, posAccess]
    · refine absurd ?_ hacc
      show callAccess (c.client k') = .out
      by_cases hkk : k' = k
      · subst hkk; rw [hk]; rfl
      · rw [(hs.alone k total d hk).2 k' hkk]; rfl

omit [DecidableEq κ] in
/-- A worker that has left does not touch the queue. -/
theorem workerStep_left {i : Fin n} {x : Input n F A} {m m' : Mem n κ F A} {w w' : Worker F A}
    (h : WorkerStep i x m w m' w') (hl : left w.pos) : m'.pool.len = m.pool.len := by
  cases h with
  | move hh _ hp =>
    obtain ⟨-, -, rfl⟩ := posStep_left hp hl
    rfl
  | _ => rfl

theorem QueueState.worker {c : State n κ F A} {i : Fin n} {x : Input n F A}
    {r : Mem n κ F A × Worker F A} (hi : QueueState c) (hst : StageInv c)
    (h : WorkerStep i x c.mem (c.worker i) r.1 r.2) : QueueState (c.moveWorker i r) := by
  have hlen : (∀ j, left (c.worker j).pos) → c.mem.pool.len = 0 →
      (c.moveWorker i r).mem.pool.len = 0 := fun hl h0 => (workerStep_left h (hl i)).trans h0
  refine ⟨?_, fun k total d hk hd => ?_, fun hg => ?_⟩
  · rw [view_moveWorker, view_moveWorker]
    obtain ⟨m', w'⟩ := r
    have hstay : Quiet c.mem.pool m'.pool → m'.pool.next = c.mem.pool.next →
        w'.pos = (c.worker i).pos → QueueInv m'.pool
          (Function.update (c.view workerAccess callAccess) (.inl i) (workerAccess w'))
          (Function.update (c.view workerNode callNode) (.inl i) (workerNode w')) :=
      fun hq hn hp => hi.queue.quiet hq hn (congrArg posAccess hp) (congrArg posNode hp)
    cases h with
    | move hh _ hp => exact hi.queue.pos hp rfl rfl
    | _ => exact hstay (.of_same rfl rfl rfl rfl rfl rfl rfl rfl) rfl rfl
  · exact hlen (hst.dead k total d hk (polled_of_emptied hd)) (hi.empty k total d hk hd)
  · have hg : c.mem.pool.stage = .gone := (workerStep_stage h).1.symm.trans hg
    exact hlen (hst.gone hg).2 (hi.gone hg)

/-- A step of a client that is not in `thpool_destroy`. -/
theorem QueueState.of_plain {c : State n κ F A} {k : κ} {r : Mem n κ F A × Call} (hst : StageInv c)
    (hq : QueueInv r.1.pool (Function.update (c.view workerAccess callAccess) (.inr k) (callAccess r.2))
      (Function.update (c.view workerNode callNode) (.inr k) (callNode r.2)))
    (hs : r.1.pool.stage = c.mem.pool.stage ∨ r.1.pool.stage ≠ .gone)
    (hr : ∀ total d, r.2 = .destroy total d → ¬ emptied d)
    (hbusy : c.client k ≠ .outside ∨ c.mem.pool.stage = .ready) : QueueState (c.moveClient k r) := by
  -- another client in `thpool_destroy` would leave this one no step
  have hnone : ∀ k' total d, k' ≠ k → c.client k' ≠ .destroy total d := by
    intro k' total d hne hd
    obtain ⟨hc, ho⟩ := hst.alone k' total d hd
    rcases hbusy with hb | hb
    · exact hb (ho k (Ne.symm hne))
    · rw [hc] at hb; cases hb
  refine ⟨by rw [view_moveClient, view_moveClient]; exact hq, ?_, fun hg => ?_⟩
  · exact forall_moveClient
      (P := fun _ (l : Call) => ∀ total d, l = .destroy total d → emptied d → r.1.pool.len = 0)
      (fun total d hl hd => absurd hd (hr total d hl))
      (fun k' hne total d hl _ => absurd hl (hnone k' total d hne))
  · have hg' : r.1.pool.stage = .gone := hg
    rcases hs with hs | hs
    · have hgone := (hst.gone (hs.symm.trans hg')).1
      rcases hbusy with hb | hb
      · exact absurd (hgone k) hb
      · rw [← hs, hg'] at hb; cases hb
    · exact absurd hg' hs

theorem QueueState.client {c : State n κ F A} {k : κ} {x : Input n F A} {r : Mem n κ F A × Call}
    (hi : QueueState c) (hst : StageInv c) (hst' : StageInv (c.moveClient k r))
    (h : CallStep k x c.mem (c.client k) r.1 r.2) : QueueState (c.moveClient k r) := by
  obtain ⟨m', l'⟩ := r
  generalize hk : c.client k = l at h
  have hacc : c.view workerAccess callAccess (.inr k) = callAccess l := by rw [← hk]; rfl
  have hnd : c.view workerNode callNode (.inr k) = callNode l := by rw [← hk]; rfl
  -- `thpool_destroy` is alone
  have hdestroy : ∀ total d d', l = .destroy total d → DestroyStep (.inr k) x c.mem total d m' d' →
      callAccess l' = .out → callNode l' = none →
      (∀ t e, l' = .destroy t e → d' = some e) → (d' ≠ none → m'.pool.stage ≠ .gone) →
      QueueState (c.moveClient k (m', l')) := by
    rintro total d d' rfl hs h1 h2 h3 h5
    obtain ⟨hq, hlen⟩ := hi.queue.destroy hs rfl (fun hp => rwmutex_free hst hk hp hi.queue)
      (fun he => hi.empty k total d hk he) hacc hnd
    refine ⟨by rw [view_moveClient, view_moveClient, h1, h2]; exact hq, ?_, fun hg => ?_⟩
    · refine forall_moveClient
        (P := fun _ (l : Call) => ∀ t e, l = .destroy t e → emptied e → m'.pool.len = 0) ?_ ?_
      · intro t e hl he
        rw [h3 t e hl] at hlen
        exact hlen he
      · intro k' hne t e hl
        rw [(hst.alone k total d hk).2 k' hne] at hl
        cases hl
    · have hd' : d' = none := by
        by_contra hne
        exact h5 hne hg
      rw [hd'] at hlen
      exact hlen trivial
  -- a step outside `thpool_destroy` that leaves the queue alone
  have hstill : l ≠ .outside ∨ c.mem.pool.stage = .ready → Quiet c.mem.pool m'.pool →
      m'.pool.next = c.mem.pool.next → m'.pool.stage = c.mem.pool.stage ∨ m'.pool.stage ≠ .gone →
      callAccess l' = callAccess l → callNode l' = callNode l →
      (∀ t e, l' = .destroy t e → ¬ emptied e) → QueueState (c.moveClient k (m', l')) := by
    intro hb hq hn hs h1 h2 h3
    refine .of_plain hst ?_ hs h3 (by rwa [hk])
    exact hi.queue.quiet hq hn (h1.trans hacc.symm) (h2.trans hnd.symm)
  have hsame : Quiet c.mem.pool c.mem.pool := .of_same rfl rfl rfl rfl rfl rfl rfl rfl
  cases h with
  | initReady ha =>
    exact hstill (Or.inl (by simp)) (.of_same rfl rfl rfl rfl rfl rfl rfl rfl) rfl (Or.inr (by simp))
      rfl rfl (by simp)
  | destroyEnter hx hs =>
    exact hstill (Or.inr hs) (.of_same rfl rfl rfl rfl rfl rfl rfl rfl) rfl (Or.inr (by simp)) rfl rfl
      (fun t e he => by cases he; exact id)
  | malloc f a hx hs hr =>
    exact .of_plain hst (hi.queue.malloc f a hr hacc hnd) (Or.inl rfl) (by simp) (Or.inr hs)
  | add hs =>
    exact .of_plain hst (hi.queue.add hs hacc hnd) (Or.inl hs.frame.stage) (by simp)
      (Or.inl (by simp [hk]))
  | addReturn hs =>
    exact .of_plain hst (hi.queue.add hs hacc hnd) (Or.inl hs.frame.stage) (by simp)
      (Or.inl (by simp [hk]))
  | destroy hs =>
    refine hdestroy _ _ _ rfl hs rfl rfl (fun t e he => by cases he; rfl) ?_
    intro _ hg
    have := (hst'.gone hg).1 k
    simp [Config.moveClient] at this
  | destroyReturn hs =>
    exact hdestroy _ _ _ rfl hs rfl rfl (fun t e he => by cases he) (fun hne => absurd rfl hne)
  | waitMove hw => cases hw <;> exact hstill (Or.inl (by simp)) hsame rfl (Or.inl rfl) rfl rfl (by simp)
  | waitReturn must hw =>
    exact hstill (Or.inl (by simp)) (.of_same rfl rfl rfl rfl rfl rfl rfl rfl) rfl (Or.inl rfl) rfl rfl
      (by simp)
  | kill j hj hlt =>
    exact hstill (Or.inl (by simp)) (.of_same rfl rfl rfl rfl rfl rfl rfl rfl) rfl (Or.inl rfl) rfl rfl
      (by simp)
  | pauseReturn j => exact hstill (Or.inl (by simp)) hsame rfl (Or.inl rfl) rfl rfl (by simp)
  | addFail hs => exact hstill (Or.inr hs) hsame rfl (Or.inl rfl) rfl rfl (by simp)
  | wait hx hs => exact hstill (Or.inr hs) hsame rfl (Or.inl rfl) rfl rfl (by simp)
  | pause hs => exact hstill (Or.inr hs) hsame rfl (Or.inl rfl) rfl rfl (by simp)
  | resume hs => exact hstill (Or.inr hs) hsame rfl (Or.inl rfl) rfl rfl (by simp)

theorem queueState_reach {c : State n κ F A} (h : Reach (thpool n κ F A).lts finalDestroy c) :
    QueueState c := by
  refine Program.invariant ?_ ?_ ?_ h
  · rintro _ ⟨heap, k0, rfl⟩
    have hout : ∀ k, callAccess (initClients k0 k) = .out ∧ callNode (initClients k0 k) = none :=
      initClients_forall (P := fun l => callAccess l = .out ∧ callNode l = none) ⟨rfl, rfl⟩ ⟨rfl, rfl⟩ k0
    refine ⟨⟨⟨fun t => ?_, ?_⟩, fun t j hj => ?_, fun t t' j hj => ?_,
      fun j hj => absurd hj (Nat.not_lt_zero j)⟩, fun _ _ _ _ _ => rfl, fun hg => rfl⟩
    · rcases t with i | k
      · simp [workerAccess, Worker.created, posAccess, Pool.created]
      · simp [hout, Pool.created]
    · exact ⟨List.nodup_nil, fun j hj => (by cases hj), Nat.zero_le _, [], rfl, rfl, rfl, rfl⟩
    · rcases t with i | k
      · simp [workerNode, Worker.created, posNode] at hj
      · simp [hout] at hj
    · rcases t with i | k
      · simp [workerNode, Worker.created, posNode] at hj
      · simp [hout] at hj
  · intro c i x r hr hi _ hs
    exact hi.worker (stageInv_reach hr) (workerStep_cases hs)
  · intro c k x r hr hi hok hs
    have hst := stageInv_reach hr
    have hcs := callStep_cases hs
    exact hi.client hst (hst.client (countInv_reach hr) hok hcs) hcs

end PoolStudy.Thpool.Queue
