import PoolStudy.Thpool.Model

/-! # The linked-queue pool: `jobqueue_init`

`jobqueue_init` allocates the queue and its semaphore, initialises the semaphore, and then calls `jobqueue_clear`,
which pulls and frees jobs as long as `len` is not zero. Nobody has written `len`, `front` or `rear` by then: they
are what `malloc` returned (`Fresh`). Every statement is a step, those of `jobqueue_pull` are the steps of the model;
`Known` remembers whether the pointers in `front` and in `job_p` have been put there by the program. A dereference of
a pointer the program has not assigned reads an arbitrary `prev` here.

`jobqueue_init` does what it should exactly if `len` is zero (`jobqueue_init_iff`), and then leaves the queue that the
pool starts with. -/

namespace PoolStudy.Thpool.Init

open PoolStudy.Lib.Transition PoolStudy.Lib.Threads PoolStudy.Lib.IntCounter PoolStudy.Thpool.Model

variable {n : ℕ} {κ F A : Type}

/-! ### `jobqueue_init` -/

/-- What `malloc` returns for the queue and the semaphore, and the rest of the heap. -/
structure Fresh (F A : Type) where
  len : ℤ
  front : Option Ptr
  rear : Option Ptr
  v : ℤ
  heap : Ptr → Job F A

/-- Whether the program has assigned the pointer in `front`, and that in `job_p`. -/
structure Known where
  front : Bool
  job : Bool

/-- Where the thread is in `jobqueue_init`, behind the two calls of `malloc`. -/
inductive Pos
  | bsemInit
  | clearTest
  | pull (q : Pull)
  | free (j : Option Ptr)
  | clearFront
  | clearRear
  | bsemReset
  | clearLen
  | done
  deriving DecidableEq

/-- The pool, what is known of its pointers, and where the thread is. -/
structure State (n : ℕ) (κ F A : Type) where
  pool : Pool n κ F A
  known : Known
  pos : Pos

/-- What a statement of `jobqueue_pull` does to the pointers: `job_p` is read from `front`, and `front` is set to
`NULL` or read from the node behind `job_p`. -/
def Known.pull (k : Known) : Pull → Known
  | .front => { k with job := k.front }
  | .front1 _ => { k with front := true }
  | .frontPrev _ => { k with front := k.job }
  | _ => k

/-- **`jobqueue_init`** from its `bsem_init` on, with **`jobqueue_clear`**. -/
def initStep (self : Tid n κ) (x : Input n F A) (s : State n κ F A) : Option (State n κ F A) :=
  match s.pos with
  | .bsemInit => some { s with pool := { s.pool with hasJobs := Bsem.init 0 }, pos := .clearTest }
  | .clearTest => some { s with pos := if s.pool.len ≠ 0 then .pull .front else .clearFront }
  | .pull (.ret j) => some { s with pos := .free j }
  | .pull q => (pullStep self x s.pool q).map fun r => ⟨r.1, s.known.pull q, .pull r.2⟩
  | .free j =>
    some { s with
      pool := { s.pool with freed := s.pool.freed ++ j.toList.map fun j => (j, none) }, pos := .clearTest }
  | .clearFront => some ⟨{ s.pool with front := none }, { s.known with front := true }, .clearRear⟩
  | .clearRear => some { s with pool := { s.pool with rear := none }, pos := .bsemReset }
  | .bsemReset => some { s with pool := { s.pool with hasJobs := Bsem.init 0 }, pos := .clearLen }
  | .clearLen => some { s with pool := { s.pool with len := 0 }, pos := .done }
  | .done => none

/-- The pool as `jobqueue_init` finds it. -/
def start (n : ℕ) (κ : Type) (g : Fresh F A) : State n κ F A where
  pool := { Pool.created n κ g.heap with
    front := g.front, rear := g.rear, len := g.len, hasJobs := ⟨none, ∅, g.v⟩ }
  known := ⟨false, false⟩
  pos := .bsemInit

/-- **`jobqueue_init` as a system**: it starts with any memory. -/
def jobqueueInit (self : Tid n κ) : Lts (State n κ F A) (Input n F A) where
  init s := ∃ g, s = start n κ g
  next s x := initStep self x s

/-- The next statement dereferences `job_p`, or frees it. -/
inductive Touches : Pos → Option Ptr → Prop
  | deref (j : Option Ptr) : Touches (.pull (.frontPrev j)) j
  | free (j : Option Ptr) : Touches (.free j) j

/-- The next statement dereferences or frees a pointer that the program has not assigned. -/
def Wild (s : State n κ F A) : Prop := s.known.job = false ∧ ∃ j, Touches s.pos j

/-- **What `jobqueue_init` should do**: it ends, with an empty queue and the semaphore at `0`, and touches no pointer
on the way that the program has not assigned. -/
structure Clean (t : Tid n κ) (g : Fresh F A) : Prop where
  ends : ∃ s, Runs (jobqueueInit t) anyStep (start n κ g) s ∧ s.pos = .done
  result : ∀ s, Runs (jobqueueInit t) anyStep (start n κ g) s → s.pos = .done →
    s.pool.front = none ∧ s.pool.rear = none ∧ s.pool.len = 0 ∧ s.pool.hasJobs.v = 0
  safe : ∀ s, Runs (jobqueueInit t) anyStep (start n κ g) s → ¬ Wild s

variable {self : Tid n κ} {g : Fresh F A}

theorem runs_step {s s' : State n κ F A} (x : Input n F A) (h : initStep self x s = some s') :
    Runs (jobqueueInit self) anyStep s s' :=
  .single ⟨x, trivial, h⟩

/-! ### Memory in which `len` is zero -/

/-- The pool that starts, but for the fields that `jobqueue_init` sets. -/
def emptied (n : ℕ) (κ : Type) (heap : Ptr → Job F A) (front rear : Option Ptr) (b : Bsem n κ) : Pool n κ F A :=
  { Pool.created n κ heap with front := front, rear := rear, hasJobs := b }

/-- **The states that are reached with `len = 0`.** -/
inductive Plain (heap : Ptr → Job F A) : State n κ F A → Prop
  | bsemInit (k : Known) (f r : Option Ptr) (b : Bsem n κ) : Plain heap ⟨emptied n κ heap f r b, k, .bsemInit⟩
  | clearTest (k : Known) (f r : Option Ptr) (b : Bsem n κ) : Plain heap ⟨emptied n κ heap f r b, k, .clearTest⟩
  | clearFront (k : Known) (f r : Option Ptr) (b : Bsem n κ) : Plain heap ⟨emptied n κ heap f r b, k, .clearFront⟩
  | clearRear (k : Known) (r : Option Ptr) (b : Bsem n κ) : Plain heap ⟨emptied n κ heap none r b, k, .clearRear⟩
  | bsemReset (k : Known) (b : Bsem n κ) : Plain heap ⟨emptied n κ heap none none b, k, .bsemReset⟩
  | clearLen (k : Known) : Plain heap ⟨Pool.created n κ heap, k, .clearLen⟩
  | done (k : Known) : Plain heap ⟨Pool.created n κ heap, k, .done⟩

theorem Plain.next {heap : Ptr → Job F A} {s s' : State n κ F A} {x : Input n F A} (h : Plain heap s)
    (hs : initStep self x s = some s') : Plain heap s' := by
  cases h with
  | bsemInit k f r b => cases hs; exact .clearTest k f r _
  | clearTest k f r b => cases hs; exact .clearFront k f r b
  | clearFront k f r b => cases hs; exact .clearRear _ r b
  | clearRear k r b => cases hs; exact .bsemReset k b
  | bsemReset k b => cases hs; exact .clearLen k
  | clearLen k => cases hs; exact .done k
  | done k => cases hs

theorem plain_start (h : g.len = 0) : Plain g.heap (start n κ g) := by
  have hp : start n κ g = ⟨emptied n κ g.heap g.front g.rear ⟨none, ∅, g.v⟩, ⟨false, false⟩, .bsemInit⟩ := by
    rw [start, emptied, h]
    rfl
  rw [hp]
  exact .bsemInit _ _ _ _

theorem plain_runs (h : g.len = 0) {s : State n κ F A}
    (hr : Runs (jobqueueInit self) anyStep (start n κ g) s) : Plain g.heap s :=
  hr.keeps (fun _ _ _ hp _ hs => hp.next hs) (plain_start h)

theorem Plain.not_wild {heap : Ptr → Job F A} {s : State n κ F A} (h : Plain heap s) : ¬ Wild s := by
  rintro ⟨-, j, ht⟩
  cases h <;> cases ht

theorem Plain.of_done {heap : Ptr → Job F A} {s : State n κ F A} (h : Plain heap s) (hd : s.pos = .done) :
    s.pool = Pool.created n κ heap := by
  cases h with
  | done k => rfl
  | _ => cases hd

/-- `jobqueue_clear` ends at once. -/
theorem ends_of_zero (self : Tid n κ) (h : g.len = 0) :
    ∃ s, Runs (jobqueueInit self) anyStep (start n κ g) s ∧ s.pos = .done := by
  have h1 : initStep self {} (start n κ g) =
      some ⟨{ (start n κ g).pool with hasJobs := Bsem.init 0 }, ⟨false, false⟩, .clearTest⟩ := rfl
  have h2 : initStep self {}
      ⟨{ (start n κ g).pool with hasJobs := Bsem.init 0 }, ⟨false, false⟩, .clearTest⟩ =
      some ⟨{ (start n κ g).pool with hasJobs := Bsem.init 0 }, ⟨false, false⟩, .clearFront⟩ := by
    simp [initStep, start, h]
  exact ⟨_, ((runs_step {} h1).trans (runs_step {} h2)).trans
    (((runs_step {} rfl).trans (runs_step {} rfl)).trans ((runs_step {} rfl).trans (runs_step {} rfl))), rfl⟩

theorem clean_of_zero (self : Tid n κ) (h : g.len = 0) : Clean self g := by
  refine ⟨ends_of_zero self h, fun s hr hd => ?_, fun s hr => (plain_runs h hr).not_wild⟩
  rw [(plain_runs h hr).of_done hd]
  exact ⟨rfl, rfl, rfl, rfl⟩

/-! ### Memory in which `len` is not zero -/

/-- The pool behind `bsem_init`. -/
def found (n : ℕ) (κ : Type) (g : Fresh F A) : Pool n κ F A :=
  { (start n κ g).pool with hasJobs := Bsem.init 0 }

/-- `jobqueue_pull` is called, and takes the pointer that is found in `front`. -/
theorem runs_switch (self : Tid n κ) (h : g.len ≠ 0) : Runs (jobqueueInit self) anyStep (start n κ g)
    ⟨found n κ g, ⟨false, false⟩, .pull (.switch g.front)⟩ := by
  have h1 : initStep self {} (start n κ g) = some ⟨found n κ g, ⟨false, false⟩, .clearTest⟩ := rfl
  have h2 : initStep self {} ⟨found n κ g, ⟨false, false⟩, .clearTest⟩ =
      some ⟨found n κ g, ⟨false, false⟩, .pull .front⟩ := by
    have hl : (found n κ g).len ≠ 0 := h
    simp only [initStep, if_pos hl]
  exact (runs_step {} h1).trans ((runs_step {} h2).trans (runs_step {} rfl))

/-- With `len = 1` the pointer is freed. -/
theorem runs_free (self : Tid n κ) (h : g.len = 1) :
    ∃ p, Runs (jobqueueInit self) anyStep (start n κ g) ⟨p, ⟨true, false⟩, .free g.front⟩ := by
  have hl : (found n κ g).len = 1 := h
  -- `front` and `rear` are cleared and `len` is counted down to `0`, so that the semaphore is not posted
  let p : Pool n κ F A :=
    { found n κ g with front := none, rear := none, len := 0, pulled := g.front.toList }
  have h1 : initStep self {} ⟨found n κ g, ⟨false, false⟩, .pull (.switch g.front)⟩ =
      some ⟨found n κ g, ⟨false, false⟩, .pull (.front1 g.front)⟩ := by
    simp [initStep, pullStep, Known.pull, hl]
  have h2 : initStep self {}
      ⟨{ found n κ g with front := none, rear := none }, ⟨true, false⟩, .pull (.dec g.front)⟩ =
      some ⟨p, ⟨true, false⟩, .pull (.ifLen g.front)⟩ := by
    simp [initStep, pullStep, Known.pull, p, found, start, Pool.created, h]
  have h3 : initStep self {} ⟨p, ⟨true, false⟩, .pull (.ifLen g.front)⟩ =
      some ⟨p, ⟨true, false⟩, .pull (.ret g.front)⟩ := rfl
  exact ⟨p, (runs_switch self (by omega)).trans (((runs_step {} h1).trans
    ((runs_step {} rfl).trans (runs_step {} rfl))).trans ((runs_step {} h2).trans
      ((runs_step {} h3).trans (runs_step {} rfl))))⟩

/-- With any other `len` the pointer is dereferenced. -/
theorem runs_deref (self : Tid n κ) (h : g.len ≠ 0) (h1 : g.len ≠ 1) :
    Runs (jobqueueInit self) anyStep (start n κ g)
      ⟨found n κ g, ⟨false, false⟩, .pull (.frontPrev g.front)⟩ := by
  have hl : (found n κ g).len ≠ 0 := h
  have hl1 : (found n κ g).len ≠ 1 := h1
  have hs : initStep self {} ⟨found n κ g, ⟨false, false⟩, .pull (.switch g.front)⟩ =
      some ⟨found n κ g, ⟨false, false⟩, .pull (.frontPrev g.front)⟩ := by
    simp [initStep, pullStep, Known.pull, hl, hl1]
  exact (runs_switch self h).trans (runs_step {} hs)

/-- A pointer that nobody has assigned is freed or dereferenced, and it is the one found in `front`. -/
theorem wild_of_ne (self : Tid n κ) (h : g.len ≠ 0) : ∃ s : State n κ F A,
    Runs (jobqueueInit self) anyStep (start n κ g) s ∧ Wild s ∧ Touches s.pos g.front := by
  by_cases h1 : g.len = 1
  · obtain ⟨p, hr⟩ := runs_free self h1
    exact ⟨_, hr, ⟨rfl, g.front, .free g.front⟩, .free g.front⟩
  · exact ⟨_, runs_deref self h h1, ⟨rfl, g.front, .deref g.front⟩, .deref g.front⟩

/-! ### The result -/

/-- **`jobqueue_init` does what it should exactly if the memory of the queue happens to hold `len = 0`**; it is then
the pool that the threads start with. Otherwise the pointer that happens to be in `front` is freed or dereferenced. -/
theorem jobqueue_init_iff (self : Tid n κ) (g : Fresh F A) :
    (Clean self g ↔ g.len = 0) ∧
      (g.len = 0 → ∀ s, Runs (jobqueueInit self) anyStep (start n κ g) s → s.pos = .done →
        s.pool = Pool.created n κ g.heap) ∧
      (g.len ≠ 0 → ∃ s : State n κ F A,
        Runs (jobqueueInit self) anyStep (start n κ g) s ∧ Wild s ∧ Touches s.pos g.front) := by
  refine ⟨⟨fun hc => ?_, clean_of_zero self⟩, fun h s hr hd => (plain_runs h hr).of_done hd, wild_of_ne self⟩
  by_contra h
  obtain ⟨s, hr, hw, -⟩ := wild_of_ne self h
  exact hc.safe s hr hw

/-- Memory of which every byte is `0x80`, as the library's own test leaves it; `len` is then negative. -/
def filled : Fresh ℕ ℕ :=
  ⟨-0x7f7f7f80, some 0x8080808080808080, some 0x8080808080808080, -0x7f7f7f80, fun _ => ⟨none, 0, 0⟩⟩

/-- `job_p->prev` is read although `job_p` is `0x8080808080808080`. -/
theorem filled_not_clean : ¬ Clean (.inr () : Tid 1 Unit) filled := by
  intro hc
  have hr : Runs (jobqueueInit (.inr ())) anyStep (start 1 Unit filled) _ :=
    runs_deref (.inr ()) (by decide) (by decide)
  exact hc.safe _ hr ⟨rfl, filled.front, .deref _⟩

end PoolStudy.Thpool.Init
