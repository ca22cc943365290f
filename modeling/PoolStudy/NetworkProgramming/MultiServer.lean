import PoolStudy.Lib.Threads

/-! # One thread for each connection

`main` of `multi_server.c` accepts connections for ever. For each it takes a cell of the heap, stores the descriptor
there and starts a `connection_handler` with the address of the cell; the handler reads the cell some time later,
when `main` may have accepted any number of further connections, talks to its client, and frees the cell. What it
says is the subject of `NetworkProgramming.Echo`; here are the threads, the cells and the descriptors.

A cell of its own is what keeps the handlers apart: each serves the connection it was started for, and no two
serve the same (`handlers_keep_apart`). No handler closes its descriptor, so that every connection ever accepted
costs one for good: the server accepts `limit` of them at most, however many clients have left, and when they are
used up it starts a handler for the descriptor `-1` whenever `accept` fails, since its loop takes `-1` for a
connection.

Left open by a step (`Input`): whether there is a connection to accept, the address `malloc` finds, the thread
`pthread_create` starts or that it fails (which the test `< 0` never sees), and what `recv` returns. `malloc(1)` finds
a cell, with room for the `int`, as the allocator of the C library has it. -/

namespace PoolStudy.NetworkProgramming.MultiServer

open PoolStudy.Lib.Transition PoolStudy.Lib.Threads

/-! ### The program -/

/-- The descriptors of the process, the cells of the heap with what they hold once it is stored, the handlers
started with their argument, and the history: the descriptors accepted, and for every handler the value of
`client_sock` when it was started. -/
structure Mem where
  fds : Finset ℕ
  limit : ℕ
  cells : ℕ → Option (Option ℤ)
  started : ℕ → Option ℕ
  accepted : List ℕ
  clientOf : ℕ → Option ℤ

/-- Where `main` is in its loop. `wild`: it has followed a pointer to no cell. -/
inductive Main
  | accept
  | malloc (sock : ℤ)
  | store (sock : ℤ) (cell : ℕ)
  | create (sock : ℤ) (cell : ℕ)
  | out (sock : ℤ)
  | wild
  deriving DecidableEq

/-- Where a handler is in `connection_handler`. -/
inductive Handler
  | absent
  | load (cell : ℕ)
  | hello (sock : ℤ) (cell : ℕ)
  | type (sock : ℤ) (cell : ℕ)
  | recv (sock : ℤ) (cell : ℕ)
  | echo (sock : ℤ) (cell : ℕ)
  | free (sock : ℤ) (cell : ℕ)
  | done (sock : ℤ)
  | wild
  deriving DecidableEq

/-- What a step leaves open. -/
structure Input where
  connection : Bool := true
  addr : ℕ := 0
  thread : Option ℕ := none
  received : ℤ := 0

/-- The descriptor the kernel gives out: the lowest that is free. -/
def lowest (m : Mem) : Option ℕ := (List.range m.limit).find? fun fd => fd ∉ m.fds

/-- `accept` and the test of the loop, which only `0` ends. -/
def accept (x : Input) (m : Mem) : Mem × Main :=
  match (if x.connection then lowest m else none) with
  | some fd =>
    ({ m with fds := insert fd m.fds, accepted := m.accepted ++ [fd] }, if fd = 0 then .out fd else .malloc fd)
  | none => (m, .malloc (-1))

/-- **`main`** in its loop. `pthread_create` returns `0` or the number of an error, none of which is negative. -/
def mainStep (x : Input) (m : Mem) : Main → Option (Mem × Main)
  | .accept => some (accept x m)
  | .malloc sock =>
    if m.cells x.addr = none then
      some ({ m with cells := Function.update m.cells x.addr (some none) }, .store sock x.addr)
    else none
  | .store sock a =>
    match m.cells a with
    | some _ => some ({ m with cells := Function.update m.cells a (some (some sock)) }, .create sock a)
    | none => some (m, .wild)
  | .create sock a =>
    match x.thread with
    | some t =>
      if m.started t = none then
        some ({ m with
          started := Function.update m.started t (some a)
          clientOf := Function.update m.clientOf t (some sock) }, .accept)
      else none
    | none => some (m, .accept)
  | .out _ => none
  | .wild => none

/-- What `recv` returns: it fails on the descriptor `-1`. -/
def received (x : Input) (sock : ℤ) : ℤ := if sock < 0 then -1 else x.received

/-- **`connection_handler`** in the thread `t`. -/
def handlerStep (t : ℕ) (x : Input) (m : Mem) : Handler → Option (Mem × Handler)
  | .absent => (m.started t).map fun a => (m, .load a)
  | .load a =>
    match m.cells a with
    | some (some sock) => some (m, .hello sock a)
    | _ => some (m, .wild)
  | .hello sock a => some (m, .type sock a)
  | .type sock a => some (m, .recv sock a)
  | .recv sock a => some (m, if 0 < received x sock then .echo sock a else .free sock a)
  | .echo sock a => some (m, .recv sock a)
  | .free sock a =>
    match m.cells a with
    | some _ => some ({ m with cells := Function.update m.cells a none }, .done sock)
    | none => some (m, .wild)
  | .done _ => none
  | .wild => none

/-- A configuration of the server. -/
abbrev State := Config ℕ Unit Mem Handler Main

/-- **The server** with its handlers. The descriptors `base` are open when it begins, the standard ones and the
socket it listens on. -/
def multiServer (base : Finset ℕ) (limit : ℕ) : Program ℕ Unit Mem Handler Main Input where
  init c := c = ⟨⟨base, limit, fun _ => none, fun _ => none, [], fun _ => none⟩, fun _ => .absent, fun _ => .accept⟩
  workerStep := handlerStep
  clientStep _ := mainStep

/-! ### The cells -/

/-- The cell a handler was given and has not freed. -/
def Handler.cell : Handler → Option ℕ
  | .load a | .hello _ a | .type _ a | .recv _ a | .echo _ a | .free _ a => some a
  | _ => none

/-- The descriptor a handler has read. -/
def Handler.sock : Handler → Option ℤ
  | .hello s _ | .type s _ | .recv s _ | .echo s _ | .free s _ | .done s => some s
  | _ => none

/-- The cell of `main`, and what is stored there. -/
def Main.cell : Main → Option (ℕ × Option ℤ)
  | .store _ a => some (a, none)
  | .create s a => some (a, some s)
  | _ => none

/-- The descriptor `main` has accepted and not yet handed over. -/
def Main.sock : Main → Option ℤ
  | .malloc s | .store s _ | .create s _ => some s
  | _ => none

/-- The cell of the thread `t`: a handler that has not run yet has its argument. -/
def cellAt (m : Mem) (t : ℕ) : Handler → Option ℕ
  | .absent => m.started t
  | h => h.cell

theorem cellAt_of_cell {m : Mem} {t a : ℕ} {w : Handler} (h : w.cell = some a) : cellAt m t w = some a := by
  cases w <;> first | exact h | cases h

/-- **The server in a configuration**, as far as its handlers go: a cell belongs to one thread and holds the
descriptor its handler was started for. -/
structure CellInv (c : State) : Prop where
  absent : ∀ t, c.mem.started t = none → c.worker t = .absent ∧ c.mem.clientOf t = none
  holds : ∀ t a, cellAt c.mem t (c.worker t) = some a →
    ∃ s, c.mem.clientOf t = some s ∧ c.mem.cells a = some (some s)
  apart : ∀ t t' a, cellAt c.mem t (c.worker t) = some a → cellAt c.mem t' (c.worker t') = some a → t = t'
  main : ∀ a v, (c.client ()).cell = some (a, v) → c.mem.cells a = some v ∧ ∀ t, cellAt c.mem t (c.worker t) ≠ some a
  sock : ∀ t s, (c.worker t).sock = some s → c.mem.clientOf t = some s
  tame : ∀ t, c.worker t ≠ .wild
  mainTame : c.client () ≠ .wild

/-- A handler that keeps its cell moves on. -/
theorem CellInv.move {c : State} (h : CellInv c) {t : ℕ} {w : Handler} (hw : w ≠ .wild) (ht : c.mem.started t ≠ none)
    (hcell : cellAt c.mem t w = cellAt c.mem t (c.worker t))
    (hsock : ∀ s, w.sock = some s → c.mem.clientOf t = some s) : CellInv (c.moveWorker t (c.mem, w)) := by
  have hsame : ∀ t', cellAt c.mem t' ((c.moveWorker t (c.mem, w)).worker t') = cellAt c.mem t' (c.worker t') := by
    refine forall_moveWorker (P := fun t' w => cellAt c.mem t' w = cellAt c.mem t' (c.worker t')) hcell ?_
    exact fun _ _ => rfl
  refine ⟨?_, fun t' a ha => ?_, fun t' t'' a ha ha' => ?_, fun a v hv => ?_, ?_, ?_, h.mainTame⟩
  · refine forall_moveWorker
      (P := fun t' (w : Handler) => c.mem.started t' = none → w = .absent ∧ c.mem.clientOf t' = none) ?_ ?_
    · exact fun hn => absurd hn ht
    · exact fun t' _ => h.absent t'
  · exact h.holds t' a ((hsame t').symm.trans ha)
  · exact h.apart t' t'' a ((hsame t').symm.trans ha) ((hsame t'').symm.trans ha')
  · exact ⟨(h.main a v hv).1, fun t' ht' => (h.main a v hv).2 t' ((hsame t').symm.trans ht')⟩
  · exact forall_moveWorker (P := fun t' (w : Handler) => ∀ s, w.sock = some s → c.mem.clientOf t' = some s) hsock
      fun t' _ => h.sock t'
  · exact forall_moveWorker (P := fun _ (w : Handler) => w ≠ .wild) hw fun t' _ => h.tame t'

/-- A handler frees its cell. -/
theorem CellInv.free {c : State} (h : CellInv c) {t : ℕ} {s : ℤ} {a : ℕ} (hw : c.worker t = .free s a) :
    CellInv (c.moveWorker t ({ c.mem with cells := Function.update c.mem.cells a none }, .done s)) := by
  have hmine : cellAt c.mem t (c.worker t) = some a := by rw [hw]; rfl
  have hstarted : c.mem.started t ≠ none := by
    intro hn
    have := (h.absent t hn).1
    rw [hw] at this
    cases this
  have hcell : ∀ t' b, cellAt c.mem t' ((c.moveWorker t (c.mem, .done s)).worker t') = some b →
      cellAt c.mem t' (c.worker t') = some b ∧ b ≠ a := by
    intro t'
    refine forall_moveWorker (P := fun t' w => ∀ b, cellAt c.mem t' w = some b →
      cellAt c.mem t' (c.worker t') = some b ∧ b ≠ a) ?_ ?_ t'
    · intro b hb
      cases hb
    · intro t' ht' b hb
      refine ⟨hb, ?_⟩
      rintro rfl
      exact ht' (h.apart t' t b hb hmine)
  refine ⟨?_, fun t' b hb => ?_, fun t' t'' b hb hb' => ?_, fun b v hv => ?_, ?_, ?_, h.mainTame⟩
  · refine forall_moveWorker
      (P := fun t' (w : Handler) => c.mem.started t' = none → w = .absent ∧ c.mem.clientOf t' = none) ?_ ?_
    · exact fun hn => absurd hn hstarted
    · exact fun t' _ => h.absent t'
  · obtain ⟨hb, hne⟩ := hcell t' b hb
    obtain ⟨s', hs', hc'⟩ := h.holds t' b hb
    exact ⟨s', hs', (Function.update_of_ne hne ..).trans hc'⟩
  · exact h.apart t' t'' b (hcell t' b hb).1 (hcell t'' b hb').1
  · obtain ⟨h1, h2⟩ := h.main b v hv
    have hne : b ≠ a := by
      rintro rfl
      exact h2 t hmine
    exact ⟨(Function.update_of_ne hne ..).trans h1, fun t' ht' => h2 t' (hcell t' b ht').1⟩
  · refine forall_moveWorker (P := fun t' (w : Handler) => ∀ s, w.sock = some s → c.mem.clientOf t' = some s) ?_
      fun t' _ => h.sock t'
    intro s' hs'
    exact h.sock t s' (by rw [hw]; exact hs')
  · exact forall_moveWorker (P := fun _ (w : Handler) => w ≠ .wild) (by simp) fun t' _ => h.tame t'

/-- **A step of a handler.** -/
theorem CellInv.handler {c : State} (h : CellInv c) {t : ℕ} {x : Input} {r : Mem × Handler}
    (hs : handlerStep t x c.mem (c.worker t) = some r) : CellInv (c.moveWorker t r) := by
  have hstarted : c.worker t ≠ .absent → c.mem.started t ≠ none := fun hw hn => hw (h.absent t hn).1
  have hsock := h.sock t
  have hcell := h.holds t
  cases hw : c.worker t with
  | absent =>
    rw [hw] at hs
    obtain ⟨a, ha, rfl⟩ := Option.map_eq_some_iff.mp hs
    exact h.move (by simp) (by simp [ha]) (by rw [hw]; exact ha.symm) (by simp [Handler.sock])
  | load a =>
    rw [hw] at hs hcell
    obtain ⟨s, hs', hv⟩ := hcell a rfl
    simp only [handlerStep, hv, Option.some.injEq] at hs
    subst hs
    refine h.move (by simp) (hstarted (by simp [hw])) (by rw [hw]; rfl) fun s' hs'' => ?_
    rw [← Option.some.inj hs'']
    exact hs'
  | free s a =>
    rw [hw] at hs hcell
    obtain ⟨s', -, hv⟩ := hcell a rfl
    simp only [handlerStep, hv, Option.some.injEq] at hs
    subst hs
    exact h.free hw
  | recv s a =>
    rw [hw] at hs hsock
    cases hs
    refine h.move (by split_ifs <;> simp) (hstarted (by simp [hw])) (by rw [hw]; split_ifs <;> rfl) fun s' hs'' => ?_
    refine hsock s' ?_
    split_ifs at hs'' <;> exact hs''
  | hello s a | type s a | echo s a =>
    rw [hw] at hs hsock
    cases hs
    exact h.move (by simp) (hstarted (by simp [hw])) (by rw [hw]; rfl) hsock
  | done s | wild => rw [hw] at hs; cases hs

/-- **What a statement of `main` does.** -/
theorem mainStep_cases {x : Input} {m : Mem} {l : Main} {r : Mem × Main} (h : mainStep x m l = some r) :
    (l = .accept ∧ r = accept x m) ∨
    (∃ s, l = .malloc s ∧ m.cells x.addr = none ∧
      r = ({ m with cells := Function.update m.cells x.addr (some none) }, .store s x.addr)) ∨
    (∃ s a, l = .store s a ∧
      ((∃ v, m.cells a = some v ∧
          r = ({ m with cells := Function.update m.cells a (some (some s)) }, .create s a)) ∨
        (m.cells a = none ∧ r = (m, .wild)))) ∨
    (∃ s a, l = .create s a ∧
      ((∃ t, m.started t = none ∧
          r = ({ m with
            started := Function.update m.started t (some a)
            clientOf := Function.update m.clientOf t (some s) }, .accept)) ∨
        r = (m, .accept))) := by
  cases l with
  | accept =>
    cases h
    exact Or.inl ⟨rfl, rfl⟩
  | malloc s =>
    unfold mainStep at h
    split_ifs at h with hc
    cases h
    exact Or.inr (Or.inl ⟨s, rfl, hc, rfl⟩)
  | store s a =>
    refine Or.inr (Or.inr (Or.inl ⟨s, a, rfl, ?_⟩))
    simp only [mainStep] at h
    split at h
    · next v hv => cases h; exact Or.inl ⟨v, hv, rfl⟩
    · next hv => cases h; exact Or.inr ⟨hv, rfl⟩
  | create s a =>
    refine Or.inr (Or.inr (Or.inr ⟨s, a, rfl, ?_⟩))
    simp only [mainStep] at h
    split at h
    · next t _ =>
      split_ifs at h with ht
      cases h
      exact Or.inl ⟨t, ht, rfl⟩
    · cases h; exact Or.inr rfl
  | out s | wild => cases h

/-- `accept` leaves the cells and the handlers alone. -/
theorem accept_frame (x : Input) (m : Mem) :
    (accept x m).1.cells = m.cells ∧ (accept x m).1.started = m.started ∧ (accept x m).1.clientOf = m.clientOf ∧
      (accept x m).2.cell = none ∧ (accept x m).2 ≠ .wild := by
  unfold accept
  split
  · refine ⟨rfl, rfl, rfl, ?_⟩
    split_ifs <;> simp [Main.cell]
  · exact ⟨rfl, rfl, rfl, rfl, by simp⟩

/-- `main` moves on and changes the cells only where no handler is. -/
theorem CellInv.mainMove {c : State} (h : CellInv c) {m : Mem} {l : Main} (hs : m.started = c.mem.started)
    (hc : m.clientOf = c.mem.clientOf) (hl : l ≠ .wild)
    (hcells : ∀ t a, cellAt c.mem t (c.worker t) = some a → m.cells a = c.mem.cells a)
    (hmain : ∀ a v, l.cell = some (a, v) → m.cells a = some v ∧ ∀ t, cellAt c.mem t (c.worker t) ≠ some a) :
    CellInv (c.moveClient () (m, l)) := by
  have hsame : ∀ t, cellAt m t (c.worker t) = cellAt c.mem t (c.worker t) := by
    intro t
    cases hw : c.worker t <;> simp [cellAt, hs]
  refine ⟨fun t ht => ?_, fun t a ha => ?_, fun t t' a ha ha' => ?_, fun a v hv => ?_, fun t s ht => ?_, h.tame, hl⟩
  · change m.started t = none at ht
    rw [hs] at ht
    exact ⟨(h.absent t ht).1, (congrFun hc t).trans (h.absent t ht).2⟩
  · replace ha := (hsame t).symm.trans ha
    obtain ⟨s, hcl, hv⟩ := h.holds t a ha
    exact ⟨s, (congrFun hc t).trans hcl, (hcells t a ha).trans hv⟩
  · exact h.apart t t' a ((hsame t).symm.trans ha) ((hsame t').symm.trans ha')
  · exact ⟨(hmain a v hv).1, fun t ht => (hmain a v hv).2 t ((hsame t).symm.trans ht)⟩
  · exact (congrFun hc t).trans (h.sock t s ht)

/-- A cell that is not allocated is nobody's. -/
theorem CellInv.free_nobody {c : State} (h : CellInv c) {a : ℕ} (ha : c.mem.cells a = none) (t : ℕ) :
    cellAt c.mem t (c.worker t) ≠ some a := by
  intro ht
  obtain ⟨s, -, hv⟩ := h.holds t a ht
  rw [ha] at hv
  cases hv

/-- `main` starts the thread `t` with its cell. -/
theorem CellInv.create {c : State} (h : CellInv c) {s : ℤ} {a t : ℕ} (hm : c.client () = .create s a)
    (ht : c.mem.started t = none) :
    CellInv (c.moveClient () ({ c.mem with
      started := Function.update c.mem.started t (some a)
      clientOf := Function.update c.mem.clientOf t (some s) }, .accept)) := by
  obtain ⟨habsent, -⟩ := h.absent t ht
  obtain ⟨hv, hnobody⟩ := h.main a (some s) (by rw [hm]; rfl)
  set m : Mem := { c.mem with
    started := Function.update c.mem.started t (some a)
    clientOf := Function.update c.mem.clientOf t (some s) } with hmdef
  have hcell : ∀ t' b, cellAt m t' (c.worker t') = some b →
      (t' = t ∧ b = a) ∨ (t' ≠ t ∧ cellAt c.mem t' (c.worker t') = some b) := by
    intro t' b hb
    by_cases htt : t' = t
    · subst htt
      rw [habsent] at hb
      have hta : m.started t' = some a := Function.update_self ..
      exact Or.inl ⟨rfl, Option.some.inj (hb.symm.trans hta)⟩
    · refine Or.inr ⟨htt, ?_⟩
      rw [← hb]
      cases hw : c.worker t' <;> simp [cellAt, hmdef, htt]
  have hclient : ∀ t', t' ≠ t → m.clientOf t' = c.mem.clientOf t' := fun t' htt => Function.update_of_ne htt ..
  refine ⟨fun t' ht' => ?_, fun t' b hb => ?_, fun t' t'' b hb hb' => ?_, fun b v hb => (by cases hb),
    fun t' s' hs' => ?_, h.tame, by rw [moveClient_self]; simp⟩
  · have htt : t' ≠ t := by
      rintro rfl
      rw [show (c.moveClient () (m, .accept)).mem.started t' = some a from Function.update_self ..] at ht'
      cases ht'
    rw [show (c.moveClient () (m, .accept)).mem.started t' = c.mem.started t' from Function.update_of_ne htt ..] at ht'
    exact ⟨(h.absent t' ht').1, (hclient t' htt).trans (h.absent t' ht').2⟩
  · rcases hcell t' b hb with ⟨rfl, rfl⟩ | ⟨htt, hb⟩
    · exact ⟨s, Function.update_self .., hv⟩
    · obtain ⟨s', hs', hv'⟩ := h.holds t' b hb
      exact ⟨s', (hclient t' htt).trans hs', hv'⟩
  · rcases hcell t' b hb with ⟨rfl, rfl⟩ | ⟨-, hb1⟩ <;> rcases hcell t'' b hb' with ⟨rfl, hab⟩ | ⟨-, hb2⟩
    · rfl
    · exact absurd hb2 (hnobody t'')
    · exact absurd hb1 (hab ▸ hnobody t')
    · exact h.apart t' t'' b hb1 hb2
  · have htt : t' ≠ t := by
      rintro rfl
      rw [show (c.moveClient () (m, .accept)).worker t' = .absent from habsent] at hs'
      cases hs'
    exact (hclient t' htt).trans (h.sock t' s' hs')

/-- **A step of `main`.** -/
theorem CellInv.mainStep {c : State} (h : CellInv c) {x : Input} {r : Mem × Main}
    (hs : mainStep x c.mem (c.client ()) = some r) : CellInv (c.moveClient () r) := by
  rcases mainStep_cases hs with ⟨-, rfl⟩ | ⟨s, -, hfree, rfl⟩ | ⟨s, a, hm, ⟨v, hv, rfl⟩ | ⟨hv, -⟩⟩ |
    ⟨s, a, hm, ⟨t, ht, rfl⟩ | rfl⟩
  · obtain ⟨h1, h2, h3, h4, h5⟩ := accept_frame x c.mem
    exact h.mainMove h2 h3 h5 (fun _ a _ => congrFun h1 a) fun a v hv => (by cases h4.symm.trans hv)
  · refine h.mainMove rfl rfl (by simp) (fun t a ha => ?_) fun a v hv => ?_
    · refine Function.update_of_ne ?_ ..
      rintro rfl
      exact h.free_nobody hfree t ha
    · cases hv
      exact ⟨Function.update_self .., h.free_nobody hfree⟩
  · obtain ⟨-, hnobody⟩ := h.main a none (by rw [hm]; rfl)
    refine h.mainMove rfl rfl (by simp) (fun t b hb => ?_) fun b v' hv' => ?_
    · refine Function.update_of_ne ?_ ..
      rintro rfl
      exact hnobody t hb
    · cases hv'
      exact ⟨Function.update_self .., hnobody⟩
  · obtain ⟨hv', -⟩ := h.main a none (by rw [hm]; rfl)
    rw [hv] at hv'
    cases hv'
  · exact h.create hm ht
  · exact h.mainMove rfl rfl (by simp) (fun _ _ _ => rfl) fun a v hv => (by cases hv)

variable {base : Finset ℕ} {limit : ℕ} {c : State}

/-- **The cells in every run.** -/
theorem cellInv_reach (h : Reach (multiServer base limit).lts anyStep c) : CellInv c := by
  refine Program.invariant (I := CellInv) ?_ ?_ ?_ h
  · rintro c rfl
    exact ⟨fun _ _ => ⟨rfl, rfl⟩, fun _ _ ha => (by cases ha), fun _ _ _ ha => (by cases ha),
      fun _ _ hv => (by cases hv), fun _ _ hs => (by cases hs), fun _ => (by simp), by simp⟩
  · intro c t x r _ hi _ hr
    exact hi.handler hr
  · rintro c ⟨⟩ x r _ hi _ hr
    exact hi.mainStep hr

/-! ### The descriptors -/

/-- **The descriptors**: those open when the server began and those it has accepted, each handed to one handler. -/
structure FdInv (base : Finset ℕ) (limit : ℕ) (c : State) : Prop where
  bound : c.mem.limit = limit
  fds : c.mem.fds = base ∪ c.mem.accepted.toFinset
  nodup : c.mem.accepted.Nodup
  fresh : ∀ fd ∈ c.mem.accepted, fd ∉ base ∧ fd < limit
  once : ∀ t t' (fd : ℕ), c.mem.clientOf t = some (fd : ℤ) → c.mem.clientOf t' = some (fd : ℤ) → t = t'
  given : ∀ t (fd : ℕ), c.mem.clientOf t = some (fd : ℤ) → fd ∈ c.mem.accepted
  held : ∀ fd : ℕ, (c.client ()).sock = some (fd : ℤ) → fd ∈ c.mem.accepted ∧ ∀ t, c.mem.clientOf t ≠ some (fd : ℤ)
  loop : ∀ s, c.client () ≠ .out s

/-- The lowest free descriptor is free and below the limit. -/
theorem lowest_spec {m : Mem} {fd : ℕ} (h : lowest m = some fd) : fd ∉ m.fds ∧ fd < m.limit := by
  have hfree := List.find?_some h
  exact ⟨by simpa using hfree, List.mem_range.mp (List.mem_of_find?_eq_some h)⟩

/-- A handler neither opens nor closes a descriptor. -/
theorem handlerStep_frame {t : ℕ} {x : Input} {m : Mem} {l : Handler} {r : Mem × Handler}
    (h : handlerStep t x m l = some r) :
    r.1.limit = m.limit ∧ r.1.fds = m.fds ∧ r.1.accepted = m.accepted ∧ r.1.clientOf = m.clientOf := by
  cases l with
  | absent =>
    obtain ⟨a, -, rfl⟩ := Option.map_eq_some_iff.mp h
    exact ⟨rfl, rfl, rfl, rfl⟩
  | load a | free s a =>
    simp only [handlerStep] at h
    split at h <;> cases h <;> exact ⟨rfl, rfl, rfl, rfl⟩
  | hello s a | type s a | recv s a | echo s a => cases h; exact ⟨rfl, rfl, rfl, rfl⟩
  | done s | wild => cases h

/-- The descriptors are the same, and `main` holds what it held or nothing. -/
theorem FdInv.same {c c' : State} (h : FdInv base limit c) (hl : c'.mem.limit = c.mem.limit)
    (hf : c'.mem.fds = c.mem.fds) (ha : c'.mem.accepted = c.mem.accepted) (hc : c'.mem.clientOf = c.mem.clientOf)
    (hs : ∀ s, (c'.client ()).sock = some s → (c.client ()).sock = some s) (ho : ∀ s, c'.client () ≠ .out s) :
    FdInv base limit c' := by
  refine ⟨hl.trans h.bound, ?_, ?_, ?_, ?_, ?_, fun fd hfd => ?_, ho⟩
  · rw [hf, ha]; exact h.fds
  · rw [ha]; exact h.nodup
  · rw [ha]; exact h.fresh
  · rw [hc]; exact h.once
  · rw [hc, ha]; exact h.given
  · rw [hc, ha]; exact h.held fd (hs _ hfd)

/-- `accept`. -/
theorem FdInv.accept (h : FdInv base limit c) (h0 : 0 ∈ base) (x : Input) :
    FdInv base limit (c.moveClient () (accept x c.mem)) := by
  unfold MultiServer.accept
  split
  · next fd hfd =>
    have hlow : lowest c.mem = some fd := by
      split_ifs at hfd
      exact hfd
    obtain ⟨hfree, hlt⟩ := lowest_spec hlow
    rw [h.fds, Finset.mem_union, not_or] at hfree
    obtain ⟨hbase, hnew⟩ := hfree
    rw [List.mem_toFinset] at hnew
    have hne : fd ≠ 0 := by
      rintro rfl
      exact hbase h0
    rw [if_neg hne]
    refine ⟨h.bound, ?_, ?_, fun f hf => ?_, h.once, fun t f hf => ?_, fun f hf => ?_, fun s => (by
      rw [moveClient_self]; simp)⟩
    · show insert fd c.mem.fds = base ∪ (c.mem.accepted ++ [fd]).toFinset
      rw [h.fds, List.toFinset_append, ← Finset.union_assoc, Finset.insert_eq, Finset.union_comm]
      rfl
    · refine List.nodup_append.mpr ⟨h.nodup, List.nodup_singleton fd, ?_⟩
      rintro a ha b hb rfl
      exact hnew (List.mem_singleton.mp hb ▸ ha)
    · rcases List.mem_append.mp hf with hf | hf
      · exact h.fresh f hf
      · rw [List.mem_singleton.mp hf, ← h.bound]
        exact ⟨hbase, hlt⟩
    · exact List.mem_append_left _ (h.given t f hf)
    · have hff : f = fd := by
        have := Option.some.inj hf
        exact_mod_cast this.symm
      subst hff
      exact ⟨List.mem_append_right _ (List.mem_singleton.mpr rfl), fun t ht => hnew (h.given t f ht)⟩
  · refine ⟨h.bound, h.fds, h.nodup, h.fresh, h.once, h.given, fun f hf => ?_, fun s => (by rw [moveClient_self]; simp)⟩
    have := Option.some.inj hf
    omega

/-- `pthread_create`. -/
theorem FdInv.create (h : FdInv base limit c) {s : ℤ} {a t : ℕ} (hm : c.client () = .create s a) :
    FdInv base limit (c.moveClient () ({ c.mem with
      started := Function.update c.mem.started t (some a)
      clientOf := Function.update c.mem.clientOf t (some s) }, .accept)) := by
  have hmine : ∀ fd : ℕ, s = fd → fd ∈ c.mem.accepted ∧ ∀ t', c.mem.clientOf t' ≠ some (fd : ℤ) := by
    rintro fd rfl
    exact h.held fd (by rw [hm]; rfl)
  have hclient : ∀ t' (fd : ℕ), Function.update c.mem.clientOf t (some s) t' = some (fd : ℤ) →
      (t' = t ∧ s = fd) ∨ c.mem.clientOf t' = some (fd : ℤ) := by
    intro t' fd ht'
    by_cases htt : t' = t
    · subst htt
      rw [Function.update_self] at ht'
      exact Or.inl ⟨rfl, Option.some.inj ht'⟩
    · rw [Function.update_of_ne htt] at ht'
      exact Or.inr ht'
  refine ⟨h.bound, h.fds, h.nodup, h.fresh, fun t' t'' fd hfd hfd' => ?_, fun t' fd h1 => ?_,
    fun fd hfd => (by cases hfd), fun s => (by rw [moveClient_self]; simp)⟩
  · rcases hclient t' fd hfd with ⟨rfl, hs⟩ | h1 <;> rcases hclient t'' fd hfd' with ⟨rfl, hs'⟩ | h2
    · rfl
    · exact absurd h2 ((hmine fd hs).2 t'')
    · exact absurd h1 ((hmine fd hs').2 t')
    · exact h.once t' t'' fd h1 h2
  · rcases hclient t' fd h1 with ⟨-, hs⟩ | h1
    · exact (hmine fd hs).1
    · exact h.given t' fd h1

/-- **The descriptors in every run.** -/
theorem fdInv_reach (h0 : 0 ∈ base) (h : Reach (multiServer base limit).lts anyStep c) : FdInv base limit c := by
  refine Program.invariant (I := FdInv base limit) ?_ ?_ ?_ h
  · rintro c rfl
    exact ⟨rfl, by simp, List.nodup_nil, fun _ hf => (by cases hf), fun _ _ _ ht => (by cases ht),
      fun _ _ ht => (by cases ht), fun _ hf => (by cases hf), fun _ => (by simp)⟩
  · intro c t x r _ hi _ hr
    obtain ⟨h1, h2, h3, h4⟩ := handlerStep_frame hr
    exact hi.same h1 h2 h3 h4 (fun _ hs => hs) hi.loop
  · rintro c ⟨⟩ x r _ hi _ hr
    rcases mainStep_cases hr with ⟨-, rfl⟩ | ⟨s, hm, -, rfl⟩ | ⟨s, a, hm, ⟨v, -, rfl⟩ | ⟨-, rfl⟩⟩ |
      ⟨s, a, hm, ⟨t, -, rfl⟩ | rfl⟩
    · exact hi.accept h0 x
    · exact hi.same rfl rfl rfl rfl (fun _ hs => (by rw [hm]; exact hs)) fun _ => (by rw [moveClient_self]; simp)
    · exact hi.same rfl rfl rfl rfl (fun _ hs => (by rw [hm]; exact hs)) fun _ => (by rw [moveClient_self]; simp)
    · exact hi.same rfl rfl rfl rfl (fun _ hs => (by cases hs)) fun _ => (by rw [moveClient_self]; simp)
    · exact hi.create hm
    · exact hi.same rfl rfl rfl rfl (fun _ hs => (by cases hs)) fun _ => (by rw [moveClient_self]; simp)

/-- The descriptors given out are below the limit, beside those of the beginning. -/
theorem FdInv.count (h : FdInv base limit c) (hb : base ⊆ Finset.range limit) :
    c.mem.fds.card = base.card + c.mem.accepted.length ∧ c.mem.fds ⊆ Finset.range limit := by
  have hdisj : Disjoint base c.mem.accepted.toFinset := by
    refine Finset.disjoint_right.mpr fun fd hfd => ?_
    exact (h.fresh fd (List.mem_toFinset.mp hfd)).1
  refine ⟨?_, ?_⟩
  · rw [h.fds, Finset.card_union_of_disjoint hdisj, List.toFinset_card_of_nodup h.nodup]
  · rw [h.fds]
    refine Finset.union_subset hb fun fd hfd => ?_
    exact Finset.mem_range.mpr (h.fresh fd (List.mem_toFinset.mp hfd)).2

/-- When the limit is used up, `accept` fails, and `main` goes on with the descriptor `-1`. -/
theorem accept_used_up {m : Mem} (h : m.fds = Finset.range m.limit) (x : Input) : accept x m = (m, .malloc (-1)) := by
  have hnone : lowest m = none := by
    refine List.find?_eq_none.mpr fun fd hfd => ?_
    simpa [h] using List.mem_range.mp hfd
  unfold accept
  rw [hnone, ite_self]

/-- **The handlers keep apart.** Whatever the order of the steps, a handler talks to the connection it was started
for, no two of them to the same one, no handler reads or frees a cell that is not its own, and `main` does not leave
its loop. No descriptor is ever given back: the connections ever accepted are limited by the number of descriptors,
and once they are used up every round of the loop starts a handler for the descriptor `-1`. -/
theorem handlers_keep_apart (h0 : 0 ∈ base) (hb : base ⊆ Finset.range limit)
    (h : Reach (multiServer base limit).lts anyStep c) :
    (∀ t s, (c.worker t).sock = some s → c.mem.clientOf t = some s) ∧
    (∀ t t' s, 0 ≤ s → (c.worker t).sock = some s → (c.worker t').sock = some s → t = t') ∧
    (∀ t t' a, (c.worker t).cell = some a → (c.worker t').cell = some a → t = t') ∧
    (∀ t, c.worker t ≠ .wild) ∧ c.client () ≠ .wild ∧ (∀ s, c.client () ≠ .out s) ∧
    c.mem.fds = base ∪ c.mem.accepted.toFinset ∧ base.card + c.mem.accepted.length ≤ limit ∧
    (base.card + c.mem.accepted.length = limit → ∀ x, accept x c.mem = (c.mem, .malloc (-1))) := by
  have hcell := cellInv_reach h
  have hfd := fdInv_reach h0 h
  obtain ⟨hcard, hsub⟩ := hfd.count hb
  have hlimit : (Finset.range limit).card = limit := Finset.card_range limit
  refine ⟨hcell.sock, fun t t' s hs ht ht' => ?_, fun t t' a ht ht' => ?_, hcell.tame, hcell.mainTame, hfd.loop,
    hfd.fds, ?_, fun hfull x => ?_⟩
  · lift s to ℕ using hs
    exact hfd.once t t' s (hcell.sock t s ht) (hcell.sock t' s ht')
  · exact hcell.apart t t' a (cellAt_of_cell ht) (cellAt_of_cell ht')
  · have := Finset.card_le_card hsub
    omega
  · refine accept_used_up ?_ x
    rw [hfd.bound]
    exact Finset.eq_of_subset_of_card_le hsub (by omega)

/-- Two connections and a failed `accept`: the second handler is started while the first still waits to read its
cell. -/
def threeRounds : List ((ℕ ⊕ Unit) × Input) :=
  [(.inr (), {}), (.inr (), { addr := 7 }), (.inr (), {}), (.inr (), { thread := some 0 }),
    (.inr (), {}), (.inr (), { addr := 8 }), (.inr (), {}), (.inr (), { thread := some 1 }),
    (.inl 1, {}), (.inl 1, {}), (.inl 0, {}), (.inl 0, {}),
    (.inr (), {}), (.inr (), { addr := 9 }), (.inr (), {}), (.inr (), { thread := some 2 }), (.inl 2, {}), (.inl 2, {})]

/-- The handlers of `threeRounds` serve the connections `4`, `5` and `-1`. -/
theorem handlers_keep_apart_threeRounds : ∃ c : State,
    (c.worker 0 = .hello 4 7 ∧ c.worker 1 = .hello 5 8 ∧ c.worker 2 = .hello (-1) 9) ∧
      ({0, 1, 2, 3} : Finset ℕ).card + c.mem.accepted.length ≤ 6 := by
  obtain ⟨c, hr, hp⟩ := reach_of_run (multiServer {0, 1, 2, 3} 6).lts anyStep_of_test threeRounds
    (fun c => decide (c.worker 0 = .hello 4 7 ∧ c.worker 1 = .hello 5 8 ∧ c.worker 2 = .hello (-1) 9)) rfl
    (by decide +kernel)
  exact ⟨c, of_decide_eq_true hp, (handlers_keep_apart (by decide) (by decide) hr).2.2.2.2.2.2.2.1⟩

end PoolStudy.NetworkProgramming.MultiServer
