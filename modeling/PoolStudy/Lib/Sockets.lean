import Mathlib.Data.List.Basic
import Mathlib.Logic.Function.Basic
import Mathlib.Tactic.Common

/-! # Stream sockets and edge-triggered notification

The sockets of one process: a listening socket with its backlog, and a table of connections. The network adds
connections to the backlog and bytes to the receive buffers, or ends them (`Net.happen`). A registered socket has
an edge flag: it is set by whatever happens on the socket, and on registration if there is something to report.
`Net.epollWait` picks sockets with a flag, clears the flags and reports those that are ready.

`received` and `served` are history: the bytes that have arrived, and those that the process has written for
them. `past` are the connections that have been closed.

* `All`: a predicate of all connections in the table, with a rule for every operation.
* `Fresh`: a connection in the backlog is as it arrived. -/

namespace PoolStudy.Lib.Sockets

variable {α : Type}

/-! ### Connections -/

/-- A connection. -/
structure Stream (α : Type) where
  received : List α := []
  served : List α := []
  buffer : List α := []
  eof : Bool := false
  error : Bool := false
  registered : Bool := false
  edge : Bool := false

/-- What can happen on a connection. -/
inductive Arrival (α : Type)
  | data (l : List α)
  | close
  | reset

/-- Nothing arrives after the end. -/
def Stream.arrive (s : Stream α) : Arrival α → Stream α
  | .data l =>
    if s.eof || s.error then s
    else { s with received := s.received ++ l, buffer := s.buffer ++ l, edge := s.registered }
  | .close => { s with eof := true, edge := s.registered }
  | .reset => { s with error := true, edge := s.registered }

/-- The events of a report. -/
structure Mask where
  input : Bool
  err : Bool
  hup : Bool
  deriving DecidableEq

def Mask.any (k : Mask) : Bool := k.input || k.err || k.hup

def Stream.mask (s : Stream α) : Mask := ⟨!s.buffer.isEmpty || s.eof || s.error, s.error, s.error⟩

theorem Stream.mask_any {s : Stream α} (h : s.buffer ≠ []) : s.mask.any = true := by
  simp [Stream.mask, Mask.any, h]

/-- The connection is as it arrived. -/
structure Stream.Fresh (s : Stream α) : Prop where
  served : s.served = []
  buffer : s.received = s.buffer
  registered : s.registered = false

theorem Stream.Fresh.arrive {s : Stream α} (h : s.Fresh) (a : Arrival α) : (s.arrive a).Fresh := by
  cases a with
  | data l =>
    simp only [Stream.arrive]
    split_ifs
    · exact h
    · exact ⟨h.served, by simp only [h.buffer], h.registered⟩
  | close => exact ⟨h.served, h.buffer, h.registered⟩
  | reset => exact ⟨h.served, h.buffer, h.registered⟩

/-- What arrives is in the buffer, behind what was there. -/
theorem Stream.arrive_kept {s : Stream α} {l : List α} (h : s.received = s.served ++ l ++ s.buffer)
    (a : Arrival α) : (s.arrive a).received = (s.arrive a).served ++ l ++ (s.arrive a).buffer := by
  cases a with
  | data l' =>
    simp only [Stream.arrive]
    split_ifs
    · exact h
    · simp only [h, List.append_assoc]
  | close => exact h
  | reset => exact h

/-- What is unread on a registered connection is announced, if it was before. -/
theorem Stream.arrive_covered {s : Stream α} {p : Prop}
    (h : s.registered = true → s.buffer ≠ [] → s.edge = true ∨ p) (a : Arrival α) :
    (s.arrive a).registered = true → (s.arrive a).buffer ≠ [] → (s.arrive a).edge = true ∨ p := by
  cases a with
  | data l =>
    simp only [Stream.arrive]
    split_ifs
    · exact h
    · exact fun hr _ => Or.inl hr
  | close => exact fun hr _ => Or.inl hr
  | reset => exact fun hr _ => Or.inl hr

/-- A connection at its end stays there. -/
theorem Stream.arrive_over {s : Stream α} (h : s.error = true ∨ s.eof = true ∧ s.buffer = []) (a : Arrival α) :
    (s.arrive a).error = true ∨ (s.arrive a).eof = true ∧ (s.arrive a).buffer = [] := by
  cases a with
  | data l =>
    have hend : (s.eof || s.error) = true := by
      rcases h with h | h
      · rw [h, Bool.or_true]
      · rw [h.1, Bool.true_or]
    simp only [Stream.arrive, hend, if_true]
    exact h
  | close => exact h.imp_right fun h => ⟨rfl, h.2⟩
  | reset => exact Or.inl rfl

theorem Stream.arrive_registered (s : Stream α) (a : Arrival α) :
    (s.arrive a).registered = s.registered := by
  cases a with
  | data l =>
    simp only [Stream.arrive]
    split_ifs <;> rfl
  | close => rfl
  | reset => rfl

/-! ### The sockets of a process -/

/-- The listening socket and the connections, by descriptor. -/
structure Net (α : Type) where
  listening : Bool
  listenError : Bool
  listenEdge : Bool
  backlog : List (Stream α)
  file : ℕ → Option (Stream α)
  past : List (Stream α)

/-- A process that listens and has no connections. -/
def Net.start : Net α := ⟨true, false, false, [], fun _ => none, []⟩

/-- One connection changes. -/
def Net.onFd (k : Net α) (fd : ℕ) (f : Stream α → Stream α) : Net α :=
  { k with file := Function.update k.file fd ((k.file fd).map f) }

/-- What the network does: a connection is made, something happens on a connection in the backlog or in the
table, or on the listening socket. -/
inductive Happening (α : Type)
  | connect
  | pending (i : ℕ) (a : Arrival α)
  | onFile (fd : ℕ) (a : Arrival α)
  | listenError

def Net.happen (k : Net α) : Happening α → Net α
  | .connect => if k.listening then { k with backlog := k.backlog ++ [{}], listenEdge := true } else k
  | .pending i a => { k with backlog := k.backlog.mapIdx fun j s => if j = i then s.arrive a else s }
  | .onFile fd a => k.onFd fd (·.arrive a)
  | .listenError => { k with listenError := true, listenEdge := true }

/-- A report. -/
structure Event where
  fd : ℕ
  mask : Mask
  deriving DecidableEq

section Poll

variable (lfd : ℕ) (k : Net α)

/-- The edge flag of a descriptor; `lfd` is the listening socket. -/
def Net.edge (fd : ℕ) : Bool :=
  if fd = lfd then k.listening && k.listenEdge else (k.file fd).any (·.edge)

def Net.mask (fd : ℕ) : Mask :=
  if fd = lfd then ⟨!k.backlog.isEmpty, k.listenError, false⟩
  else ((k.file fd).map Stream.mask).getD ⟨false, false, false⟩

/-- The flags of the descriptors `picked` are cleared. -/
def Net.clear (picked : List ℕ) : Net α :=
  { k with
    listenEdge := k.listenEdge && !decide (lfd ∈ picked)
    file := fun fd => (k.file fd).map fun s => { s with edge := s.edge && !decide (fd ∈ picked) } }

/-- The reports of the descriptors `picked` that are ready. -/
def Net.reports (picked : List ℕ) : List Event :=
  (picked.map fun fd => ⟨fd, k.mask lfd fd⟩).filter (·.mask.any)

/-- **`epoll_wait`**: what it returns if it takes the descriptors `picked` off the ready list. -/
def Net.epollWait (maxevents : ℕ) (picked : List ℕ) : Option (Net α × List Event) :=
  if picked.Nodup ∧ (∀ fd ∈ picked, k.edge lfd fd = true) ∧ (k.reports lfd picked).length ≤ maxevents then
    some (k.clear lfd picked, k.reports lfd picked)
  else none

/-- **`accept`** returns the descriptor `fd`, which must be free. -/
def Net.accept (fd : ℕ) : Option (Net α) :=
  match k.backlog with
  | [] => none
  | s :: q =>
    if fd = lfd ∨ (k.file fd).isSome then none
    else some { k with backlog := q, file := Function.update k.file fd (some s) }

/-- **`close`.** -/
def Net.close (fd : ℕ) : Net α :=
  if fd = lfd then { k with listening := false, listenEdge := false, backlog := [] }
  else { k with file := Function.update k.file fd none, past := k.past ++ (k.file fd).toList }

end Poll

/-- The process ends, and with it all its descriptors. -/
def Net.ended (k : Net α) : Net α :=
  { k with listening := false, listenEdge := false, backlog := [], file := fun _ => none }

/-- **`epoll_ctl(EPOLL_CTL_ADD)`.** -/
def Net.register (k : Net α) (fd : ℕ) : Net α :=
  k.onFd fd fun s => { s with registered := true, edge := s.mask.any }

/-- What `read` returns. -/
inductive ReadResult (α : Type)
  | data (l : List α)
  | eof
  | again
  | error

/-- **`read`** of at most `n` bytes. On a connection that has been reset, `fail` says whether it fails at once or
only when the buffer is empty. -/
def Net.read (k : Net α) (fd n : ℕ) (fail : Bool) : ReadResult α :=
  match k.file fd with
  | none => .error
  | some s =>
    if s.error && fail then .error
    else if !s.buffer.isEmpty then .data (s.buffer.take n)
    else if s.error then .error
    else if s.eof then .eof
    else .again

/-- The bytes that a `read` of at most `n` bytes returns leave the buffer. -/
def Net.taken (k : Net α) (fd n : ℕ) : Net α := k.onFd fd fun s => { s with buffer := s.buffer.drop n }

/-- The process has written the bytes `l` for the connection. -/
def Net.serve (k : Net α) (fd : ℕ) (l : List α) : Net α := k.onFd fd fun s => { s with served := s.served ++ l }

/-! ### Rules -/

section Rules

variable {lfd : ℕ} {k k' : Net α} {P Q : ℕ → Stream α → Prop}

/-- All connections in the table satisfy `P`. -/
def Net.All (P : ℕ → Stream α → Prop) (k : Net α) : Prop := ∀ fd s, k.file fd = some s → P fd s

/-- **One entry of the table changes.** -/
theorem Net.All.update {fd : ℕ} {o : Option (Stream α)} (h : k.All P) (hfile : k'.file = Function.update k.file fd o)
    (hfd : ∀ s, o = some s → Q fd s) (hother : ∀ fd' s, fd' ≠ fd → P fd' s → Q fd' s) : k'.All Q := by
  intro fd' s hs
  rw [hfile] at hs
  by_cases he : fd' = fd
  · subst he
    rw [Function.update_self] at hs
    exact hfd s hs
  · rw [Function.update_of_ne he] at hs
    exact hother fd' s he (h fd' s hs)

theorem Net.All.onFd {fd : ℕ} {f : Stream α → Stream α} (h : k.All P)
    (hfd : ∀ s, k.file fd = some s → P fd s → Q fd (f s)) (hother : ∀ fd' s, fd' ≠ fd → P fd' s → Q fd' s) :
    (k.onFd fd f).All Q := by
  refine h.update rfl (fun s hs => ?_) hother
  obtain ⟨s0, hs0, rfl⟩ := Option.map_eq_some_iff.mp hs
  exact hfd s0 hs0 (h fd s0 hs0)

theorem Net.All.mono (h : k.All P) (hPQ : ∀ fd s, P fd s → Q fd s) : k.All Q := fun fd s hs => hPQ fd s (h fd s hs)

/-- **The network** keeps what an arrival keeps. -/
theorem Net.All.happen (h : k.All P) (x : Happening α) (ha : ∀ fd s a, P fd s → P fd (s.arrive a)) :
    (k.happen x).All P := by
  cases x with
  | connect =>
    simp only [Net.happen]
    split_ifs
    · exact h
    · exact h
  | pending i a => exact h
  | onFile fd a => exact h.onFd (fun s _ hs => ha fd s a hs) fun _ _ _ hs => hs
  | listenError => exact h

/-- **The flags are cleared.** -/
theorem Net.All.clear {picked : List ℕ} (h : k.All P)
    (hc : ∀ fd s, k.file fd = some s → P fd s → Q fd { s with edge := s.edge && !decide (fd ∈ picked) }) :
    (k.clear lfd picked).All Q := by
  intro fd s hs
  obtain ⟨s0, hs0, rfl⟩ := Option.map_eq_some_iff.mp hs
  exact hc fd s0 hs0 (h fd s0 hs0)

/-- **A descriptor is closed.** -/
theorem Net.All.close {fd : ℕ} (h : k.All P) (hl : ∀ fd' s, P fd' s → fd' ≠ lfd)
    (hother : ∀ fd' s, fd' ≠ fd → P fd' s → Q fd' s) : (k.close lfd fd).All Q := by
  unfold Net.close
  split_ifs with he
  · exact h.mono fun fd' s hs => hother fd' s (he ▸ hl fd' s hs) hs
  · exact h.update rfl (fun s hs => (by cases hs)) hother

theorem Net.accept_some {fd : ℕ} (h : k.accept lfd fd = some k') :
    ∃ s q, k.backlog = s :: q ∧ fd ≠ lfd ∧ k.file fd = none ∧
      k' = { k with backlog := q, file := Function.update k.file fd (some s) } := by
  unfold Net.accept at h
  split at h
  · cases h
  · next s q hb =>
    split_ifs at h with hfd
    simp only [not_or, Option.not_isSome_iff_eq_none] at hfd
    exact ⟨s, q, hb, hfd.1, hfd.2, (Option.some.inj h).symm⟩

theorem Net.epollWait_some {maxevents : ℕ} {picked : List ℕ} {evs : List Event}
    (h : k.epollWait lfd maxevents picked = some (k', evs)) :
    picked.Nodup ∧ (∀ fd ∈ picked, k.edge lfd fd = true) ∧ k' = k.clear lfd picked ∧
      evs = k.reports lfd picked := by
  unfold Net.epollWait at h
  split_ifs at h with hc
  cases h
  exact ⟨hc.1, hc.2.1, rfl, rfl⟩

/-- A connection with unread bytes that is picked is reported. -/
theorem Net.mem_reports {fd : ℕ} {s : Stream α} {picked : List ℕ} (hne : fd ≠ lfd) (hs : k.file fd = some s)
    (hb : s.buffer ≠ []) (hp : fd ∈ picked) : fd ∈ (k.reports lfd picked).map Event.fd := by
  refine List.mem_map.mpr ⟨⟨fd, k.mask lfd fd⟩, List.mem_filter.mpr ⟨List.mem_map.mpr ⟨fd, hp, rfl⟩, ?_⟩, rfl⟩
  simp only [Net.mask, hne, if_false, hs, Option.map_some, Option.getD_some]
  exact Stream.mask_any hb

/-- The listening socket is reported if it is picked and there are connections in the backlog. -/
theorem Net.listen_mem_reports {picked : List ℕ} (hb : k.backlog ≠ []) (hp : lfd ∈ picked) :
    lfd ∈ (k.reports lfd picked).map Event.fd := by
  refine List.mem_map.mpr ⟨⟨lfd, k.mask lfd lfd⟩, List.mem_filter.mpr ⟨List.mem_map.mpr ⟨lfd, hp, rfl⟩, ?_⟩, rfl⟩
  simp [Net.mask, Mask.any, hb]

/-- What is reported has been picked, each descriptor once. -/
theorem Net.reports_sublist (lfd : ℕ) (k : Net α) (picked : List ℕ) :
    ((k.reports lfd picked).map Event.fd).Sublist picked := by
  have h : (picked.map fun fd => (⟨fd, k.mask lfd fd⟩ : Event)).map Event.fd = picked := by
    rw [List.map_map]
    exact List.map_id picked
  have hsub := (List.filter_sublist (p := fun e : Event => e.mask.any)
    (l := picked.map fun fd => (⟨fd, k.mask lfd fd⟩ : Event))).map Event.fd
  rwa [h] at hsub

/-- The operations on one connection open and close none. -/
theorem Net.onFd_isSome (k : Net α) (fd : ℕ) (f : Stream α → Stream α) (fd' : ℕ) :
    ((k.onFd fd f).file fd').isSome = (k.file fd').isSome := by
  by_cases he : fd' = fd
  · subst he
    simp [Net.onFd]
  · simp [Net.onFd, he]

theorem Net.clear_isSome (lfd : ℕ) (k : Net α) (picked : List ℕ) (fd : ℕ) :
    ((k.clear lfd picked).file fd).isSome = (k.file fd).isSome := by
  simp [Net.clear]

theorem Net.happen_isSome (k : Net α) (x : Happening α) (fd : ℕ) :
    ((k.happen x).file fd).isSome = (k.file fd).isSome := by
  cases x with
  | connect =>
    simp only [Net.happen]
    split_ifs <;> rfl
  | pending i a => rfl
  | onFile fd' a => exact k.onFd_isSome fd' _ fd
  | listenError => rfl

/-- The backlog holds connections as they arrived. -/
def Net.FreshBacklog (k : Net α) : Prop := ∀ s ∈ k.backlog, s.Fresh

theorem Net.FreshBacklog.happen (h : k.FreshBacklog) (x : Happening α) : (k.happen x).FreshBacklog := by
  cases x with
  | connect =>
    simp only [Net.happen]
    split_ifs
    · intro s hs
      rcases List.mem_append.mp hs with hs | hs
      · exact h s hs
      · rw [List.mem_singleton.mp hs]
        exact ⟨rfl, rfl, rfl⟩
    · exact h
  | pending i a =>
    intro s hs
    obtain ⟨j, hj, rfl⟩ := List.mem_mapIdx.mp hs
    have hfresh := h k.backlog[j] (List.getElem_mem hj)
    split_ifs
    · exact hfresh.arrive a
    · exact hfresh
  | onFile fd a => exact h
  | listenError => exact h

/-- What a `read` can return, and when. -/
inductive ReadOutcome (k : Net α) (fd n : ℕ) (fail : Bool) : ReadResult α → Prop
  | data {s : Stream α} (h : k.file fd = some s) (hb : s.buffer ≠ []) (hok : ¬ (s.error = true ∧ fail = true)) :
      ReadOutcome k fd n fail (.data (s.buffer.take n))
  | eof {s : Stream α} (h : k.file fd = some s) (hb : s.buffer = []) (he : s.eof = true) :
      ReadOutcome k fd n fail .eof
  | again {s : Stream α} (h : k.file fd = some s) (hb : s.buffer = []) : ReadOutcome k fd n fail .again
  | error (h : ∀ s, k.file fd = some s → s.error = true ∧ (fail = true ∨ s.buffer = [])) :
      ReadOutcome k fd n fail .error

theorem Net.read_cases (k : Net α) (fd n : ℕ) (fail : Bool) : ReadOutcome k fd n fail (k.read fd n fail) := by
  unfold Net.read
  split
  · next h => exact .error fun s hs => (by cases h.symm.trans hs)
  · next s h =>
    have herr : s.error = true → fail = true ∨ s.buffer = [] → ReadOutcome k fd n fail .error := fun he hf =>
      .error fun s' hs' => by rw [Option.some.inj (hs'.symm.trans h)]; exact ⟨he, hf⟩
    split_ifs with h1 h2 h3 h4
    · exact herr (Bool.and_eq_true_iff.mp h1).1 (Or.inl (Bool.and_eq_true_iff.mp h1).2)
    · exact .data h (by simpa using h2) (by simpa using h1)
    · exact herr h3 (Or.inr (by simpa using h2))
    · exact .eof h (by simpa using h2) h4
    · exact .again h (by simpa using h2)

end Rules

end PoolStudy.Lib.Sockets
