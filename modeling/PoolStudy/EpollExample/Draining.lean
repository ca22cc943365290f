import PoolStudy.EpollExample.Model

/-! # The epoll example drains what it is told of

A flag that `epoll_wait` has cleared is not set again for the same bytes, so the loop must not turn away from a
connection with bytes left. `StreamInv` says where the bytes of a connection are and who is going to read those
that are unread; a step of the loop (`LoopInv.loop`) and of the network (`LoopInv.happen`) keeps it. -/

namespace PoolStudy.EpollExample.Draining

open PoolStudy.Lib.Transition PoolStudy.Lib.Sockets PoolStudy.EpollExample.Model

/-! ### Where the loop is -/

/-- The events of the batch that have not been handled. -/
def rest : Loc → List Event
  | .wait | .aborted => []
  | .events r | .accept r | .nonBlocking _ r | .ctlAdd _ r | .read _ r | .write _ _ r | .close _ r => r

/-- The connection that is being drained. -/
def current : Loc → Option ℕ
  | .read fd _ | .write fd _ _ | .close fd _ => some fd
  | _ => none

/-- The connection that is about to be closed. -/
def closing : Loc → Option ℕ
  | .close fd _ => some fd
  | _ => none

/-- The connection that has been accepted but not registered. -/
def adding : Loc → Option ℕ
  | .nonBlocking fd _ | .ctlAdd fd _ => some fd
  | _ => none

/-- The bytes that have been read from the connection `fd` but not written. -/
def hand : Loc → ℕ → List Byte
  | .write fd' buf _, fd => if fd = fd' then buf else []
  | _, _ => []

/-- The loop is about to handle the connection, or does. -/
def attended (l : Loc) (fd : ℕ) : Prop := fd ∈ (rest l).map Event.fd ∨ current l = some fd

/-! ### The invariant -/

/-- **A connection**: its bytes have been written, are about to be, or are unread; and if there are unread ones,
its flag is set or the loop attends to it. -/
structure StreamInv (sfd : ℕ) (l : Loc) (fd : ℕ) (s : Stream Byte) : Prop where
  ne : fd ≠ sfd
  kept : s.received = s.served ++ hand l fd ++ s.buffer
  covered : s.registered = true → s.buffer ≠ [] → s.edge = true ∨ attended l fd
  adding : s.registered = false → adding l = some fd

/-- **The invariant.** -/
structure LoopInv (sfd : ℕ) (k : Net Byte) (l : Loc) : Prop where
  streams : k.All (StreamInv sfd l)
  backlog : k.FreshBacklog
  past : ∀ s ∈ k.past, s.served <+: s.received

theorem StreamInv.arrive {sfd fd : ℕ} {l : Loc} {s : Stream Byte} (h : StreamInv sfd l fd s) (a : Arrival Byte) :
    StreamInv sfd l fd (s.arrive a) :=
  ⟨h.ne, s.arrive_kept h.kept a, s.arrive_covered h.covered a, by rw [s.arrive_registered]; exact h.adding⟩

/-- The loop goes on and still attends to the connection. -/
theorem StreamInv.go {sfd fd : ℕ} {l l' : Loc} {s : Stream Byte} (h : StreamInv sfd l fd s)
    (hh : hand l' fd = hand l fd) (ha : attended l fd → attended l' fd)
    (hadd : Draining.adding l = some fd → Draining.adding l' = some fd) : StreamInv sfd l' fd s :=
  ⟨h.ne, by rw [hh]; exact h.kept, fun hr hb => (h.covered hr hb).imp_right ha, fun hr => hadd (h.adding hr)⟩

theorem StreamInv.written {sfd fd : ℕ} {l : Loc} {s : Stream Byte} (h : StreamInv sfd l fd s) :
    s.served <+: s.received := by
  rw [h.kept, List.append_assoc]
  exact List.prefix_append _ _

theorem LoopInv.happen {sfd : ℕ} {k : Net Byte} {l : Loc} (h : LoopInv sfd k l) (x : Happening Byte) :
    LoopInv sfd (k.happen x) l := by
  refine ⟨h.streams.happen x fun fd s a hs => hs.arrive a, h.backlog.happen x, ?_⟩
  cases x with
  | connect =>
    simp only [Net.happen]
    split_ifs
    · exact h.past
    · exact h.past
  | pending | onFile | listenError => exact h.past

/-! ### Steps -/

/-- Nothing changes but where the loop is. -/
theorem LoopInv.go {sfd : ℕ} {k : Net Byte} {l l' : Loc} (h : LoopInv sfd k l)
    (hgo : ∀ fd s, k.file fd = some s → StreamInv sfd l fd s → StreamInv sfd l' fd s) : LoopInv sfd k l' :=
  ⟨fun fd s hs => hgo fd s hs (h.streams fd s hs), h.backlog, h.past⟩

/-- **`epoll_wait` returns**: a connection that was picked and has unread bytes is in the batch. -/
theorem LoopInv.wait {sfd : ℕ} {k k' : Net Byte} {evs : List Event} {picked : List ℕ} {n : ℕ} {l' : Loc}
    (h : LoopInv sfd k .wait) (hw : k.epollWait sfd n picked = some (k', evs)) (hl : l' = .events evs ∨
      l' = .wait ∧ evs = []) : LoopInv sfd k' l' := by
  obtain ⟨-, -, rfl, rfl⟩ := Net.epollWait_some hw
  have hrest : rest l' = k.reports sfd picked := by
    rcases hl with rfl | ⟨rfl, he⟩
    · rfl
    · exact he.symm
  have hloc : (∀ fd, hand l' fd = []) ∧ Draining.adding l' = none := by
    rcases hl with rfl | ⟨rfl, -⟩ <;> exact ⟨fun _ => rfl, rfl⟩
  refine ⟨h.streams.clear fun fd s hs hi => ⟨hi.ne, ?_, fun hr hb => ?_, fun hr => ?_⟩, h.backlog, h.past⟩
  · rw [hloc.1]
    exact hi.kept
  · by_cases hp : fd ∈ picked
    · right; left
      rw [hrest]
      exact Net.mem_reports hi.ne hs hb hp
    · rcases hi.covered hr hb with he | ha
      · exact Or.inl (by simp [he, hp])
      · rcases ha with ha | ha
        · cases ha
        · cases ha
  · cases hi.adding hr

/-- **A descriptor is closed.** -/
theorem LoopInv.close {sfd fd : ℕ} {k : Net Byte} {l l' : Loc} (h : LoopInv sfd k l)
    (hgo : ∀ fd' s, fd' ≠ fd → StreamInv sfd l fd' s → StreamInv sfd l' fd' s) : LoopInv sfd (k.close sfd fd) l' := by
  refine ⟨h.streams.close (fun fd' s hs => hs.ne) hgo, ?_, ?_⟩
  · unfold Net.close
    split_ifs
    · intro s hs
      cases hs
    · exact h.backlog
  · unfold Net.close
    split_ifs
    · exact h.past
    · intro s hs
      rcases List.mem_append.mp hs with hs | hs
      · exact h.past s hs
      · exact (h.streams fd s (Option.mem_toList.mp hs)).written

/-- **A connection is accepted.** -/
theorem LoopInv.accept {sfd fd : ℕ} {k k' : Net Byte} {r : List Event} (h : LoopInv sfd k (.accept r))
    (ha : k.accept sfd fd = some k') : LoopInv sfd k' (.nonBlocking fd r) := by
  obtain ⟨s, q, hb, hne, -, rfl⟩ := Net.accept_some ha
  have hfresh := h.backlog s (by rw [hb]; exact List.mem_cons_self)
  refine ⟨h.streams.update rfl ?_ ?_, fun s' hs' => h.backlog s' (by rw [hb]; exact List.mem_cons_of_mem _ hs'),
    h.past⟩
  · intro s' hs'
    obtain rfl := Option.some.inj hs'
    refine ⟨hne, ?_, fun hr => ?_, fun _ => rfl⟩
    · rw [hfresh.served, hfresh.buffer]
      rfl
    · rw [hfresh.registered] at hr
      cases hr
  · exact fun fd' s' _ hi => hi.go rfl id fun hadd => by cases hadd

/-- **It is registered.** -/
theorem LoopInv.ctlAdd {sfd fd : ℕ} {k : Net Byte} {r : List Event} (h : LoopInv sfd k (.ctlAdd fd r)) :
    LoopInv sfd (k.register fd) (.accept r) := by
  refine ⟨h.streams.onFd (fun s _ hi => ⟨hi.ne, hi.kept, fun _ hb => ?_, fun hr => (by cases hr)⟩) ?_, h.backlog,
    h.past⟩
  · exact Or.inl (Stream.mask_any hb)
  · refine fun fd' s hne hi => hi.go rfl id fun hadd => ?_
    exact absurd (Option.some.inj hadd).symm hne

/-- **Bytes are read.** -/
theorem LoopInv.data {sfd fd n : ℕ} {k : Net Byte} {r : List Event} {s : Stream Byte}
    (h : LoopInv sfd k (.read fd r)) (hs : k.file fd = some s) :
    LoopInv sfd (k.taken fd n) (.write fd (s.buffer.take n) r) := by
  refine ⟨h.streams.onFd (fun s' hs' hi => ?_) fun fd' s' hne hi => ?_, h.backlog, h.past⟩
  · obtain rfl := Option.some.inj (hs'.symm.trans hs)
    refine ⟨hi.ne, ?_, fun _ _ => Or.inr (Or.inr rfl), hi.adding⟩
    simp only [hand, if_true, List.append_assoc, List.take_append_drop]
    simpa [hand] using hi.kept
  · exact hi.go (by simp [hand, hne]) id id

/-- **They are written.** -/
theorem LoopInv.write {sfd fd : ℕ} {k : Net Byte} {buf : List Byte} {r : List Event}
    (h : LoopInv sfd k (.write fd buf r)) : LoopInv sfd (k.serve fd buf) (.read fd r) := by
  refine ⟨h.streams.onFd (fun s _ hi => ?_) fun fd' s hne hi => ?_, h.backlog, h.past⟩
  · refine ⟨hi.ne, ?_, fun _ _ => Or.inr (Or.inr rfl), hi.adding⟩
    simpa [hand] using hi.kept
  · exact hi.go (by simp [hand, hne]) id id

/-- **A step of the loop** keeps the invariant. -/
theorem LoopInv.loop {sfd : ℕ} {x : Input} {k k' : Net Byte} {l l' : Loc} (h : LoopInv sfd k l)
    (hs : LoopStep sfd x k l k' l') : LoopInv sfd k' l' := by
  cases hs with
  | interrupted => exact h
  | idle hw => exact h.wait hw (Or.inr ⟨rfl, rfl⟩)
  | batch hw => exact h.wait hw (Or.inl rfl)
  | endBatch => exact h.go fun fd s _ hi => hi.go rfl id id
  | epollError e r =>
    refine h.close fun fd' s hne hi => hi.go rfl (fun ha => ?_) id
    exact ha.imp_left fun hm => (List.mem_cons.mp hm).resolve_left hne
  | incoming e r he =>
    refine h.go fun fd s _ hi => hi.go rfl (fun ha => ?_) id
    exact ha.imp_left fun hm => (List.mem_cons.mp hm).resolve_left fun hfd => hi.ne (hfd.trans he.symm)
  | readable e r =>
    refine h.go fun fd s _ hi => hi.go rfl (fun ha => ?_) id
    rcases ha with hm | hc
    · rcases List.mem_cons.mp hm with hfd | hm
      · exact Or.inr (congrArg some hfd.symm)
      · exact Or.inl hm
    · cases hc
  | noAccept r => exact h.go fun fd s _ hi => hi.go rfl id id
  | accept r ha => exact h.accept ha
  | nonBlocking fd r => exact h.go fun fd s _ hi => hi.go rfl id id
  | ctlAdd fd r => exact h.ctlAdd
  | done fd r => exact h.go fun fd s _ hi => hi.go rfl id id
  | again fd r hf hb =>
    refine h.go fun fd' s hs hi => ⟨hi.ne, hi.kept, fun hr hne => ?_, hi.adding⟩
    rcases hi.covered hr hne with he | hm | hc
    · exact Or.inl he
    · exact Or.inr (Or.inl hm)
    · -- the connection that is left has no unread bytes
      obtain rfl := Option.some.inj hc
      obtain rfl := Option.some.inj (hs.symm.trans hf)
      exact absurd hb hne
  | data fd r hf => exact h.data hf
  | write fd buf r => exact h.write
  | close fd r =>
    refine h.close fun fd' s hne hi => hi.go rfl (fun ha => ?_) id
    refine Or.inl (ha.resolve_right fun hc => ?_)
    exact hne (Option.some.inj hc).symm
  | abort l => exact ⟨fun fd s hs => (by cases hs), fun s hs => (by cases hs), h.past⟩

theorem loop_reach {sfd : ℕ} {c : State} (h : Reach (system sfd) anyStep c) : LoopInv sfd c.net c.loc := by
  refine h.induct (I := fun c => LoopInv sfd c.net c.loc) ?_ ?_
  · rintro _ rfl
    exact ⟨fun fd s hs => (by cases hs), fun s hs => (by cases hs), fun s hs => (by cases hs)⟩
  · intro c a c' _ hi _ hs
    cases a with
    | net x => cases hs; exact hi.happen x
    | loop x =>
      obtain ⟨r, hr, rfl⟩ := Option.map_eq_some_iff.mp hs
      exact hi.loop (loopStep_cases hr)

/-! ### Connections that are closed -/

/-- A connection that is about to be closed is at its end. -/
def Over (k : Net Byte) (l : Loc) : Prop :=
  k.All fun fd s => closing l = some fd → s.error = true ∨ s.eof = true ∧ s.buffer = []

theorem Over.loop {sfd : ℕ} {x : Input} {k k' : Net Byte} {l l' : Loc} (hs : LoopStep sfd x k l k' l') :
    Over k' l' := by
  intro fd s hf hc
  cases hs with
  | done fd' r h =>
    obtain rfl := Option.some.inj hc
    exact h s hf
  | _ => cases hc

theorem over_reach {sfd : ℕ} {c : State} (h : Reach (system sfd) anyStep c) : Over c.net c.loc := by
  refine h.induct (I := fun c => Over c.net c.loc) ?_ ?_
  · rintro _ rfl fd s hs
    cases hs
  · intro c a c' _ hi _ hs
    cases a with
    | net x => cases hs; exact hi.happen x fun fd s a hs hc => Stream.arrive_over (hs hc) a
    | loop x =>
      obtain ⟨r, hr, rfl⟩ := Option.map_eq_some_iff.mp hs
      exact .loop (loopStep_cases hr)

/-! ### The result -/

/-- **Everything is drained.** In every state of every run, a registered connection with unread bytes has its flag
set, is in the part of the batch that has not been handled, or is being drained; on the way from there to its
`close` it has unread bytes only if it has been reset. What has been written of a connection, open or closed, is a
prefix of what it has received; and when the loop waits and no flag is set, it is all of it for every open one. -/
theorem edge_draining {sfd : ℕ} {c : State} (h : Reach (system sfd) anyStep c) :
    (∀ fd s, c.net.file fd = some s → s.registered = true → s.buffer ≠ [] →
      s.edge = true ∨ fd ∈ (rest c.loc).map Event.fd ∨ current c.loc = some fd) ∧
    (∀ fd s, c.net.file fd = some s → closing c.loc = some fd → s.buffer ≠ [] → s.error = true) ∧
    (∀ fd s, c.net.file fd = some s → s.served <+: s.received) ∧ (∀ s ∈ c.net.past, s.served <+: s.received) ∧
    (c.loc = .wait → (∀ fd, c.net.edge sfd fd = false) →
      ∀ fd s, c.net.file fd = some s → s.registered = true ∧ s.served = s.received) := by
  have hi := loop_reach h
  refine ⟨fun fd s hs => (hi.streams fd s hs).covered, fun fd s hs hc hb => ?_,
    fun fd s hs => (hi.streams fd s hs).written, hi.past, fun hw hno fd s hs => ?_⟩
  · exact (over_reach h fd s hs hc).resolve_right fun hend => hb hend.2
  · have hst := hi.streams fd s hs
    rw [hw] at hst
    have hreg : s.registered = true := by
      by_contra hr
      cases hst.adding (by simpa using hr)
    have hedge : s.edge = false := by simpa [Net.edge, hst.ne, hs] using hno fd
    have hbuf : s.buffer = [] := by
      by_contra hb
      rcases hst.covered hreg hb with he | ha | ha
      · rw [hedge] at he
        cases he
      · cases ha
      · cases ha
    have hkept := hst.kept
    rw [hbuf] at hkept
    exact ⟨hreg, by simpa [hand] using hkept.symm⟩

/-- A connection is made on the listening socket 3 and accepted as the descriptor 5; two bytes arrive before it is
registered and a third one while it is being drained. -/
def drainRun : List Act :=
  [.net .connect, .loop { picked := [3] }, .loop {}, .loop { fd := 5 }, .net (.onFile 5 (.data [1, 2])), .loop {},
    .loop {}, .loop {}, .loop {}, .loop { picked := [5] }, .loop {}, .loop { count := 1 },
    .net (.onFile 5 (.data [3]))]

theorem edge_draining_drainRun : ∃ c : State, Reach (system 3) anyStep c ∧ ∃ s, c.net.file 5 = some s ∧
    s.received = [1, 2, 3] ∧ s.buffer = [2, 3] ∧
    (s.edge = true ∨ 5 ∈ (rest c.loc).map Event.fd ∨ current c.loc = some 5) := by
  obtain ⟨c, hc, hp⟩ := reach_of_run (system 3) anyStep_of_test drainRun
    (fun c : State => (c.net.file 5).any fun s : Stream Byte =>
      s.registered && decide (s.received = [1, 2, 3]) && decide (s.buffer = [2, 3])) rfl (by decide)
  obtain ⟨s, hs, hp⟩ := (Option.any_eq_true _ _).mp hp
  simp only [Bool.and_eq_true, decide_eq_true_eq] at hp
  obtain ⟨⟨hreg, hrec⟩, hbuf⟩ := hp
  exact ⟨c, hc, s, hs, hrec, hbuf, (edge_draining hc).1 5 s hs hreg (by rw [hbuf]; simp)⟩

end PoolStudy.EpollExample.Draining
