import PoolStudy.EpollServer.Model
import Mathlib.Data.Finset.Card
import Mathlib.Data.Int.Basic
import Mathlib.Data.Finset.Range

/-! # The epoll echo server leaves connections and bytes behind

Edge-triggered notification tells the server once that something has arrived. It then accepts one connection, or
reads one buffer, and goes on to the next event. What is left is announced only with the next arrival. `TableInv`
says what holds in every run: where the bytes of a connection are, and that `cur_fds` counts the descriptors, so
that the server never takes `listen_fd` for a connection. Everything that is waiting is announced (`Announced`) as
long as one `accept` or one `read` is enough (`served_iff`). -/

namespace PoolStudy.EpollServer.Served

open PoolStudy.Lib.Transition PoolStudy.Lib.Sockets PoolStudy.EpollServer.Model

/-! ### Where the loop is -/

/-- The events of the batch that have not been handled. -/
def rest : Loc → List Event
  | .wait | .exited => []
  | .events r | .ctlAdd _ r | .write _ _ r => r

/-- The connection that has been accepted but not registered. -/
def adding : Loc → Option ℕ
  | .ctlAdd fd _ => some fd
  | _ => none

/-- The bytes that have been read from the connection `fd` but not written back. -/
def hand : Loc → ℕ → List Byte
  | .write fd' buf _, fd => if fd = fd' then buf else []
  | _, _ => []

/-! ### The descriptors -/

/-- **A connection**: its descriptor, and where its bytes are. -/
structure StreamInv (fds : Fds) (l : Loc) (fd : ℕ) (s : Stream Byte) : Prop where
  ne : fd ≠ fds.listenFd
  ne_epoll : fd ≠ fds.epollFd
  lt : fd < maxEpoll
  kept : s.received = s.served ++ hand l fd ++ s.buffer
  adding : s.registered = false → adding l = some fd

/-- **`cur_fds`** counts `listen_fd` and the connections that have been registered. -/
def Counted (k : Net Byte) (cur : ℤ) (l : Loc) : Prop :=
  ∃ S : Finset ℕ, (∀ fd, fd ∈ S ↔ (k.file fd).isSome) ∧ cur + (adding l).toList.length = 1 + S.card

/-- **What holds in every run**, until the server exits. -/
structure TableInv (fds : Fds) (c : State) : Prop where
  streams : c.net.All (StreamInv fds c.loc)
  backlog : c.net.FreshBacklog
  listening : c.net.listening = true
  live : ∀ e ∈ rest c.loc, e.fd = fds.listenFd ∨ (c.net.file e.fd).isSome
  nodup : ((rest c.loc).map Event.fd).Nodup
  counted : Counted c.net c.curFds c.loc
  past : ∀ s ∈ c.net.past, s.error = false → s.served = s.received

theorem StreamInv.arrive {fds : Fds} {l : Loc} {fd : ℕ} {s : Stream Byte} (h : StreamInv fds l fd s)
    (a : Arrival Byte) : StreamInv fds l fd (s.arrive a) :=
  ⟨h.ne, h.ne_epoll, h.lt, s.arrive_kept h.kept a, by rw [s.arrive_registered]; exact h.adding⟩

theorem StreamInv.go {fds : Fds} {l l' : Loc} {fd : ℕ} {s : Stream Byte} (h : StreamInv fds l fd s)
    (hh : hand l' fd = hand l fd) (hadd : Served.adding l = some fd → Served.adding l' = some fd) :
    StreamInv fds l' fd s :=
  ⟨h.ne, h.ne_epoll, h.lt, by rw [hh]; exact h.kept, fun hr => hadd (h.adding hr)⟩

/-- A connection is registered unless it is being added. -/
theorem StreamInv.registered {fds : Fds} {l : Loc} {fd : ℕ} {s : Stream Byte} (h : StreamInv fds l fd s)
    (hl : Served.adding l = none) : s.registered = true := by
  by_contra hr
  cases hl.symm.trans (h.adding (by simpa using hr))

/-- A connection without unread bytes, none of them in hand. -/
theorem StreamInv.served_eq {fds : Fds} {l : Loc} {fd : ℕ} {s : Stream Byte} (h : StreamInv fds l fd s)
    (hh : hand l fd = []) (hb : s.buffer = []) : s.served = s.received := by
  rw [h.kept, hh, hb, List.append_nil, List.append_nil]

/-- **The server never runs out of descriptors that it may register.** -/
theorem TableInv.curFds_lt {fds : Fds} {c : State} (h : TableInv fds c) : c.curFds < maxEpoll := by
  obtain ⟨S, hS, hcur⟩ := h.counted
  have hsub : insert fds.listenFd (insert fds.epollFd S) ⊆ Finset.range maxEpoll := by
    intro fd hfd
    rw [Finset.mem_range]
    rcases Finset.mem_insert.mp hfd with rfl | hfd
    · exact fds.listen_lt
    · rcases Finset.mem_insert.mp hfd with rfl | hfd
      · exact fds.epoll_lt
      · obtain ⟨s, hs⟩ := Option.isSome_iff_exists.mp ((hS fd).mp hfd)
        exact (h.streams fd s hs).lt
  have hnot : ∀ fd, (∀ s, c.net.file fd = some s → False) → fd ∉ S := fun fd hno hfd => by
    obtain ⟨s, hs⟩ := Option.isSome_iff_exists.mp ((hS fd).mp hfd)
    exact hno s hs
  have hepoll : fds.epollFd ∉ S := hnot _ fun s hs => (h.streams _ s hs).ne_epoll rfl
  have hlisten : fds.listenFd ∉ insert fds.epollFd S := by
    rw [Finset.mem_insert, not_or]
    exact ⟨fds.ne, hnot _ fun s hs => (h.streams _ s hs).ne rfl⟩
  have hcard := Finset.card_le_card hsub
  rw [Finset.card_insert_of_notMem hlisten, Finset.card_insert_of_notMem hepoll, Finset.card_range] at hcard
  omega

theorem TableInv.happen {fds : Fds} {c : State} (h : TableInv fds c) (x : Happening Byte) :
    TableInv fds { c with net := c.net.happen x } := by
  obtain ⟨S, hS, hcur⟩ := h.counted
  refine ⟨h.streams.happen x fun fd s a hs => hs.arrive a, h.backlog.happen x, ?_, fun e he => ?_, h.nodup,
    ⟨S, fun fd => ?_, hcur⟩, ?_⟩
  · cases x with
    | connect =>
      simp only [Net.happen]
      split_ifs <;> exact h.listening
    | pending | onFile | listenError => exact h.listening
  · rw [Net.happen_isSome]
    exact h.live e he
  · rw [Net.happen_isSome]
    exact hS fd
  · cases x with
    | connect =>
      simp only [Net.happen]
      split_ifs <;> exact h.past
    | pending | onFile | listenError => exact h.past

/-! ### Steps -/

/-- The descriptors that are open stay open. -/
theorem TableInv.same {fds : Fds} {c : State} {k : Net Byte} {l : Loc} (h : TableInv fds c)
    (hs : k.All (StreamInv fds l)) (hb : k.FreshBacklog) (hl : k.listening = true) (hp : k.past = c.net.past)
    (hfile : ∀ fd, (k.file fd).isSome = (c.net.file fd).isSome) (hadd : adding l = adding c.loc)
    (hlive : ∀ e ∈ rest l, e.fd = fds.listenFd ∨ (c.net.file e.fd).isSome)
    (hnodup : ((rest l).map Event.fd).Nodup) : TableInv fds ⟨k, c.curFds, l⟩ := by
  obtain ⟨S, hS, hcur⟩ := h.counted
  refine ⟨hs, hb, hl, fun e he => ?_, hnodup, ⟨S, fun fd => ?_, ?_⟩, by rw [hp]; exact h.past⟩
  · rw [hfile]
    exact hlive e he
  · rw [hfile]
    exact hS fd
  · rw [hadd]
    exact hcur

theorem TableInv.wait {fds : Fds} {c : State} {k : Net Byte} {evs : List Event} {picked : List ℕ} {n : ℕ} {l : Loc}
    (h : TableInv fds c) (hc : c.loc = .wait) (hw : c.net.epollWait fds.listenFd n picked = some (k, evs))
    (hl : l = .events evs ∨ l = .wait ∧ evs = []) : TableInv fds { c with net := k, loc := l } := by
  obtain ⟨hnd, hedge, rfl, rfl⟩ := Net.epollWait_some hw
  have hrest : rest l = c.net.reports fds.listenFd picked := by
    rcases hl with rfl | ⟨rfl, he⟩
    · rfl
    · exact he.symm
  have hloc : (∀ fd, hand l fd = hand c.loc fd) ∧ adding l = adding c.loc := by
    rw [hc]
    rcases hl with rfl | ⟨rfl, -⟩ <;> exact ⟨fun _ => rfl, rfl⟩
  refine h.same (h.streams.clear fun fd s _ hi => ?_) h.backlog h.listening rfl
    (fun fd => Net.clear_isSome _ _ _ fd) hloc.2 (fun e he => ?_) ?_
  · have hgo := hi.go (hloc.1 fd) fun hadd => hloc.2.trans hadd
    exact ⟨hgo.ne, hgo.ne_epoll, hgo.lt, hgo.kept, hgo.adding⟩
  · rw [hrest] at he
    have hpick := (Net.reports_sublist fds.listenFd c.net picked).subset (List.mem_map_of_mem he)
    by_cases hfd : e.fd = fds.listenFd
    · exact Or.inl hfd
    · right
      have := hedge _ hpick
      simp only [Net.edge, hfd, if_false] at this
      obtain ⟨s, hs, -⟩ := (Option.any_eq_true _ _).mp this
      rw [hs]
      rfl
  · rw [hrest]
    exact hnd.sublist (Net.reports_sublist _ _ _)

/-- An event has been handled: what holds of the others. -/
theorem TableInv.tail {fds : Fds} {c : State} {e : Event} {r : List Event} (h : TableInv fds c)
    (hl : c.loc = .events (e :: r)) :
    (∀ e' ∈ r, e'.fd = fds.listenFd ∨ (c.net.file e'.fd).isSome) ∧ (r.map Event.fd).Nodup ∧
      e.fd ∉ r.map Event.fd := by
  have hnodup := h.nodup
  have hlive := h.live
  rw [hl] at hnodup hlive
  obtain ⟨hnot, hnodup⟩ := List.nodup_cons.mp hnodup
  exact ⟨fun e' he' => hlive e' (List.mem_cons_of_mem _ he'), hnodup, hnot⟩

theorem TableInv.accept {fds : Fds} {c : State} {k : Net Byte} {e : Event} {r : List Event} {fd : ℕ}
    (h : TableInv fds c) (hl : c.loc = .events (e :: r)) (hlt : fd < maxEpoll) (hne : fd ≠ fds.epollFd)
    (ha : c.net.accept fds.listenFd fd = some k) : TableInv fds { c with net := k, loc := .ctlAdd fd r } := by
  obtain ⟨s, q, hb, hnl, hfree, rfl⟩ := Net.accept_some ha
  obtain ⟨hlive, hnodup, -⟩ := h.tail hl
  obtain ⟨S, hS, hcur⟩ := h.counted
  have hfresh := h.backlog s (by rw [hb]; exact List.mem_cons_self)
  have hnew : fd ∉ S := by
    rw [hS, hfree]
    simp
  refine ⟨h.streams.update rfl ?_ ?_, fun s' hs' => h.backlog s' (by rw [hb]; exact List.mem_cons_of_mem _ hs'),
    h.listening, fun e' he' => ?_, hnodup, ⟨insert fd S, fun fd' => ?_, ?_⟩, h.past⟩
  · intro s' hs'
    obtain rfl := Option.some.inj hs'
    refine ⟨hnl, hne, hlt, ?_, fun _ => rfl⟩
    rw [hfresh.served, hfresh.buffer]
    rfl
  · refine fun fd' s' _ hi => hi.go (by rw [hl]; rfl) fun hadd => ?_
    rw [hl] at hadd
    cases hadd
  · refine (hlive e' he').imp_right fun hsome => ?_
    by_cases heq : e'.fd = fd
    · simp [heq]
    · simpa [heq] using hsome
  · by_cases heq : fd' = fd
    · simp [heq]
    · simp [heq, hS]
  · rw [Finset.card_insert_of_notMem hnew]
    rw [hl] at hcur
    simp only [adding, Option.toList, List.length_nil, List.length_singleton] at hcur ⊢
    push_cast at hcur ⊢
    omega

/-- The event is not one of `listen_fd`, so it is one of an open connection. -/
theorem TableInv.open {fds : Fds} {c : State} {e : Event} {r : List Event} (h : TableInv fds c)
    (hl : c.loc = .events (e :: r)) (hmax : e.fd = fds.listenFd → maxEpoll ≤ c.curFds) :
    e.fd ≠ fds.listenFd ∧ ∃ s, c.net.file e.fd = some s := by
  have hne : e.fd ≠ fds.listenFd := fun he => absurd (hmax he) (not_le.mpr h.curFds_lt)
  have hlive := h.live e (by rw [hl]; exact List.mem_cons_self)
  exact ⟨hne, Option.isSome_iff_exists.mp (hlive.resolve_left hne)⟩

theorem TableInv.done {fds : Fds} {c : State} {x : Input} {e : Event} {r : List Event} (h : TableInv fds c)
    (hl : c.loc = .events (e :: r)) (hmax : e.fd = fds.listenFd → maxEpoll ≤ c.curFds)
    (hend : ∀ s, c.net.file e.fd = some s → s.error = true ∧ x.fail = true ∨ s.buffer = []) :
    TableInv fds ⟨c.net.close fds.listenFd e.fd, c.curFds - 1, .events r⟩ := by
  obtain ⟨hne, s, hs⟩ := h.open hl hmax
  obtain ⟨hlive, hnodup, hnot⟩ := h.tail hl
  obtain ⟨S, hS, hcur⟩ := h.counted
  have hin : e.fd ∈ S := by
    rw [hS, hs]
    rfl
  have hgo : ∀ fd s, StreamInv fds c.loc fd s → StreamInv fds (.events r) fd s := fun fd s hi =>
    hi.go (by rw [hl]; rfl) fun hadd => by rw [hl] at hadd; cases hadd
  have hclose : c.net.close fds.listenFd e.fd =
      { c.net with file := Function.update c.net.file e.fd none, past := c.net.past ++ [s] } := by
    simp [Net.close, hne, hs]
  rw [hclose]
  refine ⟨h.streams.update rfl (fun s hs => (by cases hs)) fun fd s _ hi => hgo fd s hi, h.backlog, h.listening,
    fun e' he' => ?_, hnodup, ⟨S.erase e.fd, fun fd => ?_, ?_⟩, fun s' hs' herr => ?_⟩
  · refine (hlive e' he').imp_right fun hsome => ?_
    have : e'.fd ≠ e.fd := fun he => hnot (he ▸ List.mem_map_of_mem he')
    simpa [this] using hsome
  · by_cases heq : fd = e.fd
    · simp [heq]
    · simp [heq, hS]
  · have hcard := Finset.card_erase_add_one hin
    rw [hl] at hcur
    simp only [adding, Option.toList, List.length_nil] at hcur ⊢
    push_cast at hcur ⊢
    omega
  · rcases List.mem_append.mp hs' with hs' | hs'
    · exact h.past s' hs' herr
    · -- the connection that is closed has come to its end
      obtain rfl := List.mem_singleton.mp hs'
      have hbuf := (hend s' hs).resolve_left fun hfail => (by rw [hfail.1] at herr; cases herr)
      exact (h.streams e.fd s' hs).served_eq (by rw [hl]; rfl) hbuf

theorem TableInv.data {fds : Fds} {c : State} {e : Event} {r : List Event} {s : Stream Byte} (h : TableInv fds c)
    (hl : c.loc = .events (e :: r)) (hs : c.net.file e.fd = some s) :
    TableInv fds { c with net := c.net.taken e.fd maxLine, loc := .write e.fd (s.buffer.take maxLine) r } := by
  obtain ⟨hlive, hnodup, -⟩ := h.tail hl
  have hnone : ∀ fd, adding c.loc = some fd → False := fun fd hadd => by rw [hl] at hadd; cases hadd
  refine h.same (h.streams.onFd (fun s' hs' hi => ?_) fun fd s' hne hi => ?_) h.backlog h.listening rfl
    (fun fd => Net.onFd_isSome _ _ _ fd) (by rw [hl]; rfl) hlive hnodup
  · obtain rfl := Option.some.inj (hs'.symm.trans hs)
    refine ⟨hi.ne, hi.ne_epoll, hi.lt, ?_, fun hr => (hnone _ (hi.adding hr)).elim⟩
    have hkept := hi.kept
    rw [hl] at hkept
    simp only [hand, if_true, List.append_assoc, List.take_append_drop]
    simpa [hand] using hkept
  · refine hi.go ?_ fun hadd => (hnone _ hadd).elim
    rw [hl]
    simp [hand, hne]

theorem TableInv.ctlAdd {fds : Fds} {c : State} {fd : ℕ} {r : List Event} (h : TableInv fds c)
    (hl : c.loc = .ctlAdd fd r) : TableInv fds ⟨c.net.register fd, c.curFds + 1, .events r⟩ := by
  obtain ⟨S, hS, hcur⟩ := h.counted
  have hlive := h.live
  have hnodup := h.nodup
  rw [hl] at hlive hnodup hcur
  refine ⟨h.streams.onFd (fun s _ hi => ?_) fun fd' s hne hi => ?_, h.backlog, h.listening, fun e he => ?_, hnodup,
    ⟨S, fun fd' => ?_, ?_⟩, h.past⟩
  · have hkept := hi.kept
    rw [hl] at hkept
    exact ⟨hi.ne, hi.ne_epoll, hi.lt, hkept, fun hr => (by cases hr)⟩
  · refine hi.go (by rw [hl]; rfl) fun hadd => ?_
    rw [hl] at hadd
    exact absurd (Option.some.inj hadd).symm hne
  · rw [Net.register, Net.onFd_isSome]
    exact hlive e he
  · rw [Net.register, Net.onFd_isSome]
    exact hS fd'
  · simp only [adding, Option.toList, List.length_nil, List.length_singleton] at hcur ⊢
    push_cast at hcur ⊢
    omega

theorem TableInv.write {fds : Fds} {c : State} {fd : ℕ} {buf : List Byte} {r : List Event} (h : TableInv fds c)
    (hl : c.loc = .write fd buf r) : TableInv fds { c with net := c.net.serve fd buf, loc := .events r } := by
  have hlive := h.live
  have hnodup := h.nodup
  have hnone : ∀ fd, adding c.loc = some fd → False := fun fd hadd => by rw [hl] at hadd; cases hadd
  rw [hl] at hlive hnodup
  refine h.same (h.streams.onFd (fun s _ hi => ?_) fun fd' s hne hi => ?_) h.backlog h.listening rfl
    (fun fd' => Net.onFd_isSome _ _ _ fd') (by rw [hl]; rfl) hlive hnodup
  · refine ⟨hi.ne, hi.ne_epoll, hi.lt, ?_, fun hr => (hnone _ (hi.adding hr)).elim⟩
    have hkept := hi.kept
    rw [hl] at hkept
    simpa [hand] using hkept
  · refine hi.go ?_ fun hadd => (hnone _ hadd).elim
    rw [hl]
    simp [hand, hne]

/-- **A step of the loop.** -/
theorem TableInv.loop {fds : Fds} {x : Input} {c c' : State} (h : TableInv fds c) (hs : LoopStep fds x c c')
    (hx : c'.loc ≠ .exited) : TableInv fds c' := by
  cases hs with
  | exit => exact absurd rfl hx
  | batch l hl hw hl' => exact h.wait hl hw hl'
  | endBatch hl =>
    refine h.same (h.streams.mono fun fd s hi => ?_) h.backlog h.listening rfl (fun _ => rfl) (by rw [hl]; rfl)
      (fun e he => (by cases he)) List.nodup_nil
    exact hi.go (by rw [hl]; rfl) fun hadd => by rw [hl] at hadd; cases hadd
  | accept hl he hlt hne ha => exact h.accept hl hlt hne ha
  | done hl hmax hend => exact h.done hl hmax hend
  | data hl hs hfail => exact h.data hl hs
  | ctlAdd hl => exact h.ctlAdd hl
  | write hl => exact h.write hl

/-- **What holds in every run.** -/
theorem table_reach {fds : Fds} {ok : State → Act → Prop} {c : State} (h : Reach (system fds) ok c) :
    c.loc ≠ .exited → TableInv fds c := by
  refine h.induct (I := fun c => c.loc ≠ .exited → TableInv fds c) ?_ ?_
  · rintro _ rfl -
    exact ⟨fun fd s hs => (by cases hs), fun s hs => (by cases hs), rfl, fun e he => (by cases he), List.nodup_nil,
      ⟨∅, fun fd => by simp [Net.start], rfl⟩, fun s hs => (by cases hs)⟩
  · intro c a c' _ hi _ hs hx
    cases a with
    | net x => cases hs; exact (hi hx).happen x
    | loop x =>
      have hstep : LoopStep fds x c c' := loopStep_cases hs
      refine (hi fun hex => ?_).loop hstep hx
      simp [system, loopStep, hex] at hs

/-! ### What is announced -/

/-- The loop will come to the descriptor in this batch. -/
def coming (l : Loc) (fd : ℕ) : Prop := fd ∈ (rest l).map Event.fd

/-- **Everything that is waiting is announced**: connections in the backlog and unread bytes have an edge flag that
is set, or an event of the batch. -/
structure Announced (fds : Fds) (c : State) : Prop where
  backlog : c.net.backlog ≠ [] → c.net.listenEdge = true ∨ coming c.loc fds.listenFd
  unread : c.net.All fun fd s => s.registered = true → s.buffer ≠ [] → s.edge = true ∨ coming c.loc fd

/-- **One `accept` or `read` is enough**: when the loop handles an event, at most one connection is in the backlog,
or at most `MAXLINE` bytes are unread, or the flag has been set again; a `read` that fails on a connection that has
been reset may leave bytes. -/
def takesAll (fds : Fds) (c : State) (a : Act) : Prop :=
  ∀ x e r, a = .loop x → c.loc = .events (e :: r) →
    (e.fd = fds.listenFd → c.net.backlog.length ≤ 1 ∨ c.net.listenEdge = true) ∧
    ∀ s, c.net.file e.fd = some s → s.error = true ∧ x.fail = true ∨ s.buffer.length ≤ maxLine ∨ s.edge = true

theorem Announced.happen {fds : Fds} {c : State} (h : Announced fds c) (x : Happening Byte) :
    Announced fds { c with net := c.net.happen x } := by
  refine ⟨?_, h.unread.happen x fun fd s a hs => s.arrive_covered hs a⟩
  cases x with
  | connect =>
    simp only [Net.happen]
    split_ifs
    · exact fun _ => Or.inl rfl
    · exact h.backlog
  | pending i a =>
    refine fun hb => h.backlog fun hnil => hb ?_
    simp [Net.happen, hnil]
  | onFile => exact h.backlog
  | listenError => exact fun _ => Or.inl rfl

theorem Announced.wait {fds : Fds} {c : State} {k : Net Byte} {evs : List Event} {picked : List ℕ} {n : ℕ} {l : Loc}
    (h : Announced fds c) (ht : TableInv fds c) (hc : c.loc = .wait)
    (hw : c.net.epollWait fds.listenFd n picked = some (k, evs)) (hl : l = .events evs ∨ l = .wait ∧ evs = []) :
    Announced fds { c with net := k, loc := l } := by
  obtain ⟨-, -, rfl, rfl⟩ := Net.epollWait_some hw
  have hrest : rest l = c.net.reports fds.listenFd picked := by
    rcases hl with rfl | ⟨rfl, he⟩
    · rfl
    · exact he.symm
  have hnone : ∀ fd, ¬ coming c.loc fd := by
    intro fd hfd
    rw [hc] at hfd
    cases hfd
  refine ⟨fun hb => ?_, h.unread.clear fun fd s hs hi hr hb => ?_⟩
  · by_cases hp : fds.listenFd ∈ picked
    · right
      simp only [coming, hrest]
      exact Net.listen_mem_reports hb hp
    · left
      simp [Net.clear, hp, (h.backlog hb).resolve_right (hnone _)]
  · by_cases hp : fd ∈ picked
    · right
      simp only [coming, hrest]
      exact Net.mem_reports (ht.streams fd s hs).ne hs hb hp
    · left
      simp [hp, (hi hr hb).resolve_right (hnone _)]

/-- The event that has been handled was not the one announced. -/
theorem coming_tail {e : Event} {r : List Event} {fd : ℕ} {c : State} (hl : c.loc = .events (e :: r))
    (h : coming c.loc fd) (hne : fd ≠ e.fd) : fd ∈ r.map Event.fd := by
  rw [coming, hl] at h
  exact (List.mem_cons.mp h).resolve_left hne

/-- **A step of the loop** that takes all. -/
theorem Announced.loop {fds : Fds} {x : Input} {c c' : State} (h : Announced fds c) (ht : TableInv fds c)
    (hok : takesAll fds c (.loop x)) (hs : LoopStep fds x c c') (hx : c'.loc ≠ .exited) : Announced fds c' := by
  have hboth : c.net.All fun fd s => (s.registered = true → s.buffer ≠ [] → s.edge = true ∨ coming c.loc fd) ∧
      StreamInv fds c.loc fd s := fun fd s hs => ⟨h.unread fd s hs, ht.streams fd s hs⟩
  cases hs with
  | exit => exact absurd rfl hx
  | batch l hl hw hl' => exact h.wait ht hl hw hl'
  | endBatch hl =>
    have hnone : ∀ fd, ¬ coming c.loc fd := fun fd hfd => by rw [hl] at hfd; cases hfd
    refine ⟨fun hb => ?_, fun fd s hs hr hb => ?_⟩
    · exact Or.inl ((h.backlog hb).resolve_right (hnone _))
    · exact Or.inl ((h.unread fd s hs hr hb).resolve_right (hnone _))
  | accept hl he hlt hne ha =>
    obtain ⟨s, q, hb, hnl, -, rfl⟩ := Net.accept_some ha
    refine ⟨fun hq => ?_, hboth.update rfl (fun s' hs' hr => ?_) fun fd' s' _ hi hr hb' => ?_⟩
    · rcases (hok x _ _ rfl hl).1 he with hlen | hedge
      · rw [hb, List.length_cons] at hlen
        have hnil : q = [] := List.length_eq_zero_iff.mp (by omega)
        exact absurd hnil hq
      · exact Or.inl hedge
    · obtain rfl := Option.some.inj hs'
      rw [(ht.backlog _ (by rw [hb]; exact List.mem_cons_self)).registered] at hr
      cases hr
    · exact (hi.1 hr hb').imp_right fun hcom => coming_tail hl hcom fun hfd => hi.2.ne (hfd.trans he)
  | done hl hmax hend =>
    obtain ⟨hne, s, hs⟩ := ht.open hl hmax
    refine ⟨fun hb => ?_, hboth.close (fun fd' s' hi => hi.2.ne) fun fd' s' hne' hi hr hb => ?_⟩
    · simp only [Net.close, hne, if_false] at hb ⊢
      exact (h.backlog hb).imp_right fun hcom => coming_tail hl hcom (Ne.symm hne)
    · exact (hi.1 hr hb).imp_right fun hcom => coming_tail hl hcom hne'
  | data hl hs hfail =>
    refine ⟨fun hb' => ?_, h.unread.onFd (fun s' hs' hi hr hb' => ?_) fun fd' s' hne hi hr hb' => ?_⟩
    · exact (h.backlog hb').imp_right fun hcom => coming_tail hl hcom fun hfd =>
        (ht.streams _ _ hs).ne hfd.symm
    · obtain rfl := Option.some.inj (hs'.symm.trans hs)
      rcases ((hok x _ _ rfl hl).2 _ hs).resolve_left hfail with hlen | hedge
      · exact absurd (List.drop_eq_nil_iff.mpr hlen) hb'
      · exact Or.inl hedge
    · exact (hi hr hb').imp_right fun hcom => coming_tail hl hcom hne
  | ctlAdd hl =>
    have hcom : ∀ {fd}, coming c.loc fd → coming (.events _) fd := fun h => by rw [hl] at h; exact h
    refine ⟨fun hb => (h.backlog hb).imp_right hcom, h.unread.onFd (fun s _ _ _ hb => ?_)
      fun fd' s _ hi hr hb => (hi hr hb).imp_right hcom⟩
    exact Or.inl (Stream.mask_any hb)
  | write hl =>
    have hcom : ∀ {fd}, coming c.loc fd → coming (.events _) fd := fun h => by rw [hl] at h; exact h
    exact ⟨fun hb => (h.backlog hb).imp_right hcom, h.unread.onFd
      (fun s _ hi hr hb => (hi hr hb).imp_right hcom) fun fd' s _ hi hr hb => (hi hr hb).imp_right hcom⟩

theorem announced_reach {fds : Fds} {c : State} (h : Reach (system fds) (takesAll fds) c) :
    c.loc ≠ .exited → Announced fds c := by
  refine h.induct (I := fun c => c.loc ≠ .exited → Announced fds c) ?_ ?_
  · rintro _ rfl -
    exact ⟨fun hb => absurd rfl hb, fun fd s hs => (by cases hs)⟩
  · intro c a c' hr hi hok hs hx
    cases a with
    | net x => cases hs; exact (hi hx).happen x
    | loop x =>
      have hstep : LoopStep fds x c c' := loopStep_cases hs
      have hrun : c.loc ≠ .exited := fun hex => by simp [system, loopStep, hex] at hs
      exact (hi hrun).loop (table_reach hr hrun) hok hstep hx

/-- A step after which everything is announced has taken all. -/
theorem takesAll_of_announced {fds : Fds} {x : Input} {c c' : State} (ht : TableInv fds c)
    (hs : LoopStep fds x c c') (hx : c'.loc ≠ .exited) (h : Announced fds c') : takesAll fds c (.loop x) := by
  intro x' e r hx' hl
  obtain rfl := Act.loop.inj hx'
  cases hs with
  | exit => exact absurd rfl hx
  | batch _ hl' | endBatch hl' | ctlAdd hl' | write hl' => cases hl.symm.trans hl'
  | accept hl' he hlt hne ha =>
    obtain ⟨rfl, rfl⟩ := List.cons.inj (Loc.events.inj (hl.symm.trans hl'))
    obtain ⟨s, q, hb, hnl, -, rfl⟩ := Net.accept_some ha
    obtain ⟨-, -, hnot⟩ := ht.tail hl
    refine ⟨fun _ => ?_, fun s hs => absurd he (ht.streams _ s hs).ne⟩
    by_cases hq : q = []
    · left
      rw [hb, hq]
      simp
    · right
      exact (h.backlog hq).resolve_right fun hcom => hnot (he ▸ hcom)
  | done hl' hmax hend =>
    obtain ⟨rfl, rfl⟩ := List.cons.inj (Loc.events.inj (hl.symm.trans hl'))
    refine ⟨fun he => absurd he (ht.open hl hmax).1, fun s hs => (hend s hs).imp_right fun hb => Or.inl ?_⟩
    rw [hb]
    simp
  | @data s e' r' hl' hs hfail =>
    obtain ⟨rfl, rfl⟩ := List.cons.inj (Loc.events.inj (hl.symm.trans hl'))
    obtain ⟨-, -, hnot⟩ := ht.tail hl
    have hst := ht.streams _ s hs
    refine ⟨fun he => absurd he hst.ne, fun s' hs' => Or.inr ?_⟩
    obtain rfl := Option.some.inj (hs'.symm.trans hs)
    by_cases hd : s'.buffer.drop maxLine = []
    · exact Or.inl (List.drop_eq_nil_iff.mp hd)
    · right
      have hreg : s'.registered = true := hst.registered (by rw [hl]; rfl)
      have hfile : (c.net.taken e.fd maxLine).file e.fd = some { s' with buffer := s'.buffer.drop maxLine } := by
        simp [Net.taken, Net.onFd, hs]
      exact (h.unread e.fd _ hfile hreg hd).resolve_right hnot

/-! ### The result -/

/-- **Nothing is left when the server waits, as long as one `accept` or `read` for an event is enough.** When it
waits and no flag is set, the backlog is empty, no connection has unread bytes, and what has been written back on a
connection is what it has received; the same holds of the connections that have been closed without having been
reset. A step of the loop keeps everything that is waiting announced iff it takes all. -/
theorem served_iff (fds : Fds) :
    (∀ c, Reach (system fds) (takesAll fds) c → c.loc = .wait → (∀ fd, c.net.edge fds.listenFd fd = false) →
      c.net.backlog = [] ∧ (∀ fd s, c.net.file fd = some s → s.buffer = [] ∧ s.served = s.received) ∧
      ∀ s ∈ c.net.past, s.error = false → s.served = s.received) ∧
    (∀ c c' x, Reach (system fds) (takesAll fds) c → (system fds).next c (.loop x) = some c' →
      c'.loc ≠ .exited → (Announced fds c' ↔ takesAll fds c (.loop x))) := by
  refine ⟨fun c h hw hno => ?_, fun c c' x h hs hx => ?_⟩
  · have hrun : c.loc ≠ .exited := by simp [hw]
    have ht := table_reach h hrun
    have ha := announced_reach h hrun
    have hnone : ∀ fd, ¬ coming c.loc fd := fun fd hcom => by rw [hw] at hcom; cases hcom
    refine ⟨?_, fun fd s hs => ?_, ht.past⟩
    · by_contra hb
      have hedge := (ha.backlog hb).resolve_right (hnone _)
      simpa [Net.edge, ht.listening, hedge] using hno fds.listenFd
    · have hst := ht.streams fd s hs
      have hreg : s.registered = true := hst.registered (by rw [hw]; rfl)
      have hbuf : s.buffer = [] := by
        by_contra hb
        have hedge := (ha.unread fd s hs hreg hb).resolve_right (hnone _)
        simpa [Net.edge, hst.ne, hs, hedge] using hno fd
      exact ⟨hbuf, hst.served_eq (by rw [hw]; rfl) hbuf⟩
  · have hrun : c.loc ≠ .exited := fun hex => by simp [system, loopStep, hex] at hs
    have hstep : LoopStep fds x c c' := loopStep_cases hs
    have ht := table_reach h hrun
    exact ⟨takesAll_of_announced ht hstep hx, fun hok => (announced_reach h hrun).loop ht hok hstep hx⟩

/-! ### Runs given as lists of actions -/

/-- The test for `takesAll`. -/
def takesTest (c : State) (a : Act) : Bool :=
  match a, c.loc with
  | .loop _, .events (e :: _) => (decide (c.net.backlog.length ≤ 1) || c.net.listenEdge) &&
      (c.net.file e.fd).all fun s => decide (s.buffer.length ≤ maxLine) || s.edge
  | _, _ => true

theorem takes_of_test {fds : Fds} (c : State) (a : Act) (h : takesTest c a = true) : takesAll fds c a := by
  rintro x e r rfl hl
  simp only [takesTest, hl, Bool.and_eq_true, Bool.or_eq_true, decide_eq_true_eq] at h
  refine ⟨fun _ => h.1, fun s hs => Or.inr ?_⟩
  simpa [hs] using h.2

/-- With one connection, the flags to look at are its own and that of `listen_fd`. -/
theorem TableInv.edge_false {fds : Fds} {c : State} (h : TableInv fds c) (hw : c.loc = .wait) (hcur : c.curFds = 2)
    {fd0 : ℕ} (hs : (c.net.file fd0).isSome = true) (he : c.net.edge fds.listenFd fd0 = false)
    (hl : c.net.edge fds.listenFd fds.listenFd = false) (fd : ℕ) : c.net.edge fds.listenFd fd = false := by
  by_cases hfd : fd = fds.listenFd
  · rw [hfd]
    exact hl
  · obtain ⟨S, hS, hcard⟩ := h.counted
    rw [hw, hcur] at hcard
    simp only [adding, Option.toList, List.length_nil] at hcard
    obtain ⟨fd1, rfl⟩ := Finset.card_eq_one.mp (show S.card = 1 by omega)
    obtain rfl := Finset.mem_singleton.mp ((hS fd0).mpr hs)
    by_cases h0 : fd = fd0
    · rw [h0]
      exact he
    · have hnone : c.net.file fd = none := by
        by_contra hne
        exact h0 (Finset.mem_singleton.mp ((hS fd).mpr (Option.isSome_iff_ne_none.mpr hne)))
      simp [Net.edge, hfd, hnone]

/-- The descriptors 3 and 4. -/
def firstFds : Fds := ⟨3, 4, by decide, by decide, by decide⟩

/-- The loop accepts a connection as the descriptor 5 and comes back to its wait. -/
def acceptFive : List Act := [.loop { picked := [3] }, .loop { fd := 5 }, .loop {}, .loop {}]

/-- Two bytes are echoed. -/
def echoRun : List Act :=
  .net .connect :: acceptFive ++
    [.net (.onFile 5 (.data [1, 2])), .loop { picked := [5] }, .loop {}, .loop {}, .loop {}]

theorem served_iff_echoRun : ∃ c, Reach (system firstFds) (takesAll firstFds) c ∧ c.loc = .wait ∧
    ∃ s, c.net.file 5 = some s ∧ s.received = [1, 2] ∧ s.served = [1, 2] := by
  obtain ⟨c, hc, hp⟩ := reach_of_run (system firstFds) takes_of_test echoRun
    (fun c : State => decide (c.loc = .wait) && decide (c.curFds = 2) && !c.net.edge 3 3 && !c.net.edge 3 5 &&
      (c.net.file 5).any fun s : Stream Byte => decide (s.received = [1, 2])) rfl (by decide)
  simp only [Bool.and_eq_true, Bool.not_eq_true', decide_eq_true_eq] at hp
  obtain ⟨⟨⟨⟨hw, hcur⟩, h3⟩, h5⟩, hany⟩ := hp
  obtain ⟨s, hs, hrec⟩ := (Option.any_eq_true _ _).mp hany
  have ht := table_reach hc (by simp [hw])
  have hno := ht.edge_false hw hcur (by rw [hs]; rfl) h5 h3
  obtain ⟨-, hserved, -⟩ := (served_iff firstFds).1 c hc hw hno
  have hrec : s.received = [1, 2] := of_decide_eq_true hrec
  exact ⟨c, hc, hw, s, hs, hrec, (hserved 5 s hs).2.trans hrec⟩

/-- Two connections are made before the first `epoll_wait`. -/
def twoConnectsRun : List Act := .net .connect :: .net .connect :: acceptFive

/-- **The second connection is not accepted**: the loop waits, no flag is set, and the backlog is not empty. -/
theorem connection_waits_twoConnectsRun : ∃ c, Reach (system firstFds) anyStep c ∧ c.loc = .wait ∧
    (∀ fd, c.net.edge firstFds.listenFd fd = false) ∧ c.net.backlog.length = 1 := by
  obtain ⟨c, hc, hp⟩ := reach_of_run (system firstFds) anyStep_of_test twoConnectsRun
    (fun c : State => decide (c.loc = .wait) && decide (c.curFds = 2) && !c.net.edge 3 3 && !c.net.edge 3 5 &&
      (c.net.file 5).isSome && decide (c.net.backlog.length = 1)) rfl (by decide)
  simp only [Bool.and_eq_true, Bool.not_eq_true', decide_eq_true_eq] at hp
  obtain ⟨⟨⟨⟨⟨hw, hcur⟩, h3⟩, h5⟩, hs⟩, hb⟩ := hp
  have ht := table_reach hc (by simp [hw])
  exact ⟨c, hc, hw, ht.edge_false hw hcur hs h5 h3, hb⟩

end PoolStudy.EpollServer.Served
