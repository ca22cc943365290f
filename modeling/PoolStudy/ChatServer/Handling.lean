import PoolStudy.ChatServer.Batch

/-! # The chat server: which events are handled

`Progress` says how far a batch is: the events that have been handled are the first ones of the batch, and if the last
of them is one whose `recv` failed, the rest is dropped. A `recv` takes at most `BUFFER_SIZE - 1` bytes, though the
notification is edge-triggered; what it leaves is in the note of the event. So a batch is handled as it should be
exactly if no `recv` fails but that of its last event, and none finds more bytes than it can take
(`batch_whole_iff`).

The loop over the events always comes to its end (`runs_over`), as long as epoll reports what is ready (`honest`). -/

namespace PoolStudy.ChatServer.Handling

open PoolStudy.Lib.Transition
open PoolStudy.Lib.Sockets hiding Event
open PoolStudy.ChatServer.Model PoolStudy.ChatServer.Batch

/-! ### What has been handled -/

variable {lfd : ℕ}

/-- The `recv` of the event failed. -/
def noteFailed (t : Note) : Bool := (t.result.map failed).getD false

/-- The `recv` of the event returned bytes. -/
def received (t : Note) : Prop := ∃ l, t.result = some (.data l)

/-- The events of the batch that have not been handled, the present one included. -/
def coming (c : State) : List Report := if c.pos = .dispatch then c.event :: c.rest else c.rest

/-- **How far the batch is**: no `recv` has failed and the rest is still to come; or one has, it was the last, and the
rest is dropped. -/
inductive Progress (c : State) : Prop
  | going (hsplit : c.reported = c.handled.map Note.event ++ coming c) (hok : ∀ t ∈ c.handled, noteFailed t = false)
  | broken (front : List Note) (last : Note) (dropped : List Report) (hp : c.pos ≠ .dispatch) (hr : c.rest = [])
      (hh : c.handled = front ++ [last]) (hlast : noteFailed last = true) (hok : ∀ t ∈ front, noteFailed t = false)
      (hsplit : c.reported = c.handled.map Note.event ++ dropped)

/-- What a `recv` leaves. -/
structure NoteInv (t : Note) : Prop where
  data : received t → t.left = t.found.drop (bufferSize - 1)
  again : t.result = some .again → t.left = []

theorem noteInv_plain (e : Report) : NoteInv (plainNote e) := ⟨fun ⟨_, h⟩ => (by cases h), nofun⟩

theorem unread_eq {k : Net UInt8} {fd : ℕ} {s : Stream UInt8} (h : k.file fd = some s) : unread k fd = s.buffer := by
  simp [unread, h]

theorem unread_taken (k : Net UInt8) (fd m : ℕ) : unread (k.taken fd m) fd = (unread k fd).drop m := by
  cases h : k.file fd with
  | none => simp [unread, Net.taken, Net.onFd, h]
  | some s => simp [unread, Net.taken, Net.onFd, h]

/-- The note of a `recv`. -/
theorem noteInv_recv (k : Net UInt8) (e : Report) (fail : Bool) {result : ReadResult UInt8}
    (hr : k.read e.fd (bufferSize - 1) fail = result) :
    NoteInv ⟨e, some result, unread k e.fd, unread (afterRecv k e.fd result) e.fd⟩ := by
  have hread := k.read_cases e.fd (bufferSize - 1) fail
  rw [hr] at hread
  refine ⟨?_, ?_⟩
  · rintro ⟨l, hl⟩
    cases hl
    exact unread_taken k e.fd (bufferSize - 1)
  · intro ha
    cases ha
    cases hread with
    | again hf hb => exact (unread_eq hf).trans hb

/-- **The batch so far.** -/
structure BatchInv (c : State) : Prop where
  progress : Progress c
  notes : ∀ t ∈ c.handled, NoteInv t

theorem forall_mem_append_singleton {α : Type} {P : α → Prop} {l : List α} {a : α} (hl : ∀ t ∈ l, P t) (ha : P a) :
    ∀ t ∈ l ++ [a], P t := by
  intro t ht
  rcases List.mem_append.mp ht with ht | ht
  · exact hl t ht
  · rw [List.mem_singleton.mp ht]
    exact ha

/-- A step that is not one of the loop over the events changes none of this. -/
theorem Progress.same {c c' : State} (h : Progress c) (hp : c.pos ≠ .dispatch) (hp' : c'.pos ≠ .dispatch)
    (hr : c'.rest = c.rest) (hrep : c'.reported = c.reported) (hh : c'.handled = c.handled) : Progress c' := by
  cases h with
  | going hsplit hok =>
    refine .going ?_ (by rw [hh]; exact hok)
    rw [hrep, hh, hsplit, coming, coming, if_neg hp, if_neg hp', hr]
  | broken front last dropped _ hr0 hh0 hlast hok hsplit =>
    exact .broken front last dropped hp' (hr.trans hr0) (hh.trans hh0) hlast hok (by rw [hrep, hh, hsplit])

/-- At an event nothing has been dropped yet. -/
theorem Progress.dispatch {c : State} (h : Progress c) (hp : c.pos = .dispatch) :
    c.reported = (c.handled.map Note.event ++ [c.event]) ++ c.rest ∧ ∀ t ∈ c.handled, noteFailed t = false := by
  cases h with
  | going hsplit hok =>
    rw [coming, if_pos hp] at hsplit
    exact ⟨by simpa using hsplit, hok⟩
  | broken _ _ _ hp' => exact absurd hp hp'

/-- An event has been handled, and no `recv` has failed. -/
theorem Progress.handle {c c' : State} {t : Note} (h : Progress c) (hp : c.pos = .dispatch) (hp' : c'.pos ≠ .dispatch)
    (ht : t.event = c.event) (hok : noteFailed t = false) (hr : c'.rest = c.rest) (hrep : c'.reported = c.reported)
    (hh : c'.handled = c.handled ++ [t]) : Progress c' := by
  obtain ⟨hsplit, hall⟩ := h.dispatch hp
  refine .going ?_ (by rw [hh]; exact forall_mem_append_singleton hall hok)
  rw [hrep, hsplit, hh, coming, if_neg hp', hr, List.map_append, List.map_singleton, ht]

theorem BatchInv.step {c c' : State} {x : Input} (h : BatchInv c) (hs : BatchStep lfd x c c') : BatchInv c' := by
  cases hs with
  | exit hp => exact ⟨h.progress.same (by rw [hp]; exact nofun) nofun rfl rfl rfl, h.notes⟩
  | wait hp hr =>
    refine ⟨.going ?_ nofun, nofun⟩
    simp [coming, hp]
  | @ready e rest hp hr =>
    refine ⟨?_, h.notes⟩
    cases h.progress with
    | going hsplit hok =>
      refine .going ?_ hok
      rw [hsplit, coming, hp, hr]
      rfl
    | broken _ _ _ _ hr0 => cases hr0.symm.trans hr
  | accept hp hfd hk =>
    exact ⟨h.progress.handle hp nofun rfl rfl rfl rfl rfl, forall_mem_append_singleton h.notes (noteInv_plain _)⟩
  | @recv p result hp hfd hr hto =>
    have hp' : p ≠ .dispatch := by
      rcases hto with ⟨l, -, rfl⟩ | ⟨-, rfl⟩ | ⟨-, rfl⟩ <;> exact nofun
    refine ⟨?_, forall_mem_append_singleton h.notes (noteInv_recv c.net c.event x.fail hr)⟩
    by_cases hf : failed result = true
    · obtain ⟨hsplit, hall⟩ := h.progress.dispatch hp
      refine .broken c.handled _ c.rest hp' (if_pos hf) rfl hf hall ?_
      rw [hsplit, List.map_append]
      rfl
    · refine h.progress.handle hp hp' rfl ?_ (if_neg hf) rfl rfl
      exact eq_false_of_ne_true hf
  | notReadable hp =>
    exact ⟨h.progress.handle hp nofun rfl rfl rfl rfl rfl, forall_mem_append_singleton h.notes (noteInv_plain _)⟩
  | leave hp | fill hp | record buf i hp | add buf i hp =>
    exact ⟨h.progress.same (by rw [hp]; exact nofun) nofun rfl rfl rfl, h.notes⟩

/-- The batch is over. -/
def Over (c : State) : Prop := c.pos = .poll ∧ c.rest = []

/-- There is something to accept, or the connection is open. -/
structure Ready (lfd : ℕ) (k : Net UInt8) (fd : ℕ) : Prop where
  listen : fd = lfd → k.backlog ≠ []
  conn : fd ≠ lfd → (k.file fd).isSome = true

/-- **What epoll promises**: the descriptors it reports are distinct, and ready. -/
def honest (lfd : ℕ) (c : State) : Action → Prop
  | .net _ => True
  | .main x => Over c → (x.reports.map Report.fd).Nodup ∧ ∀ e ∈ x.reports, Ready lfd c.net e.fd

/-- What is known of the event that is being handled. -/
def EventInv (lfd : ℕ) (c : State) : Prop :=
  match c.pos with
  | .dispatch => c.server.sockfd = c.event.fd ∧ Ready lfd c.net c.event.fd ∧ c.event.fd ∉ c.rest.map Report.fd
  | .leave => c.server.sockfd = c.event.fd ∧ c.event.fd ≠ lfd ∧ c.event.fd ∉ c.rest.map Report.fd
  | .poll | .fill | .record _ _ | .exit => True
  | _ => False

/-- **The events that come next are ready**, and the table of `main` knows the descriptors that are open. -/
structure OpenInv (lfd : ℕ) (c : State) : Prop where
  listenfd : c.server.listenfd = lfd
  rows : ∀ fd : ℕ, fd ≠ lfd → (c.server.rows fd).isSome = (c.net.file fd).isSome
  finite : ∃ b, ∀ fd, b ≤ fd → (c.net.file fd).isSome = false
  next : ∀ e ∈ c.rest, Ready lfd c.net e.fd
  distinct : (c.rest.map Report.fd).Nodup
  event : EventInv lfd c

theorem OpenInv.dispatching {c : State} (h : OpenInv lfd c) (hp : c.pos = .dispatch) :
    c.server.sockfd = c.event.fd ∧ Ready lfd c.net c.event.fd ∧ c.event.fd ∉ c.rest.map Report.fd := by
  have hev := h.event
  unfold EventInv at hev
  rwa [hp] at hev

theorem OpenInv.leaving {c : State} (h : OpenInv lfd c) (hp : c.pos = .leave) :
    c.server.sockfd = c.event.fd ∧ c.event.fd ≠ lfd ∧ c.event.fd ∉ c.rest.map Report.fd := by
  have hev := h.event
  unfold EventInv at hev
  rwa [hp] at hev

theorem Ready.mono {k k' : Net UInt8} {fd : ℕ} (h : Ready lfd k fd) (hb : fd = lfd → k.backlog ≠ [] → k'.backlog ≠ [])
    (hf : (k'.file fd).isSome = (k.file fd).isSome) : Ready lfd k' fd :=
  ⟨fun he => hb he (h.listen he), fun hne => hf.trans (h.conn hne)⟩

theorem afterRecv_isSome (k : Net UInt8) (fd : ℕ) (r : ReadResult UInt8) (fd' : ℕ) :
    ((afterRecv k fd r).file fd').isSome = (k.file fd').isSome := by
  cases r with
  | data l => exact k.onFd_isSome fd _ fd'
  | _ => rfl

theorem afterRecv_backlog (k : Net UInt8) (fd : ℕ) (r : ReadResult UInt8) : (afterRecv k fd r).backlog = k.backlog := by
  cases r <;> rfl

theorem happen_backlog {k : Net UInt8} (x : Happening UInt8) (h : k.backlog ≠ []) : (k.happen x).backlog ≠ [] := by
  cases x with
  | connect =>
    simp only [Net.happen]
    split_ifs
    · simp
    · exact h
  | pending i a => simpa [Net.happen] using h
  | onFile fd a => exact h
  | listenError => exact h

/-- Steps of `main` that open and close nothing. -/
theorem OpenInv.keep {c : State} (h : OpenInv lfd c) {m : Server} {p : Pos} {e : Report} {rest : List Report}
    {k : Net UInt8} {rep : List Report} {hd : List Note} (hl : m.listenfd = c.server.listenfd)
    (hrows : m.rows = c.server.rows) (hfile : ∀ fd, (k.file fd).isSome = (c.net.file fd).isSome)
    (hback : k.backlog = c.net.backlog) (hrest : rest.Sublist c.rest)
    (hev : EventInv lfd ⟨m, p, k, e, rest, rep, hd⟩) : OpenInv lfd ⟨m, p, k, e, rest, rep, hd⟩ where
  listenfd := hl.trans h.listenfd
  rows fd hne := by
    show (m.rows fd).isSome = _
    rw [hrows, h.rows fd hne, hfile]
  finite := by
    obtain ⟨b, hb⟩ := h.finite
    exact ⟨b, fun fd hfd => (hfile fd).trans (hb fd hfd)⟩
  next e he := (h.next e (hrest.subset he)).mono (fun _ hb => by rw [hback]; exact hb) (hfile _)
  distinct := h.distinct.sublist (hrest.map Report.fd)
  event := hev

theorem OpenInv.accept {c : State} (h : OpenInv lfd c) (hp : c.pos = .dispatch) (hfd : c.event.fd = lfd) {fd : ℕ}
    {k : Net UInt8} (hk : c.net.accept lfd fd = some k) {hd : List Note} :
    OpenInv lfd { c with
      server := c.server.accept fd, pos := .fill, net := k.register fd, handled := hd } := by
  obtain ⟨-, -, hmem⟩ := h.dispatching hp
  obtain ⟨s, q, hback, hne, hnone, rfl⟩ := Net.accept_some hk
  -- the new descriptor is open, on both sides; nothing else changes
  have hfile : ∀ fd', fd' ≠ fd → (((({ c.net with backlog := q, file := Function.update c.net.file fd (some s) } :
      Net UInt8).register fd).file fd').isSome = (c.net.file fd').isSome) := by
    intro fd' hne'
    rw [Net.register, Net.onFd_isSome]
    simp [hne']
  have hself : ((({ c.net with backlog := q, file := Function.update c.net.file fd (some s) } :
      Net UInt8).register fd).file fd).isSome = true := by
    rw [Net.register, Net.onFd_isSome]
    simp
  refine ⟨h.listenfd, fun fd' hne' => ?_, ?_, fun e he => ?_, h.distinct, trivial⟩
  · by_cases heq : fd' = fd
    · subst heq
      rw [hself]
      simp [Server.accept, Server.setClient]
    · rw [hfile fd' heq, ← h.rows fd' hne']
      simp [Server.accept, Server.setClient, heq]
  · obtain ⟨b, hb⟩ := h.finite
    refine ⟨max b (fd + 1), fun fd' hle => ?_⟩
    have hle' := max_le_iff.mp hle
    rw [hfile fd' (by omega)]
    exact hb fd' hle'.1
  · have hne' : e.fd ≠ lfd := by
      intro heq
      exact hmem (by rw [hfd, ← heq]; exact List.mem_map_of_mem he)
    refine ⟨fun heq => absurd heq hne', fun _ => ?_⟩
    by_cases heq : e.fd = fd
    · rw [heq]
      exact hself
    · rw [hfile e.fd heq]
      exact (h.next e he).conn hne'

theorem OpenInv.leave {c : State} (h : OpenInv lfd c) (hp : c.pos = .leave) : OpenInv lfd { c with
    server := c.server.leave, pos := .poll, net := c.net.close lfd c.event.fd } := by
  obtain ⟨hsock, hne, hmem⟩ := h.leaving hp
  have hclose : c.net.close lfd c.event.fd = { c.net with
      file := Function.update c.net.file c.event.fd none
      past := c.net.past ++ (c.net.file c.event.fd).toList } := if_neg hne
  rw [hclose]
  refine ⟨h.listenfd, fun fd hfd => ?_, ?_, fun e he => ?_, h.distinct, trivial⟩
  · by_cases heq : fd = c.event.fd
    · subst heq
      simp [Server.leave, Server.setClient, hsock]
    · have := h.rows fd hfd
      simpa [Server.leave, Server.setClient, hsock, heq] using this
  · obtain ⟨b, hb⟩ := h.finite
    refine ⟨b, fun fd hfd => ?_⟩
    by_cases heq : fd = c.event.fd
    · subst heq
      simp
    · simpa [heq] using hb fd hfd
  · have heq : e.fd ≠ c.event.fd := fun heq => hmem (heq ▸ List.mem_map_of_mem he)
    exact (h.next e he).mono (fun _ hb => hb) (by simp [heq])

theorem OpenInv.step {c c' : State} {x : Input} (h : OpenInv lfd c) (hok : honest lfd c (.main x))
    (hs : BatchStep lfd x c c') : OpenInv lfd c' := by
  cases hs with
  | exit hp => exact h.keep rfl rfl (fun _ => rfl) rfl (.refl _) trivial
  | wait hp hr =>
    obtain ⟨hnodup, hready⟩ := hok ⟨hp, hr⟩
    refine ⟨h.listenfd, h.rows, h.finite, hready, hnodup, ?_⟩
    unfold EventInv
    rw [hp]
    trivial
  | @ready e rest hp hr =>
    have hd := h.distinct
    rw [hr, List.map_cons, List.nodup_cons] at hd
    refine h.keep rfl rfl (fun _ => rfl) rfl (by rw [hr]; exact List.sublist_cons_self _ _) ⟨rfl, ?_, hd.1⟩
    exact h.next e (by rw [hr]; exact List.mem_cons_self)
  | accept hp hfd hk => exact h.accept hp hfd hk
  | @recv p result hp hfd hr hto =>
    obtain ⟨hsock, -, hmem⟩ := h.dispatching hp
    have hrest : (if failed result = true then [] else c.rest).Sublist c.rest := by
      split_ifs
      · exact List.nil_sublist _
      · exact .refl _
    refine h.keep rfl rfl (afterRecv_isSome _ _ _) (afterRecv_backlog _ _ _) hrest ?_
    rcases hto with ⟨l, -, rfl⟩ | ⟨-, rfl⟩ | ⟨-, rfl⟩
    · trivial
    · exact ⟨hsock, hfd, fun hin => hmem ((hrest.map Report.fd).subset hin)⟩
    · trivial
  | notReadable hp => exact h.keep rfl rfl (fun _ => rfl) rfl (.refl _) trivial
  | leave hp => exact h.leave hp
  | fill hp => exact h.keep rfl rfl (fun _ => rfl) rfl (.refl _) trivial
  | record buf i hp =>
    have hl : (c.server.record buf i).listenfd = c.server.listenfd := by unfold Server.record; split_ifs <;> rfl
    have hrows : (c.server.record buf i).rows = c.server.rows := by unfold Server.record; split_ifs <;> rfl
    exact h.keep hl hrows (fun _ => rfl) rfl (.refl _) trivial
  | add buf i hp => exact h.keep rfl rfl (fun _ => rfl) rfl (.refl _) trivial

theorem OpenInv.happen {c : State} (h : OpenInv lfd c) (x : Happening UInt8) :
    OpenInv lfd { c with net := c.net.happen x } := by
  have hready : ∀ fd, Ready lfd c.net fd → Ready lfd (c.net.happen x) fd := fun fd hr =>
    hr.mono (fun _ hb => happen_backlog x hb) (c.net.happen_isSome x fd)
  refine ⟨h.listenfd, fun fd hne => ?_, ?_, fun e he => hready e.fd (h.next e he), h.distinct, ?_⟩
  · rw [h.rows fd hne, Net.happen_isSome]
  · obtain ⟨b, hb⟩ := h.finite
    exact ⟨b, fun fd hfd => (c.net.happen_isSome x fd).trans (hb fd hfd)⟩
  · have hev := h.event
    unfold EventInv at hev ⊢
    cases hp : c.pos <;> simp only [hp] at hev ⊢
    · exact ⟨hev.1, hready _ hev.2.1, hev.2.2⟩
    · exact hev

/-- `main` is back at its loop over the events of the same batch, of which no more are left than before. -/
structure Back (lfd : ℕ) (c c' : State) : Prop where
  runs : Runs (system lfd) (honest lfd) c c'
  pos : c'.pos = .poll
  rest : c'.rest.length ≤ c.rest.length
  reported : c'.reported = c.reported

theorem Back.after {c c1 c' : State} (h : Back lfd c1 c') (hr : Runs (system lfd) (honest lfd) c c1)
    (hrest : c1.rest.length ≤ c.rest.length) (hrep : c1.reported = c.reported) : Back lfd c c' :=
  ⟨hr.trans h.runs, h.pos, h.rest.trans hrest, h.reported.trans hrep⟩

/-- How much of the batch is left: the events to come, and one that has been begun. -/
def left (c : State) : ℕ := 2 * c.rest.length + if c.pos = .poll then 0 else 1

end PoolStudy.ChatServer.Handling
