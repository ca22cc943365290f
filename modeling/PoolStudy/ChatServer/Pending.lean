import PoolStudy.ChatPool.Queue
import PoolStudy.ChatServer.Items

/-! # The items of the chat server that have still to read their data

All items carry the same pointer, to the variable `sockfd` of `main`, and the text of a message is only in the
table. `unread` and `uncopied` are the items that have still to read the one and to copy the other, and `separate`
is the condition that `main` leaves both alone until then. Apart from that the module collects what a step of `main`
in a call of the pool does to the items (`callStep_ledger`, `callStep_unread`), and where `main` may be (`CallOk`,
`Known`). -/

namespace PoolStudy.ChatServer.Pending

open PoolStudy.Lib.Transition PoolStudy.Lib.Threads
open PoolStudy.ChatPool.Model PoolStudy.ChatPool.Steps PoolStudy.ChatPool.Queue
open PoolStudy.ChatServer.Model PoolStudy.ChatServer.Steps PoolStudy.ChatServer.Items

/-- The event that enqueued the item `p`. -/
def event (c : ServerState) (p : Ptr) : Event := (c.mem.heap p).arg

/-- The item `p` has not read its argument: it is about to be added, or in the queue, or in the hands of a worker
that has not begun. -/
def unread (c : ServerState) (p : Ptr) : Prop :=
  p ∈ waiting c.mem ∨ callNode (c.client ()) = some p ∨
    ∃ i, c.worker i = .unlock p ∨ c.worker i = .run p (.code .start)

/-- The item `p` has not copied its text, and is going to look for the descriptor `fd`. -/
def uncopied (c : ServerState) (p : Ptr) (fd : ℤ) : Prop :=
  (unread c p ∧ fd = c.mem.ext.sockfd) ∨
    ∃ i j, c.worker i = .run p (.code (.search fd j)) ∨ c.worker i = .run p (.code (.copy fd j))

/-- **The condition.** `main` does not change `sockfd` while an item has not read it; when it receives a message,
no item has yet to copy another text of the same descriptor; when a client leaves, no item has yet to copy the
text that is cleared; and clients are accepted while there is room in the array. -/
def separate (c : ServerState) (a : ServerAction) : Prop :=
  a.1 = .inr () →
    (c.client () = .code .poll → ∀ fd, a.2.ext = some (.ready fd) → ∀ p, unread c p → fd = c.mem.ext.sockfd) ∧
    (c.client () = .code .dispatch → ∀ fd, a.2.ext = some (.accepted fd) →
      c.mem.ext.clientCount + 1 < maxEventNumber) ∧
    (c.client () = .code .dispatch → ∀ buf, a.2.ext = some (.received buf) →
      ∀ p j, uncopied c p c.mem.ext.sockfd → FirstRow c.mem.ext c.mem.ext.sockfd j →
        strcpy (c.mem.ext.client j).chatRecord = strcpy buf) ∧
    (c.client () = .code .leave → ∀ p fd, uncopied c p fd → FirstRow c.mem.ext fd c.mem.ext.clientCount →
      strcpy (c.mem.ext.client c.mem.ext.clientCount).chatRecord = [])

/-! ### The calls of `main` -/

/-- **Where `main` may be.** It goes back to the loop after `poolAddWorker` and leaves after `poolDestroy`. -/
def CallOk (threadid : Bool) : Call Pos → Prop
  | .code l => threadid = false → l = .exit
  | .addLock _ l | .addHead _ l | .walk _ _ l | .append _ _ l | .addUnlock _ l | .addSignal _ l =>
    l = .poll ∧ threadid = true
  | .destroyTest _ ok failed => ok = .exit ∧ failed = .exit
  | .destroySet _ ok | .destroyCast _ ok | .join _ _ ok | .clean _ ok | .destroyFree _ ok => ok = .exit
  | .aborted => False

abbrev ServerMem := Mem threadNum Unit Server Event

abbrev ServerInput := Input threadNum (Option Kernel)

theorem callStep_callOk {x : ServerInput} {m m' : ServerMem} {d d' : Call Pos}
    (hs : CallStep server (.inr ()) x m d m' d') (h : CallOk m.pool.threadid d)
    (hlast : ∀ p member l, d = .append p member l → m.pool.threadid = true →
      (m.link p member).pool.queueHead ≠ none) : CallOk m'.pool.threadid d' := by
  cases hs with
  | goto hst =>
    intro ht
    have hexit := h ht
    subst hexit
    cases hst
  | add hst =>
    have hmain := mainStep_cases hst
    generalize x.ext = y at hmain
    cases hmain with
    | add _ buf i hi =>
      refine ⟨rfl, ?_⟩
      show m.pool.threadid = true
      by_contra hne
      cases h (by simpa using hne)
  | destroy hst =>
    have hmain := mainStep_cases hst
    generalize x.ext = y at hmain
    cases hmain
    exact ⟨rfl, rfl⟩
  | append p member l hh => exact ⟨h.1, by cases member <;> exact h.2⟩
  | appendAbort p member l hh => exact absurd hh (hlast p member l rfl h.2)
  | addSignal p l hw =>
    intro ht
    exact absurd (ht.symm.trans h.2) (by simp)
  | testFailed d ok failed hsd => exact fun _ => h.2
  | test d ok failed hsd => exact h.1
  | joinEnd d ok hi => exact h
  | free d ok => exact fun _ => h
  | _ => exact h

/-- A call of `main` comes back to the loop or to the end. -/
theorem CallOk.back {threadid : Bool} {d : Call Pos} (h : CallOk threadid d) (hcode : ∀ l, d ≠ .code l) :
    ∀ l ∈ places d, l = .poll ∨ l = .exit := by
  cases d with
  | code l => exact absurd rfl (hcode l)
  | destroyTest d ok failed =>
    obtain ⟨rfl, rfl⟩ := h
    simp [places]
  | addLock p l | addHead p l | walk p q l | append p member l | addUnlock p l | addSignal p l =>
    obtain ⟨rfl, -⟩ := h
    simp [places]
  | aborted => exact h.elim
  | _ =>
    cases h
    simp [places]

/-! ### The items of a step of `main` in a call -/

theorem callStep_arg {self : Tid threadNum Unit} {x : ServerInput} {m m' : ServerMem} {d d' : Call Pos}
    (hs : CallStep server self x m d m' d') (hcode : ∀ l, d ≠ .code l) (p : Ptr) :
    (m'.heap p).arg = (m.heap p).arg := by
  cases hs with
  | goto h | add h | destroy h => exact absurd rfl (hcode _)
  | append q member l hh | appendAbort q member l hh =>
    cases member with
    | none => rfl
    | some r =>
      by_cases hr : p = r
      · subst hr
        simp [Mem.link, Mem.count]
      · simp [Mem.link, Mem.count, hr]
  | _ => rfl

/-- A call that is not about to begin neither makes an item nor loses one, unless an assertion fails. -/
theorem callStep_ledger {self : Tid threadNum Unit} {x : ServerInput} {m m' : ServerMem} {d d' : Call Pos}
    (hs : CallStep server self x m d m' d') (hcode : ∀ l, d ≠ .code l) (ha : d' ≠ .aborted) :
    m'.added ++ (callNode d').toList = m.added ++ (callNode d).toList ∧
      m'.dequeued = m.dequeued ∧ m'.finished = m.finished ∧ m'.fresh = m.fresh := by
  cases hs with
  | goto h | add h | destroy h => exact absurd rfl (hcode _)
  | append p member l hh => cases member <;> simp [Mem.link, Mem.count, callNode]
  | appendAbort p member l hh => exact absurd rfl ha
  | _ => exact ⟨rfl, rfl, rfl, rfl⟩

theorem callStep_unread {self : Tid threadNum Unit} {x : ServerInput} {m m' : ServerMem} {d d' : Call Pos}
    (hs : CallStep server self x m d m' d') (hcode : ∀ l, d ≠ .code l) {p : Ptr}
    (hp : p ∈ waiting m' ∨ callNode d' = some p) : p ∈ waiting m ∨ callNode d = some p := by
  cases hs with
  | goto h | add h | destroy h => exact absurd rfl (hcode _)
  | append q member l hh =>
    have hw : p ∈ (m.added ++ [q]).drop m.dequeued.length := by
      rcases hp with hp | hp
      · cases member <;> exact hp
      · cases hp
    rw [List.drop_append, List.mem_append] at hw
    rcases hw with hw | hw
    · exact Or.inl hw
    · rw [List.mem_singleton.mp (List.mem_of_mem_drop hw)]
      exact Or.inr rfl
  | appendAbort q member l hh =>
    rcases hp with hp | hp
    · exact Or.inl (by cases member <;> exact hp)
    · cases hp
  | _ => exact hp

/-! ### The descriptors `main` knows -/

/-- The descriptors that are open are in the table, and `main` has got one of them, or that of the listening
socket. -/
def Known (m : Server) (l : Pos) : Prop :=
  (∀ fd, (m.rows fd).isSome → ∃ k, (1 ≤ k ∧ k ≤ m.clientCount) ∧ (m.client k).sockfd = fd) ∧
    (l = .dispatch → m.sockfd = m.listenfd ∨ (m.rows m.sockfd).isSome)

theorem known_mainStep {x : Option Kernel} {m m' : Server} {l : Pos} {a : Act Pos Event}
    (hs : MainStep m x l m' a) (h : Known m l) : ∀ l' ∈ actPlaces a, Known m' l' := by
  have hg := mainStep_grows hs
  -- the entries in use stay, so it is enough to look at descriptors that have become open
  have hkeep : ∀ fd, (m.rows fd).isSome →
      ∃ k, (1 ≤ k ∧ k ≤ m'.clientCount) ∧ (m'.client k).sockfd = fd := by
    intro fd hfd
    obtain ⟨k, ⟨h1, h2⟩, h3⟩ := h.1 fd hfd
    exact ⟨k, ⟨h1, h2.trans hg.count⟩, (hg.sockfd k h2).trans h3⟩
  intro l' hl'
  cases hs with
  | ready fd hfd => exact ⟨hkeep, fun _ => hfd⟩
  | accept connfd hs hne hr =>
    rw [List.mem_singleton.mp hl']
    refine ⟨fun fd hfd => ?_, fun hl => by cases hl⟩
    by_cases hc : fd = connfd
    · subst hc
      exact ⟨m.clientCount + 1, ⟨by omega, le_rfl⟩, by simp [Server.accept, Server.setClient]⟩
    · exact hkeep fd (by simpa [Server.accept, Server.setClient, hc] using hfd)
  | leave =>
    rw [List.mem_singleton.mp hl']
    refine ⟨fun fd hfd => hkeep fd ?_, fun hl => by cases hl⟩
    by_cases hc : fd = m.sockfd
    · simp [Server.leave, hc] at hfd
    · simpa [Server.leave, hc] using hfd
  | record _ buf i hi =>
    rw [List.mem_singleton.mp hl']
    exact ⟨fun fd hfd => hkeep fd ((record_same m buf i).2.2.1 ▸ hfd), fun hl => by cases hl⟩
  | failure =>
    obtain rfl : l' = .exit := by simpa [actPlaces] using hl'
    exact ⟨hkeep, fun hl => by cases hl⟩
  | _ =>
    rw [List.mem_singleton.mp hl']
    exact ⟨hkeep, fun hl => by cases hl⟩

theorem known_reach {ok : ServerState → ServerAction → Prop} {c : ServerState} (h : Reach chatServer ok c) :
    ∀ l ∈ places (c.client ()), Known c.mem.ext l := by
  refine server_invariant (P := Known) (fun m hm => ?_) (fun _ _ _ _ _ _ _ hs => known_mainStep hs)
    (fun m bs l hm => hm) h
  exact ⟨by simp [hm.2.2.1], nofun⟩

end PoolStudy.ChatServer.Pending
