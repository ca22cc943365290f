import PoolStudy.ChatPool.Steps
import PoolStudy.ChatServer.Model

/-! # The chat server: what a step can do

`MainStep` and `ProcessStep` list the outcomes of a step of `main` and of an item, with the guards under which
they happen. `server_invariant` is the rule for what concerns `main` and the table only: items change nothing
there but the history of the broadcasts. -/

namespace PoolStudy.ChatServer.Steps

open PoolStudy.Lib.Transition PoolStudy.Lib.Threads
open PoolStudy.ChatPool.Model PoolStudy.ChatPool.Steps PoolStudy.ChatServer.Model

/-- **The outcomes of a step of `main`.** -/
inductive MainStep (m : Server) : Option Kernel → Pos → Server → Act Pos Event → Prop
  | failure : MainStep m (some .failure) .poll m (.destroy .exit .exit)
  | ready (fd : ℤ) (h : fd = m.listenfd ∨ (m.rows fd).isSome) :
      MainStep m (some (.ready fd)) .poll { m with sockfd := fd } (.goto .dispatch)
  | accept (connfd : ℤ) (h : m.sockfd = m.listenfd) (hl : connfd ≠ m.listenfd) (hr : m.rows connfd = none) :
      MainStep m (some (.accepted connfd)) .dispatch (m.accept connfd) (.goto .fill)
  | received (buf : Bytes) (h : m.sockfd ≠ m.listenfd) (hn : buf ≠ []) (hl : buf.length < bufferSize) :
      MainStep m (some (.received buf)) .dispatch m (.goto (.record buf 1))
  | gone {x : Kernel} (hx : x = .left ∨ x = .error) (h : m.sockfd ≠ m.listenfd) :
      MainStep m (some x) .dispatch m (.goto .leave)
  | nothing {x : Kernel} (hx : x = .again ∨ x = .notReadable) (h : m.sockfd ≠ m.listenfd) :
      MainStep m (some x) .dispatch m (.goto .poll)
  | fill (x : Option Kernel) : MainStep m x .fill m.fill (.goto .poll)
  | leave (x : Option Kernel) : MainStep m x .leave m.leave (.goto .poll)
  | record (x : Option Kernel) (buf : Bytes) (i : ℕ) (h : i ≤ m.clientCount) :
      MainStep m x (.record buf i) (m.record buf i) (.goto (.record buf (i + 1)))
  | add (x : Option Kernel) (buf : Bytes) (i : ℕ) (h : m.clientCount < i) :
      MainStep m x (.record buf i) { m with received := m.received ++ [m.event buf] } (.add (m.event buf) .poll)

theorem mainStep_cases {x : Option Kernel} {m : Server} {l : Pos} {r : Server × Act Pos Event}
    (h : mainStep x m l = some r) : MainStep m x l r.1 r.2 := by
  cases l with
  | poll =>
    simp only [mainStep] at h
    split at h
    · cases h; exact .failure
    · next fd =>
      split_ifs at h with hr
      cases h; exact .ready fd hr
    · cases h
  | dispatch =>
    simp only [mainStep] at h
    split at h
    · next connfd =>
      split_ifs at h with hr
      cases h; exact .accept connfd hr.1 hr.2.1 hr.2.2
    · next buf =>
      split_ifs at h with hr
      cases h; exact .received buf hr.1 hr.2.1 hr.2.2
    · split_ifs at h with hr
      cases h; exact .gone (Or.inl rfl) hr
    · split_ifs at h with hr
      cases h; exact .gone (Or.inr rfl) hr
    · split_ifs at h with hr
      cases h; exact .nothing (Or.inl rfl) hr
    · split_ifs at h with hr
      cases h; exact .nothing (Or.inr rfl) hr
    · cases h
  | fill => cases h; exact .fill x
  | leave => cases h; exact .leave x
  | record buf i =>
    simp only [mainStep] at h
    split_ifs at h with hi
    · cases h; exact .record x buf i hi
    · cases h; exact .add x buf i (Nat.lt_of_not_le hi)
  | _ => cases h

/-- **The outcomes of a step of `myprocess`.** -/
inductive ProcessStep (m : Server) : Pos → Server → Act Pos Event → Prop
  | start : ProcessStep m .start m (.goto (.search m.sockfd 1))
  | found (fd : ℤ) (j : ℕ) (hj : j < maxEventNumber) (h : (m.client j).sockfd = fd) :
      ProcessStep m (.search fd j) m (.goto (.copy fd j))
  | next (fd : ℤ) (j : ℕ) (hj : j < maxEventNumber) (h : (m.client j).sockfd ≠ fd) :
      ProcessStep m (.search fd j) m (.goto (.search fd (j + 1)))
  | notFound (fd : ℤ) (j : ℕ) (hj : maxEventNumber ≤ j) :
      ProcessStep m (.search fd j) m (.goto (.send fd [] 1 []))
  | copy (fd : ℤ) (j : ℕ) :
      ProcessStep m (.copy fd j) m (.goto (.send fd (strcpy (m.client j).chatRecord) 1 []))
  | skip (fd : ℤ) (buf : Bytes) (j : ℕ) (sentTo : List ℤ) (hj : j < maxEventNumber)
      (h : (m.client j).sockfd = fd) :
      ProcessStep m (.send fd buf j sentTo) m (.goto (.send fd buf (j + 1) sentTo))
  | other (fd : ℤ) (buf : Bytes) (j : ℕ) (sentTo : List ℤ) (hj : j < maxEventNumber)
      (h : (m.client j).sockfd ≠ fd) :
      ProcessStep m (.send fd buf j sentTo) m (.goto (.sendTo fd buf j sentTo))
  | send (fd : ℤ) (buf : Bytes) (j : ℕ) (sentTo : List ℤ) :
      ProcessStep m (.sendTo fd buf j sentTo) m
        (.goto (.send fd buf (j + 1) (sentTo ++ [(m.client j).sockfd])))
  | ret (fd : ℤ) (buf : Bytes) (j : ℕ) (sentTo : List ℤ) (hj : maxEventNumber ≤ j) :
      ProcessStep m (.send fd buf j sentTo) { m with broadcasts := m.broadcasts ++ [⟨fd, buf, sentTo⟩] } .ret

theorem processStep_cases {m : Server} {l : Pos} {r : Server × Act Pos Event}
    (h : processStep m l = some r) : ProcessStep m l r.1 r.2 := by
  cases l with
  | start => cases h; exact .start
  | search fd j =>
    simp only [processStep] at h
    split_ifs at h with hj hf
    · cases h; exact .found fd j hj hf
    · cases h; exact .next fd j hj hf
    · cases h; exact .notFound fd j (Nat.le_of_not_lt hj)
  | copy fd j => cases h; exact .copy fd j
  | send fd buf j sentTo =>
    simp only [processStep] at h
    split_ifs at h with hj hf
    · cases h; exact .skip fd buf j sentTo hj hf
    · cases h; exact .other fd buf j sentTo hj hf
    · cases h; exact .ret fd buf j sentTo (Nat.le_of_not_lt hj)
  | sendTo fd buf j sentTo => cases h; exact .send fd buf j sentTo
  | _ => cases h

/-- An item changes nothing but the history of the broadcasts. -/
theorem processStep_server {m m' : Server} {l : Pos} {a : Act Pos Event} (h : ProcessStep m l m' a) :
    ∃ bs, m' = { m with broadcasts := bs } := by
  cases h with
  | ret fd buf j sentTo hj => exact ⟨_, rfl⟩
  | _ => exact ⟨m.broadcasts, rfl⟩

/-- No item goes back to its start. -/
theorem processStep_not_start {m m' : Server} {l : Pos} : ¬ ProcessStep m l m' (.goto .start) := by
  intro h
  cases h

/-- **Invariants of `main` and the table.** What holds at the start, is kept by the steps of `main` and does not
speak of the broadcasts, holds wherever `main` is. -/
theorem server_invariant {ok : ServerState → ServerAction → Prop} {P : Server → Pos → Prop}
    (h0 : ∀ m, server.init m → P m .poll)
    (hmain : ∀ c x l m' a, c.client () = .code l → ok c (.inr (), x) → MainStep c.mem.ext x.ext l m' a →
      P c.mem.ext l → ∀ l' ∈ actPlaces a, P m' l')
    (hproc : ∀ m bs l, P m l → P { m with broadcasts := bs } l) {c : ServerState}
    (h : Reach chatServer ok c) : ∀ l ∈ places (c.client ()), P c.mem.ext l := by
  refine Program.invariant (I := fun c : ServerState => ∀ l ∈ places (c.client ()), P c.mem.ext l) ?_ ?_ ?_ h
  · rintro _ ⟨m, heap, hm, rfl⟩ l hl
    rw [List.mem_singleton.mp hl]
    exact h0 m hm
  · intro c i x r _ hi _ hs l hl
    rcases workerStep_code (workerStep_cases hs) with he | ⟨q, s, a, hst, he⟩
    · rw [show (c.moveWorker i r).mem.ext = c.mem.ext from he]
      exact hi l hl
    · obtain ⟨bs, hbs⟩ := processStep_server (processStep_cases hst)
      rw [show (c.moveWorker i r).mem.ext = s from he, show s = _ from hbs]
      exact hproc _ bs l (hi l hl)
  · intro c k x r _ hi hok hs l hl
    have hmoved : (c.moveClient k r).client () = r.2 := by simp [Config.moveClient]
    rw [hmoved] at hl
    rcases callStep_code (callStep_cases hs) with ⟨he, hp⟩ | ⟨q, s, a, hq, hst, he, hp⟩
    · rw [show (c.moveClient k r).mem.ext = c.mem.ext from he]
      exact hi l (hp l hl)
    · rw [show (c.moveClient k r).mem.ext = s from he]
      exact hmain c x q s a hq hok (mainStep_cases hst) (hi q (by rw [hq]; simp [places])) l (hp ▸ hl)

end PoolStudy.ChatServer.Steps
