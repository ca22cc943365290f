import PoolStudy.ChatServer.Steps
import Mathlib.Data.List.TakeWhile
import Mathlib.Data.List.Range

/-! # What an item of the chat server reads

An item reads the variable `sockfd` of `main` and then the text in the first entry with this descriptor
(`FirstRow`). `Stage m e l` says that the item of the event `e`, at the position `l`, has read and copied what
belongs to `e`, and that what it has still to read is there (`Unread`, `Ready`). The steps of the item keep it
(`processStep_stage`), and so does every change of the table that leaves the entries in use and the text the item
is going to copy alone (`Stage.keep`). When it returns, it has sent the text of `e` to all other entries that were
in use when `e` was received (`Broadcasts`). -/

namespace PoolStudy.ChatServer.Items

open PoolStudy.ChatPool.Model PoolStudy.ChatPool.Steps PoolStudy.ChatServer.Model PoolStudy.ChatServer.Steps

/-! ### The table, for an item -/

/-- The entry `j` is the first one with the descriptor `fd`. -/
def FirstRow (m : Server) (fd : ℤ) (j : ℕ) : Prop :=
  (1 ≤ j ∧ j ≤ m.clientCount) ∧ (m.client j).sockfd = fd ∧ ∀ k, 1 ≤ k → k < j → (m.client k).sockfd ≠ fd

/-- The entries in use have kept their descriptors. -/
structure Grows (m m' : Server) : Prop where
  count : m.clientCount ≤ m'.clientCount
  sockfd : ∀ k, k ≤ m.clientCount → (m'.client k).sockfd = (m.client k).sockfd

/-- The text that an item of the descriptor `fd` is going to copy has not changed. -/
def TextKept (m m' : Server) (fd : ℤ) : Prop :=
  ∀ j, FirstRow m fd j → strcpy (m'.client j).chatRecord = strcpy (m.client j).chatRecord

variable {m m' : Server} {e : Event} {fd : ℤ} {j k : ℕ}

theorem FirstRow.unique (h : FirstRow m fd j) (h' : FirstRow m fd k) : j = k := by
  rcases Nat.lt_trichotomy j k with hlt | heq | hlt
  · exact absurd h.2.1 (h'.2.2 j h.1.1 hlt)
  · exact heq
  · exact absurd h'.2.1 (h.2.2 k h'.1.1 hlt)

/-- A descriptor in the table has a first entry. -/
theorem exists_firstRow (h1 : 1 ≤ k) (h2 : k ≤ m.clientCount) (h : (m.client k).sockfd = fd) :
    ∃ j, FirstRow m fd j := by
  classical
  have hex : ∃ j, 1 ≤ j ∧ (m.client j).sockfd = fd := ⟨k, h1, h⟩
  refine ⟨Nat.find hex, ⟨(Nat.find_spec hex).1, ?_⟩, (Nat.find_spec hex).2, fun i hi hlt he => ?_⟩
  · exact (Nat.find_min' hex ⟨h1, h⟩).trans h2
  · exact Nat.find_min hex hlt ⟨hi, he⟩

theorem FirstRow.grows (h : FirstRow m fd j) (hg : Grows m m') : FirstRow m' fd j := by
  obtain ⟨⟨h1, h2⟩, h3, h4⟩ := h
  refine ⟨⟨h1, h2.trans hg.count⟩, by rw [hg.sockfd j h2, h3], fun i hi hlt => ?_⟩
  rw [hg.sockfd i (hlt.le.trans h2)]
  exact h4 i hi hlt

/-! ### What an item has still to read -/

/-- The text of the event is where an item of the event is going to look. -/
def Ready (m : Server) (e : Event) : Prop :=
  e.clients ≤ m.clientCount ∧ ∃ j, FirstRow m e.sockfd j ∧ strcpy (m.client j).chatRecord = e.text

/-- **An item that has not read its argument** finds what belongs to its event. -/
def Unread (m : Server) (e : Event) : Prop := m.sockfd = e.sockfd ∧ Ready m e

theorem Ready.keep (h : Ready m e) (hg : Grows m m') (ht : TextKept m m' e.sockfd) : Ready m' e := by
  obtain ⟨hc, j, hj, htext⟩ := h
  exact ⟨hc.trans hg.count, j, hj.grows hg, by rw [ht j hj, htext]⟩

/-! ### What an item has sent -/

/-- The descriptors in the first `k` entries, without those equal to `fd`. -/
def rowsTo (m : Server) (fd : ℤ) (k : ℕ) : List ℤ :=
  ((List.range' 1 k).map fun j => (m.client j).sockfd).filter (· ≠ fd)

theorem rowsTo_next (m : Server) (fd : ℤ) (k : ℕ) :
    rowsTo m fd (k + 1) = rowsTo m fd k ++
      (if (m.client (k + 1)).sockfd = fd then [] else [(m.client (k + 1)).sockfd]) := by
  rw [rowsTo, List.range'_concat, List.map_append, List.filter_append, rowsTo]
  congr 1
  by_cases h : (m.client (k + 1)).sockfd = fd <;> simp [Nat.add_comm, h]

theorem rowsTo_grows (hg : Grows m m') (hk : k ≤ m.clientCount) : rowsTo m' fd k = rowsTo m fd k := by
  unfold rowsTo
  congr 1
  refine List.map_congr_left fun i hi => hg.sockfd i ?_
  have := List.mem_range'_1.mp hi
  omega

/-- **The sends before the entry `j`**: those to the entries that were in use when the event was received come
first. -/
def Sent (m : Server) (e : Event) (j : ℕ) (sentTo : List ℤ) : Prop :=
  ∃ rest, sentTo = rowsTo m e.sockfd (min (j - 1) e.clients) ++ rest ∧ (j ≤ e.clients → rest = [])

theorem Sent.keep {sentTo : List ℤ} (h : Sent m e j sentTo) (hg : Grows m m') (hc : e.clients ≤ m.clientCount) :
    Sent m' e j sentTo := by
  obtain ⟨rest, h1, h2⟩ := h
  exact ⟨rest, by rw [rowsTo_grows hg ((Nat.min_le_right _ _).trans hc), h1], h2⟩

/-- The next entry: `out` is what is sent for it. -/
theorem Sent.next {sentTo out : List ℤ} (h : Sent m e j sentTo) (hj : 1 ≤ j)
    (hout : j ≤ e.clients → out = if (m.client j).sockfd = e.sockfd then [] else [(m.client j).sockfd]) :
    Sent m e (j + 1) (sentTo ++ out) := by
  obtain ⟨rest, h1, h2⟩ := h
  obtain ⟨i, rfl⟩ : ∃ i, j = i + 1 := ⟨j - 1, by omega⟩
  by_cases hle : i + 1 ≤ e.clients
  · refine ⟨[], ?_, fun _ => rfl⟩
    rw [h1, h2 hle, hout hle, show min (i + 1 + 1 - 1) e.clients = i + 1 by omega, rowsTo_next,
      show min (i + 1 - 1) e.clients = i by omega]
    simp
  · refine ⟨rest ++ out, ?_, fun hle' => absurd hle' (by omega)⟩
    rw [h1, show min (i + 1 + 1 - 1) e.clients = min (i + 1 - 1) e.clients by omega, List.append_assoc]

/-- **What the item of `e` has broadcast**: the text of `e`, under its sender, to all other entries that were in
use when the event was received. -/
def Broadcasts (m : Server) (e : Event) (b : Broadcast) : Prop :=
  e.clients ≤ m.clientCount ∧ b.sockfd = e.sockfd ∧ b.text = e.text ∧ rowsTo m e.sockfd e.clients <+: b.sentTo

theorem Broadcasts.keep {b : Broadcast} (h : Broadcasts m e b) (hg : Grows m m') : Broadcasts m' e b := by
  obtain ⟨h1, h2, h3, h4⟩ := h
  exact ⟨h1.trans hg.count, h2, h3, by rwa [rowsTo_grows hg h1]⟩

/-! ### The stages of an item -/

/-- **The item of `e` at a position of `myprocess`.** -/
def Stage (m : Server) (e : Event) : Pos → Prop
  | .start => Unread m e
  | .search fd j => fd = e.sockfd ∧ Ready m e ∧ 1 ≤ j ∧ ∀ k, 1 ≤ k → k < j → (m.client k).sockfd ≠ e.sockfd
  | .copy fd j => fd = e.sockfd ∧ Ready m e ∧ FirstRow m e.sockfd j
  | .send fd buf j sentTo =>
    fd = e.sockfd ∧ buf = e.text ∧ e.clients ≤ m.clientCount ∧ 1 ≤ j ∧ Sent m e j sentTo
  | .sendTo fd buf j sentTo =>
    fd = e.sockfd ∧ buf = e.text ∧ e.clients ≤ m.clientCount ∧ 1 ≤ j ∧ Sent m e j sentTo ∧
      (j ≤ e.clients → (m.client j).sockfd ≠ e.sockfd)
  | _ => False

/-- The item has not copied its text. -/
def uncopiedAt : Pos → Prop
  | .start | .search _ _ | .copy _ _ => True
  | _ => False

/-- **The table changes under an item.** -/
theorem Stage.keep {l : Pos} (h : Stage m e l) (hg : Grows m m') (ht : uncopiedAt l → TextKept m m' e.sockfd)
    (hs : l = .start → m'.sockfd = m.sockfd) : Stage m' e l := by
  cases l with
  | start => exact ⟨(hs rfl).trans h.1, h.2.keep hg (ht trivial)⟩
  | search fd j =>
    obtain ⟨h1, h2, h3, h4⟩ := h
    refine ⟨h1, h2.keep hg (ht trivial), h3, fun i hi hlt => ?_⟩
    -- the search has not gone past the entry it is looking for
    obtain ⟨-, r, hr, -⟩ := h2
    have hle : j ≤ r := by
      by_contra hgt
      exact h4 r hr.1.1 (Nat.lt_of_not_le hgt) hr.2.1
    rw [hg.sockfd i ((hlt.le.trans hle).trans hr.1.2)]
    exact h4 i hi hlt
  | copy fd j => exact ⟨h.1, h.2.1.keep hg (ht trivial), h.2.2.grows hg⟩
  | send fd buf j sentTo =>
    obtain ⟨h1, h2, h3, h4, h5⟩ := h
    exact ⟨h1, h2, h3.trans hg.count, h4, h5.keep hg h3⟩
  | sendTo fd buf j sentTo =>
    obtain ⟨h1, h2, h3, h4, h5, h6⟩ := h
    refine ⟨h1, h2, h3.trans hg.count, h4, h5.keep hg h3, fun hle => ?_⟩
    rw [hg.sockfd j (hle.trans h3)]
    exact h6 hle
  | _ => exact h.elim

theorem grows_broadcasts (m : Server) (bs : List Broadcast) : Grows m { m with broadcasts := bs } :=
  ⟨le_rfl, fun _ _ => rfl⟩

/-- **A step of an item**: it goes on, with its stage, or returns, after its broadcast. -/
theorem processStep_stage {l : Pos} {a : Act Pos Event} (hs : ProcessStep m l m' a) (h : Stage m e l)
    (hroom : m.clientCount < maxEventNumber) :
    (∃ l', a = .goto l' ∧ m' = m ∧ Stage m e l' ∧ (uncopiedAt l' → uncopiedAt l)) ∨
      ∃ b, a = .ret ∧ m' = { m with broadcasts := m.broadcasts ++ [b] } ∧ Broadcasts m e b := by
  cases hs with
  | start => exact Or.inl ⟨_, rfl, rfl, ⟨h.1, h.2, le_rfl, fun k h1 h2 => by omega⟩, fun _ => trivial⟩
  | found fd j hj hf =>
    obtain ⟨rfl, h2, h3, h4⟩ := h
    obtain ⟨-, r, hr, -⟩ := id h2
    have hrow : FirstRow m e.sockfd j := by
      refine ⟨⟨h3, ?_⟩, hf, h4⟩
      by_contra hgt
      exact h4 r hr.1.1 (by have := hr.1.2; omega) hr.2.1
    exact Or.inl ⟨_, rfl, rfl, ⟨rfl, h2, hrow⟩, fun _ => trivial⟩
  | next fd j hj hf =>
    obtain ⟨rfl, h2, h3, h4⟩ := h
    refine Or.inl ⟨_, rfl, rfl, ⟨rfl, h2, by omega, fun k h1 hlt => ?_⟩, fun _ => trivial⟩
    rcases Nat.lt_succ_iff_lt_or_eq.mp hlt with hlt | rfl
    · exact h4 k h1 hlt
    · exact hf
  | notFound fd j hj =>
    -- the entry is among those in use, which are inside the array
    obtain ⟨rfl, ⟨-, r, hr, -⟩, -, h4⟩ := h
    exact absurd hr.2.1 (h4 r hr.1.1 (by have := hr.1.2; omega))
  | copy fd j =>
    obtain ⟨rfl, ⟨hc, r, hr, htext⟩, hrow⟩ := h
    rw [hr.unique hrow] at htext
    exact Or.inl ⟨_, rfl, rfl, ⟨rfl, htext, hc, le_rfl, ⟨[], by simp [rowsTo], fun _ => rfl⟩⟩, fun hl => hl.elim⟩
  | skip fd buf j sentTo hj hf =>
    obtain ⟨rfl, h2, h3, h4, h5⟩ := h
    have hnext : Sent m e (j + 1) (sentTo ++ []) := h5.next h4 fun _ => by rw [if_pos hf]
    rw [List.append_nil] at hnext
    exact Or.inl ⟨_, rfl, rfl, ⟨rfl, h2, h3, by omega, hnext⟩, fun hl => hl.elim⟩
  | other fd buf j sentTo hj hf =>
    obtain ⟨rfl, h2, h3, h4, h5⟩ := h
    exact Or.inl ⟨_, rfl, rfl, ⟨rfl, h2, h3, h4, h5, fun _ => hf⟩, fun hl => hl.elim⟩
  | send fd buf j sentTo =>
    obtain ⟨rfl, h2, h3, h4, h5, h6⟩ := h
    have hnext : Sent m e (j + 1) (sentTo ++ [(m.client j).sockfd]) :=
      h5.next h4 fun hle => by rw [if_neg (h6 hle)]
    exact Or.inl ⟨_, rfl, rfl, ⟨rfl, h2, h3, by omega, hnext⟩, fun hl => hl.elim⟩
  | ret fd buf j sentTo hj =>
    obtain ⟨rfl, rfl, h3, h4, rest, h5, -⟩ := h
    refine Or.inr ⟨_, rfl, rfl, h3, rfl, rfl, rest, ?_⟩
    rw [h5, show min (j - 1) e.clients = e.clients by omega]

/-! ### What `main` does to the table -/

theorem grows_setClient (m : Server) (i : ℕ) (f : Client → Client) (hf : ∀ c, (f c).sockfd = c.sockfd) :
    Grows m (m.setClient i f) := by
  refine ⟨le_rfl, fun k _ => ?_⟩
  by_cases hk : k = i
  · subst hk
    simp [Server.setClient, hf]
  · simp [Server.setClient, hk]

theorem client_setClient_of_ne (m : Server) {i k : ℕ} (f : Client → Client) (hk : k ≠ i) :
    (m.setClient i f).client k = m.client k := Function.update_of_ne hk _ _

theorem accept_client_of_le (connfd : ℤ) (hk : k ≤ m.clientCount) :
    (m.accept connfd).client k = m.client k :=
  Function.update_of_ne (show k ≠ m.clientCount + 1 by omega) _ _

theorem leave_client_of_ne (hk : k ≠ m.clientCount) : m.leave.client k = m.client k :=
  Function.update_of_ne hk _ _

theorem strcpy_strcpy (buf : Bytes) : strcpy (strcpy buf) = strcpy buf := List.takeWhile_idem ..

theorem record_client_of_ne (buf : Bytes) {i : ℕ} (hk : k ≠ i) : (m.record buf i).client k = m.client k := by
  unfold Server.record
  split_ifs
  · exact client_setClient_of_ne m _ hk
  · rfl

theorem record_client_self (buf : Bytes) (h : (m.client k).sockfd = m.sockfd) :
    ((m.record buf k).client k).chatRecord = strcpy buf := by
  simp [Server.record, h, Server.setClient]

/-- Writing a message changes a text only. -/
theorem record_same (m : Server) (buf : Bytes) (i : ℕ) :
    (m.record buf i).sockfd = m.sockfd ∧ (m.record buf i).clientCount = m.clientCount ∧
      (m.record buf i).rows = m.rows ∧ (m.record buf i).received = m.received ∧
      (m.record buf i).broadcasts = m.broadcasts := by
  unfold Server.record
  split_ifs <;> exact ⟨rfl, rfl, rfl, rfl, rfl⟩

/-- **Whatever `main` does**, the entries in use keep their descriptors. -/
theorem mainStep_grows {x : Option Kernel} {l : Pos} {a : Act Pos Event} (hs : MainStep m x l m' a) :
    Grows m m' := by
  cases hs with
  | accept connfd h hne hr =>
    refine ⟨Nat.le_succ _, fun k hk => ?_⟩
    have hk' : k ≠ m.clientCount + 1 := by omega
    simp [Server.accept, Server.setClient, hk']
  | fill => exact grows_setClient m _ _ fun _ => rfl
  | leave =>
    obtain ⟨h1, h2⟩ := grows_setClient m m.clientCount (fun e => { e with mark := -1, chatRecord := [] })
      fun _ => rfl
    exact ⟨h1, h2⟩
  | record _ buf i h =>
    unfold Server.record
    split_ifs
    · exact grows_setClient m _ _ fun _ => rfl
    · exact ⟨le_rfl, fun _ _ => rfl⟩
  | _ => exact ⟨le_rfl, fun _ _ => rfl⟩

end PoolStudy.ChatServer.Items
