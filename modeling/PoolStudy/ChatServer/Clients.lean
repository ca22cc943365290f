import PoolStudy.ChatServer.Steps

/-! # The client table and the open connections

Entries are appended and never used again, and a departure is entered at the index `client_count`, not at the
entry of the client that left. So the table agrees with the open connections as long as it is always the client
of the last entry that leaves, and the array does not overflow (`lastLeaves`); `table_agrees` is about the runs
in which this is so, and in `firstLeavesRun` the first of two clients leaves.

`Table` is the invariant. Descriptors are used again by the kernel, so an old entry may hold the descriptor of
an open client; but no entry behind the client's own does (`Table.last`). -/

namespace PoolStudy.ChatServer.Clients

open PoolStudy.Lib.Transition PoolStudy.Lib.Threads
open PoolStudy.ChatPool.Model PoolStudy.ChatPool.Steps PoolStudy.ChatServer.Model PoolStudy.ChatServer.Steps

/-- **The table agrees with the open connections.** -/
structure TableAgrees (m : Server) : Prop where
  inside : m.clientCount < maxEventNumber
  opened : ∀ fd, (m.rows fd).isSome → ∃! j, (1 ≤ j ∧ j ≤ m.clientCount) ∧ (m.client j).sockfd = fd ∧
    (m.client j).mark = 1
  gone : ∀ j ∈ m.gone, (m.client j).mark = -1
  users : m.userCount = (List.range' 1 m.clientCount).countP fun j => (m.client j).mark = 1

/-! ### The invariant -/

/-- **The table and the rows of the open descriptors.** -/
structure Table (m : Server) : Prop where
  inside : m.clientCount < maxEventNumber
  row : ∀ fd k, m.rows fd = some k → (1 ≤ k ∧ k ≤ m.clientCount) ∧ (m.client k).sockfd = fd ∧ (m.client k).mark = 1
  owner : ∀ k, 1 ≤ k → k ≤ m.clientCount → (m.client k).mark = 1 → m.rows (m.client k).sockfd = some k
  last : ∀ fd k j, m.rows fd = some k → k < j → j ≤ m.clientCount → (m.client j).sockfd ≠ fd
  gone : ∀ k ∈ m.gone, (1 ≤ k ∧ k ≤ m.clientCount) ∧ (m.client k).mark = -1
  users : m.userCount = (List.range' 1 m.clientCount).countP fun j => (m.client j).mark = 1

theorem Table.agrees {m : Server} (h : Table m) : TableAgrees m := by
  refine ⟨h.inside, fun fd hfd => ?_, fun j hj => (h.gone j hj).2, h.users⟩
  obtain ⟨k, hk⟩ := Option.isSome_iff_exists.mp hfd
  refine ⟨k, h.row fd k hk, ?_⟩
  rintro j ⟨⟨h1, h2⟩, rfl, hmark⟩
  exact Option.some.inj ((h.owner j h1 h2 hmark).symm.trans hk)

/-- Neither the texts nor the variables `sockfd` and `listenfd` matter. -/
theorem Table.congr {m m' : Server} (h : Table m) (hc : m'.clientCount = m.clientCount)
    (hu : m'.userCount = m.userCount) (hr : m'.rows = m.rows) (hg : m'.gone = m.gone)
    (hs : ∀ k, (m'.client k).sockfd = (m.client k).sockfd) (hm : ∀ k, (m'.client k).mark = (m.client k).mark) :
    Table m' := by
  obtain ⟨h1, h2, h3, h4, h5, h6⟩ := h
  refine ⟨by rwa [hc], ?_, ?_, ?_, ?_, ?_⟩
  · simpa only [hc, hr, hs, hm] using h2
  · simpa only [hc, hr, hs, hm] using h3
  · simpa only [hc, hr, hs] using h4
  · simpa only [hc, hg, hm] using h5
  · simpa only [hc, hu, hm] using h6

theorem accept_fill_client (m : Server) (connfd : ℤ) (k : ℕ) :
    (m.accept connfd).fill.client k = if k = m.clientCount + 1 then ⟨connfd, 1, []⟩ else m.client k := by
  by_cases hk : k = m.clientCount + 1
  · subst hk
    simp [Server.accept, Server.fill, Server.setClient]
  · simp [Server.accept, Server.fill, Server.setClient, hk]

/-- The number of entries with mark `1`, when one entry is behind the others. -/
theorem users_next (p : ℕ → Bool) (n : ℕ) :
    (List.range' 1 (n + 1)).countP p = (List.range' 1 n).countP p + (if p (n + 1) then 1 else 0) := by
  rw [List.range'_concat]
  simp [List.countP_append, List.countP_singleton, Nat.add_comm]

/-- Only the entries in use are counted. -/
theorem users_congr {f g : ℕ → Client} {n : ℕ} (h : ∀ j, j ≤ n → f j = g j) :
    (List.range' 1 n).countP (fun j => (f j).mark = 1) = (List.range' 1 n).countP fun j => (g j).mark = 1 := by
  refine List.countP_congr fun j hj => ?_
  have hle : j ≤ n := by
    have := List.mem_range'_1.mp hj
    omega
  rw [h j hle]

/-- The row of a descriptor is the new one, or an old one of another descriptor. -/
theorem accept_rows {m : Server} {connfd fd : ℤ} {k : ℕ} (h : (m.accept connfd).fill.rows fd = some k) :
    (fd = connfd ∧ k = m.clientCount + 1) ∨ (fd ≠ connfd ∧ m.rows fd = some k) := by
  have h : Function.update m.rows connfd (some (m.clientCount + 1)) fd = some k := h
  by_cases hfd : fd = connfd
  · subst hfd
    rw [Function.update_self] at h
    exact Or.inl ⟨rfl, (Option.some.inj h).symm⟩
  · rw [Function.update_of_ne hfd] at h
    exact Or.inr ⟨hfd, h⟩

/-- **A client is accepted.** -/
theorem Table.accept {m : Server} (h : Table m) {connfd : ℤ} (hr : m.rows connfd = none)
    (hroom : m.clientCount + 1 < maxEventNumber) : Table (m.accept connfd).fill := by
  have hrows : (m.accept connfd).fill.rows = Function.update m.rows connfd (some (m.clientCount + 1)) := rfl
  have hold : ∀ k, k ≤ m.clientCount → (m.accept connfd).fill.client k = m.client k := by
    intro k hk
    rw [accept_fill_client, if_neg (by omega)]
  have hnew : (m.accept connfd).fill.client (m.clientCount + 1) = ⟨connfd, 1, []⟩ := by
    rw [accept_fill_client, if_pos rfl]
  refine ⟨hroom, fun fd k hk => ?_, fun k h1 h2 hmark => ?_, fun fd k j hk hlt hle => ?_, fun k hk => ?_, ?_⟩
  · rcases accept_rows hk with ⟨rfl, rfl⟩ | ⟨-, hk⟩
    · rw [hnew]
      exact ⟨⟨by omega, le_rfl⟩, rfl, rfl⟩
    · obtain ⟨⟨h1, h2⟩, h3⟩ := h.row fd k hk
      rw [hold k h2]
      exact ⟨⟨h1, Nat.le_succ_of_le h2⟩, h3⟩
  · rcases Nat.lt_or_eq_of_le h2 with hlt | rfl
    · have hle : k ≤ m.clientCount := Nat.le_of_lt_succ hlt
      rw [hold k hle] at hmark ⊢
      have hk := h.owner k h1 hle hmark
      have hne : (m.client k).sockfd ≠ connfd := by
        intro he
        rw [he, hr] at hk
        cases hk
      rw [hrows, Function.update_of_ne hne, hk]
    · show (m.accept connfd).fill.rows ((m.accept connfd).fill.client (m.clientCount + 1)).sockfd = _
      rw [hnew, hrows, Function.update_self]
      rfl
  · rcases accept_rows hk with ⟨rfl, rfl⟩ | ⟨hne, hk⟩
    · exact absurd hlt (Nat.not_lt.mpr hle)
    · rcases Nat.lt_or_eq_of_le hle with hj | rfl
      · rw [hold j (Nat.le_of_lt_succ hj)]
        exact h.last fd k j hk hlt (Nat.le_of_lt_succ hj)
      · show ((m.accept connfd).fill.client (m.clientCount + 1)).sockfd ≠ fd
        rw [hnew]
        exact hne.symm
  · obtain ⟨⟨h1, h2⟩, h3⟩ := h.gone k hk
    rw [hold k h2]
    exact ⟨⟨h1, Nat.le_succ_of_le h2⟩, h3⟩
  · show m.userCount + 1 = ((List.range' 1 (m.clientCount + 1)).countP _ : ℕ)
    rw [users_next, hnew, h.users, users_congr hold]
    simp

/-- The row of a descriptor that is still open. -/
theorem leave_rows {m : Server} {fd : ℤ} {k : ℕ} (h : m.leave.rows fd = some k) :
    fd ≠ m.sockfd ∧ m.rows fd = some k := by
  have h : Function.update m.rows m.sockfd none fd = some k := h
  by_cases hne : fd = m.sockfd
  · rw [hne, Function.update_self] at h
    cases h
  · rw [Function.update_of_ne hne] at h
    exact ⟨hne, h⟩

/-- **The client of the last entry leaves.** -/
theorem Table.leave {m : Server} (h : Table m) (hr : m.rows m.sockfd = some m.clientCount) : Table m.leave := by
  obtain ⟨⟨h1, -⟩, hfd, hmark⟩ := h.row _ _ hr
  have hold : ∀ k, k ≠ m.clientCount → m.leave.client k = m.client k := by
    intro k hk
    exact Function.update_of_ne hk _ _
  have hlast : m.leave.client m.clientCount = ⟨m.sockfd, -1, []⟩ := by
    rw [← hfd]
    exact Function.update_self ..
  have hsockfd : ∀ k, (m.leave.client k).sockfd = (m.client k).sockfd := by
    intro k
    by_cases hk : k = m.clientCount
    · rw [hk, hlast, hfd]
    · rw [hold k hk]
  refine ⟨h.inside, fun fd k hk => ?_, fun k h1 h2 hm => ?_, fun fd k j hk => ?_, fun k hk => ?_, ?_⟩
  · obtain ⟨hne, hk⟩ := leave_rows hk
    have hkc : k ≠ m.clientCount := by
      rintro rfl
      exact hne ((h.row fd _ hk).2.1.symm.trans hfd)
    rw [hold k hkc]
    exact h.row fd k hk
  · have hne : k ≠ m.clientCount := by
      rintro rfl
      rw [hlast] at hm
      cases hm
    rw [hold k hne] at hm ⊢
    have hk := h.owner k h1 h2 hm
    have hfd' : (m.client k).sockfd ≠ m.sockfd := by
      intro he
      rw [he, hr] at hk
      exact hne (Option.some.inj hk).symm
    exact (Function.update_of_ne hfd' _ _).trans hk
  · rw [hsockfd]
    exact h.last fd k j (leave_rows hk).2
  · have hk' : k ∈ m.gone ∨ k = m.clientCount := by
      have : k ∈ m.gone ++ (m.rows m.sockfd).toList := hk
      rw [hr] at this
      simpa using this
    by_cases hne : k = m.clientCount
    · rw [hne, hlast]
      exact ⟨⟨h1, le_rfl⟩, rfl⟩
    · rw [hold k hne]
      exact h.gone k (hk'.resolve_right hne)
  · show m.userCount - 1 = ((List.range' 1 m.clientCount).countP _ : ℕ)
    obtain ⟨n, hn⟩ : ∃ n, m.clientCount = n + 1 := ⟨m.clientCount - 1, by omega⟩
    have hsame := users_congr (f := m.leave.client) (g := m.client) fun j (hj : j ≤ n) => hold j (by omega)
    rw [h.users, hn, users_next, users_next, hsame, ← hn, hlast, hmark]
    simp

/-- The text of a message is written into an entry. -/
theorem Table.record {m : Server} (h : Table m) (buf : Bytes) (i : ℕ) : Table (m.record buf i) := by
  unfold Server.record
  split_ifs with hi
  · refine h.congr rfl rfl rfl rfl (fun k => ?_) fun k => ?_ <;>
    · by_cases hk : k = i
      · subst hk
        simp [Server.setClient]
      · simp [Server.setClient, hk]
  · exact h

/-! ### Runs -/

/-- The table, where `main` is: a new entry counts when it has been filled in, and a client that leaves has the
last entry. -/
def TableAt (m : Server) : Pos → Prop
  | .fill => Table m.fill
  | .dispatch => Table m ∧ (m.sockfd = m.listenfd ∨ (m.rows m.sockfd).isSome)
  | .leave => Table m ∧ m.rows m.sockfd = some m.clientCount
  | _ => Table m

/-- **The condition.** Clients are accepted while there is room in the array, and the client that leaves, or
whose `recv` fails, is the one of the entry `client_count`. -/
def lastLeaves (c : ServerState) (a : ServerAction) : Prop :=
  a.1 = .inr () → c.client () = .code .dispatch →
    match a.2.ext with
    | some (.accepted _) => c.mem.ext.clientCount + 1 < maxEventNumber
    | some .left | some .error => (c.mem.ext.client c.mem.ext.clientCount).sockfd = c.mem.ext.sockfd
    | _ => True

/-- An open client whose descriptor is in the last entry has that entry. -/
theorem Table.row_last {m : Server} (h : Table m) {fd : ℤ} (hopen : (m.rows fd).isSome)
    (hlast : (m.client m.clientCount).sockfd = fd) : m.rows fd = some m.clientCount := by
  obtain ⟨k, hk⟩ := Option.isSome_iff_exists.mp hopen
  rcases Nat.lt_or_eq_of_le (h.row fd k hk).1.2 with hlt | rfl
  · exact absurd hlast (h.last fd k _ hk hlt le_rfl)
  · exact hk

theorem tableAt_init (m : Server) (h : server.init m) : TableAt m .poll := by
  obtain ⟨h1, h2, h3, h4, -⟩ := h
  refine ⟨by rw [h1]; decide, ?_, ?_, ?_, by simp [h4], by simp [h1, h2]⟩
  · simp [h3]
  · intro k hk1 hk2
    omega
  · simp [h3]

theorem mainStep_tableAt {c : ServerState} {x : Input threadNum (Option Kernel)} {l : Pos} {m' : Server}
    {a : Act Pos Event} (hl : c.client () = .code l) (hok : lastLeaves c (.inr (), x))
    (hs : MainStep c.mem.ext x.ext l m' a) (h : TableAt c.mem.ext l) : ∀ l' ∈ actPlaces a, TableAt m' l' := by
  have hcond := hok rfl
  have hone : ∀ {m' : Server} {q : Pos}, TableAt m' q → ∀ l' ∈ [q], TableAt m' l' := by
    intro m' q hq l' hl'
    rwa [List.mem_singleton.mp hl']
  generalize x.ext = y at hs hcond
  generalize c.mem.ext = m at hs h hcond
  cases hs with
  | failure =>
    intro l' hl'
    obtain rfl : l' = .exit := by simpa [actPlaces] using hl'
    exact h
  | ready fd hfd => exact hone ⟨h.congr rfl rfl rfl rfl (fun _ => rfl) fun _ => rfl, hfd⟩
  | accept connfd hs hne hr => exact hone (h.1.accept hr (hcond hl))
  | received buf hne hn hlen => exact hone h.1
  | gone hx hne =>
    refine hone ⟨h.1, h.1.row_last (h.2.resolve_left hne) ?_⟩
    rcases hx with rfl | rfl
    · exact hcond hl
    · exact hcond hl
  | nothing hx hne => exact hone h.1
  | fill => exact hone h
  | leave => exact hone (h.1.leave h.2)
  | record _ buf i hi => exact hone (Table.record h buf i)
  | add _ buf i hi => exact hone (h.congr rfl rfl rfl rfl (fun _ => rfl) fun _ => rfl)

theorem tableAt_broadcasts (m : Server) (bs : List Broadcast) (l : Pos) (h : TableAt m l) :
    TableAt { m with broadcasts := bs } l := by
  have hcongr : ∀ m : Server, Table m → Table { m with broadcasts := bs } := by
    intro m h
    exact h.congr rfl rfl rfl rfl (fun _ => rfl) fun _ => rfl
  cases l with
  | fill => exact hcongr _ h
  | dispatch | leave => exact ⟨hcongr m h.1, h.2⟩
  | _ => exact hcongr m h

theorem tableAt_reach {c : ServerState} (h : Reach chatServer lastLeaves c) :
    ∀ l ∈ places (c.client ()), TableAt c.mem.ext l :=
  server_invariant tableAt_init (fun _ _ _ _ _ hl hok hs => mainStep_tableAt hl hok hs) tableAt_broadcasts h

theorem TableAt.table {m : Server} {l : Pos} (h : TableAt m l) (hl : l ≠ .fill) : Table m := by
  cases l with
  | fill => exact absurd rfl hl
  | dispatch | leave => exact h.1
  | _ => exact h

/-! ### The contract -/

/-- **The table agrees with the open connections** in every run in which the array does not overflow and it is
always the client of the last entry that leaves: wherever `main` is, except in the middle of filling in a new
entry. And what `main` does for a client that leaves changes no entry but the client's. -/
theorem table_agrees {c : ServerState} (h : Reach chatServer lastLeaves c) :
    (∀ l ∈ places (c.client ()), l ≠ .fill → TableAgrees c.mem.ext) ∧
    ∀ x c', c.client () = .code .leave → chatServer.next c (.inr (), x) = some c' →
      ∀ j, c.mem.ext.rows c.mem.ext.sockfd ≠ some j →
        (c'.mem.ext.client j).mark = (c.mem.ext.client j).mark ∧
          (c'.mem.ext.client j).chatRecord = (c.mem.ext.client j).chatRecord := by
  have hat := tableAt_reach h
  refine ⟨fun l hl hne => ((hat l hl).table hne).agrees, fun x c' hl hs j hj => ?_⟩
  rw [hl] at hat
  have hrow : c.mem.ext.rows c.mem.ext.sockfd = some c.mem.ext.clientCount := (hat .leave (by simp [places])).2
  have hne : j ≠ c.mem.ext.clientCount := by
    rintro rfl
    exact hj hrow
  obtain ⟨r, hr, rfl⟩ := Option.map_eq_some_iff.mp hs
  rcases callStep_code (callStep_cases hr) with ⟨he, -⟩ | ⟨q, s, a, hq, hst, he, -⟩
  · have hext : (c.moveClient () r).mem.ext = c.mem.ext := he
    rw [hext]
    exact ⟨rfl, rfl⟩
  · obtain rfl : q = .leave := by
      rw [hl] at hq
      cases hq
      rfl
    cases hst
    have hext : (c.moveClient () r).mem.ext = c.mem.ext.leave := he
    have hkeep : c.mem.ext.leave.client j = c.mem.ext.client j := Function.update_of_ne hne _ _
    rw [hext, hkeep]
    exact ⟨rfl, rfl⟩

/-- Two clients, and the first one leaves: the mark of the second is `-1`, and its descriptor is open. -/
theorem table_disagrees_firstLeavesRun : ∃ c, Reach chatServer anyStep c ∧ c.client () = .code .poll ∧
    c.mem.ext.rows 6 = some 2 ∧ (c.mem.ext.client 2).mark = -1 ∧ ¬ TableAgrees c.mem.ext := by
  obtain ⟨c, hc, hp⟩ := reach_of_run chatServer anyStep_of_test
    (twoClients ++ [kernel (.ready 5), kernel .left, goesOn])
    (fun c => decide (c.client () = .code .poll) && decide (c.mem.ext.rows 6 = some 2) &&
      decide (c.mem.ext.clientCount = 2) && decide ((c.mem.ext.client 1).sockfd = 5) &&
      decide ((c.mem.ext.client 2).mark = -1)) startState_init (by decide)
  simp only [Bool.and_eq_true, decide_eq_true_eq] at hp
  obtain ⟨⟨⟨⟨h1, h2⟩, h3⟩, h4⟩, h5⟩ := hp
  refine ⟨c, hc, h1, h2, h5, fun ht => ?_⟩
  obtain ⟨j, ⟨⟨hj1, hj2⟩, hfd, hmark⟩, -⟩ := ht.opened 6 (by simp [h2])
  rw [h3] at hj2
  obtain rfl | rfl : j = 1 ∨ j = 2 := by omega
  · rw [h4] at hfd
    cases hfd
  · rw [h5] at hmark
    cases hmark

/-- The test for an allowed step. -/
def lastLeavesTest (c : ServerState) (a : ServerAction) : Bool :=
  decide (a.1 ≠ .inr ()) || decide (c.client () ≠ .code .dispatch) ||
    match a.2.ext with
    | some (.accepted _) => decide (c.mem.ext.clientCount + 1 < maxEventNumber)
    | some .left | some .error => decide ((c.mem.ext.client c.mem.ext.clientCount).sockfd = c.mem.ext.sockfd)
    | _ => true

theorem lastLeaves_of_test (c : ServerState) (a : ServerAction) (h : lastLeavesTest c a = true) :
    lastLeaves c a := by
  intro h1 h2
  simp only [lastLeavesTest, h1, h2, ne_eq, not_true, decide_false, Bool.false_or] at h
  split at h <;> simp_all

/-- Two clients, the second one leaves, and its descriptor is used again. -/
theorem table_agrees_reusedRun : ∃ c, Reach chatServer lastLeaves c ∧ c.client () = .code .poll ∧
    c.mem.ext.rows 6 = some 3 ∧ c.mem.ext.gone = [2] ∧ TableAgrees c.mem.ext := by
  obtain ⟨c, hc, hp⟩ := reach_of_run chatServer lastLeaves_of_test
    (twoClients ++ [kernel (.ready 6), kernel .left, goesOn, kernel (.ready 3), kernel (.accepted 6), goesOn])
    (fun c => decide (c.client () = .code .poll) && decide (c.mem.ext.rows 6 = some 3) &&
      decide (c.mem.ext.gone = [2])) startState_init (by decide)
  simp only [Bool.and_eq_true, decide_eq_true_eq] at hp
  obtain ⟨⟨h1, h2⟩, h3⟩ := hp
  exact ⟨c, hc, h1, h2, h3, (table_agrees hc).1 .poll (by rw [h1]; simp [places]) nofun⟩

end PoolStudy.ChatServer.Clients
