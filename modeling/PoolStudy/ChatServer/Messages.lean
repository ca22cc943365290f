import PoolStudy.ChatPool.Destroy
import PoolStudy.ChatServer.Pending

/-! # The messages of the chat server

An item finds the data of its event only if `main` leaves them alone until it has read them. `items_keep_data` is
about the runs in which it is so, and in `overtakenRun` `main` handles a second event before the item of the first
has read its argument.

The invariant `Inv` says of every item where it is and that it finds, or has found, what belongs to its event; of
`main`, while it writes a message into the table, that the items which have not copied their text yet carry the
same message or that of another client. That an item is run once is a matter of the pool. -/

namespace PoolStudy.ChatServer.Messages

open PoolStudy.Lib.Transition PoolStudy.Lib.Threads
open PoolStudy.ChatPool.Model PoolStudy.ChatPool.Steps PoolStudy.ChatPool.Queue PoolStudy.ChatPool.Destroy
open PoolStudy.ChatServer.Model PoolStudy.ChatServer.Steps PoolStudy.ChatServer.Items PoolStudy.ChatServer.Pending

/-! ### The invariant -/

/-- **`main` writes the message `buf` into the table**, before the entry `i`. -/
structure Recording (c : ServerState) (buf : Bytes) (i : ℕ) : Prop where
  row : ∃ j, FirstRow c.mem.ext c.mem.ext.sockfd j
  others : ∀ p, uncopied c p c.mem.ext.sockfd → (event c p).text = strcpy buf
  done : ∀ k, 1 ≤ k → k < i → k ≤ c.mem.ext.clientCount → (c.mem.ext.client k).sockfd = c.mem.ext.sockfd →
    strcpy (c.mem.ext.client k).chatRecord = strcpy buf

/-- **The invariant of the messages.** -/
structure Inv (c : ServerState) : Prop where
  room : c.mem.ext.clientCount < maxEventNumber
  call : CallOk c.mem.pool.threadid (c.client ())
  unread : ∀ p, unread c p → Unread c.mem.ext (event c p)
  stage : ∀ i p d, c.worker i = .run p d → ∃ l, d = .code l ∧ Stage c.mem.ext (event c p) l
  fill : c.client () = .code .fill → ∀ p fd j, uncopied c p fd → FirstRow c.mem.ext fd j →
    j < c.mem.ext.clientCount
  record : ∀ buf i, c.client () = .code (.record buf i) → Recording c buf i
  finished : List.Forall₂ (fun p b => Broadcasts c.mem.ext (event c p) b) c.mem.finished c.mem.ext.broadcasts
  received : c.mem.ext.received = (c.mem.added ++ (callNode (c.client ())).toList).map (event c)
  bound : ∀ p ∈ c.mem.dequeued, p < c.mem.fresh

/-- The item looks for the descriptor of its event, and will find its text. -/
theorem Inv.uncopied {c : ServerState} (h : Inv c) {p : Ptr} {fd : ℤ} (hp : uncopied c p fd) :
    fd = (event c p).sockfd ∧ Ready c.mem.ext (event c p) := by
  rcases hp with ⟨hp, rfl⟩ | ⟨i, j, hp | hp⟩
  · exact h.unread p hp
  · obtain ⟨l, hl, hst⟩ := h.stage i p _ hp
    cases hl
    exact ⟨hst.1, hst.2.1⟩
  · obtain ⟨l, hl, hst⟩ := h.stage i p _ hp
    cases hl
    exact ⟨hst.1, hst.2.1⟩

/-- An item at a position before its copy has not copied its text. -/
theorem Inv.uncopied_of_stage {c : ServerState} (h : Inv c) {i : Fin threadNum} {p : Ptr} {l : Pos}
    (hw : c.worker i = .run p (.code l)) (hl : uncopiedAt l) : Pending.uncopied c p (event c p).sockfd := by
  obtain ⟨q, hq, hst⟩ := h.stage i p _ hw
  cases hq
  cases l with
  | start => exact Or.inl ⟨Or.inr (Or.inr ⟨i, Or.inr hw⟩), hst.1.symm⟩
  | search fd j =>
    obtain ⟨rfl, -⟩ := hst
    exact Or.inr ⟨i, j, Or.inl hw⟩
  | copy fd j =>
    obtain ⟨rfl, -⟩ := hst
    exact Or.inr ⟨i, j, Or.inr hw⟩
  | _ => exact hl.elim

/-! ### Steps of `main` in its own code -/

/-- The configuration after `main` went on in its code, with another server. -/
abbrev withServer (c : ServerState) (m : Server) (l : Pos) : ServerState :=
  c.moveClient () ({ c.mem with ext := m }, .code l)

theorem unread_withServer {c : ServerState} {m : Server} {q l : Pos} {p : Ptr} (hq : c.client () = .code q) :
    unread (withServer c m l) p ↔ unread c p := by
  simp [unread, withServer, Config.moveClient, hq, callNode, waiting]

theorem uncopied_withServer {c : ServerState} {m : Server} {q l : Pos} {p : Ptr} {fd : ℤ}
    (hq : c.client () = .code q) (hm : unread c p → m.sockfd = c.mem.ext.sockfd) :
    uncopied (withServer c m l) p fd ↔ uncopied c p fd := by
  unfold uncopied
  rw [unread_withServer hq]
  refine or_congr (and_congr_right fun hp => ?_) Iff.rfl
  show fd = m.sockfd ↔ _
  rw [hm hp]

/-- **`main` goes on**, and leaves what the items have still to read alone. -/
theorem Inv.goesOn {c : ServerState} (h : Inv c) {m : Server} {q l : Pos} (hq : c.client () = .code q)
    (hexit : q ≠ .exit) (hg : Grows c.mem.ext m) (hroom : m.clientCount < maxEventNumber)
    (ht : ∀ p fd, Pending.uncopied c p fd → TextKept c.mem.ext m fd)
    (hs : ∀ p, Pending.unread c p → m.sockfd = c.mem.ext.sockfd)
    (hb : m.broadcasts = c.mem.ext.broadcasts) (hr : m.received = c.mem.ext.received)
    (hfill : l = .fill → ∀ p fd j, Pending.uncopied c p fd → FirstRow m fd j → j < m.clientCount)
    (hrec : ∀ buf i, l = .record buf i → Recording (withServer c m l) buf i) : Inv (withServer c m l) := by
  have hcall : c.mem.pool.threadid = true := by
    have hok := h.call
    rw [hq] at hok
    by_contra hne
    exact hexit (hok (by simpa using hne))
  have hunread : ∀ p, Pending.unread (withServer c m l) p → Pending.unread c p :=
    fun p => (unread_withServer hq).mp
  have hclient : (withServer c m l).client () = .code l := by simp [withServer, Config.moveClient]
  refine ⟨hroom, ?_, fun p hp => ?_, fun i p d hw => ?_, fun hl p fd j hp hj => ?_, fun buf i hl => ?_, ?_, ?_,
    h.bound⟩
  · rw [hclient]
    intro hf
    exact absurd (hf.symm.trans hcall) (by simp)
  · have hp' := hunread p hp
    obtain ⟨h1, h2⟩ := h.unread p hp'
    exact ⟨(hs p hp').trans h1, h2.keep hg (ht p _ (Or.inl ⟨hp', h1.symm⟩))⟩
  · obtain ⟨l', rfl, hst⟩ := h.stage i p d hw
    refine ⟨l', rfl, hst.keep hg (fun hl => ht p _ (h.uncopied_of_stage hw hl)) ?_⟩
    rintro rfl
    exact hs p (Or.inr (Or.inr ⟨i, Or.inr hw⟩))
  · rw [hclient] at hl
    cases hl
    exact hfill rfl p fd j ((uncopied_withServer hq (hs p)).mp hp) hj
  · rw [hclient] at hl
    cases hl
    exact hrec buf i rfl
  · show List.Forall₂ _ c.mem.finished m.broadcasts
    rw [hb]
    exact h.finished.imp fun p b hpb => hpb.keep hg
  · have hrec := h.received
    rw [hq] at hrec
    show m.received = _
    rw [hr, hrec, hclient]
    rfl

/-- **A message arrives.** -/
theorem Inv.receive {c : ServerState} (h : Inv c) {buf : Bytes} (hq : c.client () = .code .dispatch)
    (hrow : ∃ j, FirstRow c.mem.ext c.mem.ext.sockfd j)
    (hsame : ∀ p j, Pending.uncopied c p c.mem.ext.sockfd → FirstRow c.mem.ext c.mem.ext.sockfd j →
      strcpy (c.mem.ext.client j).chatRecord = strcpy buf) : Inv (withServer c c.mem.ext (.record buf 1)) := by
  refine h.goesOn hq nofun ⟨le_rfl, fun _ _ => rfl⟩ h.room (fun _ _ _ _ _ => rfl) (fun _ _ => rfl) rfl rfl nofun ?_
  rintro _ _ ⟨⟩
  refine ⟨hrow, fun p hp => ?_, fun k h1 h2 => by omega⟩
  have hp : Pending.uncopied c p c.mem.ext.sockfd := (uncopied_withServer hq fun _ => rfl).mp hp
  obtain ⟨hfd, -, r, hr, htext⟩ := h.uncopied hp
  show (event c p).text = strcpy buf
  rw [← htext]
  exact hsame p r hp (hfd ▸ hr)

/-- **A message is written into an entry.** -/
theorem Inv.writeRecord {c : ServerState} (h : Inv c) {buf : Bytes} {i : ℕ}
    (hq : c.client () = .code (.record buf i)) (hg : Grows c.mem.ext (c.mem.ext.record buf i)) :
    Inv (withServer c (c.mem.ext.record buf i) (.record buf (i + 1))) := by
  have hrec := h.record buf i hq
  obtain ⟨hsock, hcount, -, hr, hb⟩ := record_same c.mem.ext buf i
  refine h.goesOn hq nofun hg (hcount ▸ h.room) (fun p fd hp j hj => ?_) (fun _ _ => hsock) hb hr nofun ?_
  · by_cases hne : j = i
    · subst hne
      by_cases hrow : (c.mem.ext.client j).sockfd = c.mem.ext.sockfd
      · -- whoever has still to copy the text of this client carries the same message
        obtain ⟨hfd, -, r, hr, htext⟩ := h.uncopied hp
        have hfd' : fd = c.mem.ext.sockfd := hj.2.1.symm.trans hrow
        rw [record_client_self buf hrow, strcpy_strcpy, ← hrec.others p (hfd' ▸ hp), ← htext,
          hj.unique (hfd ▸ hr)]
      · rw [Server.record, if_neg hrow]
    · rw [record_client_of_ne buf hne]
  · rintro _ _ ⟨⟩
    obtain ⟨j, hj⟩ := hrec.row
    refine ⟨⟨j, ?_⟩, fun p hp => ?_, ?_⟩
    · show FirstRow (c.mem.ext.record buf i) (c.mem.ext.record buf i).sockfd j
      rw [hsock]
      exact hj.grows hg
    · have hp' := (uncopied_withServer hq fun _ => hsock).mp hp
      exact hrec.others p (hsock ▸ hp')
    · show ∀ k, 1 ≤ k → k < i + 1 → k ≤ (c.mem.ext.record buf i).clientCount →
        ((c.mem.ext.record buf i).client k).sockfd = (c.mem.ext.record buf i).sockfd →
          strcpy ((c.mem.ext.record buf i).client k).chatRecord = strcpy buf
      intro k h1 h2 h3 h4
      rw [hcount] at h3
      rw [hsock, hg.sockfd k h3] at h4
      by_cases hki : k = i
      · subst hki
        rw [record_client_self buf h4, strcpy_strcpy]
      · rw [record_client_of_ne buf hki]
        exact hrec.done k h1 (by omega) h3 h4

/-- **The steps of `main` in its loop.** -/
theorem Inv.mainStep {c : ServerState} (h : Inv c) {x : ServerInput} {q l : Pos} {m : Server}
    (hq : c.client () = .code q) (hok : separate c (.inr (), x)) (hk : Known c.mem.ext q)
    (hs : MainStep c.mem.ext x.ext q m (.goto l)) : Inv (withServer c m l) := by
  obtain ⟨hready, haccept, hreceived, hleave⟩ := hok rfl
  have hg := mainStep_grows hs
  generalize hy : x.ext = y at hs
  generalize hm : c.mem.ext = m0 at hs hg
  cases hs with
  | ready fd hfd =>
    subst hm
    exact h.goesOn hq nofun hg h.room (fun _ _ _ _ _ => rfl) (fun p hp => hready hq fd hy p hp) rfl rfl nofun nofun
  | accept connfd hl hne hr =>
    subst hm
    refine h.goesOn hq nofun hg (haccept hq connfd hy) (fun p fd hp j hj => ?_) (fun _ _ => rfl) rfl rfl
      (fun _ p fd j hp hj => ?_) nofun
    · rw [accept_client_of_le connfd hj.1.2]
    · -- the first entry with the descriptor is an old one
      obtain ⟨rfl, -, r, hr, -⟩ := h.uncopied hp
      rw [hj.unique (hr.grows hg)]
      exact Nat.lt_succ_of_le hr.1.2
  | received buf hne hn hlen =>
    subst hm
    obtain ⟨k, ⟨h1, h2⟩, h3⟩ := hk.1 _ ((hk.2 rfl).resolve_left hne)
    exact h.receive hq (exists_firstRow h1 h2 h3) (hreceived hq buf hy)
  | gone hx hne | nothing hx hne =>
    subst hm
    exact h.goesOn hq nofun hg h.room (fun _ _ _ _ _ => rfl) (fun _ _ => rfl) rfl rfl nofun nofun
  | fill =>
    subst hm
    refine h.goesOn hq nofun hg h.room (fun p fd hp j hj => ?_) (fun _ _ => rfl) rfl rfl nofun nofun
    have hne : j ≠ c.mem.ext.clientCount := Nat.ne_of_lt (h.fill hq p fd j hp hj)
    rw [Server.fill, client_setClient_of_ne _ _ hne]
  | leave =>
    subst hm
    refine h.goesOn hq nofun hg h.room (fun p fd hp j hj => ?_) (fun _ _ => rfl) rfl rfl nofun nofun
    by_cases hne : j = c.mem.ext.clientCount
    · subst hne
      rw [hleave hq p fd hp hj]
      simp [Server.leave, Server.setClient, strcpy]
    · rw [leave_client_of_ne hne]
  | record _ buf i hi =>
    subst hm
    exact h.writeRecord hq hg

/-! ### Steps that leave the table alone -/

theorem broadcasts_self (m : Server) : m = { m with broadcasts := m.broadcasts } := rfl

/-- **A step that leaves the table and the events alone.** -/
theorem Inv.quiet {c c' : ServerState} (h : Inv c) {bs : List Broadcast}
    (hext : c'.mem.ext = { c.mem.ext with broadcasts := bs })
    (hcall : CallOk c'.mem.pool.threadid (c'.client ())) (hev : ∀ p, event c' p = event c p)
    (hunread : ∀ p, Pending.unread c' p → Pending.unread c p)
    (hstage : ∀ i p d, c'.worker i = .run p d → ∃ l, d = .code l ∧ Stage c.mem.ext (event c p) l)
    (huncopied : ∀ p fd, Pending.uncopied c' p fd → Pending.uncopied c p fd)
    (hcode : ∀ l, c'.client () = .code l → c.client () = .code l ∨ l = .poll ∨ l = .exit)
    (hfin : List.Forall₂ (fun p b => Broadcasts c.mem.ext (event c p) b) c'.mem.finished bs)
    (hrec : c'.mem.added ++ (callNode (c'.client ())).toList = c.mem.added ++ (callNode (c.client ())).toList)
    (hbound : ∀ p ∈ c'.mem.dequeued, p < c'.mem.fresh) : Inv c' := by
  have hg : Grows c.mem.ext c'.mem.ext := by
    rw [hext]
    exact grows_broadcasts _ bs
  have hkept : ∀ fd, TextKept c.mem.ext c'.mem.ext fd := by
    intro fd j _
    rw [hext]
  have hevent : event c' = event c := funext hev
  refine ⟨by rw [hext]; exact h.room, hcall, fun p hp => ?_, fun i p d hw => ?_, fun hl p fd j hp hj => ?_,
    fun buf i hl => ?_, ?_, ?_, hbound⟩
  · obtain ⟨h1, h2⟩ := h.unread p (hunread p hp)
    rw [hev]
    exact ⟨by rw [hext]; exact h1, h2.keep hg (hkept _)⟩
  · obtain ⟨l, rfl, hst⟩ := hstage i p d hw
    rw [hev]
    exact ⟨l, rfl, hst.keep hg (fun _ => hkept _) fun _ => by rw [hext]⟩
  · obtain hl | hl | hl := hcode _ hl
    · rw [hext] at hj ⊢
      exact h.fill hl p fd j (huncopied p fd hp) hj
    · cases hl
    · cases hl
  · obtain hl | hl | hl := hcode _ hl
    · have hold := h.record buf i hl
      obtain ⟨j, hj⟩ := hold.row
      refine ⟨⟨j, ?_⟩, fun p hp => ?_, ?_⟩
      · rw [hext]
        exact hj
      · rw [hev]
        rw [hext] at hp
        exact hold.others p (huncopied p _ hp)
      · rw [hext]
        exact hold.done
    · cases hl
    · cases hl
  · rw [hevent, hext]
    exact hfin.imp fun p b hpb => hpb.keep (grows_broadcasts _ bs)
  · rw [hevent, hrec, hext]
    exact h.received

/-! ### Calls of the pool -/

/-- The items that somebody has in hand, or has run, have been dequeued. -/
theorem mem_dequeued {c : ServerState} (hd : DestroyInv c) :
    (∀ i p, holds (c.worker i) = some p → p ∈ c.mem.dequeued) ∧ ∀ p ∈ c.mem.finished, p ∈ c.mem.dequeued := by
  refine ⟨fun i p hp => ((hd.hands.runOnce hd.nodup).2 i p hp).1, fun p hp => ?_⟩
  have hin : p ∈ (c.mem.dequeued : Multiset Ptr) := by
    rw [show (c.mem.dequeued : Multiset Ptr) = _ from hd.hands]
    exact Multiset.mem_add.mpr (Or.inl (Multiset.mem_coe.mpr hp))
  exact Multiset.mem_coe.mp hin

/-- The items there are are in the heap. -/
theorem Inv.lt_fresh {c : ServerState} (h : Inv c) (hd : DestroyInv c) {p : Ptr}
    (hp : Pending.unread c p ∨ (∃ i, holds (c.worker i) = some p) ∨ p ∈ c.mem.finished) : p < c.mem.fresh := by
  have hholds : ∀ i, holds (c.worker i) = some p → p < c.mem.fresh :=
    fun i hi => h.bound p ((mem_dequeued hd).1 i p hi)
  rcases hp with (hp | hp | ⟨i, hp | hp⟩) | ⟨i, hp⟩ | hp
  · exact hd.nodes.bound p (List.mem_of_mem_drop hp)
  · exact (hd.nodes.node (.inr ()) p hp).1
  · exact hholds i (by rw [hp]; rfl)
  · exact hholds i (by rw [hp]; rfl)
  · exact hholds i hp
  · exact h.bound p ((mem_dequeued hd).2 p hp)

/-- The configuration after `main` called `poolAddWorker` for the message `buf`. -/
abbrev withItem (c : ServerState) (buf : Bytes) : ServerState :=
  c.moveClient () (Mem.newWorker
    { c.mem with ext := { c.mem.ext with received := c.mem.ext.received ++ [c.mem.ext.event buf] } }
    (c.mem.ext.event buf), .addLock c.mem.fresh .poll)

theorem event_withItem_of_lt {c : ServerState} {buf : Bytes} {p : Ptr} (hp : p < c.mem.fresh) :
    event (withItem c buf) p = event c p := by
  simp [event, withItem, Config.moveClient, Mem.newWorker, Nat.ne_of_lt hp]

theorem event_withItem_self {c : ServerState} {buf : Bytes} :
    event (withItem c buf) c.mem.fresh = c.mem.ext.event buf := by
  simp [event, withItem, Config.moveClient, Mem.newWorker]

/-- Only the new item has been added to those that have not read their argument. -/
theorem unread_withItem {c : ServerState} {buf : Bytes} {q : Pos} {p : Ptr} (hq : c.client () = .code q)
    (hp : unread (withItem c buf) p) (hne : p ≠ c.mem.fresh) : unread c p := by
  simpa [unread, withItem, Config.moveClient, hq, callNode, waiting, Mem.newWorker, Ne.symm hne] using hp

theorem grows_withItem (c : ServerState) (buf : Bytes) : Grows c.mem.ext (withItem c buf).mem.ext :=
  ⟨le_rfl, fun _ _ => rfl⟩

/-- **`main` calls `poolAddWorker`**: the item finds what belongs to its event. -/
theorem Inv.add {c : ServerState} (h : Inv c) (hd : DestroyInv c) {buf : Bytes} {i : ℕ}
    (hq : c.client () = .code (.record buf i)) (hi : c.mem.ext.clientCount < i) : Inv (withItem c buf) := by
  have hrec := h.record buf i hq
  have hcall : c.mem.pool.threadid = true := by
    have hok := h.call
    rw [hq] at hok
    by_contra hne
    cases hok (by simpa using hne)
  have hclient : (withItem c buf).client () = .addLock c.mem.fresh .poll := by
    simp [withItem, Config.moveClient]
  have hkept : ∀ fd, TextKept c.mem.ext (withItem c buf).mem.ext fd := fun _ _ _ => rfl
  refine ⟨h.room, ?_, fun p hp => ?_, fun k p d hw => ?_, ?_, ?_, ?_, ?_,
    fun p hp => Nat.lt_succ_of_lt (h.bound p hp)⟩
  · rw [hclient]
    exact ⟨rfl, hcall⟩
  · by_cases hp0 : p = c.mem.fresh
    · -- the loop over the table is over: the text is in the first entry of the sender
      obtain ⟨j, hj⟩ := hrec.row
      rw [hp0, event_withItem_self]
      refine ⟨rfl, le_rfl, j, hj, ?_⟩
      exact hrec.done j hj.1.1 (Nat.lt_of_le_of_lt hj.1.2 hi) hj.1.2 hj.2.1
    · have hp' : Pending.unread c p := unread_withItem hq hp hp0
      obtain ⟨h1, h2⟩ := h.unread p hp'
      rw [event_withItem_of_lt (h.lt_fresh hd (Or.inl hp'))]
      exact ⟨h1, h2.keep (grows_withItem c buf) (hkept _)⟩
  · obtain ⟨l, rfl, hst⟩ := h.stage k p d hw
    have hp : holds (c.worker k) = some p := by
      rw [show c.worker k = .run p (.code l) from hw]
      rfl
    rw [event_withItem_of_lt (h.lt_fresh hd (Or.inr (Or.inl ⟨k, hp⟩)))]
    exact ⟨l, rfl, hst.keep (grows_withItem c buf) (fun _ => hkept _) fun _ => rfl⟩
  · intro hl
    rw [hclient] at hl
    cases hl
  · intro buf' i' hl
    rw [hclient] at hl
    cases hl
  · show List.Forall₂ _ c.mem.finished c.mem.ext.broadcasts
    refine List.forall₂_iff_zip.mpr ⟨h.finished.length_eq, fun {p b} hpb => ?_⟩
    have hp : p ∈ c.mem.finished := (List.of_mem_zip hpb).1
    rw [event_withItem_of_lt (h.lt_fresh hd (Or.inr (Or.inr hp)))]
    exact ((List.forall₂_iff_zip.mp h.finished).2 hpb).keep (grows_withItem c buf)
  · have hold : c.mem.added.map (event (withItem c buf)) = c.mem.added.map (event c) :=
      List.map_congr_left fun p hp => event_withItem_of_lt (hd.nodes.bound p hp)
    have hreceived := h.received
    rw [hq] at hreceived
    rw [hclient]
    show c.mem.ext.received ++ _ = (c.mem.added ++ [c.mem.fresh]).map (event (withItem c buf))
    rw [List.map_append, hold, hreceived]
    simp [callNode, event_withItem_self]

/-- `main` in a call, or about to call `poolDestroy`: the items stay where they are. -/
theorem Inv.moveMain {c : ServerState} (h : Inv c) {r : ServerMem × Call Pos} (hext : r.1.ext = c.mem.ext)
    (hcall : CallOk r.1.pool.threadid r.2) (hev : ∀ p, (r.1.heap p).arg = (c.mem.heap p).arg)
    (hunread : ∀ p, p ∈ waiting r.1 ∨ callNode r.2 = some p → p ∈ waiting c.mem ∨ callNode (c.client ()) = some p)
    (hcode : ∀ l, r.2 = .code l → l = .poll ∨ l = .exit) (hfin : r.1.finished = c.mem.finished)
    (hrec : r.1.added ++ (callNode r.2).toList = c.mem.added ++ (callNode (c.client ())).toList)
    (hdeq : r.1.dequeued = c.mem.dequeued) (hfresh : r.1.fresh = c.mem.fresh) : Inv (c.moveClient () r) := by
  have hclient : (c.moveClient () r).client () = r.2 := by simp [Config.moveClient]
  have hunread' : ∀ p, Pending.unread (c.moveClient () r) p → Pending.unread c p := by
    rintro p (hp | hp | hp)
    · exact (hunread p (Or.inl hp)).elim Or.inl fun hn => Or.inr (Or.inl hn)
    · exact (hunread p (Or.inr (hclient ▸ hp))).elim Or.inl fun hn => Or.inr (Or.inl hn)
    · exact Or.inr (Or.inr hp)
  have hext' : (c.moveClient () r).mem.ext = c.mem.ext := hext
  refine h.quiet (hext'.trans (broadcasts_self _)) (by rw [hclient]; exact hcall) hev hunread' h.stage
    ?_ ?_ ?_ ?_ ?_
  · rintro p fd (⟨hp, rfl⟩ | hp)
    · exact Or.inl ⟨hunread' p hp, by rw [hext']⟩
    · exact Or.inr hp
  · intro l hl
    exact Or.inr (hcode l (hclient ▸ hl))
  · show List.Forall₂ _ r.1.finished _
    rw [hfin]
    exact h.finished
  · rw [hclient]
    exact hrec
  · show ∀ p ∈ r.1.dequeued, p < r.1.fresh
    rw [hdeq, hfresh]
    exact h.bound

/-- **A step of `main`.** -/
theorem Inv.client {c : ServerState} (h : Inv c) (hd : DestroyInv c) {x : ServerInput} {r : ServerMem × Call Pos}
    (hk : ∀ l ∈ places (c.client ()), Known c.mem.ext l) (hok : separate c (.inr (), x))
    (hs : CallStep server (.inr ()) x c.mem (c.client ()) r.1 r.2) : Inv (c.moveClient () r) := by
  have hlast : ∀ p member l, c.client () = .append p member l → c.mem.pool.threadid = true →
      (c.mem.link p member).pool.queueHead ≠ none := by
    intro p member l hl ht
    refine (hd.queue ht).head_link (t := .inr ()) ?_
    show callSection (c.client ()) = _
    rw [hl]
    rfl
  have hcall := callStep_callOk hs h.call hlast
  by_cases hcode : ∃ q, c.client () = .code q
  · obtain ⟨q, hq⟩ := hcode
    have hknown : Known c.mem.ext q := hk q (by rw [hq]; simp [places])
    obtain ⟨m', d'⟩ := r
    have hs' := hs
    rw [hq] at hs'
    cases hs' with
    | goto hst => exact h.mainStep hq hok hknown (mainStep_cases hst)
    | add hst =>
      have hmain := mainStep_cases hst
      generalize x.ext = y at hmain
      cases hmain with
      | add _ buf i hi => exact h.add hd hq hi
    | destroy hst =>
      have hmain := mainStep_cases hst
      generalize x.ext = y at hmain
      cases hmain
      refine h.moveMain rfl hcall (fun _ => rfl) (fun p hp => ?_) (fun l hl => ?_) rfl ?_ rfl rfl
      · rcases hp with hp | hp
        · exact Or.inl hp
        · cases hp
      · cases hl
      · rw [hq]
        rfl
  · have hno : ∀ l, c.client () ≠ .code l := fun l hl => hcode ⟨l, hl⟩
    have hna : r.2 ≠ .aborted := by
      intro ha
      rw [ha] at hcall
      exact hcall
    obtain ⟨hrec, hdeq, hfin, hfresh⟩ := callStep_ledger hs hno hna
    obtain ⟨hext, hplaces⟩ : r.1.ext = c.mem.ext ∧ ∀ l ∈ places r.2, l ∈ places (c.client ()) := by
      rcases callStep_code hs with hp | ⟨l, s, a, hl, -⟩
      · exact hp
      · exact absurd hl (hno l)
    refine h.moveMain hext hcall (fun p => ?_) (fun p => callStep_unread hs hno) (fun l hl => ?_) hfin hrec hdeq
      hfresh
    · exact callStep_arg hs hno p
    · exact h.call.back hno l (hplaces l (by rw [hl]; simp [places]))

/-! ### Steps of the workers -/

/-- **A worker moves**: it takes an item that waits, or its item goes on. -/
theorem Inv.moveWorker {c : ServerState} (h : Inv c) {i : Fin threadNum} {r : ServerMem × Worker Pos}
    {bs : List Broadcast} (hext : r.1.ext = { c.mem.ext with broadcasts := bs }) (hheap : r.1.heap = c.mem.heap)
    (hid : r.1.pool.threadid = c.mem.pool.threadid) (hadded : r.1.added = c.mem.added)
    (hwait : ∀ p ∈ waiting r.1, p ∈ waiting c.mem)
    (hunread : ∀ p, r.2 = .unlock p ∨ r.2 = .run p (.code .start) → Pending.unread c p)
    (hstage : ∀ p d, r.2 = .run p d → ∃ l, d = .code l ∧ Stage c.mem.ext (event c p) l)
    (huncopied : ∀ p fd j, r.2 = .run p (.code (.search fd j)) ∨ r.2 = .run p (.code (.copy fd j)) →
      Pending.uncopied c p fd)
    (hfin : List.Forall₂ (fun p b => Broadcasts c.mem.ext (event c p) b) r.1.finished bs)
    (hbound : ∀ p ∈ r.1.dequeued, p < r.1.fresh) : Inv (c.moveWorker i r) := by
  have hsock : (c.moveWorker i r).mem.ext.sockfd = c.mem.ext.sockfd := by
    rw [show (c.moveWorker i r).mem.ext = _ from hext]
  have hunread' : ∀ p, Pending.unread (c.moveWorker i r) p → Pending.unread c p := by
    rintro p (hp | hp | ⟨j, hp⟩)
    · exact Or.inl (hwait p hp)
    · exact Or.inr (Or.inl hp)
    · rcases moveWorker_cases c i r j with ⟨-, hj⟩ | ⟨-, hj⟩
      · rw [hj] at hp
        exact hunread p hp
      · rw [hj] at hp
        exact Or.inr (Or.inr ⟨j, hp⟩)
  refine h.quiet hext ?_ (fun p => by rw [event, event]; exact congrArg (fun f => (f p).arg) hheap) hunread'
    (fun j p d hw => ?_) ?_ (fun l hl => Or.inl hl) hfin ?_ hbound
  · show CallOk r.1.pool.threadid (c.client ())
    rw [hid]
    exact h.call
  · rcases moveWorker_cases c i r j with ⟨-, hj⟩ | ⟨-, hj⟩
    · exact hstage p d (hj ▸ hw)
    · exact h.stage j p d (hj ▸ hw)
  · rintro p fd (⟨hp, rfl⟩ | ⟨j, k, hp⟩)
    · exact Or.inl ⟨hunread' p hp, hsock⟩
    · rcases moveWorker_cases c i r j with ⟨-, hj⟩ | ⟨-, hj⟩
      · rw [hj] at hp
        exact huncopied p fd k hp
      · rw [hj] at hp
        exact Or.inr ⟨j, k, hp⟩
  · show r.1.added ++ _ = _
    rw [hadded]
    rfl

/-- A step of a worker that sends nothing. -/
theorem Inv.moveWorkerAlone {c : ServerState} (h : Inv c) {i : Fin threadNum} {r : ServerMem × Worker Pos}
    (hext : r.1.ext = c.mem.ext) (hheap : r.1.heap = c.mem.heap) (hid : r.1.pool.threadid = c.mem.pool.threadid)
    (hadded : r.1.added = c.mem.added) (hfin : r.1.finished = c.mem.finished)
    (hwait : ∀ p ∈ waiting r.1, p ∈ waiting c.mem)
    (hunread : ∀ p, r.2 = .unlock p ∨ r.2 = .run p (.code .start) → Pending.unread c p)
    (hstage : ∀ p d, r.2 = .run p d → ∃ l, d = .code l ∧ Stage c.mem.ext (event c p) l)
    (huncopied : ∀ p fd j, r.2 = .run p (.code (.search fd j)) ∨ r.2 = .run p (.code (.copy fd j)) →
      Pending.uncopied c p fd)
    (hbound : ∀ p ∈ r.1.dequeued, p < r.1.fresh) : Inv (c.moveWorker i r) := by
  have hext' : r.1.ext = { c.mem.ext with broadcasts := c.mem.ext.broadcasts } := hext
  exact h.moveWorker hext' hheap hid hadded hwait hunread hstage huncopied (by rw [hfin]; exact h.finished) hbound

/-- **A step of the item of a worker.** -/
theorem Inv.item {c : ServerState} (h : Inv c) {i : Fin threadNum} {p : Ptr} {l : Pos} {m : Server}
    {a : Act Pos Event} (hw : c.worker i = .run p (.code l)) (hs : ProcessStep c.mem.ext l m a) :
    (∃ l', a = .goto l' ∧ m = c.mem.ext ∧
      Inv (c.moveWorker i ({ c.mem with ext := m }, .run p (.code l')))) ∨
    a = .ret ∧ Inv (c.moveWorker i ({ c.mem with ext := m, finished := c.mem.finished ++ [p] }, .free p)) := by
  obtain ⟨q, hq, hst⟩ := h.stage i p _ hw
  cases hq
  rcases processStep_stage hs hst h.room with ⟨l', rfl, rfl, hst', hback⟩ | ⟨b, rfl, rfl, hb⟩
  · refine Or.inl ⟨l', rfl, rfl, h.moveWorkerAlone rfl rfl rfl rfl rfl (fun _ hp => hp) ?_ ?_ ?_ h.bound⟩
    · rintro q (hq | hq)
      · cases hq
      · cases hq
        exact absurd hs processStep_not_start
    · rintro q d hq
      cases hq
      exact ⟨l', rfl, hst'⟩
    · rintro q fd j hq
      have hfd : l' = .search fd j ∨ l' = .copy fd j := by
        rcases hq with hq | hq
        · cases hq
          exact Or.inl rfl
        · cases hq
          exact Or.inr rfl
      have hqp : q = p := by
        rcases hq with hq | hq <;> cases hq <;> rfl
      subst hqp
      have hun := h.uncopied_of_stage hw (hback (by rcases hfd with rfl | rfl <;> trivial))
      rcases hfd with rfl | rfl
      · rwa [hst'.1]
      · rwa [hst'.1]
  · refine Or.inr ⟨rfl, h.moveWorker rfl rfl rfl rfl (fun _ hp => hp) nofun (fun _ _ hq => by cases hq) nofun
      ?_ h.bound⟩
    exact List.rel_append h.finished (.cons hb .nil)

/-- A worker that has no item, and gets none. -/
theorem Inv.idle {c : ServerState} (h : Inv c) {i : Fin threadNum} {r : ServerMem × Worker Pos}
    (hext : r.1.ext = c.mem.ext) (hheap : r.1.heap = c.mem.heap) (hfresh : r.1.fresh = c.mem.fresh)
    (hid : r.1.pool.threadid = c.mem.pool.threadid) (hadded : r.1.added = c.mem.added)
    (hdeq : r.1.dequeued = c.mem.dequeued) (hfin : r.1.finished = c.mem.finished)
    (hw : ∀ p d, r.2 ≠ .unlock p ∧ r.2 ≠ .run p d) : Inv (c.moveWorker i r) := by
  refine h.moveWorkerAlone hext hheap hid hadded hfin ?_ ?_ ?_ ?_ ?_
  · intro p hp
    rwa [waiting, hadded, hdeq] at hp
  · rintro p (hp | hp)
    · exact absurd hp (hw p .aborted).1
    · exact absurd hp (hw p _).2
  · intro p d hp
    exact absurd hp (hw p d).2
  · rintro p fd j (hp | hp)
    · exact absurd hp (hw p _).2
    · exact absurd hp (hw p _).2
  · rw [hdeq, hfresh]
    exact h.bound

/-- **A step of a worker.** -/
theorem Inv.worker {c : ServerState} (h : Inv c) (hd : DestroyInv c) {i : Fin threadNum} {x : ServerInput}
    {r : ServerMem × Worker Pos} (hs : WorkerStep server i x c.mem (c.worker i) r.1 r.2) :
    Inv (c.moveWorker i r) := by
  generalize hw : c.worker i = w at hs
  obtain ⟨m', w'⟩ := r
  cases hs with
  | take hsz hp =>
    next p =>
    have ht : c.mem.pool.threadid = true := hd.threadid_of_worker (i := i) (by rw [hw]; nofun)
    have hq := (hd.queue ht).queue.head_waiting hp
    have hwaiting : p ∈ waiting c.mem := by
      rw [hq]
      exact List.mem_cons_self
    refine h.moveWorkerAlone rfl rfl rfl rfl rfl (fun q hin => ?_) ?_ (fun _ _ hq => by cases hq) nofun
      (fun q hin => ?_)
    · have hin : q ∈ waiting (withoutHead c.mem p) := hin
      rw [hq]
      exact List.mem_cons_of_mem _ hin
    · rintro q (hq | hq)
      · cases hq
        exact Or.inl hwaiting
      · cases hq
    · rcases List.mem_append.mp hin with hin | hin
      · exact h.bound q hin
      · rw [List.mem_singleton.mp hin]
        exact hd.closed.head p hp
  | unlock p =>
    have hun : Pending.unread c p := Or.inr (Or.inr ⟨i, Or.inl hw⟩)
    refine h.moveWorkerAlone rfl rfl rfl rfl rfl (fun q hin => hin) ?_ ?_ nofun h.bound
    · rintro q (hq | hq)
      · cases hq
      · cases hq
        exact hun
    · intro q d hq
      cases hq
      exact ⟨_, rfl, h.unread p hun⟩
  | finish p hst =>
    rcases h.item hw (processStep_cases hst) with ⟨l', hl', -⟩ | ⟨-, hinv⟩
    · cases hl'
    · exact hinv
  | call p hcall =>
    obtain ⟨l, rfl, -⟩ := h.stage i p _ hw
    cases hcall with
    | goto hst =>
      rcases h.item hw (processStep_cases hst) with ⟨l', hl', -, hinv⟩ | ⟨hret, -⟩
      · cases hl'
        exact hinv
      · cases hret
    | add hst | destroy hst =>
      rcases h.item hw (processStep_cases hst) with ⟨l', hl', -⟩ | ⟨hret, -⟩
      · cases hl'
      · cases hret
  | _ => exact h.idle rfl rfl rfl rfl rfl rfl rfl fun p d => ⟨nofun, nofun⟩

/-! ### Runs -/

theorem inv_init (c : ServerState) (h : chatServer.init c) : Inv c := by
  obtain ⟨m, heap, ⟨h1, h2, h3, h4, h5, h6⟩, rfl⟩ := h
  refine ⟨?_, nofun, ?_, (fun _ _ _ hw => by cases hw), nofun, nofun, ?_, ?_, ?_⟩
  · show m.clientCount < _
    rw [h1]
    decide
  · rintro p (hp | hp | ⟨i, hp | hp⟩)
    · simp [waiting, poolInit] at hp
    · cases hp
    · cases hp
    · cases hp
  · show List.Forall₂ _ [] m.broadcasts
    rw [h6]
    exact .nil
  · show m.received = _
    rw [h5]
    rfl
  · simp [poolInit]

theorem destroyInv {c : ServerState} (h : Reach chatServer separate c) : DestroyInv c :=
  destroyInv_reach (C := server) (by decide) (h.mono fun _ _ _ => trivial)

theorem inv_reach {c : ServerState} (h : Reach chatServer separate c) : Inv c := by
  refine Program.invariant (P := chatPool server) (I := Inv) inv_init ?_ ?_ h
  · intro c i x r hr hi _ hs
    exact hi.worker (destroyInv hr) (workerStep_cases hs)
  · intro c k x r hr hi hok hs
    exact hi.client (destroyInv hr) (known_reach hr) hok (callStep_cases hs)

/-! ### The contract -/

/-- The descriptor that an item has read through its argument. -/
def readAt : Pos → Option ℤ
  | .search fd _ | .copy fd _ | .send fd _ _ _ | .sendTo fd _ _ _ => some fd
  | _ => none

/-- The text that an item has copied from the table. -/
def copiedAt : Pos → Option Bytes
  | .send _ buf _ _ | .sendTo _ buf _ _ => some buf
  | _ => none

/-- **The items keep their own data.** What an item has read and copied is what belongs to the event that enqueued
it; every message received has its own item, which waits to be run, or is in the hands of one worker, or has been
run once; and every item that has been run has broadcast the message of its event, under its sender, to all other
entries that were in use. -/
structure KeepsData (c : ServerState) : Prop where
  argument : ∀ i p l fd, c.worker i = .run p (.code l) → readAt l = some fd → fd = (event c p).sockfd
  text : ∀ i p l buf, c.worker i = .run p (.code l) → copiedAt l = some buf → buf = (event c p).text
  received : c.mem.ext.received = (c.mem.added ++ (callNode (c.client ())).toList).map (event c)
  queued : c.mem.pool.threadid = true → c.mem.dequeued ++ waiting c.mem = c.mem.added ∧ c.mem.added.Nodup
  taken : ∀ p ∈ c.mem.dequeued, p ∈ c.mem.finished ∨ ∃ i, holds (c.worker i) = some p
  once : RunOnce c.mem c.worker
  broadcasts : List.Forall₂ (fun p b => Broadcasts c.mem.ext (event c p) b) c.mem.finished c.mem.ext.broadcasts

theorem Stage.keeps {m : Server} {e : Event} {l : Pos} (h : Stage m e l) :
    (∀ fd, readAt l = some fd → fd = e.sockfd) ∧ ∀ buf, copiedAt l = some buf → buf = e.text := by
  cases l with
  | start => exact ⟨nofun, nofun⟩
  | search fd j | copy fd j =>
    refine ⟨fun fd' hfd => ?_, nofun⟩
    cases hfd
    exact h.1
  | send fd buf j sentTo | sendTo fd buf j sentTo =>
    refine ⟨fun fd' hfd => ?_, fun buf' hbuf => ?_⟩
    · cases hfd
      exact h.1
    · cases hbuf
      exact h.2.1
  | _ => exact h.elim

/-- **The items keep their data** in every run in which `main` leaves `sockfd` and the texts alone while items have
still to read them, and does not accept more clients than the array holds. -/
theorem items_keep_data {c : ServerState} (h : Reach chatServer separate c) : KeepsData c := by
  have hi := inv_reach h
  have hd := destroyInv h
  refine ⟨fun i p l fd hw hfd => ?_, fun i p l buf hw hbuf => ?_, hi.received, fun ht => ?_, fun p hp => ?_,
    hd.hands.runOnce hd.nodup, hi.finished⟩
  · obtain ⟨l', hl, hst⟩ := hi.stage i p _ hw
    cases hl
    exact (Stage.keeps hst).1 fd hfd
  · obtain ⟨l', hl, hst⟩ := hi.stage i p _ hw
    cases hl
    exact (Stage.keeps hst).2 buf hbuf
  · have hq := (hd.queue ht).queue
    exact ⟨hq.history, hq.nodup⟩
  · have hin : p ∈ (c.mem.dequeued : Multiset Ptr) := Multiset.mem_coe.mpr hp
    rw [show (c.mem.dequeued : Multiset Ptr) = _ from hd.hands, Multiset.mem_add, Multiset.mem_sum] at hin
    rcases hin with hin | ⟨i, -, hin⟩
    · exact Or.inl (Multiset.mem_coe.mp hin)
    · exact Or.inr ⟨i, Option.mem_toList.mp (Multiset.mem_coe.mp hin)⟩

/-- A step of the worker `i`. -/
def works (i : Fin threadNum) : ServerAction := (.inl i, { ext := none })

/-- The client `5` sends `a` and the client `6` sends `b`, before a worker runs the first item. -/
def overtakenRun : List ServerAction :=
  twoClients ++ [kernel (.ready 5), kernel (.received [97])] ++ List.replicate 8 goesOn ++
    [kernel (.ready 6), kernel (.received [98])] ++ List.replicate 9 goesOn ++ List.replicate 9 (works 0)

/-- The item of the first message broadcasts the second one. -/
theorem items_mixed_overtakenRun : ∃ c, Reach chatServer anyStep c ∧ event c 0 = ⟨5, [97], 2⟩ ∧
    c.worker 0 = .run 0 (.code (.send 6 [98] 1 [])) ∧ ¬ KeepsData c := by
  obtain ⟨c, hc, hp⟩ := reach_of_run chatServer anyStep_of_test overtakenRun
    (fun c => decide (event c 0 = ⟨5, [97], 2⟩) && decide (c.worker 0 = .run 0 (.code (.send 6 [98] 1 []))))
    startState_init (by decide)
  simp only [Bool.and_eq_true, decide_eq_true_eq] at hp
  refine ⟨c, hc, hp.1, hp.2, fun hk => ?_⟩
  have hfd := hk.argument 0 0 _ 6 hp.2 rfl
  rw [hp.1] at hfd
  cases hfd

/-- The worker has an item that has not copied its text. -/
def busy : Worker Pos → Bool
  | .unlock _ | .run _ (.code .start) | .run _ (.code (.search _ _)) | .run _ (.code (.copy _ _)) => true
  | _ => false

/-- Every item has copied its text. -/
def calm (c : ServerState) : Bool :=
  decide (waiting c.mem = []) && decide (callNode (c.client ()) = none) && decide (∀ i, busy (c.worker i) = false)

theorem not_busy_of_calm {c : ServerState} (h : calm c = true) {i : Fin threadNum} {w : Worker Pos}
    (hw : c.worker i = w) : busy w = false := by
  simp only [calm, Bool.and_eq_true, decide_eq_true_eq] at h
  rw [← hw]
  exact h.2 i

theorem not_unread_of_calm {c : ServerState} (h : calm c = true) (p : Ptr) : ¬ unread c p := by
  rintro (hp | hp | ⟨i, hp | hp⟩)
  · simp only [calm, Bool.and_eq_true, decide_eq_true_eq] at h
    rw [h.1.1] at hp
    cases hp
  · simp only [calm, Bool.and_eq_true, decide_eq_true_eq] at h
    rw [h.1.2] at hp
    cases hp
  · cases not_busy_of_calm h hp
  · cases not_busy_of_calm h hp

theorem not_uncopied_of_calm {c : ServerState} (h : calm c = true) (p : Ptr) (fd : ℤ) : ¬ uncopied c p fd := by
  rintro (⟨hp, -⟩ | ⟨i, j, hp | hp⟩)
  · exact not_unread_of_calm h p hp
  · cases not_busy_of_calm h hp
  · cases not_busy_of_calm h hp

/-- `main` asks the kernel only when all items have copied their texts. -/
def separateTest (c : ServerState) (a : ServerAction) : Bool :=
  decide (a.1 ≠ .inr ()) ||
    decide (c.client () ≠ .code .poll ∧ c.client () ≠ .code .dispatch ∧ c.client () ≠ .code .leave) ||
    (calm c && decide (c.mem.ext.clientCount + 1 < maxEventNumber))

theorem separate_of_test (c : ServerState) (a : ServerAction) (h : separateTest c a = true) : separate c a := by
  intro ha
  simp only [separateTest, ha, ne_eq, not_true, decide_false, Bool.false_or, Bool.or_eq_true, Bool.and_eq_true,
    decide_eq_true_eq] at h
  rcases h with ⟨h1, h2, h3⟩ | ⟨hcalm, hroom⟩
  · exact ⟨fun hp => absurd hp h1, fun hp => absurd hp h2, fun hp => absurd hp h2, fun hp => absurd hp h3⟩
  · exact ⟨fun _ _ _ p hp => absurd hp (not_unread_of_calm hcalm p), fun _ _ _ => hroom,
      fun _ _ _ p _ hp => absurd hp (not_uncopied_of_calm hcalm p _),
      fun _ p fd hp => absurd hp (not_uncopied_of_calm hcalm p fd)⟩

/-- The client `5` sends `a`, a worker begins to broadcast it, and the client `6` sends `b`. -/
def inTurnRun : List ServerAction :=
  twoClients ++ [kernel (.ready 5), kernel (.received [97])] ++ List.replicate 8 goesOn ++
    List.replicate 8 (works 0) ++ [kernel (.ready 6), kernel (.received [98])] ++ List.replicate 8 goesOn

theorem items_keep_data_inTurnRun : ∃ c, Reach chatServer separate c ∧
    c.mem.ext.received = [⟨5, [97], 2⟩, ⟨6, [98], 2⟩] ∧ c.worker 0 = .run 0 (.code (.send 5 [97] 1 [])) ∧
      event c 0 = ⟨5, [97], 2⟩ ∧ KeepsData c := by
  obtain ⟨c, hc, hp⟩ := reach_of_run chatServer separate_of_test inTurnRun
    (fun c => decide (c.mem.ext.received = [⟨5, [97], 2⟩, ⟨6, [98], 2⟩]) &&
      decide (c.worker 0 = .run 0 (.code (.send 5 [97] 1 []))) && decide (event c 0 = ⟨5, [97], 2⟩))
    startState_init (by decide)
  simp only [Bool.and_eq_true, decide_eq_true_eq] at hp
  exact ⟨c, hc, hp.1.1, hp.1.2, hp.2, items_keep_data hc⟩

end PoolStudy.ChatServer.Messages
