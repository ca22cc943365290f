import PoolStudy.EpollThreadpool.Model

/-! # The epoll thread: what is done for an event

`Finished` says what the history of an event looks like when it has been handled, by the branch that was taken. The
loop that receives asks the descriptor of `events[n]`, the entry behind the batch, and stops at the first result that
does not fill the buffer; the reply depends on the last result only.

So an event of a connection is not served as it should be if it is readable, since `n` is used as an index; nor if it
is only writable, since a reply is sent though nothing was received (`serves_iff`). -/

namespace PoolStudy.EpollThreadpool.Serving

open PoolStudy.Lib.Transition PoolStudy.Lib.Sockets PoolStudy.EpollThreadpool.Model

variable {lfd : ℕ}

/-- The event of a connection that is readable. -/
def Readable (lfd : ℕ) (e : EpollEvent) : Prop := e.fd ≠ lfd ∧ e.hasIn = true

/-- A result that ends the loop that receives. -/
def Ends : ReadResult Byte → Prop
  | .data l => l ≠ [] ∧ l.length ≠ bufSize
  | _ => True

/-- Bytes were received. -/
def isData : ReadResult Byte → Bool
  | .data _ => true
  | _ => false

/-- The call failed, and not with `EAGAIN`. -/
def isError : ReadResult Byte → Bool
  | .error => true
  | _ => false

/-- **The loop that receives**, from `src`: so far every result has filled the buffer. -/
structure Reading (lfd : ℕ) (h : Handled) (src : ℕ) (full : List (List Byte)) : Prop where
  readable : Readable lfd h.event
  recvs : h.recvs = full.map fun l => (src, .data l)
  sizes : ∀ l ∈ full, l.length = bufSize
  sends : h.sends = []
  closes : h.closes = []

/-- **An event that has been handled.** -/
inductive Finished (lfd : ℕ) (h : Handled) : Prop
  | listen (hfd : h.event.fd = lfd) (hi : h.indices = [h.i]) (hr : h.recvs = []) (hs : h.sends = [])
      (hc : h.closes = [])
  | readable (src : ℕ) (full : List (List Byte)) (last : ReadResult Byte) (hread : Readable lfd h.event)
      (hi : h.n ∈ h.indices) (hr : h.recvs = (full.map fun l => (src, .data l)) ++ [(src, last)])
      (hfull : ∀ l ∈ full, l.length = bufSize) (hlast : Ends last)
      (hs : h.sends = if isData last then [h.event.fd] else [])
      (hc : h.closes = if isError last then [h.event.fd, h.event.fd] else [h.event.fd])
  | writable (hfd : h.event.fd ≠ lfd) (hin : h.event.hasIn = false) (hout : h.event.hasOut = true)
      (hr : h.recvs = []) (hs : h.sends = [h.event.fd]) (hc : h.closes = [h.event.fd])
  | other (hfd : h.event.fd ≠ lfd) (hin : h.event.hasIn = false) (hout : h.event.hasOut = false)
      (hi : h.indices = [h.i, h.i]) (hr : h.recvs = []) (hs : h.sends = []) (hc : h.closes = [h.event.fd])

section Reading

variable {h : Handled} {src : ℕ} {full : List (List Byte)} (hr : Reading lfd h src full)
include hr

theorem Reading.data {l : List Byte} (hl : l.length = bufSize) :
    Reading lfd (h.recv src (.data l)) src (full ++ [l]) where
  readable := hr.readable
  recvs := by simp [Handled.recv, hr.recvs]
  sizes m hm := by
    rcases List.mem_append.mp hm with hm | hm
    · exact hr.sizes m hm
    · rw [List.mem_singleton.mp hm]; exact hl
  sends := hr.sends
  closes := hr.closes

theorem Reading.finished_data {l : List Byte} (hne : l ≠ []) (hl : l.length ≠ bufSize) :
    Finished lfd (h.recv src (.data l)).send.close :=
  .readable src full (.data l) hr.readable (by simp [Handled.recv, Handled.send, Handled.close])
    (by simp [Handled.recv, Handled.send, Handled.close, hr.recvs]) hr.sizes ⟨hne, hl⟩
    (by simp [Handled.recv, Handled.send, Handled.close, hr.sends, isData])
    (by simp [Handled.recv, Handled.send, Handled.close, hr.closes, isError])

theorem Reading.finished_none {r : ReadResult Byte} (hd : isData r = false) (he : isError r = false) :
    Finished lfd (h.recv src r).close :=
  .readable src full r hr.readable (by simp [Handled.recv, Handled.close])
    (by simp [Handled.recv, Handled.close, hr.recvs]) hr.sizes (by cases r <;> trivial)
    (by simp [Handled.recv, Handled.close, hr.sends, hd])
    (by simp [Handled.recv, Handled.close, hr.closes, he])

/-- The descriptor is closed in the branch for the error, and again behind the loop. -/
theorem Reading.finished_error : Finished lfd (h.recv src .error).close.close :=
  .readable src full .error hr.readable (by simp [Handled.recv, Handled.close])
    (by simp [Handled.recv, Handled.close, hr.recvs]) hr.sizes trivial
    (by simp [Handled.recv, Handled.close, hr.sends, isData])
    (by simp [Handled.recv, Handled.close, hr.closes, isError])

end Reading

/-- **What is known of the event that is being handled**: where its history will be when it has been. -/
def NowInv (lfd : ℕ) (c : State) : Prop :=
  match c.loc with
  | .wait | .test => True
  | .accept => Finished lfd c.now
  | .recv => ∃ full, Reading lfd c.now (c.events c.n).fd full
  | .recvError => Finished lfd c.now.close.close
  | .reply ret => Finished lfd (if 0 < ret then c.now.send else c.now).close
  | .send => Finished lfd c.now.send.close
  | .close => Finished lfd c.now.close

/-- The branches start with an empty history. -/
theorem nowInv_branch (c : State) (e : EpollEvent) (i n : ℕ) :
    NowInv lfd { c with now := ⟨i, n, e, [i], [], [], []⟩, loc := branch lfd e } := by
  unfold branch
  split_ifs with hfd hin hout
  · exact Finished.listen hfd rfl rfl rfl rfl
  · exact ⟨[], ⟨hfd, hin⟩, rfl, by simp, rfl, rfl⟩
  · exact Finished.writable hfd (eq_false_of_ne_true hin) hout rfl rfl rfl
  · exact Finished.other hfd (eq_false_of_ne_true hin) (eq_false_of_ne_true hout) rfl rfl rfl rfl

/-- The events of a batch that have been handled, in the order of the loop. -/
structure Noted (lfd n : ℕ) (b : List Handled) : Prop where
  finished : ∀ h ∈ b, Finished lfd h
  size : ∀ h ∈ b, h.n = n
  order : b.map Handled.i = List.range b.length

theorem Noted.i_lt {n : ℕ} {b : List Handled} (hb : Noted lfd n b) {h : Handled} (hh : h ∈ b) : h.i < b.length := by
  have hmem : h.i ∈ b.map Handled.i := List.mem_map_of_mem hh
  rwa [hb.order, List.mem_range] at hmem

theorem Noted.append {n : ℕ} {b : List Handled} (hb : Noted lfd n b) {h : Handled} (hf : Finished lfd h)
    (hn : h.n = n) (hi : h.i = b.length) : Noted lfd n (b ++ [h]) := by
  refine ⟨fun r hr => ?_, fun r hr => ?_, ?_⟩
  · rcases List.mem_append.mp hr with hr | hr
    · exact hb.finished r hr
    · rw [List.mem_singleton.mp hr]; exact hf
  · rcases List.mem_append.mp hr with hr | hr
    · exact hb.size r hr
    · rw [List.mem_singleton.mp hr]; exact hn
  · rw [List.map_append, hb.order, List.length_append, List.length_singleton, List.range_succ, ← hi]
    rfl

theorem noted_nil (n : ℕ) : Noted lfd n [] := ⟨nofun, nofun, rfl⟩

/-- The thread is handling an event. -/
def Busy (c : State) : Prop := c.loc ≠ .wait ∧ c.loc ≠ .test

/-- **The history of all events.** -/
structure RecordInv (lfd : ℕ) (c : State) : Prop where
  now : NowInv lfd c
  event : Busy c → c.now.i = c.i ∧ c.now.n = c.n ∧ c.i < c.n
  empty : c.loc = .wait → c.batch = []
  bound : c.loc ≠ .wait → c.i ≤ c.n ∧ c.batch.length = c.i
  batch : Noted lfd c.n c.batch
  past : ∀ b ∈ c.batches, Noted lfd b.length b

theorem busy_of_loc {c : State} {l : Loc} (hl : c.loc = l) (hw : l ≠ .wait) (ht : l ≠ .test) : Busy c :=
  ⟨by rw [hl]; exact hw, by rw [hl]; exact ht⟩

/-- Within an event only its own history changes. -/
theorem RecordInv.within {c : State} (h : RecordInv lfd c) (hbusy : Busy c) {now : Handled} {loc : Loc}
    {net : Net Byte} {stale : List ℕ} (hloc : loc ≠ .wait) (hi : now.i = c.now.i) (hn : now.n = c.now.n)
    (hnow : NowInv lfd { c with net := net, now := now, loc := loc, stale := stale }) :
    RecordInv lfd { c with net := net, now := now, loc := loc, stale := stale } := by
  obtain ⟨hi', hn', hlt⟩ := h.event hbusy
  exact ⟨hnow, fun _ => ⟨hi.trans hi', hn.trans hn', hlt⟩, fun hw => absurd hw hloc,
    fun _ => h.bound hbusy.1, h.batch, h.past⟩

/-- An event is finished. -/
theorem RecordInv.finish {c : State} (h : RecordInv lfd c) (hbusy : Busy c) {now : Handled} {net : Net Byte}
    {stale : List ℕ} (hi : now.i = c.now.i) (hn : now.n = c.now.n) (hf : Finished lfd now) :
    RecordInv lfd (State.finish { c with net := net, now := now, stale := stale }) := by
  obtain ⟨hi', hn', hlt⟩ := h.event hbusy
  have hlen := (h.bound hbusy.1).2
  refine ⟨trivial, fun hb => absurd rfl hb.2, nofun, fun _ => ⟨hlt, ?_⟩, h.batch.append hf (hn.trans hn') ?_, h.past⟩
  · simp only [State.finish, List.length_append, List.length_singleton, hlen]
  · rw [hi, hi', hlen]

theorem RecordInv.step {c c' : State} {x : Input} (h : RecordInv lfd c) (hs : LoopStep lfd x c c') :
    RecordInv lfd c' := by
  have hnow := h.now
  unfold NowInv at hnow
  cases hs with
  | same => exact h
  | batch hl hle =>
    have hb := h.empty hl
    refine ⟨trivial, fun hbusy => absurd rfl hbusy.2, nofun, fun _ => ⟨Nat.zero_le _, ?_⟩, ?_, h.past⟩
    · simp only [hb, List.length_nil]
    · simp only [hb]
      exact noted_nil _
  | event hl hi =>
    have hb := h.bound (by rw [hl]; exact nofun)
    have hloc : branch lfd (c.events c.i) ≠ .wait := by
      unfold branch
      split_ifs <;> exact nofun
    exact ⟨nowInv_branch c _ _ _, fun _ => ⟨rfl, rfl, hi⟩, fun hw => absurd hw hloc, fun _ => hb, h.batch, h.past⟩
  | endBatch hl hi =>
    obtain ⟨hle, hlen⟩ := h.bound (by rw [hl]; exact nofun)
    have hn : c.n = c.batch.length := by omega
    refine ⟨trivial, fun hbusy => absurd rfl hbusy.1, fun _ => rfl, fun hw => absurd rfl hw, noted_nil _, ?_⟩
    intro b hb
    rcases List.mem_append.mp hb with hb | hb
    · exact h.past b hb
    · rw [List.mem_singleton.mp hb, ← hn]
      exact h.batch
  | noAccept hl =>
    rw [hl] at hnow
    exact h.finish (busy_of_loc hl nofun nofun) rfl rfl hnow
  | accept hl ha hk =>
    rw [hl] at hnow
    have hbusy := busy_of_loc hl nofun nofun
    refine h.within hbusy hbusy.1 rfl rfl ?_
    unfold NowInv
    rw [hl]
    exact hnow
  | acceptLast hl ha =>
    rw [hl] at hnow
    exact h.finish (busy_of_loc hl nofun nofun) rfl rfl hnow
  | recvError hl hr =>
    rw [hl] at hnow
    obtain ⟨full, hread⟩ := hnow
    exact h.within (busy_of_loc hl nofun nofun) nofun rfl rfl hread.finished_error
  | recvAgain hl =>
    rw [hl] at hnow
    obtain ⟨full, hread⟩ := hnow
    exact h.within (busy_of_loc hl nofun nofun) nofun rfl rfl (hread.finished_none rfl rfl)
  | recvEof hl =>
    rw [hl] at hnow
    obtain ⟨full, hread⟩ := hnow
    exact h.within (busy_of_loc hl nofun nofun) nofun rfl rfl (hread.finished_none rfl rfl)
  | @recvData l hl hne =>
    rw [hl] at hnow
    obtain ⟨full, hread⟩ := hnow
    have hbusy := busy_of_loc hl nofun nofun
    by_cases hlen : l.length = bufSize
    · rw [if_pos hlen]
      exact h.within hbusy nofun rfl rfl ⟨full ++ [l], hread.data hlen⟩
    · rw [if_neg hlen]
      refine h.within hbusy nofun rfl rfl ?_
      have hpos : (0 : ℤ) < l.length := by exact_mod_cast List.length_pos_iff.mpr hne
      unfold NowInv
      simp only [if_pos hpos]
      exact hread.finished_data hne hlen
  | closeError hl =>
    rw [hl] at hnow
    exact h.within (busy_of_loc hl nofun nofun) nofun rfl rfl hnow
  | reply ret hl =>
    rw [hl] at hnow
    have hi : (if 0 < ret then c.now.send else c.now).i = c.now.i := by split_ifs <;> rfl
    have hn : (if 0 < ret then c.now.send else c.now).n = c.now.n := by split_ifs <;> rfl
    exact h.within (busy_of_loc hl nofun nofun) nofun hi hn hnow
  | send hl =>
    rw [hl] at hnow
    exact h.within (busy_of_loc hl nofun nofun) nofun rfl rfl hnow
  | close hl =>
    rw [hl] at hnow
    exact h.finish (busy_of_loc hl nofun nofun) rfl rfl hnow

theorem record_reach {c : State} (h : Reach (system lfd) anyStep c) : RecordInv lfd c := by
  refine h.induct ?_ ?_
  · rintro _ rfl
    exact ⟨trivial, fun hb => absurd rfl hb.1, fun _ => rfl, fun hw => absurd rfl hw, noted_nil _, nofun⟩
  · intro c a c' _ hi _ hs
    cases a with
    | net x =>
      cases hs
      exact ⟨hi.now, hi.event, hi.empty, hi.bound, hi.batch, hi.past⟩
    | loop x => exact hi.step (loopStep_cases hs)

/-- The batches that have been handled, and the part of the one that is being handled. -/
def seen (c : State) : List (List Handled) := c.batches ++ [c.batch]

theorem RecordInv.seen {c : State} (h : RecordInv lfd c) {b : List Handled} (hb : b ∈ seen c) :
    ∃ n, b.length ≤ n ∧ Noted lfd n b := by
  rcases List.mem_append.mp hb with hb | hb
  · exact ⟨b.length, Nat.le_refl _, h.past b hb⟩
  · rw [List.mem_singleton.mp hb]
    refine ⟨c.n, ?_, h.batch⟩
    by_cases hl : c.loc = .wait
    · rw [h.empty hl]
      exact Nat.zero_le _
    · obtain ⟨hle, hlen⟩ := h.bound hl
      omega

/-! ### The result -/

/-- **An event is served**: every index used on `events` is below `n` and within the array, bytes are received from the
descriptor of the event only, and the reply is sent to whom bytes were received from. -/
structure Served (h : Handled) : Prop where
  index : ∀ k ∈ h.indices, k < h.n ∧ k < arraySize
  own : ∀ r ∈ h.recvs, r.1 = h.event.fd
  reply : ∀ fd, fd ∈ h.sends ↔ ∃ l, l ≠ [] ∧ (fd, ReadResult.data l) ∈ h.recvs

/-- An event of `listenfd`, or of a connection that is neither readable nor writable. -/
def Quiet (lfd : ℕ) (e : EpollEvent) : Prop := e.fd = lfd ∨ e.hasIn = false ∧ e.hasOut = false

/-- An event for which nothing is received and nothing is sent. -/
theorem served_iff_of_none {h : Handled} (hlt : h.i < h.n) (hmem : h.i ∈ h.indices) (hi : ∀ k ∈ h.indices, k = h.i)
    (hr : h.recvs = []) (hs : h.sends = []) : Served h ↔ h.i < arraySize := by
  constructor
  · intro hserved
    exact (hserved.index h.i hmem).2
  · intro hsize
    refine ⟨fun k hk => ?_, fun r hr' => ?_, fun fd => ?_⟩
    · rw [hi k hk]
      exact ⟨hlt, hsize⟩
    · rw [hr] at hr'
      cases hr'
    · simp [hr, hs]

theorem Finished.served_iff_quiet {h : Handled} (hf : Finished lfd h) (hlt : h.i < h.n) :
    Served h ↔ h.i < arraySize ∧ Quiet lfd h.event := by
  cases hf with
  | listen hfd hi hr hs hc =>
    rw [served_iff_of_none hlt (by simp [hi]) (by simp [hi]) hr hs]
    exact (and_iff_left (Or.inl hfd)).symm
  | other hfd hin hout hi hr hs hc =>
    rw [served_iff_of_none hlt (by simp [hi]) (by simp [hi]) hr hs]
    exact (and_iff_left (Or.inr ⟨hin, hout⟩)).symm
  | readable src full last hread hi hr hfull hlast hs hc =>
    refine iff_of_false (fun hserved => ?_) fun hq => ?_
    · -- `n` itself is used as an index
      exact absurd (hserved.index h.n hi).1 (Nat.lt_irrefl _)
    · rcases hq.2 with hfd | ⟨hin, -⟩
      · exact hread.1 hfd
      · cases hin.symm.trans hread.2
  | writable hfd hin hout hr hs hc =>
    refine iff_of_false (fun hserved => ?_) fun hq => ?_
    · obtain ⟨l, -, hl⟩ := (hserved.reply h.event.fd).mp (by simp [hs])
      rw [hr] at hl
      cases hl
    · rcases hq.2 with hfd' | ⟨-, hout'⟩
      · exact hfd hfd'
      · cases hout'.symm.trans hout

/-- **A batch is served exactly if it fits into the array and holds no event of a connection that is readable or
writable.** -/
theorem serves_iff {c : State} (h : Reach (system lfd) anyStep c) {b : List Handled} (hb : b ∈ seen c) :
    (∀ r ∈ b, Served r) ↔ b.length ≤ arraySize ∧ ∀ r ∈ b, Quiet lfd r.event := by
  obtain ⟨n, hle, hnoted⟩ := (record_reach h).seen hb
  have hiff : ∀ r ∈ b, (Served r ↔ r.i < arraySize ∧ Quiet lfd r.event) := fun r hr => by
    refine (hnoted.finished r hr).served_iff_quiet ?_
    rw [hnoted.size r hr]
    exact Nat.lt_of_lt_of_le (hnoted.i_lt hr) hle
  constructor
  · intro hserved
    refine ⟨?_, fun r hr => ((hiff r hr).mp (hserved r hr)).2⟩
    -- a longer batch has an event behind the end of the array
    by_contra hlong
    have hmem : arraySize ∈ b.map Handled.i := by
      rw [hnoted.order, List.mem_range]
      omega
    obtain ⟨r, hr, hri⟩ := List.mem_map.mp hmem
    exact absurd ((hiff r hr).mp (hserved r hr)).1 (by rw [hri]; exact Nat.lt_irrefl _)
  · rintro ⟨hsize, hquiet⟩ r hr
    exact (hiff r hr).mpr ⟨Nat.lt_of_lt_of_le (hnoted.i_lt hr) hsize, hquiet r hr⟩

/-- A batch is reported, and steps of the thread follow. -/
def batchOf (reports : List EpollEvent) (xs : List Input) : List Act :=
  .loop { reports := reports } :: xs.map .loop

/-- A client connects and is accepted, as the descriptor 5. -/
def acceptRun : List Act := .net .connect :: batchOf [⟨3, epollIn⟩] [{}, { fd := 5 }, {}, {}]

theorem serves_iff_acceptRun : ∃ c : State, Reach (system 3) anyStep c ∧
    ∃ b ∈ seen c, b.length = 1 ∧ ∀ r ∈ b, Served r := by
  obtain ⟨c, hc, hp⟩ := reach_of_run (system 3) anyStep_of_test acceptRun
    (fun c => decide (c.batches.map (·.map (·.event)) = [[⟨3, epollIn⟩]])) rfl (by decide)
  have hb := of_decide_eq_true hp
  obtain ⟨b, hcb, hbe⟩ := List.map_eq_singleton_iff.mp hb
  obtain ⟨r, rfl, hre⟩ := List.map_eq_singleton_iff.mp hbe
  have hmem : [r] ∈ seen c := by simp [seen, hcb]
  refine ⟨c, hc, [r], hmem, rfl, (serves_iff hc hmem).mpr ⟨by simp [arraySize], ?_⟩⟩
  intro r' hr'
  rw [List.mem_singleton.mp hr', hre]
  exact Or.inl rfl

/-- The client sends a byte, and the event is handled. -/
def requestRun : List Act :=
  acceptRun ++ .net (.onFile 5 (.data [71])) :: batchOf [⟨5, epollIn⟩] [{}, {}, {}, {}, {}]

/-- **The connection that is ready is not read, and gets no reply**: `recv` was called for the descriptor 0 that
`events[1]` holds. -/
theorem unserved_requestRun : ∃ c : State, Reach (system 3) anyStep c ∧ ∃ r, [r] ∈ seen c ∧
    r.event = ⟨5, epollIn⟩ ∧ r.indices = [0, 1, 0, 0] ∧ r.recvs.map Prod.fst = [0] ∧ r.sends = [] ∧ ¬ Served r := by
  obtain ⟨c, hc, hp⟩ := reach_of_run (system 3) anyStep_of_test requestRun
    (fun c => decide (c.batch.map (fun r => (r.n, r.event, r.indices, r.recvs.map Prod.fst, r.sends)) =
      [(1, ⟨5, epollIn⟩, [0, 1, 0, 0], [0], [])])) rfl (by decide)
  have hb := of_decide_eq_true hp
  obtain ⟨r, hcb, hr⟩ := List.map_eq_singleton_iff.mp hb
  simp only [Prod.mk.injEq] at hr
  obtain ⟨hn, hev, hidx, hrecv, hsend⟩ := hr
  refine ⟨c, hc, r, by simp [seen, hcb], hev, hidx, hrecv, hsend, fun hserved => ?_⟩
  have hlt := (hserved.index 1 (by simp [hidx])).1
  omega

end PoolStudy.EpollThreadpool.Serving
