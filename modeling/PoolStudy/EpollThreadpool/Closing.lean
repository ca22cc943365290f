import PoolStudy.EpollThreadpool.Serving
import PoolStudy.Lib.Schedules

/-! # The epoll thread: closing a connection

The descriptor of a readable event is closed behind the loop that receives, and before that already in the branch of
the loop for an error; so it is closed once exactly if no `recv` of the event failed (`closes_once_iff`). The loop is
left at the first result that does not fill the buffer, and the close is then reached (`recv_left`).

`honest` is what epoll promises: the descriptors of a batch are distinct, and open. In runs in which it holds and no
`recv` fails, whatever the thread closes is open (`OpenInv`): no descriptor is closed again after it may have been
given to another connection. -/

namespace PoolStudy.EpollThreadpool.Closing

open PoolStudy.Lib.Transition PoolStudy.Lib.Sockets PoolStudy.Lib.Schedules
open PoolStudy.EpollThreadpool.Model PoolStudy.EpollThreadpool.Serving

variable {lfd : ℕ}

/-! ### One event -/

/-- The steps of the thread up to `++i`, behind the loop that receives. -/
def behind : Loc → ℕ
  | .recvError => 3
  | .reply _ => 2
  | .close => 1
  | _ => 0

/-- The event with the results `recvs` is being finished: `c0` is the state in which it is handled. -/
structure Leaving (c0 : State) (recvs : List (ℕ × ReadResult Byte)) (c : State) : Prop where
  pos : 0 < behind c.loc
  i : c.i = c0.i
  batch : c.batch = c0.batch
  event : c.now.event = c0.now.event
  recvs : c.now.recvs = recvs

/-- It is the last of the events that have been handled. -/
structure Left (c0 : State) (recvs : List (ℕ × ReadResult Byte)) (c : State) : Prop where
  test : c.loc = .test
  i : c.i = c0.i + 1
  last : ∃ r, c.batch = c0.batch ++ [r] ∧ r.event = c0.now.event ∧ r.recvs = recvs

/-- The thread takes a step. -/
def byThread (_ : State) : Act → Prop
  | .net _ => False
  | .loop _ => True

theorem Leaving.step {c0 c c' : State} {recvs : List (ℕ × ReadResult Byte)} {x : Input} (h : Leaving c0 recvs c)
    (hs : loopStep lfd x c = some c') :
    (Left c0 recvs c' ∨ Leaving c0 recvs c') ∧ behind c'.loc < behind c.loc := by
  obtain ⟨hpos, hi, hb, he, hr⟩ := h
  unfold loopStep at hs
  cases hl : c.loc with
  | recvError =>
    simp only [hl] at hs
    cases hs
    exact ⟨Or.inr ⟨Nat.succ_pos _, hi, hb, he, hr⟩, Nat.lt_succ_self _⟩
  | reply ret =>
    simp only [hl] at hs
    cases hs
    refine ⟨Or.inr ⟨Nat.succ_pos _, hi, hb, ?_, ?_⟩, Nat.lt_succ_self _⟩
    · show (if 0 < ret then c.now.send else c.now).event = _
      split_ifs <;> exact he
    · show (if 0 < ret then c.now.send else c.now).recvs = _
      split_ifs <;> exact hr
  | close =>
    simp only [hl] at hs
    cases hs
    exact ⟨Or.inl ⟨rfl, congrArg (· + 1) hi, _, congrArg (· ++ _) hb, he, hr⟩, Nat.lt_succ_self _⟩
  | _ =>
    rw [hl] at hpos
    exact absurd hpos (lt_irrefl 0)

theorem Leaving.goes {c0 c : State} {recvs : List (ℕ × ReadResult Byte)} (h : Leaving c0 recvs c) :
    ∃ c', Step (system lfd) byThread c c' := by
  have hsome : ∃ c', loopStep lfd {} c = some c' := by
    have hpos := h.pos
    unfold loopStep
    cases hl : c.loc with
    | recvError | reply ret | close => exact ⟨_, rfl⟩
    | _ =>
      rw [hl] at hpos
      exact absurd hpos (lt_irrefl 0)
  obtain ⟨c', hc'⟩ := hsome
  exact ⟨c', .loop {}, trivial, hc'⟩

/-- The thread comes to the end of the event. -/
theorem Leaving.ends {c0 c : State} {recvs : List (ℕ × ReadResult Byte)} (h : Leaving c0 recvs c) :
    Inevitable (system lfd) byThread (Left c0 recvs) c := by
  refine inevitable_of_measure (I := fun c' => Left c0 recvs c' ∨ Leaving c0 recvs c') (fun c' => behind c'.loc)
    ?_ ?_ (Or.inr h)
  · intro c1 a c2 hI hno hok hn
    cases a with
    | net y => exact hok.elim
    | loop y => exact (hI.resolve_left hno).step hn
  · intro c1 hI hno
    exact (hI.resolve_left hno).goes

/-- **The loop that receives is left at the first result that does not fill the buffer**, and then the thread comes to
the end of the event, behind the close. -/
theorem recv_left {c c' : State} {x : Input} (hl : c.loc = .recv) (hs : loopStep lfd x c = some c') :
    (c'.loc = .recv ∧ ∃ l, l.length = bufSize ∧ c'.now = c.now.recv (c.events c.n).fd (.data l)) ∨
      Inevitable (system lfd) byThread (Left c c'.now.recvs) c' := by
  unfold loopStep at hs
  simp only [hl, recvOne] at hs
  split_ifs at hs with hx
  generalize c.net.read (c.events c.n).fd x.count x.fail = result at hs
  cases result with
  | error | again | eof =>
    cases hs
    exact Or.inr (Leaving.ends ⟨Nat.succ_pos _, rfl, rfl, rfl, rfl⟩)
  | data l =>
    cases hs
    by_cases hfull : l.length = bufSize
    · exact Or.inl ⟨if_pos hfull, l, hfull, rfl⟩
    · refine Or.inr (Leaving.ends ⟨?_, rfl, rfl, rfl, rfl⟩)
      simp only [if_neg hfull, behind]
      exact Nat.succ_pos _

/-! ### Descriptors that are open -/

/-- **What epoll promises**: the descriptors it reports are distinct, and each is `listenfd` or an open connection. -/
def honest (lfd : ℕ) (c : State) : Act → Prop
  | .net _ => True
  | .loop x => c.loc = .wait → (x.reports.map EpollEvent.fd).Nodup ∧
      ∀ e ∈ x.reports, e.fd = lfd ∨ (c.net.file e.fd).isSome = true

/-- No `recv` fails, but for `EAGAIN`. -/
def receives (c : State) : Act → Prop
  | .net _ => True
  | .loop x => c.loc = .recv → isError (c.net.read (c.events c.n).fd x.count x.fail) = false

def orderly (lfd : ℕ) (c : State) (a : Act) : Prop := honest lfd c a ∧ receives c a

/-- **The descriptors of the events that come next are open.** -/
structure OpenInv (lfd : ℕ) (c : State) : Prop where
  stale : c.stale = []
  opened : c.loc ≠ .wait → ∀ j, c.i ≤ j → j < c.n →
    (c.events j).fd = lfd ∨ (c.net.file (c.events j).fd).isSome = true
  distinct : c.loc ≠ .wait → ∀ j k, j < c.n → k < c.n → (c.events j).fd = (c.events k).fd → j = k
  event : Busy c → c.now.event = c.events c.i ∧ c.i < c.n
  conn : Busy c → c.loc ≠ .accept → c.now.event.fd ≠ lfd
  noError : c.loc ≠ .recvError

/-- Within an event no descriptor is closed. -/
theorem OpenInv.within {c : State} (h : OpenInv lfd c) (hbusy : Busy c) {now : Handled} {loc : Loc}
    {net : Net Byte} (he : loc ≠ .recvError) (hev : now.event = c.now.event)
    (hconn : loc ≠ .accept → c.loc ≠ .accept)
    (hnet : ∀ fd, (c.net.file fd).isSome = true → (net.file fd).isSome = true) :
    OpenInv lfd { c with net := net, now := now, loc := loc } where
  stale := h.stale
  opened _ j hj hn := (h.opened hbusy.1 j hj hn).imp_right (hnet _)
  distinct _ := h.distinct hbusy.1
  event _ := by
    obtain ⟨h1, h2⟩ := h.event hbusy
    exact ⟨hev.trans h1, h2⟩
  conn _ hl := by
    show now.event.fd ≠ lfd
    rw [hev]
    exact h.conn hbusy (hconn hl)
  noError := he

/-- An event is finished, and its descriptor may have been closed. -/
theorem OpenInv.finish {c : State} (h : OpenInv lfd c) (hbusy : Busy c) {now : Handled} {net : Net Byte}
    {stale : List ℕ} (hstale : stale = [])
    (hnet : ∀ fd, fd ≠ c.now.event.fd → (c.net.file fd).isSome = true → (net.file fd).isSome = true) :
    OpenInv lfd (State.finish { c with net := net, now := now, stale := stale }) where
  stale := hstale
  opened _ j hj hn := by
    obtain ⟨hev, hi⟩ := h.event hbusy
    have hlt : c.i < j := hj
    refine (h.opened hbusy.1 j (Nat.le_of_lt hlt) hn).imp_right (hnet _ fun he => ?_)
    rw [hev] at he
    exact absurd (h.distinct hbusy.1 j c.i hn hi he) (Nat.ne_of_gt hlt)
  distinct _ := h.distinct hbusy.1
  event hb := absurd rfl hb.2
  conn hb := absurd rfl hb.2
  noError := nofun

theorem accept_isSome {k k' : Net Byte} {fd : ℕ} (h : k.accept lfd fd = some k') (fd' : ℕ)
    (hs : (k.file fd').isSome = true) : (k'.file fd').isSome = true := by
  obtain ⟨s, q, -, -, -, rfl⟩ := Net.accept_some h
  by_cases he : fd' = fd
  · subst he
    simp
  · simpa [he] using hs

theorem overwrite_lt {evs : List EpollEvent} (events : ℕ → EpollEvent) {j : ℕ} (hj : j < evs.length) :
    overwrite evs events j = evs[j] := by
  simp [overwrite, hj]

theorem OpenInv.step {c c' : State} {x : Input} (h : OpenInv lfd c) (hok : orderly lfd c (.loop x))
    (hs : LoopStep lfd x c c') : OpenInv lfd c' := by
  cases hs with
  | same => exact h
  | batch hl hle =>
    obtain ⟨hnodup, hopen⟩ := hok.1 hl
    refine ⟨h.stale, fun _ j _ hj => ?_, fun _ j k hj hk he => ?_, fun hb => absurd rfl hb.2,
      fun hb => absurd rfl hb.2, nofun⟩
    · simp only [overwrite_lt c.events hj]
      exact hopen _ (List.getElem_mem hj)
    · simp only [overwrite_lt c.events hj, overwrite_lt c.events hk] at he
      have hj' : j < (x.reports.map EpollEvent.fd).length := by simpa using hj
      refine (List.getElem?_inj hj' hnodup).mp ?_
      simpa [List.getElem?_eq_getElem hj, List.getElem?_eq_getElem hk] using he
  | event hl hi =>
    have hw : c.loc ≠ .wait := by rw [hl]; exact nofun
    refine ⟨h.stale, fun _ => h.opened hw, fun _ => h.distinct hw, fun _ => ⟨rfl, hi⟩, fun _ hacc hfd => ?_, ?_⟩
    · exact hacc (if_pos hfd)
    · show branch lfd (c.events c.i) ≠ .recvError
      unfold branch
      split_ifs <;> exact nofun
  | endBatch hl hi =>
    exact ⟨h.stale, fun hw => absurd rfl hw, fun hw => absurd rfl hw, fun hb => absurd rfl hb.1,
      fun hb => absurd rfl hb.1, nofun⟩
  | noAccept hl => exact h.finish (busy_of_loc hl nofun nofun) h.stale fun _ _ hs => hs
  | @accept k k' hl ha hk =>
    have hbusy := busy_of_loc hl nofun nofun
    refine h.within hbusy h.noError rfl id fun fd hs => ?_
    have hsome := accept_isSome ha fd hs
    rcases hk with rfl | rfl
    · exact hsome
    · rw [Net.register, Net.onFd_isSome]
      exact hsome
  | acceptLast hl ha =>
    exact h.finish (busy_of_loc hl nofun nofun) h.stale fun fd _ hs => accept_isSome ha fd hs
  | recvError hl hr =>
    have hno := hok.2 hl
    rw [hr] at hno
    cases hno
  | recvAgain hl | recvEof hl =>
    exact h.within (busy_of_loc hl nofun nofun) nofun rfl (fun _ => by rw [hl]; exact nofun) fun _ hs => hs
  | recvData hl hne =>
    refine h.within (busy_of_loc hl nofun nofun) ?_ rfl (fun _ => by rw [hl]; exact nofun) fun fd hs => ?_
    · split_ifs <;> exact nofun
    · rw [Net.taken, Net.onFd_isSome]
      exact hs
  | closeError hl => exact absurd hl h.noError
  | reply ret hl =>
    have hev : (if 0 < ret then c.now.send else c.now).event = c.now.event := by split_ifs <;> rfl
    exact h.within (busy_of_loc hl nofun nofun) nofun hev (fun _ => by rw [hl]; exact nofun) fun _ hs => hs
  | send hl =>
    exact h.within (busy_of_loc hl nofun nofun) nofun rfl (fun _ => by rw [hl]; exact nofun) fun _ hs => hs
  | close hl =>
    have hbusy := busy_of_loc hl nofun nofun
    have hconn := h.conn hbusy (by rw [hl]; exact nofun)
    obtain ⟨hev, hi⟩ := h.event hbusy
    have hsome : (c.net.file c.now.event.fd).isSome = true := by
      have ho := h.opened hbusy.1 c.i (Nat.le_refl _) hi
      rw [← hev] at ho
      exact ho.resolve_left hconn
    refine h.finish hbusy ?_ fun fd hne hs => ?_
    · rw [if_pos hsome]
      exact h.stale
    · simpa [Net.close, hconn, hne] using hs

/-- The test for `orderly`. -/
def orderlyTest (lfd : ℕ) (c : State) : Act → Bool
  | .net _ => true
  | .loop x => (decide (c.loc ≠ .wait) || (decide (x.reports.map EpollEvent.fd).Nodup &&
      x.reports.all fun e => decide (e.fd = lfd) || (c.net.file e.fd).isSome)) &&
      (decide (c.loc ≠ .recv) || !isError (c.net.read (c.events c.n).fd x.count x.fail))

theorem orderly_of_test (lfd : ℕ) (c : State) (a : Act) (h : orderlyTest lfd c a = true) : orderly lfd c a := by
  cases a with
  | net x => exact ⟨trivial, trivial⟩
  | loop x =>
    simp only [orderlyTest, Bool.and_eq_true, Bool.or_eq_true, decide_eq_true_eq, List.all_eq_true,
      Bool.not_eq_true'] at h
    obtain ⟨h1, h2⟩ := h
    exact ⟨fun hl => h1.resolve_left (not_not_intro hl), fun hl => h2.resolve_left (not_not_intro hl)⟩

end PoolStudy.EpollThreadpool.Closing
