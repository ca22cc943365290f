import PoolStudy.Lib.Custody
import PoolStudy.Workqueue.Jobs
import PoolStudy.EchoServer.Steps

/-! # The echo server: every connection has one owner

A connection is in the hands of the `on_accept` call in progress, waits as a job on `waiting_jobs`, or is in
the hands of the worker that runs its job (`workerHold`, `mainHold`). `Ledger` ties this to the descriptors:
an open descriptor belongs to a connection that is somewhere, and the one who has it knows its number
(`workerKnows`, `mainKnows`), so that it is closed once.

`workqueue_shutdown` forgets the jobs that wait. It leaks no connection exactly if there are none
(`one_owner_iff`). -/

namespace PoolStudy.EchoServer.Owners

open PoolStudy.Lib.Transition PoolStudy.Lib.Threads PoolStudy.Lib.Custody PoolStudy.Lib.Chain
open PoolStudy.EchoServer.Model PoolStudy.EchoServer.Steps
open PoolStudy.Workqueue.Model (Tid Call Worker workerCount)
open PoolStudy.Workqueue.Jobs (Waiting shutting callStep_shutting nextOf)

variable {n : ℕ}

/-! ### Who has what -/

/-- The connection a call of the work queue has in hand: its job is not on the list yet. -/
def callHold : Call n ℕ → Option ℕ
  | .addLock j | .addIn j => some j
  | _ => none

/-- The connection the main thread has in hand. -/
def mainHold : Main n → Option ℕ
  | .setnonblock j _ | .close j _ | .mallocClient j _ | .evbufferNew j | .eventBaseNew j | .buffereventNew j
  | .mallocJob j | .closeClient j | .freeClient j => some j
  | .addJob c | .shutdown c => callHold c
  | .loop | .returned | .idle => none

/-- The connection a worker has in hand, from the removal of its job on. -/
def workerHold : Pos n → Option ℕ
  | .pool (.unlock (some j)) | .pool (.run j _) | .dispatch j | .closeClient j | .freeClient j => some j
  | .pool _ | .freeJob _ => none

/-- The connection each thread has in hand. -/
def holds (c : State n) : Tid n → Option ℕ := c.view workerHold mainHold

/-- The client's descriptor is open and the connection's. -/
def Open (m : Mem n) (j : ℕ) : Prop := m.fds (m.client j).fd = some j

/-- The connection has been closed, and its client says so. -/
def Shut (m : Mem n) (j : ℕ) : Prop := (m.client j).fd = -1 ∧ ∀ fd, m.fds fd ≠ some j

/-- What a call knows of the connection it has in hand. -/
def callKnows (m : Mem n) (c : Call n ℕ) : Prop := ∀ j, callHold c = some j → Open m j

/-- What the main thread knows of the connection it has in hand. -/
def mainKnows (m : Mem n) : Main n → Prop
  | .setnonblock j fd | .close j fd | .mallocClient j fd => m.fds fd = some j
  | .evbufferNew j | .eventBaseNew j | .buffereventNew j | .mallocJob j | .closeClient j => Open m j
  | .freeClient j => Shut m j
  | .addJob c => callKnows m c ∧ ¬ shutting c
  | .shutdown c => callHold c = none
  | .loop | .returned | .idle => True

/-- What a worker knows of the connection it has in hand. -/
def workerKnows (m : Mem n) : Pos n → Prop
  | .pool (.unlock (some j)) | .pool (.run j _) => Open m j
  | .dispatch j | .closeClient j => Open m j ∨ Shut m j
  | .freeClient j => Shut m j
  | .pool _ | .freeJob _ => True

/-! ### What is known stays -/

/-- Nothing has changed for the connection `j`. -/
structure SameFor (j : ℕ) (m m' : Mem n) : Prop where
  client : m'.client j = m.client j
  fds : ∀ fd, m'.fds fd = some j ↔ m.fds fd = some j

theorem SameFor.open {j : ℕ} {m m' : Mem n} (hs : SameFor j m m') : Open m' j ↔ Open m j := by
  rw [Open, Open, hs.client, hs.fds]

theorem SameFor.shut {j : ℕ} {m m' : Mem n} (hs : SameFor j m m') : Shut m' j ↔ Shut m j := by
  simp only [Shut, hs.client, ne_eq, hs.fds]

theorem callKnows_same {m m' : Mem n} {c : Call n ℕ} (h : callKnows m c)
    (hs : ∀ j, callHold c = some j → SameFor j m m') : callKnows m' c := fun j hj =>
  (hs j hj).open.mpr (h j hj)

theorem mainKnows_same {m m' : Mem n} {p : Main n} (h : mainKnows m p)
    (hs : ∀ j, mainHold p = some j → SameFor j m m') : mainKnows m' p := by
  cases p with
  | setnonblock j fd | close j fd | mallocClient j fd => exact ((hs j rfl).fds fd).mpr h
  | evbufferNew j | eventBaseNew j | buffereventNew j | mallocJob j | closeClient j =>
    exact (hs j rfl).open.mpr h
  | freeClient j => exact (hs j rfl).shut.mpr h
  | addJob c => exact ⟨callKnows_same h.1 hs, h.2⟩
  | shutdown c => exact h
  | loop | returned | idle => trivial

theorem workerKnows_same {m m' : Mem n} {p : Pos n} (h : workerKnows m p)
    (hs : ∀ j, workerHold p = some j → SameFor j m m') : workerKnows m' p := by
  cases p with
  | pool w =>
    cases w with
    | unlock job =>
      cases job with
      | none => trivial
      | some j => exact (hs j rfl).open.mpr h
    | run j c => exact (hs j rfl).open.mpr h
    | _ => trivial
  | dispatch j | closeClient j => exact h.imp (hs j rfl).open.mpr (hs j rfl).shut.mpr
  | freeClient j => exact (hs j rfl).shut.mpr h
  | freeJob j => trivial

/-! ### The ledger -/

/-- **The ledger** of the connections accepted: where they are and which descriptors are open. -/
structure Ledger (m : Mem n) (hold : Tid n → Option ℕ) (q : List ℕ) : Prop where
  sole : Sole hold q
  old : ∀ o j, Keeps hold q o j → j < m.accepted
  kept : ∀ fd j, m.fds fd = some j → 0 ≤ fd ∧ j < m.accepted ∧ ∃ o, Keeps hold q o j
  own : ∀ fd fd' j, m.fds fd = some j → m.fds fd' = some j → fd = fd'
  queued : ∀ j ∈ q, Open m j
  once : m.closed.Nodup
  closed : ∀ j, j ∈ m.closed ↔ j < m.accepted ∧ ∀ fd, m.fds fd ≠ some j
  right : m.wrongCloses = 0

/-- The descriptors and the history are the same. -/
structure SameTable (m m' : Mem n) : Prop where
  accepted : m'.accepted = m.accepted
  fds : m'.fds = m.fds
  closed : m'.closed = m.closed
  wrongCloses : m'.wrongCloses = m.wrongCloses

section Ledger

variable {m m' : Mem n} {hold : Tid n → Option ℕ} {q : List ℕ} {t : Tid n} {j : ℕ} {fd : ℤ}

theorem Ledger.same (h : Ledger m hold q) (hs : SameTable m m') (hc : ∀ j ∈ q, m'.client j = m.client j) :
    Ledger m' hold q := by
  obtain ⟨ha, hf, hcl, hw⟩ := hs
  refine ⟨h.sole, ?_, ?_, ?_, fun j hj => ?_, ?_, ?_, ?_⟩
  · rw [ha]; exact h.old
  · rw [hf, ha]; exact h.kept
  · rw [hf]; exact h.own
  · rw [Open, hf, hc j hj]
    exact h.queued j hj
  · rw [hcl]; exact h.once
  · rw [hcl, ha, hf]; exact h.closed
  · rw [hw]; exact h.right

/-- A connection is accepted by a thread with nothing in hand. -/
theorem Ledger.accept (h : Ledger m hold q) (ht : hold t = none) (h0 : 0 ≤ fd) (hfd : m.fds fd = none) :
    Ledger (accepted m fd) (Function.update hold t (some m.accepted)) q := by
  have hnew : ∀ o, ¬ Keeps hold q o m.accepted := fun o ho => lt_irrefl _ (h.old o _ ho)
  have hfds : ∀ fd' j, (accepted m fd).fds fd' = some j ↔
      (fd' = fd ∧ j = m.accepted) ∨ (fd' ≠ fd ∧ m.fds fd' = some j) := by
    intro fd' j
    by_cases hf : fd' = fd
    · simp [accepted, hf, eq_comm]
    · simp [accepted, hf]
  refine ⟨h.sole.give hnew, fun o j ho => ?_, fun fd' j hj => ?_, fun fd1 fd2 j h1 h2 => ?_, fun j hj => ?_,
    h.once, fun j => ?_, h.right⟩
  · show j < m.accepted + 1
    rcases o with - | t'
    · exact (h.old none j ho).trans (Nat.lt_succ_self _)
    · by_cases ht' : t' = t
      · obtain rfl : m.accepted = j := by simpa [Keeps, ht'] using ho
        exact Nat.lt_succ_self _
      · have hk : Keeps hold q (some t') j := by simpa [Keeps, ht'] using ho
        exact (h.old _ j hk).trans (Nat.lt_succ_self _)
  · show 0 ≤ fd' ∧ j < m.accepted + 1 ∧ _
    rcases (hfds fd' j).mp hj with ⟨rfl, rfl⟩ | ⟨-, hj⟩
    · exact ⟨h0, Nat.lt_succ_self _, some t, Function.update_self ..⟩
    · obtain ⟨hpos, hlt, o, ho⟩ := h.kept fd' j hj
      exact ⟨hpos, hlt.trans (Nat.lt_succ_self _), o, ho.give ht⟩
  · rcases (hfds fd1 j).mp h1 with ⟨hf1, hj1⟩ | ⟨-, hj1⟩ <;> rcases (hfds fd2 j).mp h2 with ⟨hf2, hj2⟩ | ⟨-, hj2⟩
    · rw [hf1, hf2]
    · exact absurd (h.kept fd2 j hj2).2.1 (hj1 ▸ lt_irrefl _)
    · exact absurd (h.kept fd1 j hj1).2.1 (hj2 ▸ lt_irrefl _)
    · exact h.own fd1 fd2 j hj1 hj2
  · have hopen := h.queued j hj
    have hne : (m.client j).fd ≠ fd := by
      intro he
      rw [Open, he, hfd] at hopen
      cases hopen
    exact (hfds _ j).mpr (Or.inr ⟨hne, hopen⟩)
  · show j ∈ m.closed ↔ j < m.accepted + 1 ∧ _
    rw [h.closed j]
    constructor
    · rintro ⟨hlt, hno⟩
      refine ⟨hlt.trans (Nat.lt_succ_self _), fun fd' hj => ?_⟩
      rcases (hfds fd' j).mp hj with ⟨-, rfl⟩ | ⟨-, hj⟩
      · exact lt_irrefl _ hlt
      · exact hno fd' hj
    · rintro ⟨hlt, hno⟩
      have hne : j ≠ m.accepted := fun he => hno fd ((hfds fd j).mpr (Or.inl ⟨rfl, he⟩))
      refine ⟨lt_of_le_of_ne (Nat.lt_succ_iff.mp hlt) hne, fun fd' hj => hno fd' ((hfds fd' j).mpr (Or.inr ⟨?_, hj⟩))⟩
      rintro rfl
      rw [hfd] at hj
      cases hj

/-- The one who has a connection in hand closes it. -/
theorem Ledger.close (h : Ledger m hold q) (ht : hold t = some j) (hfd : m.fds fd = some j) :
    Ledger (m.close j fd) hold q := by
  have hfds : ∀ fd' j', (m.close j fd).fds fd' = some j' ↔ j' ≠ j ∧ m.fds fd' = some j' := by
    intro fd' j'
    simp only [Mem.close, hfd, if_true]
    by_cases hf : fd' = fd
    · simp only [hf, Function.update_self, hfd, Option.some.injEq, reduceCtorEq, false_iff, not_and]
      exact fun hne he => hne he.symm
    · rw [Function.update_of_ne hf]
      refine ⟨fun hj => ⟨fun he => hf ?_, hj⟩, fun hj => hj.2⟩
      rw [he] at hj
      exact h.own fd' fd j hj hfd
  have hclosed : (m.close j fd).closed = m.closed ++ [j] := by simp only [Mem.close, hfd, if_true]
  have haccepted : (m.close j fd).accepted = m.accepted := by simp only [Mem.close, hfd, if_true]
  have hclient : (m.close j fd).client = m.client := by simp only [Mem.close, hfd, if_true]
  have hnot : j ∉ m.closed := fun hin => ((h.closed j).mp hin).2 fd hfd
  refine ⟨h.sole, ?_, fun fd' j' hj => ?_, fun fd1 fd2 j' h1 h2 => ?_, fun j' hj => ?_, ?_, fun j' => ?_, ?_⟩
  · rw [haccepted]; exact h.old
  · rw [haccepted]; exact h.kept fd' j' ((hfds fd' j').mp hj).2
  · exact h.own fd1 fd2 j' ((hfds fd1 j').mp h1).2 ((hfds fd2 j').mp h2).2
  · rw [Open, hclient]
    refine (hfds _ j').mpr ⟨?_, h.queued j' hj⟩
    rintro rfl
    exact h.sole.apart ht hj
  · rw [hclosed]
    exact List.nodup_append.mpr ⟨h.once, List.nodup_singleton j, fun a ha b hb hab => by
      rw [List.mem_singleton] at hb
      exact hnot (hb ▸ hab ▸ ha)⟩
  · rw [hclosed, haccepted, List.mem_append, List.mem_singleton, h.closed j']
    constructor
    · rintro (⟨hlt, hno⟩ | rfl)
      · exact ⟨hlt, fun fd' hj => hno fd' ((hfds fd' j').mp hj).2⟩
      · exact ⟨h.old (some t) j' ht, fun fd' hj => ((hfds fd' j').mp hj).1 rfl⟩
    · rintro ⟨hlt, hno⟩
      by_cases hj : j' = j
      · exact Or.inr hj
      · exact Or.inl ⟨hlt, fun fd' hj' => hno fd' ((hfds fd' j').mpr ⟨hj, hj'⟩)⟩
  · simp only [Mem.close, hfd, if_true]
    exact h.right

/-- The one who has a closed connection in hand drops it. -/
theorem Ledger.drop (h : Ledger m hold q) (ht : hold t = some j) (hno : ∀ fd, m.fds fd ≠ some j) :
    Ledger m (Function.update hold t none) q := by
  refine ⟨h.sole.drop, fun o j' ho => ?_, fun fd j' hj => ?_, h.own, h.queued, h.once, h.closed, h.right⟩
  · rcases o with - | t'
    · exact h.old none j' ho
    · by_cases ht' : t' = t
      · simp [Keeps, ht'] at ho
      · exact h.old (some t') j' (by simpa [Keeps, ht'] using ho)
  · obtain ⟨h0, hlt, o, ho⟩ := h.kept fd j' hj
    refine ⟨h0, hlt, o, ho.drop fun he => ?_⟩
    obtain rfl := Option.some.inj (ht.symm.trans he)
    exact hno fd hj

/-- The connection goes from a hand to the list. -/
theorem Ledger.push (h : Ledger m hold q) (ht : hold t = some j) (hj : Open m j) :
    Ledger m (Function.update hold t none) (j :: q) := by
  refine ⟨h.sole.push ht, fun o j' ho => ?_, fun fd j' hj' => ?_, h.own, fun j' hj' => ?_, h.once, h.closed, h.right⟩
  · rcases o with - | t'
    · rcases List.mem_cons.mp ho with rfl | ho
      · exact h.old (some t) j' ht
      · exact h.old none j' ho
    · by_cases ht' : t' = t
      · simp [Keeps, ht'] at ho
      · exact h.old (some t') j' (by simpa [Keeps, ht'] using ho)
  · obtain ⟨h0, hlt, o, ho⟩ := h.kept fd j' hj'
    exact ⟨h0, hlt, ho.push ht⟩
  · rcases List.mem_cons.mp hj' with rfl | hj'
    · exact hj
    · exact h.queued j' hj'

/-- The connection goes from the list to a hand. -/
theorem Ledger.pop (h : Ledger m hold (j :: q)) (ht : hold t = none) :
    Ledger m (Function.update hold t (some j)) q := by
  refine ⟨h.sole.pop, fun o j' ho => ?_, fun fd j' hj' => ?_, h.own,
    fun j' hj' => h.queued j' (List.mem_cons_of_mem j hj'), h.once, h.closed, h.right⟩
  · rcases o with - | t'
    · exact h.old none j' (List.mem_cons_of_mem j ho)
    · by_cases ht' : t' = t
      · obtain rfl : j = j' := by simpa [Keeps, ht'] using ho
        exact h.old none j List.mem_cons_self
      · exact h.old (some t') j' (by simpa [Keeps, ht'] using ho)
  · obtain ⟨h0, hlt, o, ho⟩ := h.kept fd j' hj'
    exact ⟨h0, hlt, ho.pop ht⟩

end Ledger

/-! ### Closing -/

section Closing

variable {m : Mem n} {hold : Tid n → Option ℕ} {q : List ℕ} {t : Tid n} {j j' : ℕ} {fd : ℤ}

/-- The other connections are not touched. -/
theorem close_same (hfd : m.fds fd = some j) (hj : j' ≠ j) : SameFor j' m (m.close j fd) := by
  simp only [Mem.close, hfd, if_true]
  refine ⟨rfl, fun fd' => ?_⟩
  by_cases hf : fd' = fd
  · simp [hf, hfd, Ne.symm hj]
  · simp [hf]

theorem setClient_same (r : Client) (hj : j' ≠ j) : SameFor j' m (m.setClient j r) :=
  ⟨Function.update_of_ne hj _ _, fun _ => Iff.rfl⟩

theorem SameFor.trans {m1 m2 m3 : Mem n} (h1 : SameFor j m1 m2) (h2 : SameFor j m2 m3) : SameFor j m1 m3 :=
  ⟨h2.client.trans h1.client, fun fd => (h2.fds fd).trans (h1.fds fd)⟩

theorem SameFor.refl (j : ℕ) (m : Mem n) : SameFor j m m := ⟨rfl, fun _ => Iff.rfl⟩

/-- Writing to the client of a connection in hand. -/
theorem Ledger.setClient (h : Ledger m hold q) (ht : hold t = some j) (r : Client) :
    Ledger (m.setClient j r) hold q := by
  refine h.same ⟨rfl, rfl, rfl, rfl⟩ fun j' hj' => Function.update_of_ne ?_ _ _
  rintro rfl
  exact h.sole.apart ht hj'

theorem closeClient_open (h : Ledger m hold q) (hj : Open m j) :
    closeClient m j = (m.close j (m.client j).fd).setClient j { m.client j with fd := -1 } := by
  have h0 : (m.client j).fd ≥ 0 := (h.kept _ j hj).1
  simp only [closeClient, h0, if_true]

theorem closeClient_shut (hj : Shut m j) : closeClient m j = m := by
  simp [closeClient, hj.1]

theorem close_shut (h : Ledger m hold q) (hfd : m.fds fd = some j) (fd' : ℤ) : (m.close j fd).fds fd' ≠ some j := by
  simp only [Mem.close, hfd, if_true]
  by_cases hf : fd' = fd
  · simp [hf]
  · rw [Function.update_of_ne hf]
    exact fun hj => hf (h.own fd' fd j hj hfd)

/-- **`closeClient`** by the one who has the connection in hand: it is closed if it was not yet. -/
theorem Ledger.closeClient (h : Ledger m hold q) (ht : hold t = some j) (hj : Open m j ∨ Shut m j) :
    Ledger (closeClient m j) hold q ∧ Shut (closeClient m j) j ∧
      (∀ j', j' ≠ j → SameFor j' m (closeClient m j)) := by
  rcases hj with hj | hj
  · rw [closeClient_open h hj]
    exact ⟨(h.close ht hj).setClient ht _, ⟨by simp [Mem.setClient], close_shut h hj⟩, fun j' hj' =>
      (close_same hj hj').trans (setClient_same _ hj')⟩
  · rw [closeClient_shut hj]
    exact ⟨h, hj, fun j' _ => SameFor.refl j' m⟩

end Closing

/-! ### Steps -/

/-- **A step of the thread `t`** that has `h'` in hand afterwards keeps the ledger and touches no other
connection. -/
structure Kept (m m' : Mem n) (hold : Tid n → Option ℕ) (t : Tid n) (h' : Option ℕ) : Prop where
  ledger : ∃ q', Waiting m'.workqueue.queue.waitingJobs q' ∧ Ledger m' (Function.update hold t h') q'
  frame : ∀ j, j < m.accepted → hold t ≠ some j → SameFor j m m'

/-- **No job waits when `workqueue_shutdown` clears the list.** -/
def noneWaits (c : State n) (a : Tid n × Input n) : Prop :=
  ∀ k, a.1 = .inr k → c.client k = .shutdown .shutIn → c.mem.workqueue.queue.waitingJobs.list = none

section Steps

variable {m m' : Mem n} {hold : Tid n → Option ℕ} {q : List ℕ} {t : Tid n}

/-- A step that touches neither the list nor the descriptors nor what is in hand. -/
theorem Kept.quiet {h' : Option ℕ} (h : Ledger m hold q) (hq : Waiting m.workqueue.queue.waitingJobs q)
    (hw : m'.workqueue.queue.waitingJobs = m.workqueue.queue.waitingJobs) (hs : SameTable m m')
    (hc : m'.client = m.client) (ht : h' = hold t) : Kept m m' hold t h' := by
  refine ⟨⟨q, by rw [hw]; exact hq, ?_⟩, fun j _ _ => ⟨by rw [hc], fun fd => by rw [hs.fds]⟩⟩
  rw [ht, Function.update_eq_self]
  exact h.same hs fun j _ => by rw [hc]

/-- A step that writes to the client of the connection in hand. -/
theorem Kept.setClient {j : ℕ} (h : Ledger m hold q) (hq : Waiting m.workqueue.queue.waitingJobs q)
    (ht : hold t = some j) (r : Client) : Kept m (m.setClient j r) hold t (some j) := by
  refine ⟨⟨q, hq, ?_⟩, fun j' _ hj' => setClient_same r fun he => hj' (he ▸ ht)⟩
  rw [← ht, Function.update_eq_self]
  exact h.setClient ht r

theorem closeClient_workqueue (m : Mem n) (j : ℕ) : (closeClient m j).workqueue = m.workqueue := by
  unfold closeClient Mem.close Mem.setClient
  split_ifs <;> rfl

/-- `closeClient` of the connection in hand. -/
theorem Kept.closeClient {j : ℕ} (h : Ledger m hold q) (hq : Waiting m.workqueue.queue.waitingJobs q)
    (ht : hold t = some j) (hj : Open m j ∨ Shut m j) :
    Kept m (closeClient m j) hold t (some j) ∧ Shut (closeClient m j) j := by
  obtain ⟨hl, hshut, hframe⟩ := h.closeClient ht hj
  refine ⟨⟨⟨q, by rw [closeClient_workqueue]; exact hq, ?_⟩, fun j' _ hj' => hframe j' fun he => hj' (he ▸ ht)⟩,
    hshut⟩
  rw [← ht, Function.update_eq_self]
  exact hl

/-- The rest of `closeAndFreeClient`: the connection is dropped. -/
theorem Kept.freeClient {j : ℕ} (h : Ledger m hold q) (hq : Waiting m.workqueue.queue.waitingJobs q)
    (ht : hold t = some j) (hj : Shut m j) : Kept m (freeClient m j) hold t none :=
  ⟨⟨q, hq, (h.setClient ht _).drop ht hj.2⟩, fun _ _ hj' => setClient_same _ fun he => hj' (he ▸ ht)⟩

theorem callHold_atWorker (p : Option (Fin n)) : callHold (Workqueue.Model.atWorker (n := n) p) = none := by
  cases p <;> rfl

/-- A call of `workqueue_shutdown` has nothing in hand. -/
theorem callStep_hold {self : Tid n} {W : Finset (Fin n)} {w w' : Workqueue.Model.Mem n ℕ} {c c' : Call n ℕ}
    (hs : Workqueue.Steps.CallStep self { wake := W } w c w' c') (hc : callHold c = none) :
    callHold c' = none := by
  cases hs with
  | callAdd hx => cases hx
  | head | next v hv => exact callHold_atWorker _
  | addLock j hl => cases hc
  | _ => rfl

theorem callStep_kept {self : Tid n} {W : Finset (Fin n)} {w : Workqueue.Model.Mem n ℕ} {c c' : Call n ℕ}
    (hs : Workqueue.Steps.CallStep self { wake := W } m.workqueue c w c') (h : Ledger m hold q)
    (hq : Waiting m.workqueue.queue.waitingJobs q) (ht : hold t = callHold c) (hk : callKnows m c)
    (hshut : c = .shutIn → m.workqueue.queue.waitingJobs.list = none) :
    Kept m (withQueue m w) hold t (callHold c') ∧ callKnows (withQueue m w) c' := by
  cases hs with
  | callAdd hx => cases hx
  | callShutdown hx => cases hx
  | addLock j hl => exact ⟨.quiet h hq rfl ⟨rfl, rfl, rfl, rfl⟩ rfl ht.symm, hk⟩
  | addIn j hw =>
    have hnot : j ∉ q := h.sole.apart ht
    refine ⟨⟨⟨j :: q, hq.add hnot, ?_⟩, fun _ _ _ => ⟨rfl, fun _ => Iff.rfl⟩⟩, fun _ hj' => by cases hj'⟩
    exact (h.push ht (hk j rfl)).same ⟨rfl, rfl, rfl, rfl⟩ fun _ _ => rfl
  | shutIn =>
    have hnone := hshut rfl
    refine ⟨.quiet h hq ?_ ⟨rfl, rfl, rfl, rfl⟩ rfl ht.symm, fun j' hj' => by cases hj'⟩
    show { m.workqueue.queue.waitingJobs with list := none } = m.workqueue.queue.waitingJobs
    rw [← hnone]
  | head | next v hv =>
    refine ⟨.quiet h hq rfl ⟨rfl, rfl, rfl, rfl⟩ rfl ((callHold_atWorker _).trans ht.symm), fun _ hj' => ?_⟩
    cases (callHold_atWorker _).symm.trans hj'
  | _ => exact ⟨.quiet h hq rfl ⟨rfl, rfl, rfl, rfl⟩ rfl ht.symm, fun j' hj' => by cases hj'⟩

/-- The call returns to a place where nothing is in hand. -/
theorem mainHold_ite (c : Call n ℕ) {p : Main n} {f : Call n ℕ → Main n} (hp : mainHold p = none)
    (hf : mainHold (f c) = callHold c) : mainHold (if c = .outside then p else f c) = callHold c := by
  split_ifs with hc
  · rw [hp, hc]
    rfl
  · exact hf

theorem mainKnows_ite {c : Call n ℕ} {p : Main n} {f : Call n ℕ → Main n} (hp : mainKnows m p)
    (hf : mainKnows m (f c)) : mainKnows m (if c = .outside then p else f c) := by
  split_ifs
  · exact hp
  · exact hf

theorem mainStep_kept {k : ℕ} {x : Input n} {p p' : Main n} (hs : MainStep k x m p m' p') (h : Ledger m hold q)
    (hq : Waiting m.workqueue.queue.waitingJobs q) (ht : hold t = mainHold p) (hk : mainKnows m p)
    (hshut : p = .shutdown .shutIn → m.workqueue.queue.waitingJobs.list = none) :
    Kept m m' hold t (mainHold p') ∧ mainKnows m' p' := by
  cases hs with
  | accept fd h0 hfd =>
    refine ⟨⟨⟨q, hq, h.accept ht h0 hfd⟩, fun j hj _ => ⟨rfl, fun fd' => ?_⟩⟩, by simp [mainKnows, accepted]⟩
    by_cases hf : fd' = fd
    · simp [accepted, hf, hfd, hj.ne']
    · simp [accepted, hf]
  | acceptFailed | exit => exact ⟨.quiet h hq rfl ⟨rfl, rfl, rfl, rfl⟩ rfl ht.symm, trivial⟩
  | setnonblock j fd | nonblockFailed j fd | mallocFailed j fd =>
    exact ⟨.quiet h hq rfl ⟨rfl, rfl, rfl, rfl⟩ rfl ht.symm, hk⟩
  | close j fd =>
    have hfd : m.fds fd = some j := hk
    refine ⟨⟨⟨q, ?_, (h.close ht hfd).drop ht (close_shut h hfd)⟩, fun j' _ hj' => close_same hfd fun he =>
      hj' (he ▸ ht)⟩, trivial⟩
    simp only [Mem.close, hfd, if_true]
    exact hq
  | mallocClient j fd =>
    refine ⟨.setClient h hq ht _, ?_⟩
    have hfd : m.fds fd = some j := hk
    simpa [mainKnows, Open, Mem.setClient] using hfd
  | stage j hst =>
    cases hst with
    | mallocJob =>
      refine ⟨.quiet h hq rfl ⟨rfl, rfl, rfl, rfl⟩ rfl ht.symm, fun j' hj' => ?_, id⟩
      obtain rfl := Option.some.inj hj'
      exact hk
    | _ =>
      refine ⟨.setClient h hq ht _, ?_⟩
      have hj : m.fds (m.client j).fd = some j := hk
      simpa [mainKnows, Open, Mem.setClient] using hj
  | stageFailed j hst =>
    cases hst <;> exact ⟨.quiet h hq rfl ⟨rfl, rfl, rfl, rfl⟩ rfl ht.symm, hk⟩
  | addJob hc =>
    obtain ⟨hkept, hknows⟩ := callStep_kept hc h hq ht hk.1 fun he => absurd (by rw [he]; trivial) hk.2
    refine ⟨?_, mainKnows_ite trivial ⟨hknows, callStep_shutting hc hk.2 (by simp)⟩⟩
    rw [mainHold_ite _ rfl rfl]
    exact hkept
  | closeClient j =>
    obtain ⟨hkept, hj⟩ := Kept.closeClient h hq ht (Or.inl hk)
    exact ⟨hkept, hj⟩
  | freeClient j => exact ⟨.freeClient h hq ht hk, trivial⟩
  | kill => exact ⟨.quiet h hq rfl ⟨rfl, rfl, rfl, rfl⟩ rfl ht.symm, rfl⟩
  | shutdown hc =>
    obtain ⟨hkept, -⟩ := callStep_kept hc h hq ht (fun j hj => by cases hj.symm.trans hk) fun he => hshut (by rw [he])
    refine ⟨?_, mainKnows_ite trivial (callStep_hold hc hk)⟩
    rw [mainHold_ite _ rfl rfl]
    exact hkept

theorem workerStep_kept {i : Fin n} {x : Input n} {p p' : Pos n} (hs : WorkerStep i x m p m' p')
    (h : Ledger m hold q) (hq : Waiting m.workqueue.queue.waitingJobs q) (ht : hold t = workerHold p)
    (hk : workerKnows m p) : Kept m m' hold t (workerHold p') ∧ workerKnows m' p' := by
  cases hs with
  | run j c => exact ⟨.quiet h hq rfl ⟨rfl, rfl, rfl, rfl⟩ rfl ht.symm, Or.inl hk⟩
  | pool hw hs =>
    cases hs with
    | take hl =>
      obtain ⟨q', rfl, hq'⟩ := hq.remove hl h.sole.nodup
      refine ⟨⟨⟨q', hq', ?_⟩, fun _ _ _ => ⟨rfl, fun _ => Iff.rfl⟩⟩, h.queued _ List.mem_cons_self⟩
      exact (h.pop ht).same ⟨rfl, rfl, rfl, rfl⟩ fun _ _ => rfl
    | unlockRun j => exact ⟨.quiet h hq rfl ⟨rfl, rfl, rfl, rfl⟩ rfl ht.symm, hk⟩
    | finish j hx => exact absurd rfl (hw j .outside)
    | call j hc => exact absurd rfl (hw j _)
    | _ => exact ⟨.quiet h hq rfl ⟨rfl, rfl, rfl, rfl⟩ rfl ht.symm, trivial⟩
  | quiet j | exit j => exact ⟨.quiet h hq rfl ⟨rfl, rfl, rfl, rfl⟩ rfl ht.symm, hk⟩
  | error j =>
    obtain ⟨hkept, hj⟩ := Kept.closeClient h hq ht hk
    exact ⟨hkept, Or.inr hj⟩
  | closeClient j =>
    obtain ⟨hkept, hj⟩ := Kept.closeClient h hq ht hk
    exact ⟨hkept, hj⟩
  | freeClient j => exact ⟨.freeClient h hq ht hk, trivial⟩
  | freeJob j => exact ⟨.quiet h hq rfl ⟨rfl, rfl, rfl, rfl⟩ rfl ht.symm, trivial⟩

end Steps

/-! ### Runs -/

/-- Where the threads that call `killServer` are. -/
def killer : Main n → Prop
  | .idle | .shutdown _ => True
  | _ => False

theorem mainStep_killer {k : ℕ} {x : Input n} {m m' : Mem n} {p p' : Main n} (hs : MainStep k x m p m' p')
    (h : killer p) : killer p' := by
  cases hs with
  | kill => trivial
  | shutdown hc => split_ifs <;> trivial
  | stage j hst | stageFailed j hst => cases hst <;> exact h.elim
  | _ => exact h.elim

/-- **The invariant.** -/
structure Inv (c : State n) : Prop where
  killers : ∀ k, k ≠ 0 → killer (c.client k)
  ledger : ∃ q, Waiting c.mem.workqueue.queue.waitingJobs q ∧ Ledger c.mem (holds c) q
  worker : ∀ i, workerKnows c.mem (c.worker i)
  client : ∀ k, mainKnows c.mem (c.client k)

theorem Inv.moveWorker {c : State n} {i : Fin n} {x : Input n} {r : Mem n × Pos n} (h : Inv c)
    (hs : WorkerStep i x c.mem (c.worker i) r.1 r.2) : Inv (c.moveWorker i r) := by
  obtain ⟨q, hq, hl⟩ := h.ledger
  obtain ⟨hkept, hk⟩ := workerStep_kept (t := .inl i) hs hl hq rfl (h.worker i)
  -- what another thread has in hand is not in the hand of the worker
  have hframe : ∀ t j, t ≠ .inl i → holds c t = some j → SameFor j c.mem r.1 := fun t j ht hj =>
    hkept.frame j (hl.old (some t) j hj) fun hi => ht (hl.sole.inj hj hi)
  refine ⟨h.killers, ?_,
    fun i' => forall_moveWorker (P := fun _ => workerKnows r.1) hk (fun i' hi' => ?_) i', fun k => ?_⟩
  · rw [holds, view_moveWorker]
    exact hkept.ledger
  · exact workerKnows_same (h.worker i') fun j hj => hframe (.inl i') j (by simpa using hi') hj
  · exact mainKnows_same (h.client k) fun j hj => hframe (.inr k) j (by simp) hj

theorem Inv.moveClient {c : State n} {k : ℕ} {x : Input n} {r : Mem n × Main n} (h : Inv c)
    (hok : noneWaits c (.inr k, x)) (hs : MainStep k x c.mem (c.client k) r.1 r.2) : Inv (c.moveClient k r) := by
  obtain ⟨q, hq, hl⟩ := h.ledger
  obtain ⟨hkept, hk⟩ := mainStep_kept (t := .inr k) hs hl hq rfl (h.client k) (hok k rfl)
  have hframe : ∀ t j, t ≠ .inr k → holds c t = some j → SameFor j c.mem r.1 := fun t j ht hj =>
    hkept.frame j (hl.old (some t) j hj) fun hi => ht (hl.sole.inj hj hi)
  refine ⟨fun k' hk' => ?_, ?_, fun i => ?_,
    fun k' => forall_moveClient (P := fun _ => mainKnows r.1) hk (fun k' hk' => ?_) k'⟩
  · rcases moveClient_cases c k r k' with ⟨rfl, he⟩ | ⟨-, he⟩
    · rw [he]
      exact mainStep_killer hs (h.killers k' hk')
    · rw [he]
      exact h.killers k' hk'
  · rw [holds, view_moveClient]
    exact hkept.ledger
  · exact workerKnows_same (h.worker i) fun j hj => hframe (.inl i) j (by simp) hj
  · exact mainKnows_same (h.client k') fun j hj => hframe (.inr k') j (by simpa using hk') hj

theorem inv_init (links : ℕ → Workqueue.Model.Links ℕ) (client : ℕ → Client) :
    Inv (n := n) ⟨serverInit n links client, fun _ => .pool .lock, fun k => if k = 0 then .loop else .idle⟩ := by
  have hnone : ∀ k : ℕ, mainHold (n := n) (if k = 0 then .loop else .idle) = none := by
    intro k
    split_ifs <;> rfl
  have hno : ∀ o j, ¬ Keeps (holds (n := n) ⟨serverInit n links client, fun _ => .pool .lock,
      fun k => if k = 0 then .loop else .idle⟩) [] o j := by
    rintro (- | i | k) j hj
    · cases hj
    · cases hj
    · exact absurd ((hnone k).symm.trans hj) (by simp)
  refine ⟨fun k hk => ?_, ⟨[], ⟨rfl, fun j hj => by cases hj⟩, ?_⟩, fun _ => trivial, fun k => ?_⟩
  · show killer (if k = 0 then .loop else .idle)
    rw [if_neg hk]
    trivial
  · refine ⟨⟨List.nodup_nil, fun {t _ j} hj => absurd hj (hno (some t) j), fun _ => List.not_mem_nil⟩,
      fun o j hj => absurd hj (hno o j), fun _ _ hj => ?_, fun _ _ _ hj => ?_, fun _ hj => ?_,
      List.nodup_nil, fun j => ?_, rfl⟩
    · cases hj
    · cases hj
    · cases hj
    · simp [serverInit]
  · show mainKnows _ (if k = 0 then .loop else .idle)
    split_ifs <;> trivial

theorem inv_reach {c : State n} (h : Reach (echoServer n).lts noneWaits c) : Inv c := by
  refine Program.invariant (I := Inv) ?_ ?_ ?_ h
  · rintro _ ⟨links, client, rfl⟩
    exact inv_init links client
  · intro c i x r _ hi _ hs
    exact hi.moveWorker (workerStep_cases hs)
  · intro c k x r _ hi hok hs
    exact hi.moveClient hok (mainStep_cases hs)

/-! ### Owners -/

/-- The owners of a connection. -/
inductive Owner (n : ℕ)
  | onAccept
  | waitingJobs
  | worker (i : Fin n)
  deriving DecidableEq

/-- The connection belongs to the owner. -/
def Owns (c : State n) (j : ℕ) : Owner n → Prop
  | .onAccept => mainHold (c.client 0) = some j
  | .waitingJobs => Ahead (nextOf c.mem.workqueue.queue.waitingJobs) c.mem.workqueue.queue.waitingJobs.list j
  | .worker i => workerHold (c.worker i) = some j

/-- **Every connection accepted and not closed has exactly one owner**, none has been closed twice, and no
`close` has met a descriptor that was not the connection's. -/
def OneOwner (c : State n) : Prop :=
  (∀ j < c.mem.accepted, j ∉ c.mem.closed → ∃! o, Owns c j o) ∧ c.mem.closed.Nodup ∧ c.mem.wrongCloses = 0

/-- The place of the ledger that stands for the owner. -/
def place : Owner n → Option (Tid n)
  | .onAccept => some (.inr 0)
  | .waitingJobs => none
  | .worker i => some (.inl i)

theorem place_injective : Function.Injective (place (n := n)) := by
  intro o o' h
  cases o <;> cases o' <;> simp_all [place]

theorem owns_iff {c : State n} {q : List ℕ} (hq : Waiting c.mem.workqueue.queue.waitingJobs q) (j : ℕ)
    (o : Owner n) : Owns c j o ↔ Keeps (holds c) q (place o) j := by
  cases o with
  | onAccept | worker i => rfl
  | waitingJobs => exact hq.linked.ahead_iff

/-- The threads that call `killServer` have nothing in hand. -/
theorem exists_owner {c : State n} (h : Inv c) {q : List ℕ} {j : ℕ} {t : Option (Tid n)}
    (ht : Keeps (holds c) q t j) : ∃ o, place o = t := by
  rcases t with - | i | k
  · exact ⟨.waitingJobs, rfl⟩
  · exact ⟨.worker i, rfl⟩
  · by_cases hk : k = 0
    · exact ⟨.onAccept, by rw [hk]; rfl⟩
    · exfalso
      have hkill := h.killers k hk
      have hknows := h.client k
      have hhold : mainHold (c.client k) = some j := ht
      generalize c.client k = p at hkill hknows hhold
      cases p with
      | shutdown d => cases hhold.symm.trans hknows
      | idle => cases hhold
      | _ => exact hkill

theorem Inv.oneOwner {c : State n} (h : Inv c) : OneOwner c := by
  obtain ⟨q, hq, hl⟩ := h.ledger
  refine ⟨fun j hj hclosed => ?_, hl.once, hl.right⟩
  -- the descriptor is open, so the connection is somewhere, and in one place
  obtain ⟨fd, hfd⟩ : ∃ fd, c.mem.fds fd = some j := by
    by_contra hno
    exact hclosed ((hl.closed j).mpr ⟨hj, fun fd hfd => hno ⟨fd, hfd⟩⟩)
  obtain ⟨t, ht, huniq⟩ := hl.sole.unique (hl.kept fd j hfd).2.2
  obtain ⟨o, rfl⟩ := exists_owner h ht
  refine ⟨o, (owns_iff hq j o).mpr ht, fun o' ho' => place_injective ?_⟩
  exact huniq (place o') ((owns_iff hq j o').mp ho')

/-- **A shutdown with jobs waiting leaks a connection**: nobody owns the first of them any more. -/
theorem shutdown_leaks {c : State n} {k : ℕ} {x : Input n} {r : Mem n × Main n} (h : Inv c)
    (hs : MainStep k x c.mem (c.client k) r.1 r.2) (hk : c.client k = .shutdown .shutIn) {j : ℕ}
    (hj : c.mem.workqueue.queue.waitingJobs.list = some j) :
    j < (c.moveClient k r).mem.accepted ∧ j ∉ (c.moveClient k r).mem.closed ∧
      ∀ o, ¬ Owns (c.moveClient k r) j o := by
  obtain ⟨q, hq, hl⟩ := h.ledger
  have hjq : j ∈ q := by
    have hlinked := hq.linked
    rw [hj] at hlinked
    obtain ⟨q', rfl, -⟩ := hlinked.uncons
    exact List.mem_cons_self
  have hopen := hl.queued j hjq
  obtain ⟨hm, hp⟩ : r.1 = withQueue c.mem (Workqueue.Model.shutdownSection c.mem.workqueue) ∧
      r.2 = .shutdown .shutUnlock := by
    rw [hk] at hs
    generalize r.1 = m', r.2 = p' at hs
    cases hs with
    | stage j hst | stageFailed j hst => cases hst
    | shutdown hc =>
      cases hc
      exact ⟨rfl, rfl⟩
  have hmem : (c.moveClient k r).mem = withQueue c.mem (Workqueue.Model.shutdownSection c.mem.workqueue) := hm
  refine ⟨?_, ?_, fun o ho => ?_⟩
  · rw [hmem]
    exact hl.old none j hjq
  · rw [hmem]
    exact fun hin => ((hl.closed j).mp hin).2 _ hopen
  · cases o with
    | waitingJobs =>
      rw [Owns, hmem] at ho
      exact not_ahead_none ho
    | worker i => exact hl.sole.apart (t := .inl i) ho hjq
    | onAccept =>
      rw [Owns] at ho
      rcases moveClient_cases c k r 0 with ⟨-, he⟩ | ⟨-, he⟩
      · rw [he, hp] at ho
        cases ho
      · rw [he] at ho
        exact hl.sole.apart (t := .inr 0) ho hjq

/-- **Every accepted connection has one owner until it is closed, as long as no job waits when
`workqueue_shutdown` clears the list**; a shutdown with jobs waiting leaks a connection. -/
theorem one_owner_iff (n : ℕ) :
    (∀ c : State n, Reach (echoServer n).lts noneWaits c → OneOwner c) ∧
    (∀ (c c' : State n) (a : Tid n × Input n), Reach (echoServer n).lts noneWaits c →
      (echoServer n).lts.next c a = some c' → (OneOwner c' ↔ noneWaits c a)) := by
  refine ⟨fun c h => (inv_reach h).oneOwner, fun c c' a h hs => ⟨fun hone k hk hshut => ?_, fun hok => ?_⟩⟩
  · by_contra hne
    obtain ⟨j, hj⟩ := Option.ne_none_iff_exists'.mp hne
    rcases Program.next_cases hs with ⟨i, x, r, rfl, -, -⟩ | ⟨k', x, r, rfl, hr, rfl⟩
    · cases hk
    · obtain rfl := Sum.inr.inj hk
      obtain ⟨hlt, hopen, hno⟩ := shutdown_leaks (inv_reach h) (mainStep_cases hr) hshut hj
      obtain ⟨o, ho, -⟩ := hone.1 j hlt hopen
      exact hno o ho
  · exact (inv_reach (h.next hok hs)).oneOwner

/-- The test for an allowed step. -/
def noneWaitsTest (c : State n) (a : Tid n × Input n) : Bool :=
  match a.1 with
  | .inl _ => true
  | .inr k => decide (c.client k = .shutdown .shutIn → c.mem.workqueue.queue.waitingJobs.list = none)

theorem noneWaits_of_test (c : State n) (a : Tid n × Input n) (h : noneWaitsTest c a = true) :
    noneWaits c a := by
  intro k hk
  simpa only [noneWaitsTest, hk, decide_eq_true_eq] using h

/-- A connection is accepted on descriptor 5 and its job is added. -/
def acceptRun : List (Tid (workerCount numThreads) × Input (workerCount numThreads)) :=
  (.inr 0, { event := .accept 5 }) :: List.replicate 9 (.inr 0, {})

theorem one_owner_iff_acceptRun : ∃ c : State (workerCount numThreads),
    Reach (echoServer (workerCount numThreads)).lts noneWaits c ∧ c.mem.accepted = 1 ∧ c.mem.closed = [] ∧
      ∃! o, Owns c 0 o := by
  obtain ⟨c, hc, hp⟩ := reach_of_run (echoServer (workerCount numThreads)).lts noneWaits_of_test acceptRun
    (fun c => decide (c.mem.accepted = 1) && decide (c.mem.closed = []))
    ⟨fun _ => ⟨none, none⟩, fun _ => ⟨0, false, false, false⟩, rfl⟩ (by decide)
  simp only [Bool.and_eq_true, decide_eq_true_eq] at hp
  refine ⟨c, hc, hp.1, hp.2, ((one_owner_iff _).1 c hc).1 0 ?_ ?_⟩
  · rw [hp.1]
    exact Nat.one_pos
  · rw [hp.2]
    exact List.not_mem_nil

/-- Another thread calls `killServer` and has cleared the lists. -/
def killSteps : List (Tid (workerCount numThreads) × Input (workerCount numThreads)) :=
  List.replicate 20 (.inr 1, {})

/-- **`killServer` leaks a connection** whose job still waits: it is neither closed nor anybody's. -/
theorem connection_leaks_killRun : ∃ c : State (workerCount numThreads),
    Reach (echoServer (workerCount numThreads)).lts anyStep c ∧ c.mem.accepted = 1 ∧ c.mem.closed = [] ∧
      (∀ o, ¬ Owns c 0 o) ∧ ¬ OneOwner c := by
  obtain ⟨c, hc, hp⟩ := reach_of_run (echoServer (workerCount numThreads)).lts anyStep_of_test
    (acceptRun ++ killSteps)
    (fun c => decide (c.mem.accepted = 1) && decide (c.mem.closed = []) && decide (c.client 0 = .loop) &&
      decide (c.mem.workqueue.queue.waitingJobs.list = none) && decide (∀ i, c.worker i = .pool .lock))
    ⟨fun _ => ⟨none, none⟩, fun _ => ⟨0, false, false, false⟩, rfl⟩ (by decide)
  simp only [Bool.and_eq_true, decide_eq_true_eq] at hp
  obtain ⟨⟨⟨⟨hacc, hclosed⟩, hmain⟩, hlist⟩, hworker⟩ := hp
  have hno : ∀ o, ¬ Owns c 0 o := by
    intro o ho
    cases o with
    | onAccept => rw [Owns, hmain] at ho; cases ho
    | waitingJobs => rw [Owns, hlist] at ho; exact not_ahead_none ho
    | worker i => rw [Owns, hworker i] at ho; cases ho
  refine ⟨c, hc, hacc, hclosed, hno, fun hone => ?_⟩
  obtain ⟨o, ho, -⟩ := hone.1 0 (by rw [hacc]; exact Nat.one_pos) (by rw [hclosed]; exact List.not_mem_nil)
  exact hno o ho

end PoolStudy.EchoServer.Owners
