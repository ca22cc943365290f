import PoolStudy.WorkerThreads.Steps
import Mathlib.Data.List.Range

/-! # Where the threads of `WorkerThreads.c` may be

Where the workers may be depends on where `main` is (`phase`), and what a worker has done in the current
round depends on where it is (`Place`): in a round it has not begun its batch, or is at it, or has executed it,
or has signalled its completion and is on its way to the next wait. `MainOk` are the books of `main`, with the
completions of the current round (`At`), and `Claim` is what a worker knows between the test of
`MainThreadWaiting` and its signal: `main` is asleep on `CompleteCondition`. -/

namespace PoolStudy.WorkerThreads.Places

open PoolStudy.Lib.Transition PoolStudy.Lib.Threads
open PoolStudy.WorkerThreads.Model PoolStudy.WorkerThreads.Steps

variable {N R : ℕ}

/-! ### Phases -/

/-- What `main` is doing. -/
inductive Phase
  | starting
  | resting
  | quiet
  | woken
  | round
  | ending
  | over

/-- The phase of a position of `main`. -/
def phase : Main → Phase
  | .sleep => .starting
  | .lockStart _ | .finalLock => .resting
  | .setOn _ | .incRound _ | .lockComplete _ | .broadcast _ | .finalOff | .finalBroadcast => .quiet
  | .unlockStart _ | .finalUnlock => .woken
  | .setWaiting _ _ | .wait _ _ | .blocked _ _ | .read _ _ | .unlockComplete _ => .round
  | .join _ => .ending
  | .done => .over

/-- The number of rounds `main` has finished. -/
def rounds (R : ℕ) : Main → ℕ
  | .sleep => 0
  | .lockStart X | .setOn X | .incRound X | .lockComplete X | .broadcast X | .unlockStart X
  | .setWaiting X _ | .wait X _ | .blocked X _ | .read X _ | .unlockComplete X => X
  | .finalLock | .finalOff | .finalBroadcast | .finalUnlock | .join _ | .done => R

/-- What a worker has done in the current round: batches begun, batches executed, completion signalled. -/
structure Entry where
  begun : ℕ
  executed : ℕ
  sent : Bool

/-- **Where a worker may be**, and what it has done there; `asleep`: it is blocked and has not been woken. -/
inductive Place : (asleep : Bool) → Phase → Worker → Entry → Prop
  | startLock : Place false .starting .lockStart ⟨0, 0, false⟩
  | startWait : Place false .starting .waitStart ⟨0, 0, false⟩
  | startAsleep : Place true .starting .blocked ⟨0, 0, false⟩
  | restWait : Place false .resting .waitStart ⟨0, 0, false⟩
  | restAsleep : Place true .resting .blocked ⟨0, 0, false⟩
  | quiet : Place true .quiet .blocked ⟨0, 0, false⟩
  | woken : Place false .woken .blocked ⟨0, 0, false⟩
  | roundWoken : Place false .round .blocked ⟨0, 0, false⟩
  | test : Place false .round .test ⟨0, 0, false⟩
  | unlockWork : Place false .round .unlockWork ⟨1, 0, false⟩
  | work : Place false .round .work ⟨1, 0, false⟩
  | lockComplete : Place false .round .lockComplete ⟨1, 1, false⟩
  | testWaiting : Place false .round .testWaiting ⟨1, 1, false⟩
  | unlockRetry : Place false .round .unlockRetry ⟨1, 1, false⟩
  | setFalse : Place false .round .setFalse ⟨1, 1, false⟩
  | setBatch : Place false .round .setBatch ⟨1, 1, false⟩
  | lockNext : Place false .round .lockNext ⟨1, 1, false⟩
  | signal : Place false .round .signal ⟨1, 1, false⟩
  | unlockComplete : Place false .round .unlockComplete ⟨1, 1, true⟩
  | roundWait : Place false .round .waitStart ⟨1, 1, true⟩
  | roundAsleep : Place true .round .blocked ⟨1, 1, true⟩
  | endWoken : Place false .ending .blocked ⟨0, 0, false⟩
  | endTest : Place false .ending .test ⟨0, 0, false⟩
  | endUnlock : Place false .ending .unlockExit ⟨0, 0, false⟩
  | endExited : Place false .ending .exited ⟨0, 0, false⟩
  | over : Place false .over .exited ⟨0, 0, false⟩

/-- A batch is begun before it is executed, and executed before its completion is signalled; outside a round
nothing is entered. -/
theorem Place.entry {s : Bool} {ph : Phase} {w : Worker} {e : Entry} (h : Place s ph w e) :
    e.executed ≤ e.begun ∧ e.begun ≤ 1 ∧ (e.sent = true → e.executed = 1) ∧
      (ph ≠ .round → e = ⟨0, 0, false⟩) := by
  cases h <;> simp

theorem Place.not_sent {s : Bool} {ph : Phase} {e : Entry} (h : Place s ph .signal e) : e.sent = false := by
  cases h
  rfl

/-- The worker `i` is asleep on `StartWorkCondition`. -/
def sleeps (m : Mem N) (i : Fin N) : Bool := decide (i ∈ m.startWorkCondition)

/-- **The worker `i` at `w`**, after `X` rounds of `main`. -/
def WorkerOk (ph : Phase) (X : ℕ) (m : Mem N) (i : Fin N) (w : Worker) : Prop :=
  ∃ e, Place (sleeps m i) ph w e ∧ m.begun i = List.range' 1 (X + e.begun) ∧
    m.executed i = X + e.executed ∧ (i.val ∈ m.sent ↔ e.sent = true)

/-- Only what concerns the worker matters. -/
theorem WorkerOk.congr {ph : Phase} {X : ℕ} {m m' : Mem N} {i : Fin N} {w : Worker}
    (h : WorkerOk ph X m i w) (h1 : i ∈ m'.startWorkCondition ↔ i ∈ m.startWorkCondition)
    (h2 : m'.begun i = m.begun i) (h3 : m'.executed i = m.executed i) (h4 : i.val ∈ m'.sent ↔ i.val ∈ m.sent) :
    WorkerOk ph X m' i w := by
  obtain ⟨e, he, hb, hx, hs⟩ := h
  refine ⟨e, ?_, by rw [h2, hb], by rw [h3, hx], h4.trans hs⟩
  rwa [sleeps, decide_eq_decide.mpr h1]

/-! ### Mutexes -/

/-- The worker holds `StartWorkMutex`. -/
def holdsStart : Worker → Prop
  | .waitStart | .test | .unlockWork | .unlockExit | .signal | .unlockComplete => True
  | _ => False

/-- `main` holds `StartWorkMutex`. -/
def mainHoldsStart : Main → Prop
  | .setOn _ | .incRound _ | .lockComplete _ | .broadcast _ | .unlockStart _ | .finalOff | .finalBroadcast
  | .finalUnlock => True
  | _ => False

/-- The worker holds `CompleteMutex`. -/
def holdsComplete : Worker → Prop
  | .testWaiting | .unlockRetry | .setFalse | .setBatch | .lockNext | .signal | .unlockComplete => True
  | _ => False

/-- `main` holds `CompleteMutex`. -/
def mainHoldsComplete : Main → Prop
  | .broadcast _ | .unlockStart _ | .setWaiting _ _ | .wait _ _ | .read _ _ | .unlockComplete _ => True
  | _ => False

theorem workerStep_start {i : Fin N} {m m' : Mem N} {w w' : Worker} (h : WorkerStep i m w m' w') :
    MutexStep (Sum.inl i) m.startWorkMutex m'.startWorkMutex (holdsStart w) (holdsStart w') := by
  cases h <;> simp_all [MutexStep, holdsStart]

theorem workerStep_complete {i : Fin N} {m m' : Mem N} {w w' : Worker} (h : WorkerStep i m w m' w') :
    MutexStep (Sum.inl i) m.completeMutex m'.completeMutex (holdsComplete w) (holdsComplete w') := by
  cases h <;> simp_all [MutexStep, holdsComplete]

theorem roundTop_holds (X : ℕ) : ¬ mainHoldsStart (roundTop R X) ∧ ¬ mainHoldsComplete (roundTop R X) := by
  unfold roundTop
  split_ifs <;> simp [mainHoldsStart, mainHoldsComplete]

theorem waitTop_holds (X Y : ℕ) : ¬ mainHoldsStart (waitTop N X Y) ∧ mainHoldsComplete (waitTop N X Y) := by
  unfold waitTop
  split_ifs <;> simp [mainHoldsStart, mainHoldsComplete]

theorem mainStep_start {m m' : Mem N} {p p' : Main} (h : MainStep R m p m' p') :
    MutexStep (Sum.inr ()) m.startWorkMutex m'.startWorkMutex (mainHoldsStart p) (mainHoldsStart p') := by
  cases h with
  | sleep h | unlockComplete X => exact Or.inl ⟨rfl, iff_of_false (roundTop_holds _).1 id⟩
  | read X Y => exact Or.inl ⟨rfl, iff_of_false (waitTop_holds _ _).1 id⟩
  | unlockStart X => exact Or.inr (Or.inr ⟨trivial, rfl, (waitTop_holds _ _).1⟩)
  | lockStart X hl | finalLock hl => exact Or.inr (Or.inl ⟨hl, rfl, trivial⟩)
  | finalUnlock => exact Or.inr (Or.inr ⟨trivial, rfl, id⟩)
  | _ => exact Or.inl ⟨rfl, Iff.rfl⟩

theorem mainStep_complete {m m' : Mem N} {p p' : Main} (h : MainStep R m p m' p') :
    MutexStep (Sum.inr ()) m.completeMutex m'.completeMutex (mainHoldsComplete p) (mainHoldsComplete p') := by
  cases h with
  | sleep h => exact Or.inl ⟨rfl, iff_of_false (roundTop_holds _).2 id⟩
  | unlockStart X | read X Y => exact Or.inl ⟨rfl, iff_of_true (waitTop_holds _ _).2 trivial⟩
  | unlockComplete X => exact Or.inr (Or.inr ⟨trivial, rfl, (roundTop_holds _).2⟩)
  | lockComplete X hl | wake X Y hc hl => exact Or.inr (Or.inl ⟨hl, rfl, trivial⟩)
  | wait X Y => exact Or.inr (Or.inr ⟨trivial, rfl, id⟩)
  | _ => exact Or.inl ⟨rfl, Iff.rfl⟩

/-! ### What `main` knows -/

/-- No completion is under way. -/
def Idle (m : Mem N) : Prop :=
  m.mainThreadWaiting = false ∧ m.completeCondition = false ∧ m.sent = [] ∧ m.reads = []

/-- **The completions of the current round**, at a position of `main`. -/
def At (m : Mem N) : Main → Prop
  | .setWaiting _ Y =>
    m.mainThreadWaiting = false ∧ m.completeCondition = false ∧ m.sent = m.reads ∧ m.reads.length = Y
  | .wait _ Y => m.completeCondition = false ∧ m.mainThreadWaiting = true ∧ m.sent = m.reads ∧ m.reads.length = Y
  | .blocked _ Y => m.reads.length = Y ∧
    ((m.completeCondition = true ∧ m.sent = m.reads) ∨
      (m.completeCondition = false ∧ m.mainThreadWaiting = false ∧ m.sent = m.reads ++ [m.theCompletedBatch]))
  | .read _ Y => m.reads.length = Y ∧
    m.completeCondition = false ∧ m.mainThreadWaiting = false ∧ m.sent = m.reads ++ [m.theCompletedBatch]
  | .unlockComplete _ =>
    m.mainThreadWaiting = false ∧ m.completeCondition = false ∧ m.sent = m.reads ∧ m.reads.length = N
  | _ => Idle m

/-- The bounds of the loops. -/
def InLoops (N R : ℕ) : Main → Prop
  | .lockStart X | .setOn X | .incRound X | .lockComplete X | .broadcast X | .unlockStart X
  | .unlockComplete X => X < R
  | .setWaiting X Y | .wait X Y | .blocked X Y | .read X Y => X < R ∧ Y < N
  | .join X => X ≤ N
  | _ => True

/-- The value of `Round` at a position of `main`. -/
def roundAt : Main → Option ℕ
  | .sleep => some 0
  | .lockStart X | .setOn X | .incRound X => some X
  | .lockComplete X | .broadcast X | .unlockStart X | .setWaiting X _ | .wait X _ | .blocked X _ | .read X _
  | .unlockComplete X => some (X + 1)
  | _ => none

/-- The value of `WorkOn` at a position of `main`. -/
def workOnAt : Main → Option Bool
  | .incRound _ | .lockComplete _ | .broadcast _ | .unlockStart _ | .setWaiting _ _ | .wait _ _ | .blocked _ _
  | .read _ _ | .unlockComplete _ => some true
  | .finalBroadcast | .finalUnlock | .join _ => some false
  | _ => none

/-- The workers that `main` has joined. -/
def joinedAt (m : Mem N) : Main → Prop
  | .join X => ∀ i : Fin N, i.val < X → i ∈ m.exited
  | .done => ∀ i : Fin N, i ∈ m.exited
  | _ => True

/-- **The books of `main`.** -/
structure MainOk (R : ℕ) (m : Mem N) (p : Main) : Prop where
  loops : InLoops N R p
  at_ : At m p
  round : ∀ v, roundAt p = some v → m.round = v
  workOn : ∀ b, workOnAt p = some b → m.workOn = b
  nodup : m.sent.Nodup
  bound : ∀ v ∈ m.sent, v < N
  finished : m.past.length = rounds R p
  past : ∀ l ∈ m.past, l.Perm (List.range N)
  joined : joinedAt m p

/-- The start of a round, or the end of the rounds, after `X` rounds. -/
theorem mainOk_roundTop {X : ℕ} {m : Mem N} (hX : X ≤ R) (hi : Idle m) (hr : m.round = X)
    (hlen : m.past.length = X) (hp : ∀ l ∈ m.past, l.Perm (List.range N)) : MainOk R m (roundTop R X) := by
  have hnodup : m.sent.Nodup := by rw [hi.2.2.1]; exact List.nodup_nil
  have hbound : ∀ v ∈ m.sent, v < N := by simp [hi.2.2.1]
  unfold roundTop
  split_ifs with h
  · exact ⟨h, hi, fun v hv => hr.trans (Option.some.inj hv), fun b hb => (by cases hb), hnodup, hbound, hlen,
      hp, trivial⟩
  · have hXR : X = R := by omega
    exact ⟨trivial, hi, fun v hv => (by cases hv), fun b hb => (by cases hb), hnodup, hbound, hlen.trans hXR, hp,
      trivial⟩

/-- The wait for the next completion, or the end of the round, after `Y` completions. -/
theorem mainOk_waitTop {X Y : ℕ} {m : Mem N} (hX : X < R) (hY : Y ≤ N) (hn : m.sent.Nodup)
    (hb : ∀ v ∈ m.sent, v < N) (hp : ∀ l ∈ m.past, l.Perm (List.range N)) (hr : m.round = X + 1)
    (hw : m.workOn = true) (hmt : m.mainThreadWaiting = false) (hcc : m.completeCondition = false)
    (hs : m.sent = m.reads) (hlen : m.reads.length = Y) (hpast : m.past.length = X) :
    MainOk R m (waitTop N X Y) := by
  unfold waitTop
  split_ifs with hlt
  · exact ⟨⟨hX, hlt⟩, ⟨hmt, hcc, hs, hlen⟩, fun v hv => hr.trans (Option.some.inj hv),
      fun b hb => hw.trans (Option.some.inj hb), hn, hb, hpast, hp, trivial⟩
  · have hYN : Y = N := by omega
    exact ⟨hX, ⟨hmt, hcc, hs, hlen.trans hYN⟩, fun v hv => hr.trans (Option.some.inj hv),
      fun b hb => hw.trans (Option.some.inj hb), hn, hb, hpast, hp, trivial⟩

/-- `N` distinct numbers below `N` are all of them. -/
theorem perm_range {l : List ℕ} (hn : l.Nodup) (hb : ∀ v ∈ l, v < N) (hl : l.length = N) :
    l.Perm (List.range N) := by
  have hsub : l.Subperm (List.range N) :=
    List.subperm_of_subset hn fun v hv => List.mem_range.mpr (hb v hv)
  exact hsub.perm_of_length_le (by simp [hl])

theorem mainStep_ok {m m' : Mem N} {p p' : Main} (hs : MainStep R m p m' p') (h : MainOk R m p) :
    MainOk R m' p' := by
  have hround := h.round
  have hwork := h.workOn
  cases hs with
  | sleep hu =>
    exact mainOk_roundTop (Nat.zero_le R) h.at_ (hround 0 rfl) h.finished h.past
  | incRound X =>
    refine ⟨h.loops, h.at_, fun v hv => ?_, fun b hb => hwork b hb, h.nodup, h.bound, h.finished, h.past, trivial⟩
    cases hv
    show m.round + 1 = X + 1
    rw [hround X rfl]
  | setOn X =>
    exact ⟨h.loops, h.at_, hround, fun b hb => Option.some.inj hb, h.nodup, h.bound, h.finished, h.past, trivial⟩
  | unlockStart X =>
    obtain ⟨h1, h2, h3, h4⟩ := h.at_
    exact mainOk_waitTop h.loops (Nat.zero_le N) h.nodup h.bound h.past (hround _ rfl) (hwork _ rfl) h1 h2
      (h3.trans h4.symm) (by simp [h4]) h.finished
  | setWaiting X Y =>
    obtain ⟨h1, h2, h3, h4⟩ := h.at_
    exact ⟨h.loops, ⟨h2, rfl, h3, h4⟩, hround, hwork, h.nodup, h.bound, h.finished, h.past, trivial⟩
  | wait X Y =>
    obtain ⟨h1, h2, h3, h4⟩ := h.at_
    exact ⟨h.loops, ⟨h4, Or.inl ⟨rfl, h3⟩⟩, hround, hwork, h.nodup, h.bound, h.finished, h.past, trivial⟩
  | wake X Y hc hl =>
    obtain ⟨h1, h2⟩ := h.at_
    have h2 := h2.resolve_left fun h2 => by rw [h2.1] at hc; cases hc
    exact ⟨h.loops, ⟨h1, h2⟩, hround, hwork, h.nodup, h.bound, h.finished, h.past, trivial⟩
  | read X Y =>
    obtain ⟨h1, h2, h3, h4⟩ := h.at_
    exact mainOk_waitTop h.loops.1 h.loops.2 h.nodup h.bound h.past (hround _ rfl) (hwork _ rfl) h3 h2 h4
      (by simp [h1]) h.finished
  | unlockComplete X =>
    obtain ⟨h1, h2, h3, h4⟩ := h.at_
    refine mainOk_roundTop h.loops ⟨h1, h2, rfl, rfl⟩ (hround _ rfl) ?_ fun l hl => ?_
    · show (m.past ++ [m.reads]).length = X + 1
      rw [List.length_append, h.finished]
      rfl
    · rcases List.mem_append.mp hl with hl | hl
      · exact h.past l hl
      · rw [List.mem_singleton.mp hl, ← h3]
        exact perm_range h.nodup h.bound (by rw [h3, h4])
  | finalOff =>
    exact ⟨trivial, h.at_, hround, fun b hb => Option.some.inj hb, h.nodup, h.bound, h.finished, h.past, trivial⟩
  | finalUnlock =>
    exact ⟨Nat.zero_le N, h.at_, hround, hwork, h.nodup, h.bound, h.finished, h.past,
      fun i hi => absurd hi (Nat.not_lt_zero _)⟩
  | joinOne i hi =>
    refine ⟨i.isLt, h.at_, hround, hwork, h.nodup, h.bound, h.finished, h.past, fun j hj => ?_⟩
    rcases Nat.lt_succ_iff_lt_or_eq.mp hj with hj | hj
    · exact h.joined j hj
    · rwa [Fin.ext hj]
  | joinEnd hX =>
    exact ⟨trivial, h.at_, fun v hv => (by cases hv), fun b hb => (by cases hb), h.nodup, h.bound, h.finished,
      h.past, fun i => h.joined i (Nat.lt_of_lt_of_le i.isLt hX)⟩
  | _ => exact ⟨h.loops, h.at_, hround, hwork, h.nodup, h.bound, h.finished, h.past, trivial⟩

/-! ### The hand-shake -/

/-- `main` is asleep on `CompleteCondition`. -/
def mainAsleep (m : Mem N) (p : Main) : Prop := (∃ X Y, p = .blocked X Y) ∧ m.completeCondition = true

/-- **What the worker `i` knows while it completes**: `main` sleeps until it signals. -/
def Claim (m : Mem N) (p : Main) (i : Fin N) : Worker → Prop
  | .setFalse => mainAsleep m p
  | .setBatch => mainAsleep m p ∧ m.mainThreadWaiting = false
  | .lockNext | .signal => mainAsleep m p ∧ m.mainThreadWaiting = false ∧ m.theCompletedBatch = i
  | _ => True

/-- The worker has taken the flag and not yet signalled. -/
def claims : Worker → Prop
  | .setBatch | .lockNext | .signal => True
  | _ => False

/-- The variables of the hand-shake and the books of `main` are the same. -/
structure SameBooks (m m' : Mem N) : Prop where
  waiting : m'.mainThreadWaiting = m.mainThreadWaiting
  condition : m'.completeCondition = m.completeCondition
  batch : m'.theCompletedBatch = m.theCompletedBatch
  sent : m'.sent = m.sent
  reads : m'.reads = m.reads
  past : m'.past = m.past
  round : m'.round = m.round
  workOn : m'.workOn = m.workOn
  exited : m.exited ⊆ m'.exited

theorem joinedAt.mono {m m' : Mem N} {p : Main} (h : joinedAt m p) (he : m.exited ⊆ m'.exited) :
    joinedAt m' p := by
  cases p with
  | join X => exact fun i hi => he (h i hi)
  | done => exact fun i => he (h i)
  | _ => trivial

theorem MainOk.same {m m' : Mem N} {p : Main} (h : MainOk R m p) (hs : SameBooks m m') : MainOk R m' p := by
  obtain ⟨h1, h2, h3, h4, h5, h6, h7, h8, h9⟩ := hs
  refine ⟨h.loops, ?_, by rw [h7]; exact h.round, by rw [h8]; exact h.workOn, by rw [h4]; exact h.nodup,
    by rw [h4]; exact h.bound, by rw [h6]; exact h.finished, by rw [h6]; exact h.past, h.joined.mono h9⟩
  have ha := h.at_
  cases p <;> simpa only [At, Idle, h1, h2, h3, h4, h5] using ha

theorem Claim.same {m m' : Mem N} {p : Main} {i : Fin N} {w : Worker} (h : Claim m p i w)
    (h1 : m'.mainThreadWaiting = m.mainThreadWaiting) (h2 : m'.completeCondition = m.completeCondition)
    (h3 : m'.theCompletedBatch = m.theCompletedBatch) : Claim m' p i w := by
  cases w with
  | setFalse | setBatch | lockNext | signal => simpa only [Claim, mainAsleep, h1, h2, h3] using h
  | _ => trivial

/-- When `MainThreadWaiting` is set, `main` is about to sleep or asleep. -/
theorem MainOk.asleep_of_waiting {m : Mem N} {p : Main} (h : MainOk R m p) (hw : m.mainThreadWaiting = true) :
    mainHoldsComplete p ∨ mainAsleep m p := by
  have ha := h.at_
  cases p with
  | blocked X Y =>
    refine Or.inr ⟨⟨X, Y, rfl⟩, ?_⟩
    rcases ha.2 with hc | hc
    · exact hc.1
    · rw [hc.2.1] at hw
      cases hw
  | wait X Y | setWaiting X Y | read X Y | unlockComplete X => exact Or.inl trivial
  | _ =>
    rw [show m.mainThreadWaiting = false from ha.1] at hw
    cases hw

/-- The worker `i` signals its completion. -/
theorem MainOk.signal {m : Mem N} {p : Main} {i : Fin N} (h : MainOk R m p) (hc : Claim m p i .signal)
    (hi : i.val ∉ m.sent) :
    MainOk R { m with completeCondition := false, sent := m.sent ++ [m.theCompletedBatch] } p := by
  obtain ⟨⟨⟨X, Y, rfl⟩, hcc⟩, hmt, hb⟩ := hc
  obtain ⟨hlen, hd⟩ := h.at_
  have hsent : m.sent = m.reads := by
    rcases hd with hd | hd
    · exact hd.2
    · rw [hcc] at hd
      cases hd.1
  refine ⟨h.loops, ⟨hlen, Or.inr ⟨rfl, hmt, ?_⟩⟩, h.round, h.workOn, ?_, fun v hv => ?_, h.finished, h.past,
    trivial⟩
  · show m.sent ++ [m.theCompletedBatch] = m.reads ++ [m.theCompletedBatch]
    rw [hsent]
  · show (m.sent ++ [m.theCompletedBatch]).Nodup
    rw [hb]
    refine List.nodup_append.mpr ⟨h.nodup, List.nodup_singleton _, fun a ha b hb' hab => ?_⟩
    rw [List.mem_singleton] at hb'
    exact hi (hb' ▸ hab ▸ ha)
  · rcases List.mem_append.mp hv with hv | hv
    · exact h.bound v hv
    · rw [List.mem_singleton.mp hv, hb]
      exact i.isLt

theorem workerStep_mainOk {i : Fin N} {m m' : Mem N} {w w' : Worker} {p : Main}
    (hs : WorkerStep i m w m' w') (h : MainOk R m p) (hc : Claim m p i w)
    (hi : w = .signal → i.val ∉ m.sent) : MainOk R m' p := by
  -- while `main` sleeps, its books do not speak of the flag and the batch
  have hsleep : mainAsleep m p → ∀ b t, MainOk R { m with mainThreadWaiting := b, theCompletedBatch := t } p := by
    rintro ⟨⟨X, Y, rfl⟩, hcc⟩ b t
    obtain ⟨hlen, hd⟩ := h.at_
    have hsent : m.completeCondition = true ∧ m.sent = m.reads := hd.resolve_right fun hd => by
      rw [hcc] at hd
      cases hd.1
    exact ⟨h.loops, ⟨hlen, Or.inl hsent⟩, h.round, h.workOn, h.nodup, h.bound, h.finished, h.past, trivial⟩
  cases hs with
  | setFalse => exact hsleep hc false m.theCompletedBatch
  | setBatch => exact hsleep hc.1 m.mainThreadWaiting i
  | signal => exact h.signal hc (hi rfl)
  | unlockExit => exact h.same ⟨rfl, rfl, rfl, rfl, rfl, rfl, rfl, rfl, Finset.subset_insert _ _⟩
  | _ => exact h.same ⟨rfl, rfl, rfl, rfl, rfl, rfl, rfl, rfl, subset_rfl⟩

theorem Claim.of_not_holds {m : Mem N} {p : Main} {i : Fin N} {w : Worker} (h : ¬ holdsComplete w) :
    Claim m p i w := by
  cases w with
  | setFalse | setBatch | lockNext | signal => exact absurd trivial h
  | _ => trivial

/-- In a round the values received are part of those signalled. -/
theorem MainOk.reads_sent {m : Mem N} {p : Main} (h : MainOk R m p) : m.reads.Sublist m.sent := by
  have ha := h.at_
  cases p with
  | setWaiting X Y | wait X Y | unlockComplete X => exact ha.2.2.1 ▸ List.Sublist.refl _
  | blocked X Y =>
    rcases ha.2 with hd | hd
    · exact hd.2 ▸ List.Sublist.refl _
    · exact hd.2.2 ▸ List.sublist_append_left _ _
  | read X Y => exact ha.2.2.2 ▸ List.sublist_append_left _ _
  | _ => exact ha.2.2.2 ▸ List.nil_sublist _

end PoolStudy.WorkerThreads.Places
