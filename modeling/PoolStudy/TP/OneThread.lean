import PoolStudy.TP.Tokens

/-! # The Windows thread pool: used by one thread

A program may make all its calls of the pool from one thread (`oneUser`). Then nothing is posted while `Create` or
`Destroy` is under way, and `OneInv` holds: `m_usSemaphoreCount` mirrors the semaphore whenever a request can be
posted, also after a `Destroy` that has failed, unless `Create` could not start all threads. In that case
`m_bDestroyed` stays set, and no worker ever gets past its first test of it.

So a `PostRequest` that returns false has left the list alone, or nobody pops from that list any more
(`OneInv.post_kept`, `OneInv.working_of_pop`). -/

namespace PoolStudy.TP.OneThread

open PoolStudy.Lib.Transition PoolStudy.Lib.Threads PoolStudy.TP.Model PoolStudy.TP.Steps PoolStudy.TP.Life
open PoolStudy.TP.Order PoolStudy.TP.Tokens

variable {R : Type} [DecidableEq R]

/-- **One thread uses the pool**, and the kernel does what is documented. -/
def oneUser (_ : State R) (a : Tid × Input R) : Prop := a.2.refuse = false ∧ ∀ k, a.1 = .inr k → k = 0

omit [DecidableEq R] in
theorem controlled_of_oneUser {c : State R} {a : Tid × Input R} (h : oneUser c a) : controlled c a :=
  ⟨h.1, fun k hk hne => absurd (h.2 k hk) hne⟩

/-- The places of a call before `Destroy` has released the semaphore. -/
def inSync : Client → Prop
  | .out _ | .cancel _ | .setFlag _ | .release _ => True
  | _ => False

/-- The pool has requests. -/
def working (m : Mem R) : Prop := m.stage ≠ .down ∧ m.stage ≠ .failed

/-- The tokens of the semaphore are those of the requests. -/
def counts (m : Mem R) (p : Client) : Prop :=
  m.stage = .creating ∨ m.stage = .up ∨ (m.stage = .destroying ∧ inSync p)

omit [DecidableEq R] in
theorem counts.sized {m : Mem R} {p : Client} (h : counts m p) (hctl : Ctl m p) : Sized m := by
  rcases h with h | h | ⟨h, hp⟩
  · exact hctl.of_creating h
  · exact (hctl.of_up h).sized
  · cases hctl with
    | ending _ he => exact he.sized
    | down _ hs | up _ hs => rw [hs] at h; cases h
    | _ => exact hp.elim

/-- The worker has not found the pool in use since it last waited. -/
def early : Worker R → Prop
  | .off | .wait | .woken | .enter | .check | .quit | .exit => True
  | _ => False

/-- No worker gets past its test: the flag is set, or there is no token yet. -/
def Shut (c : State R) (p : Client) : Prop :=
  (c.mem.destroyed = true ∧ ∀ i, early (c.worker i)) ∨ (Calm c ∧ (p = .cancel true ∨ p = .setFlag true))

/-- **The invariant of a pool that one thread uses.** -/
structure OneInv (c : State R) : Prop where
  down : c.mem.stage = .down → c.mem.requestQueue = []
  mirror : counts c.mem (c.client 0) → Mirror c.mem (∑ i, woken (c.worker i))
  calm : c.mem.stage = .creating → Calm c
  failed : c.mem.stage = .failed → Shut c (c.client 0)
  handed : Handed c

omit [DecidableEq R] in
theorem Shut.early {c : State R} {p : Client} (h : Shut c p) (i : Fin maxThreads) : early (c.worker i) := by
  rcases h with ⟨-, h⟩ | ⟨h, -⟩
  · exact h i
  · rcases h.workers i with hw | hw <;> rw [hw] <;> trivial

omit [DecidableEq R] in
/-- At any other place the flag is set. -/
theorem Shut.flag {c : State R} {p : Client} (h : Shut c p) (hp : p ≠ .cancel true ∧ p ≠ .setFlag true) :
    c.mem.destroyed = true ∧ ∀ i, OneThread.early (c.worker i) := by
  rcases h with h | ⟨-, h | h⟩
  · exact h
  · exact absurd h hp.1
  · exact absurd h hp.2

/-! ### The workers -/

theorem workerStep_keeps_early {i : Fin maxThreads} {x : Input R} {m m' : Mem R} {w w' : Worker R}
    (hs : WorkerStep i x m w m' w') (hd : m.destroyed = true) (h : early w) : early w' := by
  cases hs with
  | start | acquire | waitFailed | woken | enter | checkQuit | quit | exit => trivial
  | check hd' => rw [hd] at hd'; cases hd'
  | _ => exact h.elim

theorem OneInv.moveWorker {c : State R} (h : OneInv c) (hl : LifeInv c) {i : Fin maxThreads} {x : Input R}
    {r : Mem R × Worker R} (hs : WorkerStep i x c.mem (c.worker i) r.1 r.2) : OneInv (c.moveWorker i r) := by
  have hst := (workerStep_same hs).stage
  refine ⟨fun hd => workerStep_empty hs (h.down (hst.symm.trans hd)), fun hc => ?_, fun hc => ?_, fun hf => ?_, ?_⟩
  · have hc' : counts c.mem (c.client 0) := by rwa [counts, ← hst]
    exact workerStep_mirror hs (h.mirror hc') (hc'.sized hl.ctl).le (sum_update (fun _ => woken) c.worker i r.2)
      (le_sum c.worker i fun _ => woken)
  · exact (h.calm (hst.symm.trans hc)).moveWorker hs
  · rcases h.failed (hst.symm.trans hf) with ⟨hd, hw⟩ | ⟨hcalm, hp⟩
    · refine Or.inl ⟨(workerStep_flag hs).trans hd, ?_⟩
      exact forall_moveWorker (P := fun _ (w : Worker R) => early w) (workerStep_keeps_early hs hd (hw i))
        fun j _ => hw j
    · exact Or.inr ⟨hcalm.moveWorker hs, hp⟩
  · exact ledger_move (fun _ => hand) h.handed (workerStep_handed hs)

/-! ### The calls -/

omit [DecidableEq R] in
/-- Nothing is posted while the pool is being created. -/
theorem Ctl.not_creating {m : Mem R} {v : Option Bool} (h : Ctl m (.out v)) : m.stage ≠ .creating := by
  cases h with
  | down _ hs | up _ hs => rw [hs]; simp
  | ending _ he => exact (ending_stage he.stage).1

omit [DecidableEq R] in
/-- **A post that returns false leaves the list alone**, unless `Create` could not start all threads. -/
theorem OneInv.post_kept {c : State R} (h : OneInv c) (hl : LifeInv c) {x : Input R} {q : R} {v : Bool} {m' : Mem R}
    (hout : ∃ last, c.client 0 = .out last) (hx : x.refuse = false) (hp : PostStep x c.mem q m' v) :
    v = true ∨ m' = c.mem ∨ c.mem.stage = .failed := by
  obtain ⟨last, hout⟩ := hout
  have hctl := hl.ctl
  rw [hout] at hctl
  cases hst : c.mem.stage with
  | down => exact Or.inr (Or.inl (postStep_noList hp (hctl.of_down hst).1))
  | creating => exact absurd hst (Ctl.not_creating hctl)
  | failed => exact Or.inr (Or.inr rfl)
  | up | destroying =>
    have hc : counts c.mem (c.client 0) := by simp [counts, hst, hout, inSync]
    rcases (postStep_mirror hp (h.mirror hc) (hc.sized hl.ctl).le hx).2 with hv | hm
    · exact Or.inl hv
    · exact Or.inr (Or.inl hm)

omit [DecidableEq R] in
theorem OneInv.post {c : State R} (h : OneInv c) (hl : LifeInv c) {x : Input R} {q : R} {v : Bool} {m' : Mem R}
    {last : Option Bool} (hout : c.client 0 = .out last) (hx : x.refuse = false) (hp : PostStep x c.mem q m' v) :
    OneInv (c.moveClient 0 (m', .out (some v))) := by
  have hst := (postStep_same hp).stage
  have hctl := hl.ctl
  rw [hout] at hctl
  refine ⟨fun hd => ?_, fun hc => ?_, fun hc => ?_, fun hf => ?_, ?_⟩
  · have hd' := hst.symm.trans hd
    show m'.requestQueue = []
    rw [postStep_noList hp (hctl.of_down hd').1]
    exact h.down hd'
  · rw [moveClient_self] at hc
    have hc' : counts c.mem (c.client 0) := by
      rw [hout]
      rwa [counts, ← hst]
    exact (postStep_mirror hp (h.mirror hc') (hc'.sized hl.ctl).le hx).1
  · exact absurd (hst.symm.trans hc) (Ctl.not_creating hctl)
  · have hshut := (h.failed (hst.symm.trans hf)).flag (by simp [hout])
    exact Or.inl ⟨(postStep_flag hp).trans hshut.1, hshut.2⟩
  · obtain ⟨hpop, hexec⟩ := postStep_history hp
    show (m'.popped : Multiset R) = (m'.executed : Multiset R) + ∑ i, hand (c.worker i)
    rw [hpop, hexec]
    exact h.handed

omit [DecidableEq R] in
/-- A call that leaves the memory alone and does not go back to a place before the release. -/
theorem OneInv.still {c : State R} (h : OneInv c) {p' : Client} (hp : inSync p' → inSync (c.client 0))
    (hne : c.client 0 ≠ .cancel true ∧ c.client 0 ≠ .setFlag true) : OneInv (c.moveClient 0 (c.mem, p')) := by
  refine ⟨h.down, fun hc => ?_, fun hc => ?_, fun hf => Or.inl ((h.failed hf).flag hne), h.handed⟩
  · rw [moveClient_self] at hc
    exact h.mirror (hc.imp id (Or.imp id fun hd => ⟨hd.1, hp hd.2⟩))
  · have hcalm := h.calm hc
    exact ⟨hcalm.semaphore, hcalm.pending, hcalm.queue, hcalm.workers⟩

omit [DecidableEq R] in
/-- `Create` and `Destroy` while the handles are there, up to the release: the accounts stay. -/
theorem OneInv.same {c : State R} (h : OneInv c) {m' : Mem R} {p' : Client} (ha : SameAccounts c.mem m')
    (hp : inSync p' → inSync (c.client 0)) (hd : m'.stage ≠ .down)
    (hc : m'.stage = .creating → m'.pendingReqCount = c.mem.pendingReqCount)
    (hf : m'.stage = .failed → Shut (c.moveClient 0 (m', p')) p') : OneInv (c.moveClient 0 (m', p')) := by
  obtain ⟨-, hpopped, hexec⟩ := ha.history
  refine ⟨fun hd' => absurd hd' hd, fun hcount => ?_, fun hcr => ?_, fun hfail => ?_, ?_⟩
  · rw [moveClient_self] at hcount
    show Mirror m' (∑ i, woken (c.worker i))
    rw [Mirror, ha.semaphore, ha.threadCount, ha.count]
    refine h.mirror ?_
    rw [counts, ← ha.stage]
    exact hcount.imp id (Or.imp id fun hd => ⟨hd.1, hp hd.2⟩)
  · have hcalm := h.calm (ha.stage.symm.trans hcr)
    exact ⟨by rw [show (c.moveClient 0 (m', p')).mem.semaphore = _ from ha.semaphore]; exact hcalm.semaphore,
      (hc hcr).trans hcalm.pending, ha.queue.trans hcalm.queue, hcalm.workers⟩
  · rw [moveClient_self]
    exact hf hfail
  · show (m'.popped : Multiset R) = (m'.executed : Multiset R) + ∑ i, hand (c.worker i)
    rw [hpopped, hexec]
    exact h.handed

omit [DecidableEq R] in
/-- What is left to show of a pool that is being destroyed. -/
theorem OneInv.of_ending {c : State R} (hst : c.mem.stage = .destroying ∨ c.mem.stage = .failed)
    (hm : c.mem.stage = .destroying → inSync (c.client 0) → Mirror c.mem (∑ i, woken (c.worker i)))
    (hf : c.mem.stage = .failed → Shut c (c.client 0)) (hh : Handed c) : OneInv c := by
  refine ⟨fun hd => ?_, fun hc => ?_, fun hc => absurd hc (ending_stage hst).1, hf, hh⟩
  · rcases hst with hst | hst <;> rw [hd] at hst <;> cases hst
  · rcases hc with hc | hc | ⟨hd, hp⟩
    · exact absurd hc (ending_stage hst).1
    · exact absurd hc (ending_stage hst).2
    · exact hm hd hp

omit [DecidableEq R] in
/-- **A pool that is down.** -/
theorem OneInv.of_down {c : State R} (hst : c.mem.stage = .down) (hq : c.mem.requestQueue = []) (hh : Handed c) :
    OneInv c := by
  refine ⟨fun _ => hq, fun hc => ?_, fun hc => ?_, fun hf => ?_, hh⟩
  · rcases hc with hc | hc | ⟨hc, -⟩ <;> rw [hst] at hc <;> cases hc
  · rw [hst] at hc; cases hc
  · rw [hst] at hf; cases hf

omit [DecidableEq R] in
/-- **`Create` begins.** -/
theorem OneInv.createInit {c : State R} (h : OneInv c) (hl : LifeInv c) {n : ℕ} (hst : c.mem.stage = .down)
    (hb : LiveBelow c.mem 0) : OneInv (c.moveClient 0 (initialized c.mem n, .createList)) := by
  have hoff : ∀ i, c.worker i = .off ∨ c.worker i = .wait := fun i => Or.inl (hl.off_of_le hb (Nat.zero_le _))
  refine ⟨fun hd => (by cases hd), fun _ => ⟨0, rfl, ?_, Nat.zero_le _⟩, fun _ => ⟨⟨n, rfl⟩, rfl, h.down hst, hoff⟩,
    fun hf => (by cases hf), ?_⟩
  · show 0 = 0 + ∑ i, woken (c.worker i)
    rw [sum_calm (v := woken) hoff ⟨rfl, rfl⟩, Nat.add_zero]
  · show ((0 : Multiset R)) = 0 + ∑ i, hand (c.worker i)
    rw [sum_calm (v := hand) hoff ⟨rfl, rfl⟩]
    rfl

omit [DecidableEq R] in
/-- `Destroy` begins. -/
theorem OneInv.destroy {c : State R} (h : OneInv c) {last : Option Bool} (hout : c.client 0 = .out last)
    (hctl : Ctl c.mem (.out last)) (hlist : c.mem.threadList ≠ none) :
    OneInv (c.moveClient 0 (beginDestroy c.mem false, .cancel false)) := by
  refine .of_ending (beginDestroy_stage _ _) (fun hd _ => h.mirror ?_) (fun hf => ?_) h.handed
  · rw [hout]
    cases hst : c.mem.stage with
    | down => exact absurd (hctl.of_down hst).1 hlist
    | creating => exact Or.inl hst
    | up => exact Or.inr (Or.inl hst)
    | destroying => exact Or.inr (Or.inr ⟨hst, trivial⟩)
    | failed =>
      change (if c.mem.stage = .failed ∨ false = true then Stage.failed else .destroying) = _ at hd
      rw [if_pos (Or.inl hst)] at hd
      cases hd
  · have hfailed : c.mem.stage = .failed := by
      change (if c.mem.stage = .failed ∨ false = true then Stage.failed else .destroying) = _ at hf
      by_contra hne
      rw [if_neg (by simpa using hne)] at hf
      cases hf
    exact Or.inl ((h.failed hfailed).flag (by simp [hout]))

omit [DecidableEq R] in
/-- **A step of `Create` or `Destroy`.** -/
theorem OneInv.moveController {c : State R} (h : OneInv c) (hl : LifeInv c) {x : Input R} {m' : Mem R} {p' : Client}
    (hx : x.refuse = false) (hs : ClientStep x c.mem (c.client 0) m' p') : OneInv (c.moveClient 0 (m', p')) := by
  have hctl := hl.ctl
  generalize hp : c.client 0 = p at hs hctl
  cases hs with
  | post last hc hpost => exact h.post hl hp hx hpost
  | createRefused last | create last | destroyRefused last =>
    exact h.still (fun _ => by rw [hp]; trivial) (by simp [hp])
  | listFailed | threadFailed | allThreads => exact h.still (fun hs => hs.elim) (by simp [hp])
  | releaseFailed b | allActive b => exact h.still (fun _ => by rw [hp]; trivial) (by simp [hp])
  | waitAll b => exact h.still (fun hs => hs.elim) (by simp [hp])
  | closeThreadsFailed b hr | closeSemaphoreFailed b hr => rw [hx] at hr; cases hr
  | destroy last hc hlist => exact h.destroy hp hctl hlist
  | createInit n =>
    cases hctl with
    | createInit _ hst _ hb _ _ => exact h.createInit hl hst hb
    | ending hp' _ => exact hp'.elim
  | semaphoreFailed n =>
    cases hctl with
    | createInit _ hst _ _ _ _ => exact .of_down hst (h.down hst) h.handed
    | ending hp' _ => exact hp'.elim
  | createList =>
    cases hctl with
    | createList hst _ _ _ =>
      exact h.same ⟨rfl, rfl, rfl, rfl, rfl, rfl, rfl, rfl⟩ (fun hs => hs.elim) (by simp [hst]) (fun _ => rfl)
        fun hf => absurd (hst.symm.trans hf) (by simp)
    | ending hp' _ => exact hp'.elim
  | createThread k hk =>
    cases hctl with
    | createThread _ hst _ _ _ _ =>
      exact h.same ⟨rfl, rfl, rfl, rfl, rfl, rfl, rfl, rfl⟩ (fun hs => hs.elim) (by simp [hst]) (fun _ => rfl)
        fun hf => absurd (hst.symm.trans hf) (by simp)
    | ending hp' _ => exact hp'.elim
  | createFlag =>
    cases hctl with
    | createFlag hst _ _ _ =>
      exact ⟨fun hd => (by cases hd), fun _ => h.mirror (Or.inl hst), fun hc => (by cases hc),
        fun hf => (by cases hf), h.handed⟩
    | ending hp' _ => exact hp'.elim
  | createFailed hlist =>
    cases hctl with
    | noList hst _ _ _ => exact .of_down rfl (h.calm hst).queue h.handed
    | threadFailed _ hlist' => rw [hlist] at hlist'; cases hlist'
    | ending hp' _ => exact hp'.elim
  | createDestroy hlist =>
    have hst : c.mem.stage = .creating := by
      cases hctl with
      | noList hst | threadFailed hst => exact hst
      | ending hp' _ => exact hp'.elim
    have hcalm := h.calm hst
    refine .of_ending (beginDestroy_stage _ _) (fun hd _ => ?_)
      (fun _ => Or.inr ⟨?_, Or.inl (moveClient_self ..)⟩) h.handed
    · simp [Config.moveClient, beginDestroy] at hd
    · exact ⟨hcalm.semaphore, hcalm.pending, hcalm.queue, hcalm.workers⟩
  | cancel b =>
    cases hctl with
    | ending _ he =>
      refine .of_ending he.stage (fun hd _ => h.mirror (Or.inr (Or.inr ⟨hd, by rw [hp]; trivial⟩))) (fun hf => ?_)
        h.handed
      rw [moveClient_self]
      rcases h.failed hf with hd | ⟨hcalm, hplace⟩
      · exact Or.inl hd
      · rw [hp] at hplace
        obtain rfl : b = true := by simpa using hplace
        exact Or.inr ⟨⟨hcalm.semaphore, hcalm.pending, rfl, hcalm.workers⟩, Or.inr rfl⟩
  | setFlag b =>
    cases hctl with
    | ending _ he =>
      refine .of_ending he.stage (fun hd _ => h.mirror (Or.inr (Or.inr ⟨hd, by rw [hp]; trivial⟩))) (fun hf => ?_)
        h.handed
      exact Or.inl ⟨rfl, (h.failed hf).early⟩
  | release b ha hsem hle =>
    cases hctl with
    | ending _ he =>
      refine .of_ending he.stage (fun _ hs => ?_) (fun hf => Or.inl ((h.failed hf).flag (by simp [hp]))) h.handed
      rw [moveClient_self] at hs
      exact hs.elim
  | badHandle b hbad =>
    cases hctl with
    | ending _ he =>
      refine .of_ending he.stage (fun hd _ => absurd (he.full hd) hbad)
        (fun hf => Or.inl ((h.failed hf).flag (by simp [hp]))) h.handed
  | closeThreads b =>
    cases hctl with
    | closeThreads _ hst _ _ =>
      refine .of_ending hst (fun _ hs => ?_) (fun hf => Or.inl ((h.failed hf).flag (by simp [hp]))) h.handed
      rw [moveClient_self] at hs
      exact hs.elim
    | ending hp' _ => exact hp'.elim
  | closeSemaphore b =>
    cases hctl with
    | closeSemaphore _ hst _ _ =>
      refine .of_ending hst (fun _ hs => ?_) (fun hf => Or.inl ((h.failed hf).flag (by simp [hp]))) h.handed
      rw [moveClient_self] at hs
      exact hs.elim
    | ending hp' _ => exact hp'.elim
  | clear b => exact .of_down rfl rfl h.handed

/-- **The invariant holds in every run** of a pool that one thread uses. -/
theorem one_reach {ok : State R → Tid × Input R → Prop} (hok : ∀ c a, ok c a → oneUser c a) {c : State R}
    (h : Reach (pool R).lts ok c) : OneInv c ∧ LifeInv c := by
  refine controlled_induct (I := OneInv) (fun c a _ ha => controlled_of_oneUser (hok c a ha)) ?_ ?_ ?_ ?_ h
  · rintro _ rfl
    refine .of_down rfl rfl ?_
    show (0 : Multiset R) = 0 + ∑ _i : Fin maxThreads, (0 : Multiset R)
    rw [Finset.sum_const_zero, add_zero]
  · intro c i x r _ hl hi _ hs
    exact hi.moveWorker hl hs
  · intro c x m' p' _ hl hi ha hs
    exact hi.moveController hl (hok c _ ha).1 hs
  · intro c k x q v m' p' _ _ _ hk ha _ _
    exact absurd ((hok c _ ha).2 k rfl) hk

/-! ### What follows -/

omit [DecidableEq R] in
/-- **Who pops is in a pool that has requests.** -/
theorem OneInv.working_of_pop {c : State R} (h : OneInv c) (hl : LifeInv c) {i : Fin maxThreads}
    (hi : ¬ early (c.worker i)) : working c.mem := by
  refine ⟨fun hd => hi ?_, fun hf => hi ((h.failed hf).early i)⟩
  rw [hl.off_of_le (hl.ctl.of_down hd).2 (Nat.zero_le _)]
  trivial

/-- The requests a pool has seen: those popped, and those on the list. -/
def seen (m : Mem R) : List R := m.popped ++ m.requestQueue

omit [DecidableEq R] in
/-- **What `Create` and `Destroy` do to the requests**: they are forgotten when the pool is created, and taken from the
list when it is destroyed. -/
theorem clientStep_seen {x : Input R} {m m' : Mem R} {p p' : Client} (hs : ClientStep x m p m' p') (hctl : Ctl m p)
    (hx : ∀ r, x.call ≠ some (.postRequest r)) (hw : working m') :
    (m'.popped = [] ∧ m'.requestQueue = m.requestQueue ∧ m.stage = .down) ∨
      (working m ∧ (seen m').Sublist (seen m)) := by
  cases hs with
  | post last hc _ => exact absurd hc (hx _)
  | createInit n =>
    cases hctl with
    | createInit _ hst _ _ _ _ => exact Or.inl ⟨rfl, rfl, hst⟩
    | ending hp _ => exact hp.elim
  | createFlag =>
    cases hctl with
    | createFlag hst _ _ _ => exact Or.inr ⟨by simp [working, hst], List.Sublist.refl _⟩
    | ending hp _ => exact hp.elim
  | createFailed _ | clear _ => exact absurd rfl hw.1
  | createDestroy _ => exact absurd (by simp [beginDestroy]) hw.2
  | destroy _ _ hlist =>
    refine Or.inr ⟨⟨fun hd => hlist (hctl.of_down hd).1, fun hf => ?_⟩, List.Sublist.refl _⟩
    exact hw.2 (by simp [beginDestroy, hf])
  | cancel b => exact Or.inr ⟨hw, (List.nil_sublist _).append_left _⟩
  | _ => exact Or.inr ⟨hw, List.Sublist.refl _⟩

omit [DecidableEq R] in
/-- What has been popped stays so until the pool is created again. -/
theorem clientStep_popped {x : Input R} {m m' : Mem R} {p p' : Client} (hs : ClientStep x m p m' p') :
    m'.popped = m.popped ∨ m'.popped = [] := by
  cases hs with
  | post _ _ hp => exact Or.inl (postStep_history hp).1
  | createInit n => exact Or.inr rfl
  | _ => exact Or.inl rfl

end PoolStudy.TP.OneThread
