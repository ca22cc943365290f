import PoolStudy.TP.Life
import Mathlib.Data.Fintype.Fin

/-! # The Windows thread pool: `Destroy`

`Destroy` releases one token for every thread that is not counted in `m_lActiveThread`, and waits for all
threads. The kernel refuses this if tokens are left from requests that no worker has taken up yet. And a worker
that is counted is taken to find the flag set before it waits again; one that has passed its test of the flag
goes back to its wait, and there may be no token for it. `destroy_ends` says that nothing else can go wrong, and
that a worker for which there is no token keeps `Destroy` waiting for ever. -/

namespace PoolStudy.TP.Destroy

open PoolStudy.Lib.Transition PoolStudy.Lib.Threads PoolStudy.TP.Model PoolStudy.TP.Steps PoolStudy.TP.Life

variable {R : Type} [DecidableEq R]

/-! ### Places -/

/-- The thread of the handle `i`, and where its worker is. -/
def place (c : State R) (i : Fin maxThreads) : Thread × Worker R := (c.mem.thread i, c.worker i)

/-- The worker waits for a token, or will when its thread begins. -/
def waits : Thread × Worker R → ℕ
  | (_, .wait) => 1
  | (.created, .off) => 1
  | _ => 0

/-- The worker waits for a token, or will without testing the flag again. -/
def willWait : Thread × Worker R → ℕ
  | (_, .leave) => 1
  | p => waits p

/-- The number of workers that wait for a token. -/
def waiting (c : State R) : ℕ := ∑ i, waits (place c i)

/-- The number of workers that wait for a token or are on their way back to their wait. -/
def toWait (c : State R) : ℕ := ∑ i, willWait (place c i)

/-- `Destroy` of a pool that has been created waits for the threads. -/
def inWait (c : State R) : Prop := c.mem.stage = .destroying ∧ ∃ b, c.client 0 = .waitAll b

theorem place_moveWorker {c : State R} {i : Fin maxThreads} {x : Input R} {r : Mem R × Worker R}
    (hs : WorkerStep i x c.mem (c.worker i) r.1 r.2) (hl : LifeInv c) :
    place (c.moveWorker i r) = Function.update (place c) i (r.1.thread i, r.2) := by
  have hother := (workerStep_thread hs (hl.runs i)).2
  funext j
  rcases moveWorker_cases c i r j with ⟨rfl, hj⟩ | ⟨hne, hj⟩
  · rw [Function.update_self, place, hj]
    rfl
  · rw [Function.update_of_ne hne, place, hj, place]
    show (r.1.thread j, _) = _
    rw [hother j fun he => hne (Fin.ext he)]

omit [DecidableEq R] in
/-- A worker that waits, or will, has a live thread. -/
theorem live_of_willWait {c : State R} (hl : LifeInv c) {i : Fin maxThreads} (h : 0 < willWait (place c i)) :
    live c.mem i := by
  by_cases hr : c.mem.thread i = .running
  · exact Or.inr hr
  · have hoff := (hl.runs i).mpr hr
    left
    cases ht : c.mem.thread i with
    | created => rfl
    | running => exact absurd ht hr
    | none | ended => simp [place, hoff, ht, willWait, waits] at h

omit [DecidableEq R] in
theorem waits_le_willWait (p : Thread × Worker R) : waits p ≤ willWait p := by
  obtain ⟨t, w⟩ := p
  cases w <;> cases t <;> simp [waits, willWait]

omit [DecidableEq R] in
/-- A worker waits or is in the scope of its `AutoCounter`, not both. -/
theorem waits_add_inScope_le (t : Thread) (w : Worker R) : waits (t, w) + inScope w ≤ 1 := by
  cases w <;> cases t <;> simp [waits, inScope]

omit [DecidableEq R] in
/-- **The workers that wait and those that are active** are threads of the pool. -/
theorem waiting_add_active_le {c : State R} (hl : LifeInv c) {n : ℕ} (hb : LiveBelow c.mem n)
    (hn : n ≤ maxThreads) : waiting c + c.mem.activeThread ≤ n := by
  have hone : ∀ i : Fin maxThreads, waits (place c i) + inScope (c.worker i) ≤ if i.val < n then 1 else 0 := by
    intro i
    split_ifs with hi
    · exact waits_add_inScope_le _ _
    · have hdead : ¬ live c.mem i := fun h => hi (hb i h)
      have hoff := (hl.runs i).mpr fun hr => hdead (Or.inr hr)
      have hw : willWait (place c i) = 0 := by
        by_contra hne
        exact hdead (live_of_willWait hl (Nat.pos_of_ne_zero hne))
      have := waits_le_willWait (place c i)
      rw [hoff]
      simp only [inScope]
      omega
  calc waiting c + c.mem.activeThread
      = ∑ i, (waits (place c i) + inScope (c.worker i)) := by
        rw [hl.active, waiting, Finset.sum_add_distrib]
    _ ≤ ∑ i : Fin maxThreads, if i.val < n then 1 else 0 := Finset.sum_le_sum fun i _ => hone i
    _ = n := by rw [← Finset.card_filter, Fin.card_filter_val_lt, min_eq_right hn]

/-! ### What a step does to the tokens and the waiting workers -/

/-- **A step of a worker**: the tokens for the waiting workers are not fewer, unless it goes back to its wait.
Nor are they more, compared with the workers that wait or are on their way back. -/
theorem workerStep_tokens {i : Fin maxThreads} {x : Input R} {m m' : Mem R} {w w' : Worker R} {s : Semaphore}
    (hs : WorkerStep i x m w m' w') (hsem : m.semaphore = some s) :
    ∃ s', m'.semaphore = some s' ∧
      (w ≠ .leave → s.count + waits (m'.thread i, w') ≤ s'.count + waits (m.thread i, w)) ∧
      (w = .leave → s' = s ∧ waits (m'.thread i, w') = 1) ∧
      s'.count + willWait (m.thread i, w) ≤ s.count + willWait (m'.thread i, w') := by
  cases hs with
  | start ht => exact ⟨s, hsem, fun _ => by simp [ht, waits], fun h => (by cases h), by simp [ht, waits, willWait]⟩
  | acquire hs hpos =>
    obtain rfl := Option.some.inj (hs.symm.trans hsem)
    refine ⟨_, rfl, fun _ => ?_, fun h => (by cases h), ?_⟩ <;> simp only [waits, willWait] <;> omega
  | waitFailed hs => cases hs.symm.trans hsem
  | passOn hp hc hs hle =>
    obtain rfl := Option.some.inj (hs.symm.trans hsem)
    exact ⟨_, rfl, fun _ => by simp [waits], fun h => (by cases h), by simp [waits, willWait]⟩
  | leave => exact ⟨s, hsem, fun h => absurd rfl h, fun _ => ⟨rfl, rfl⟩, le_rfl⟩
  | exit => exact ⟨s, hsem, fun _ => by simp [waits], fun h => (by cases h), by simp [waits, willWait]⟩
  | _ => exact ⟨s, hsem, fun _ => by simp [waits], fun h => (by cases h), by simp [waits, willWait]⟩

theorem waiting_moveWorker {c : State R} {i : Fin maxThreads} {x : Input R} {r : Mem R × Worker R}
    (hs : WorkerStep i x c.mem (c.worker i) r.1 r.2) (hl : LifeInv c) :
    waiting (c.moveWorker i r) + waits (c.mem.thread i, c.worker i) =
      waiting c + waits (r.1.thread i, r.2) := by
  rw [waiting, place_moveWorker hs hl]
  exact sum_update (fun _ => waits) (place c) i (r.1.thread i, r.2)

theorem toWait_moveWorker {c : State R} {i : Fin maxThreads} {x : Input R} {r : Mem R × Worker R}
    (hs : WorkerStep i x c.mem (c.worker i) r.1 r.2) (hl : LifeInv c) :
    toWait (c.moveWorker i r) + willWait (c.mem.thread i, c.worker i) =
      toWait c + willWait (r.1.thread i, r.2) := by
  rw [toWait, place_moveWorker hs hl]
  exact sum_update (fun _ => willWait) (place c) i (r.1.thread i, r.2)

omit [DecidableEq R] in
/-- A post takes no token. -/
theorem postStep_tokens {x : Input R} {m m' : Mem R} {r : R} {v : Bool} {s : Semaphore} (hp : PostStep x m r m' v)
    (hsem : m.semaphore = some s) : ∃ s', m'.semaphore = some s' ∧ s.count ≤ s'.count := by
  cases hp with
  | notify hl hc hs hle =>
    obtain rfl := Option.some.inj (hs.symm.trans hsem)
    exact ⟨_, rfl, Nat.le_succ _⟩
  | _ => exact ⟨s, hsem, le_rfl⟩

/-! ### The condition -/

/-- **When `Destroy` releases the semaphore, no more tokens are left than workers are active.** -/
def releaseFits (c : State R) (a : Tid × Input R) : Prop :=
  a.1 = .inr 0 → (∃ b, c.client 0 = .release b) → c.mem.stage = .destroying →
    c.mem.activeThread < c.mem.threadCount → ∀ s, c.mem.semaphore = some s → s.count ≤ c.mem.activeThread

/-- **While `Destroy` waits, a worker goes back to its wait only if there is a token more than workers
waiting.** -/
def returnFits (c : State R) (a : Tid × Input R) : Prop :=
  ∀ i, a.1 = .inl i → c.worker i = .leave → inWait c → ∀ s, c.mem.semaphore = some s → waiting c < s.count

/-- The steps the results are about. -/
def orderly (c : State R) (a : Tid × Input R) : Prop := controlled c a ∧ releaseFits c a ∧ returnFits c a

omit [DecidableEq R] in
/-- The controller is in its wait: the handles and the semaphore are there. -/
theorem ending_of_inWait {c : State R} (hl : LifeInv c) (h : inWait c) : Ending c.mem := by
  obtain ⟨-, b, hb⟩ := h
  have hctl := hl.ctl
  rw [hb] at hctl
  cases hctl with
  | ending _ he => exact he

/-- **The invariant**: `Destroy` has not failed, and while it waits, there is a token for every worker that
does. -/
structure DestroyInv (c : State R) : Prop where
  goesOn : c.mem.stage = .destroying → ∀ v, c.client 0 ≠ .out v
  tokens : inWait c → ∀ s, c.mem.semaphore = some s → waiting c ≤ s.count

theorem DestroyInv.moveWorker {c : State R} (h : DestroyInv c) (hl : LifeInv c) {i : Fin maxThreads} {x : Input R}
    {r : Mem R × Worker R} (hok : returnFits c (.inl i, x)) (hs : WorkerStep i x c.mem (c.worker i) r.1 r.2) :
    DestroyInv (c.moveWorker i r) := by
  have hst := (workerStep_same hs).stage
  refine ⟨fun hd => h.goesOn (hst.symm.trans hd), fun hw s' hs' => ?_⟩
  have hw' : inWait c := ⟨hst.symm.trans hw.1, hw.2⟩
  have hsum := waiting_moveWorker hs hl
  obtain ⟨s, hsem, -⟩ := (ending_of_inWait hl hw').sized.semaphore
  obtain ⟨s1, hs1, hkeep, hback, -⟩ := workerStep_tokens hs hsem
  obtain rfl := Option.some.inj (hs1.symm.trans hs')
  have htok := h.tokens hw' s hsem
  by_cases hleave : c.worker i = .leave
  · obtain ⟨rfl, h1⟩ := hback hleave
    have := hok i rfl hleave hw' _ hsem
    omega
  · have := hkeep hleave
    omega

omit [DecidableEq R] in
/-- The threads, the semaphore's tokens or more, and the place of `Destroy` stay. -/
theorem DestroyInv.post {c : State R} (h : DestroyInv c) (hl : LifeInv c) {k : ℕ} (hk : k ≠ 0) {x : Input R} {q : R}
    {v : Bool} {m' : Mem R} {p' : Client} (hp : PostStep x c.mem q m' v) :
    DestroyInv (c.moveClient k (m', p')) := by
  have hst := (postStep_same hp).stage
  have h0 : (c.moveClient k (m', p')).client 0 = c.client 0 := moveClient_other c (Ne.symm hk) _
  refine ⟨fun hd => ?_, fun hw s' hs' => ?_⟩
  · rw [h0]
    exact h.goesOn (hst.symm.trans hd)
  · have hw' : inWait c := ⟨hst.symm.trans hw.1, by rw [← h0]; exact hw.2⟩
    obtain ⟨s, hsem, -⟩ := (ending_of_inWait hl hw').sized.semaphore
    obtain ⟨s1, hs1, hle⟩ := postStep_tokens hp hsem
    obtain rfl := Option.some.inj (hs1.symm.trans hs')
    have hplace : waiting (c.moveClient k (m', p')) = waiting c := by
      simp only [waiting, place, Config.moveClient, (postStep_thread hp).1]
    rw [hplace]
    exact (h.tokens hw' s hsem).trans hle

omit [DecidableEq R] in
/-- **`Destroy` releases the semaphore**: there is a token for every worker that waits. -/
theorem released_tokens {c : State R} (hl : LifeInv c) (he : Ending c.mem) (s : Semaphore) :
    waiting c ≤ s.count + (c.mem.threadCount - c.mem.activeThread) := by
  have := waiting_add_active_le hl he.below he.sized.le
  omega

omit [DecidableEq R] in
/-- If no more tokens are left than workers are active, the kernel does not refuse. -/
theorem release_fits {m : Mem R} (hz : Sized m) {x : Input R} (hx : x.refuse = false)
    (hlt : m.activeThread < m.threadCount) :
    releaseSemaphore m x (m.threadCount - m.activeThread) ≠ none ↔
      ∀ s, m.semaphore = some s → s.count ≤ m.activeThread := by
  obtain ⟨s, hs, hmax⟩ := hz.semaphore
  refine ⟨fun h s' hs' => ?_, fun h hr => ?_⟩
  · obtain ⟨m', hm'⟩ := Option.ne_none_iff_exists'.mp h
    obtain ⟨s1, hs1, hle, -⟩ := releaseSemaphore_some hm'
    obtain rfl := Option.some.inj (hs1.symm.trans hs)
    obtain rfl := Option.some.inj (hs1.symm.trans hs')
    omega
  · have := releaseSemaphore_none hr hs (by omega) hx
    have := h s hs
    omega

omit [DecidableEq R] in
theorem DestroyInv.moveController {c : State R} (h : DestroyInv c) (hl : LifeInv c) {x : Input R} {m' : Mem R}
    {p' : Client} (hx : x.refuse = false) (hok : releaseFits c (.inr 0, x))
    (hs : ClientStep x c.mem (c.client 0) m' p') : DestroyInv (c.moveClient 0 (m', p')) := by
  have hctl := hl.ctl
  have hfits := hok rfl
  have hgo := h.goesOn
  generalize hp : c.client 0 = p at hs hctl hfits hgo
  -- outside of its wait, only that `Destroy` has not failed is to be shown
  have hother : (m'.stage = .destroying → (∀ v, p' ≠ .out v) ∧ ∀ b, p' ≠ .waitAll b) →
      DestroyInv (c.moveClient 0 (m', p')) := by
    intro hstage
    refine ⟨fun hd => ?_, ?_⟩
    · rw [moveClient_self]
      exact (hstage hd).1
    · rintro ⟨hd, b, hb⟩
      rw [moveClient_self] at hb
      exact absurd hb ((hstage hd).2 b)
  cases hs with
  | post last hc hps => exact hother fun hd => absurd rfl (hgo ((postStep_same hps).stage.symm.trans hd) _)
  | createRefused last | create last | destroyRefused last => exact hother fun hd => absurd rfl (hgo hd last)
  | release b ha hsem hle =>
    cases hctl with
    | ending _ he =>
      refine ⟨fun _ v => ?_, fun _ s' hs' => ?_⟩
      · rw [moveClient_self]
        simp
      · obtain rfl := Option.some.inj hs'
        exact released_tokens hl he _
  | releaseFailed b ha hr =>
    cases hctl with
    | ending _ he =>
      refine hother fun hd => absurd hr ?_
      exact (release_fits he.sized hx ha).mpr (hfits ⟨b, rfl⟩ hd ha)
  | allActive b ha =>
    cases hctl with
    | ending _ he =>
      refine ⟨fun _ v => ?_, fun _ s' _ => ?_⟩
      · rw [moveClient_self]
        simp
      · have := waiting_add_active_le hl he.below he.sized.le
        show waiting c ≤ s'.count
        omega
  | badHandle b hlist =>
    cases hctl with
    | ending _ he => exact hother fun hd => absurd (he.full hd) hlist
  | closeThreadsFailed b hr | closeSemaphoreFailed b hr => rw [hx] at hr; cases hr
  | createInit | createFlag | createFailed | clear => exact hother fun hd => (by cases hd)
  | semaphoreFailed n =>
    cases hctl with
    | createInit _ hst _ _ _ _ => exact hother fun hd => (by cases hst.symm.trans hd)
    | ending hp _ => exact hp.elim
  | _ => exact hother fun _ => ⟨by simp, by simp⟩

theorem destroy_reach {c : State R} (h : Reach (pool R).lts orderly c) : DestroyInv c ∧ LifeInv c := by
  refine controlled_induct (I := DestroyInv) (fun _ _ _ ha => ha.1) ?_ ?_ ?_ ?_ h
  · rintro _ rfl
    exact ⟨fun hd => (by cases hd), fun hw => (by cases hw.1)⟩
  · intro c i x r _ hl hi ha hs
    exact hi.moveWorker hl ha.2.2 hs
  · intro c x m' p' _ hl hi ha hs
    exact hi.moveController hl ha.1.1 ha.2.1 hs
  · intro c k x q v m' p' _ hl hi hk _ _ hp
    exact hi.post hl hk hp

/-! ### A token too few -/

/-- **Fewer tokens than workers that wait for one or will**, while `Destroy` waits for the threads. -/
structure Short (c : State R) : Prop where
  life : LifeInv c
  inWait : inWait c
  tokens : ∀ s, c.mem.semaphore = some s → s.count < toWait c

/-- Nothing is posted. -/
def noPost (c : State R) (a : Tid × Input R) : Prop :=
  controlled c a ∧ ∀ r, a.2.call ≠ some (.postRequest r)

omit [DecidableEq R] in
/-- The wait of `Destroy` is not over. -/
theorem Short.not_ended {c : State R} (h : Short c) : ¬ ∀ i < c.mem.threadCount, c.mem.thread i = .ended := by
  intro hend
  have he := ending_of_inWait h.life h.inWait
  obtain ⟨s, hsem, -⟩ := he.sized.semaphore
  have hzero : toWait c = 0 := by
    refine Finset.sum_eq_zero fun i _ => ?_
    by_contra hne
    have hlive := live_of_willWait h.life (Nat.pos_of_ne_zero hne)
    have hi := hend i (he.below i hlive)
    rcases hlive with hc | hr
    · cases hc.symm.trans hi
    · cases hr.symm.trans hi
  have := h.tokens s hsem
  omega

/-- **A token too few stays one too few.** -/
theorem Short.next {c c' : State R} {a : Tid × Input R} (h : Short c) (hok : noPost c a)
    (hs : (pool R).lts.next c a = some c') : Short c' := by
  have he := ending_of_inWait h.life h.inWait
  obtain ⟨s, hsem, -⟩ := he.sized.semaphore
  rcases Program.next_cases hs with ⟨i, x, r, rfl, hw, rfl⟩ | ⟨k, x, r, rfl, hw, rfl⟩
  · have hws := workerStep_cases hw
    refine ⟨h.life.moveWorker hws, ⟨(workerStep_same hws).stage.trans h.inWait.1, h.inWait.2⟩, fun s' hs' => ?_⟩
    obtain ⟨s1, hs1, -, -, hle⟩ := workerStep_tokens hws hsem
    obtain rfl := Option.some.inj (hs1.symm.trans hs')
    have hsum := toWait_moveWorker hws h.life
    have := h.tokens s hsem
    omega
  · have hcl := clientStep_cases hw
    by_cases hk : k = 0
    · subst hk
      obtain ⟨b, hb⟩ := h.inWait.2
      rw [hb] at hcl
      generalize r.1 = m', r.2 = p' at hcl
      cases hcl with
      | badHandle _ hlist => exact absurd (he.full h.inWait.1) hlist
      | waitAll _ _ hend => exact absurd hend h.not_ended
    · obtain ⟨q, v, hc, -, -⟩ := post_of_controlled hcl (hok.1.2 k rfl hk) (h.life.others k hk)
      exact absurd hc (hok.2 q)

/-- A worker that goes back to its wait without a token for it leaves a token too few. -/
theorem short_of_return {c c' : State R} {i : Fin maxThreads} {x : Input R} (hl : LifeInv c)
    (hno : ¬ returnFits c (.inl i, x)) (hs : (pool R).lts.next c (.inl i, x) = some c') : Short c' := by
  simp only [returnFits, not_forall, not_lt] at hno
  obtain ⟨i', hi, hleave, hw, s, hsem, hle⟩ := hno
  obtain rfl := Sum.inl.inj hi
  obtain ⟨r, hr, rfl⟩ := Option.map_eq_some_iff.mp hs
  have hws := workerStep_cases hr
  refine ⟨hl.moveWorker hws, ⟨(workerStep_same hws).stage.trans hw.1, hw.2⟩, fun s' hs' => ?_⟩
  obtain ⟨s1, hs1, -, hback, -⟩ := workerStep_tokens hws hsem
  obtain rfl := Option.some.inj (hs1.symm.trans hs')
  obtain ⟨rfl, hone⟩ := hback hleave
  have hsum := waiting_moveWorker hws hl
  have hzero : waits (c.mem.thread i, c.worker i) = 0 := by rw [hleave]; simp [waits]
  have : waiting (c.moveWorker i r) ≤ toWait (c.moveWorker i r) :=
    Finset.sum_le_sum fun j _ => waits_le_willWait _
  omega

/-! ### The result -/

omit [DecidableEq R] in
/-- A worker at its wait is counted. -/
theorem waiting_pos {c : State R} {i : Fin maxThreads} (h : c.worker i = .wait) : 0 < waiting c := by
  have hone : waits (place c i) = 1 := by rw [place, h]; rfl
  have hle : waits (place c i) ≤ waiting c := le_sum (place c) i fun _ => waits
  omega

/-- **`Destroy` brings every worker to its exit as long as it finds no more tokens than active workers, and no
worker goes back to its wait without a token for it.** Then it does not fail, and while it waits for the threads,
there is a token for every worker that waits. If it finds more tokens, its `ReleaseSemaphore` fails and it
returns; if a worker goes back without one, it waits for ever unless something is posted. -/
theorem destroy_ends_iff :
    (∀ c : State R, Reach (pool R).lts orderly c → c.mem.stage = .destroying →
      (∀ v, c.client 0 ≠ .out v) ∧
      ((∃ b, c.client 0 = .waitAll b) → ∀ i, c.worker i = .wait → tokenLeft c.mem)) ∧
    (∀ (c c' : State R) (b : Bool) (x : Input R), Reach (pool R).lts controlled c → c.mem.stage = .destroying →
      c.client 0 = .release b → controlled c (.inr 0, x) → (pool R).lts.next c (.inr 0, x) = some c' →
      ((∃ v, c'.client 0 = .out v) ↔ ¬ releaseFits c (.inr 0, x))) ∧
    (∀ (c c' : State R) (i : Fin maxThreads) (x : Input R), Reach (pool R).lts controlled c →
      ¬ returnFits c (.inl i, x) → (pool R).lts.next c (.inl i, x) = some c' →
      ∀ c'', Runs (pool R).lts noPost c' c'' → ∃ b, c''.client 0 = .waitAll b) := by
  refine ⟨fun c h hd => ?_, fun c c' b x h hd hb hok hs => ?_, fun c c' i x h hno hs c'' hruns => ?_⟩
  · obtain ⟨hi, hl⟩ := destroy_reach h
    refine ⟨hi.goesOn hd, fun hw i hwait => ?_⟩
    obtain ⟨s, hsem, -⟩ := (ending_of_inWait hl ⟨hd, hw⟩).sized.semaphore
    exact ⟨s, hsem, (waiting_pos hwait).trans_le (hi.tokens ⟨hd, hw⟩ s hsem)⟩
  · have hl := life_reach (fun _ _ ha => ha) h
    obtain ⟨r, hr, rfl⟩ := Option.map_eq_some_iff.mp hs
    have hcl := clientStep_cases hr
    have hctl := hl.ctl
    rw [hb] at hcl hctl
    rw [moveClient_self]
    have hz : Sized c.mem := by
      cases hctl with
      | ending _ he => exact he.sized
    generalize r.1 = m', r.2 = p' at hcl
    cases hcl with
    | release _ ha hsem hle =>
      refine iff_of_false (by simp) (not_not.mpr fun _ _ _ _ s hs => ?_)
      obtain ⟨s1, hs1, hmax⟩ := hz.semaphore
      obtain rfl := Option.some.inj (hsem.symm.trans hs1)
      obtain rfl := Option.some.inj (hsem.symm.trans hs)
      omega
    | releaseFailed _ ha hno =>
      refine iff_of_true ⟨_, rfl⟩ fun hfits => ?_
      exact (release_fits hz hok.1 ha).mpr (hfits rfl ⟨b, hb⟩ hd ha) hno
    | allActive _ ha => exact iff_of_false (by simp) (not_not.mpr fun _ _ _ hlt => absurd hlt (by omega))
  · have hshort := short_of_return (life_reach (fun _ _ ha => ha) h) hno hs
    exact (hruns.keeps (fun _ _ _ h1 h2 h3 => h1.next h2 h3) hshort).inWait.2

/-- The test for an allowed step of a run in which no worker goes back to its wait. -/
def orderlyTest (c : State R) (a : Tid × Input R) : Bool :=
  controlledTest a && (match a.1 with
    | .inl i => decide (c.worker i ≠ .leave)
    | .inr _ => decide (c.mem.semaphore.all fun s => decide (s.count ≤ c.mem.activeThread)))

theorem orderly_of_test (c : State R) (a : Tid × Input R) (h : orderlyTest c a = true) : orderly c a := by
  simp only [orderlyTest, Bool.and_eq_true] at h
  refine ⟨controlled_of_test c a h.1, fun ha _ _ _ s hs => ?_, fun i hi hw => ?_⟩
  · have h2 := h.2
    rw [ha, hs] at h2
    simpa using h2
  · have h2 := h.2
    rw [hi] at h2
    exact absurd hw (of_decide_eq_true h2)

/-- A pool of two threads whose workers wait is destroyed. -/
def idleRun : List (Tid × Input ℕ) :=
  createCall 2 ++ steps (.inl 0) 1 ++ steps (.inl 1) 1 ++ destroyCall ++ steps (.inl 0) 1

theorem destroy_ends_iff_idleRun : ∃ c : State ℕ, Reach (pool ℕ).lts orderly c ∧ c.mem.stage = .destroying ∧
    c.client 0 = .waitAll false ∧ c.worker 1 = .wait ∧ tokenLeft c.mem := by
  obtain ⟨c, hc, hp⟩ := reach_of_run (pool ℕ).lts orderly_of_test idleRun
    (fun c => decide (c.mem.stage = .destroying) && decide (c.client 0 = .waitAll false) &&
      decide (c.worker 1 = .wait)) rfl (by decide)
  simp only [Bool.and_eq_true, decide_eq_true_eq] at hp
  obtain ⟨⟨hd, hb⟩, hw⟩ := hp
  exact ⟨c, hc, hd, hb, hw, (destroy_ends_iff.1 c hc hd).2 ⟨false, hb⟩ 1 hw⟩

/-- A request has been posted to a pool of two threads and not been taken up when the pool is destroyed. -/
def unclaimedRun : List (Tid × Input ℕ) :=
  createCall 2 ++ steps (.inl 0) 1 ++ steps (.inl 1) 1 ++ post 7 ++ destroyCall ++ steps (.inl 0) 6

/-- **`Destroy` fails and leaves a worker behind**: the first worker has ended with the token of the request, and
the second one waits at a semaphore whose count is 0. -/
theorem worker_left_behind_unclaimedRun : ∃ c : State ℕ, Reach (pool ℕ).lts controlled c ∧
    c.mem.stage = .destroying ∧ c.client 0 = .out (some false) ∧ c.mem.threadCount = 2 ∧
    c.mem.thread 0 = .ended ∧ c.worker 1 = .wait ∧ c.mem.semaphore = some ⟨0, 2⟩ := by
  obtain ⟨c, hc, hp⟩ := reach_of_run (pool ℕ).lts (fun c a h => controlled_of_test c a h) unclaimedRun
    (fun c => decide (c.mem.stage = .destroying) && decide (c.client 0 = .out (some false)) &&
      decide (c.mem.threadCount = 2) && decide (c.mem.thread 0 = .ended) && decide (c.worker 1 = .wait) &&
      decide (c.mem.semaphore = some ⟨0, 2⟩)) rfl (by decide)
  simp only [Bool.and_eq_true, decide_eq_true_eq] at hp
  obtain ⟨⟨⟨⟨⟨hd, hb⟩, hn⟩, ht⟩, hw⟩, hs⟩ := hp
  exact ⟨c, hc, hd, hb, hn, ht, hw, hs⟩

end PoolStudy.TP.Destroy
