import PoolStudy.TP.Life

/-! # The Windows thread pool: a `Create` that fails

`Create` cleans up after a thread that could not be started by calling `Destroy`, which waits for all handles of
`m_phThreadList`; those behind the failure were never written, so the wait fails and `Destroy` gives up
(`Partial`). If there is no memory for the list, `Destroy` finds no pool and gives up at once, with the semaphore open.
So nothing is left behind exactly if it is `CreateSemaphore` that failed. A pool with a partial list stays: no later
`Create` succeeds. -/

namespace PoolStudy.TP.Create

open PoolStudy.Lib.Transition PoolStudy.Lib.Threads PoolStudy.TP.Model PoolStudy.TP.Steps PoolStudy.TP.Life

variable {R : Type} [DecidableEq R]

omit [DecidableEq R] in
/-- **Nothing of a pool is there**: no list, no thread, no semaphore. -/
structure Undone (m : Mem R) : Prop where
  list : m.threadList = none
  threads : ∀ j, ¬ live m j
  semaphore : m.semaphore = none

/-- The places in `Create` behind its first tests, those of the `Destroy` it calls included. -/
def inCreate : Client → Prop
  | .createInit _ | .createList | .createThread _ | .createFlag | .destroy => True
  | .cancel b | .setFlag b | .release b | .waitAll b | .closeThreads b | .closeSemaphore b | .clear b => b = true
  | .out _ => False

/-- `CreateSemaphore` fails. -/
def semaphoreFails (p : Client) (x : Input R) : Prop := (∃ n, p = .createInit n) ∧ x.alloc = false

omit [DecidableEq R] in
/-- Not all handles of the list have been written. -/
def Partial (m : Mem R) : Prop := ∃ k, m.threadList = some k ∧ k < m.threadCount

omit [DecidableEq R] in
theorem Partial.list {m : Mem R} (h : Partial m) : m.threadList ≠ none := by
  obtain ⟨k, hk, -⟩ := h
  rw [hk]
  simp

omit [DecidableEq R] in
theorem Partial.same {m m' : Mem R} (h : Partial m) (hs : SameLife m m') : Partial m' := by
  obtain ⟨k, hk, hlt⟩ := h
  exact ⟨k, hs.list.trans hk, by rw [hs.count]; exact hlt⟩

/-- **What a `Create` that cannot start its threads leaves.** -/
def CreateInv (m : Mem R) : Client → Prop
  | .destroy => m.threadList = none ∨ Partial m
  | .cancel b | .setFlag b | .release b | .waitAll b => b = true → Partial m
  | .closeThreads b | .closeSemaphore b | .clear b => b = false
  | _ => True

omit [DecidableEq R] in
theorem CreateInv.same {m m' : Mem R} {p : Client} (h : CreateInv m p) (hs : SameLife m m') : CreateInv m' p := by
  cases p with
  | destroy => exact h.imp (fun hl => hs.list.trans hl) fun hp => hp.same hs
  | cancel b | setFlag b | release b | waitAll b => exact fun hb => (h hb).same hs
  | closeThreads b | closeSemaphore b | clear b => exact h
  | _ => trivial

omit [DecidableEq R] in
theorem clientStep_create {x : Input R} {m m' : Mem R} {p p' : Client} (hs : ClientStep x m p m' p') (hc : Ctl m p)
    (h : CreateInv m p) : CreateInv m' p' := by
  cases hs with
  | listFailed =>
    cases hc with
    | createList _ hl _ _ => exact Or.inl hl
    | ending hp _ => exact hp.elim
  | threadFailed k hk =>
    cases hc with
    | createThread _ _ hl _ _ _ => exact Or.inr ⟨k, hl, hk⟩
    | ending hp _ => exact hp.elim
  | createDestroy hl => exact fun _ => h.resolve_left hl
  | destroy last hx hl => exact nofun
  | cancel b | setFlag b => exact h
  | release b ha hsem hle => exact fun hb => (h hb).same (.tokens hsem rfl rfl rfl rfl rfl)
  | allActive b ha => exact h
  | waitAll b hl ht =>
    show b = false
    by_contra hb
    obtain ⟨k, hk, hlt⟩ := h (Bool.eq_true_of_not_eq_false hb)
    rw [hl, Option.some.injEq] at hk
    omega
  | closeThreads b | closeSemaphore b => exact h
  | _ => trivial

theorem create_reach {c : State R} (h : Reach (pool R).lts controlled c) :
    CreateInv c.mem (c.client 0) ∧ LifeInv c := by
  refine controlled_induct (I := fun c : State R => CreateInv c.mem (c.client 0)) (fun _ _ _ h => h) ?_ ?_ ?_ ?_ h
  · rintro _ rfl
    trivial
  · intro c i x r _ _ hi _ hs
    exact hi.same (workerStep_same hs)
  · intro c x m' p' _ hl hi _ hs
    rw [moveClient_self]
    exact clientStep_create hs hl.ctl hi
  · intro c k x q v m' p' _ _ hi hk _ _ hp
    rw [moveClient_other c hk.symm]
    exact hi.same (postStep_same hp)

/-! ### After the failure -/

/-- A pool with a partial list, whose controller is not in `Create`. -/
structure Stuck (c : State R) : Prop where
  life : LifeInv c
  list : Partial c.mem
  control : inDestroy (c.client 0)

omit [DecidableEq R] in
/-- **No step of the controller gets rid of a partial list.** -/
theorem clientStep_stuck {x : Input R} {m m' : Mem R} {p p' : Client} (hs : ClientStep x m p m' p')
    (hp : inDestroy p) (hl : Partial m) : Partial m' ∧ inDestroy p' := by
  cases hs with
  | post last hx hpost => exact ⟨hl.same (postStep_same hpost), trivial⟩
  | createRefused last hx | destroyRefused last hx hnone | releaseFailed b ha hr | allActive b ha
  | badHandle b hbad => exact ⟨hl, trivial⟩
  | create last hx hnone h0 hn => exact absurd hnone hl.list
  | destroy last hx hsome | cancel b | setFlag b => exact ⟨hl, trivial⟩
  | release b ha hsem hle => exact ⟨hl.same (.tokens hsem rfl rfl rfl rfl rfl), trivial⟩
  | waitAll b hfull ht =>
    obtain ⟨k, hk, hlt⟩ := hl
    rw [hfull, Option.some.injEq] at hk
    omega
  | _ => exact hp.elim

theorem Stuck.next {c c' : State R} {a : Tid × Input R} (h : Stuck c) (hok : controlled c a)
    (hs : (pool R).lts.next c a = some c') : Stuck c' := by
  rcases Program.next_cases hs with ⟨i, x, r, rfl, hr, rfl⟩ | ⟨k, x, r, rfl, hr, rfl⟩
  · have hws := workerStep_cases hr
    exact ⟨h.life.moveWorker hws, h.list.same (workerStep_same hws), h.control⟩
  · have hcs := clientStep_cases hr
    have hlife := h.life.moveClient hok hcs
    by_cases hk : k = 0
    · subst hk
      obtain ⟨hlist, hctl⟩ := clientStep_stuck hcs h.control h.list
      exact ⟨hlife, hlist, by rwa [moveClient_self]⟩
    · obtain ⟨q, v, -, hp, -⟩ := post_of_controlled hcs (hok.2 k rfl hk) (h.life.others k hk)
      refine ⟨hlife, h.list.same (postStep_same hp), ?_⟩
      rw [moveClient_other c (Ne.symm hk)]
      exact h.control

/-! ### The result -/

omit [DecidableEq R] in
/-- A `Create` that fails at its semaphore. -/
theorem createInit_fails {x : Input R} {m m' : Mem R} {n : ℕ} {v : Option Bool}
    (hs : clientStep x m (.createInit n) = some (m', .out v)) (hc : Ctl m (.createInit n)) :
    x.alloc = false ∧ Undone m' := by
  simp only [clientStep] at hs
  split_ifs at hs with hx
  · simp at hs
  · cases hs
    cases hc with
    | createInit _ _ hl hb _ _ => exact ⟨by simpa using hx, hl, fun j hj => Nat.not_lt_zero j (hb j hj), rfl⟩
    | ending hp _ => exact hp.elim

omit [DecidableEq R] in
/-- A `Create` that fails later leaves the semaphore open, or a partial list. -/
theorem create_leaves {x : Input R} {m m' : Mem R} {p p' : Client} (hs : ClientStep x m p m' p')
    (hout : p' = .out (some false)) (hp : inCreate p) (hn : ∀ n, p ≠ .createInit n) (hc : Ctl m p)
    (h : CreateInv m p) : (m'.threadList = none ∧ m'.semaphore ≠ none) ∨ Partial m' := by
  cases hs with
  | semaphoreFailed n => exact absurd rfl (hn n)
  | createFailed hl =>
    cases hc with
    | noList _ _ _ hz =>
      obtain ⟨s, hs, -⟩ := hz.semaphore
      exact Or.inl ⟨hl, fun h0 => by cases h0.symm.trans hs⟩
    | threadFailed _ hl' _ _ _ => cases hl.symm.trans hl'
    | ending hp' _ => exact hp'.elim
  | releaseFailed b ha hr => exact Or.inr (h hp)
  | badHandle b hbad => exact Or.inr (h hp)
  | closeThreadsFailed b hr => cases (h : b = false).symm.trans hp
  | closeSemaphoreFailed b hr => cases (h : b = false).symm.trans hp
  | clear b => cases (h : b = false).symm.trans hp
  | post last hx hpost | createRefused last hx | destroyRefused last hx hl => exact hp.elim
  | _ => cases hout

/-- **`Create` is all or nothing only at `CreateSemaphore`.** A `Create` that returns false has left nothing behind
exactly if it was `CreateSemaphore` that failed; and if it has left a list, no later `Create` succeeds, since the list
is there in every later state. -/
theorem create_undone_iff {c c' : State R} {x : Input R} (h : Reach (pool R).lts controlled c)
    (hp : inCreate (c.client 0)) (hok : controlled c (.inr 0, x)) (hs : (pool R).lts.next c (.inr 0, x) = some c')
    (hf : c'.client 0 = .out (some false)) :
    (Undone c'.mem ↔ semaphoreFails (c.client 0) x) ∧
    (c'.mem.threadList ≠ none → ∀ c'', Runs (pool R).lts controlled c' c'' → c''.mem.threadList ≠ none) := by
  obtain ⟨hinv, hl⟩ := create_reach h
  obtain ⟨⟨m', p'⟩, hr, rfl⟩ := Option.map_eq_some_iff.mp hs
  obtain rfl : p' = .out (some false) := (moveClient_self c 0 (m', p')).symm.trans hf
  have hctl := hl.ctl
  by_cases hinit : ∃ n, c.client 0 = .createInit n
  · obtain ⟨n, hn⟩ := hinit
    rw [hn] at hctl
    have hr : clientStep x c.mem (c.client 0) = some (m', .out (some false)) := hr
    rw [hn] at hr
    obtain ⟨hx, hundone⟩ := createInit_fails hr hctl
    exact ⟨iff_of_true hundone ⟨⟨n, hn⟩, hx⟩, fun hlist => absurd hundone.list hlist⟩
  · have hcs := clientStep_cases hr
    rcases create_leaves hcs rfl hp (fun n hn => hinit ⟨n, hn⟩) hctl hinv with ⟨hnone, hsem⟩ | hpart
    · exact ⟨iff_of_false (fun hu => hsem hu.semaphore) fun hsf => hinit hsf.1, fun hlist => absurd hnone hlist⟩
    · refine ⟨iff_of_false (fun hu => hpart.list hu.list) fun hsf => hinit hsf.1, fun _ c'' hruns => ?_⟩
      have hstuck : Stuck (c.moveClient 0 (m', .out (some false))) :=
        ⟨hl.moveClient hok hcs, hpart, by rw [moveClient_self]; trivial⟩
      exact (hruns.keeps (fun _ _ _ h1 h2 h3 => h1.next h2 h3) hstuck).list.list

/-- The controller is in `Create`, at `CreateSemaphore`. -/
def semaphoreRun : List (Tid × Input ℕ) := [(.inr 0, { call := some (.create 2) })]

theorem create_undone_iff_semaphoreRun : ∃ c c' : State ℕ, Reach (pool ℕ).lts controlled c ∧
    (pool ℕ).lts.next c (.inr 0, { alloc := false }) = some c' ∧ c'.client 0 = .out (some false) ∧
    Undone c'.mem := by
  obtain ⟨c, hc, hp⟩ := reach_of_run (pool ℕ).lts (fun c a h => controlled_of_test c a h) semaphoreRun
    (fun c => decide (c.client 0 = .createInit 2)) rfl (by decide)
  have hinit : c.client 0 = .createInit 2 := of_decide_eq_true hp
  have hstep : (pool ℕ).clientStep 0 { alloc := false } c.mem (c.client 0) =
      some ({ c.mem with
        activeThread := 0, semaphoreCount := 0, pendingReqCount := 0, threadCount := 0, semaphore := none },
        .out (some false)) := by
    rw [hinit]
    rfl
  have hnext := Program.next_client hstep
  refine ⟨c, _, hc, hnext, moveClient_self .., ?_⟩
  refine (create_undone_iff hc (by rw [hinit]; trivial) ⟨rfl, nofun⟩ hnext (moveClient_self ..)).1.mpr ⟨⟨2, hinit⟩, rfl⟩

/-- The second of two threads cannot be created. -/
def secondFailsRun : List (Tid × Input ℕ) :=
  [(.inr 0, { call := some (.create 2) })] ++ steps (.inr 0) 3 ++ [(.inr 0, { alloc := false })] ++ steps (.inr 0) 5

/-- **A failed `Create` leaves a list, a thread and a semaphore**, for the second of two threads. -/
theorem create_leaves_secondFailsRun : ∃ c : State ℕ, Reach (pool ℕ).lts controlled c ∧
    c.client 0 = .out (some false) ∧ c.mem.threadList = some 1 ∧ c.mem.thread 0 = .created ∧
    c.mem.semaphore = some ⟨2, 2⟩ := by
  obtain ⟨c, hc, hp⟩ := reach_of_run (pool ℕ).lts (fun c a h => controlled_of_test c a h) secondFailsRun
    (fun c => decide (c.client 0 = .out (some false)) && decide (c.mem.threadList = some 1) &&
      decide (c.mem.thread 0 = .created) && decide (c.mem.semaphore = some ⟨2, 2⟩)) rfl (by decide)
  simp only [Bool.and_eq_true, decide_eq_true_eq] at hp
  obtain ⟨⟨⟨hv, hl⟩, ht⟩, hs⟩ := hp
  exact ⟨c, hc, hv, hl, ht, hs⟩

end PoolStudy.TP.Create
