import PoolStudy.Thpool.Steps
import Mathlib.Data.Fintype.Card

/-! # The binary semaphore strands no job

`has_jobs` saturates at `1`: any number of pushes may leave one token, and the rest depends on every
worker that takes a job off a queue with more in it posting again. The queue and the semaphore have
different mutexes, so `len` and `v` disagree in many states. What holds in all of them, while
`threads_keepalive` is `1`: as long as there is a job, the token is there, or some thread *serves*, that
is, it has the token and has not taken its job, or is about to post (`serves`); a step that ends the
service of a thread leaves the token or an empty queue (`Served`). And the token never lies there with
all workers asleep, since posting wakes a sleeper if there is one (`TokenInv`).

With all workers asleep and a job in the queue there is thus a client inside `bsem_post`; it can go on
(`bsem_never_strands`). -/

namespace PoolStudy.Thpool.Semaphore

open PoolStudy.Lib.Transition PoolStudy.Lib.Threads
open PoolStudy.Thpool.Model PoolStudy.Thpool.Steps

variable {n : ℕ} {κ F A : Type}

/-! ### Who serves -/

/-- `jobqueue_pull` has not yet taken its job off the queue. -/
def pulling : Pull → Bool
  | .front | .switch _ | .front1 _ | .rear1 _ | .frontPrev _ | .dec _ => true
  | _ => false

/-- `jobqueue_pull` is about to call `bsem_post` if jobs are left. -/
def pullPosts : Pull → Bool
  | .ifLen _ | .postLock _ | .post _ => true
  | _ => false

/-- `jobqueue_push` is about to call `bsem_post`. -/
def addPosts : Option Add → Bool
  | some (.push _ .postLock) | some (.push _ .post) => true
  | _ => false

/-- The worker is between its return from `bsem_wait` and its `jobqueue_pull`. -/
def towardsPull : Pos F A → Bool
  | .keep | .workLock | .workInc | .workUnlock | .pullLock => true
  | .pull q => pulling q
  | _ => false

/-- The worker is about to post, in `jobqueue_pull` or in the `jobqueue_push` of its job. -/
def posts : Pos F A → Bool
  | .pull q => pullPosts q
  | .run _ _ _ c => addPosts c
  | _ => false

def callPosts : Call → Bool
  | .add c => addPosts (some c)
  | _ => false

/-- The thread will look at the queue, or post. -/
def serves (w : Worker F A) : Bool := towardsPull w.pos || posts w.pos

/-- **What a step does to the service** of its thread: it goes on, or the token is there, or the queue
is empty, or the step has nothing to do with it. -/
def Served (p p' : Pool n κ F A) (s s' : Bool) : Prop :=
  s' = true ∨ p'.hasJobs.v = 1 ∨ p'.len ≤ 0 ∨
    (s = false ∧ p'.hasJobs.v = p.hasJobs.v ∧ p'.len = p.len)

theorem addStep_served {self : Tid n κ} {x : Input n F A} {p p' : Pool n κ F A} {c : Add}
    {c' : Option Add} (h : AddStep self x p c p' c') :
    Served p p' (addPosts (some c)) (addPosts c') := by
  cases h with
  | lock j _ => exact Or.inr (Or.inr (Or.inr ⟨rfl, rfl, rfl⟩))
  | unlock j => exact Or.inr (Or.inr (Or.inr ⟨rfl, rfl, rfl⟩))
  | push j hs =>
    cases hs with
    | inc => exact Or.inl rfl
    | postLock _ => exact Or.inl rfl
    | post ws _ => exact Or.inr (Or.inl rfl)
    | _ => exact Or.inr (Or.inr (Or.inr ⟨rfl, rfl, rfl⟩))

theorem pullStep_served {self : Tid n κ} {x : Input n F A} {p p' : Pool n κ F A} {q q' : Pull}
    (h : PullStep self x p q p' q') :
    Served p p' (pulling q || pullPosts q) (pulling q' || pullPosts q') := by
  cases h with
  | switch0 j hl => exact Or.inr (Or.inr (Or.inl hl.le))
  | ifNot j hl => exact Or.inr (Or.inr (Or.inl hl))
  | post j ws _ => exact Or.inr (Or.inl rfl)
  | _ => exact Or.inl rfl

theorem posStep_served {i : Fin n} {x : Input n F A} {fl : Flags} {p p' : Pool n κ F A} {w w' : Pos F A}
    {hd : Hold} (h : PosStep i x fl p w p' w') (hk : fl.threadsKeepalive = true) :
    Served p p' (serves ⟨w, hd⟩) (serves ⟨w', hd⟩) := by
  have hrest : ∀ {p' : Pool n κ F A}, p'.hasJobs.v = p.hasJobs.v → p'.len = p.len →
      Served p p' false (serves ⟨w', hd⟩) := fun h1 h2 => Or.inr (Or.inr (Or.inr ⟨rfl, h1, h2⟩))
  cases h with
  | countLock hw _ =>
    cases hw with
    | work => exact Or.inl rfl
    | _ => exact hrest rfl rfl
  | countUnlock hw =>
    cases hw with
    | work => exact Or.inl rfl
    | _ => exact hrest rfl rfl
  | silent hw =>
    cases hw with
    | keep _ => exact Or.inl rfl
    | skip hf => rw [hk] at hf; cases hf
    | _ => exact hrest rfl rfl
  | workInc => exact Or.inl rfl
  | semTake _ => exact Or.inl rfl
  | semLock hw _ => rcases hw with rfl | ⟨rfl, -⟩ <;> exact hrest rfl rfl
  | pullLock _ => exact Or.inl rfl
  | pull hs => exact pullStep_served hs
  | add j f a hs => exact addStep_served hs
  | _ => exact hrest rfl rfl

/-! ### The token -/

/-- The token does not lie there with all workers asleep. -/
def TokenInv (b : Bsem n κ) : Prop := b.v = 1 → ∃ i, i ∉ b.cond

/-- **Posting wakes a sleeper** if there is one. -/
theorem tokenInv_post (hn : 0 < n) {b : Bsem n κ} {W ws : Finset (Fin n)}
    (h : signal W b.cond = some ws) : TokenInv (⟨none, ws, 1⟩ : Bsem n κ) := by
  intro _
  obtain ⟨-, hlt⟩ := signal_some h
  by_contra hall
  simp only [not_exists, not_not] at hall
  have hcard : ws.card = n := by
    rw [Finset.eq_univ_iff_forall.mpr hall, Finset.card_univ, Fintype.card_fin]
  have hne : b.cond.Nonempty := by
    obtain ⟨hsub, -⟩ := signal_some h
    exact ⟨⟨0, hn⟩, hsub (hall _)⟩
  have hle : b.cond.card ≤ n := by simpa using Finset.card_le_univ b.cond
  have := hlt hne
  omega

theorem tokenInv_empty (hn : 0 < n) (m : Option (Tid n κ)) (v : ℤ) :
    TokenInv (⟨m, ∅, v⟩ : Bsem n κ) :=
  fun _ => ⟨⟨0, hn⟩, by simp⟩

theorem addStep_token (hn : 0 < n) {self : Tid n κ} {x : Input n F A} {p p' : Pool n κ F A} {c : Add}
    {c' : Option Add} (h : AddStep self x p c p' c') (ht : TokenInv p.hasJobs) : TokenInv p'.hasJobs := by
  cases h with
  | push j hs =>
    cases hs with
    | post ws hw => exact tokenInv_post hn hw
    | _ => exact ht
  | _ => exact ht

theorem pullStep_token (hn : 0 < n) {self : Tid n κ} {x : Input n F A} {p p' : Pool n κ F A}
    {q q' : Pull} (h : PullStep self x p q p' q') (ht : TokenInv p.hasJobs) : TokenInv p'.hasJobs := by
  cases h with
  | post j ws hw => exact tokenInv_post hn hw
  | _ => exact ht

theorem posStep_token (hn : 0 < n) {i : Fin n} {x : Input n F A} {fl : Flags} {p p' : Pool n κ F A}
    {w w' : Pos F A} (h : PosStep i x fl p w p' w') (ht : TokenInv p.hasJobs) :
    TokenInv p'.hasJobs := by
  cases h with
  | semBlock hv => exact fun h1 => absurd h1 hv
  | semTake _ => exact fun h1 => absurd h1 (by simp)
  | spurious hi =>
    intro h1
    obtain ⟨j, hj⟩ := ht h1
    exact ⟨j, fun hm => hj (Finset.mem_of_mem_erase hm)⟩
  | pull hs => exact pullStep_token hn hs ht
  | add j f a hs => exact addStep_token hn hs ht
  | _ => exact ht

theorem callStep_token (hn : 0 < n) {k : κ} {x : Input n F A} {m m' : Mem n κ F A} {c c' : Call}
    (h : CallStep k x m c m' c') (ht : TokenInv m.pool.hasJobs) : TokenInv m'.pool.hasJobs := by
  cases h with
  | add hs => exact addStep_token hn hs ht
  | addReturn hs => exact addStep_token hn hs ht
  | destroyReturn hs => cases hs; exact ht
  | destroy hs =>
    cases hs with
    | postAll t => exact tokenInv_empty hn none 1
    | clearSem => exact tokenInv_empty hn none 0
    | clearPull hr =>
      exact pullRun_induct (I := fun p _ => TokenInv p.hasJobs)
        (fun _ _ _ _ h1 h2 => pullStep_token hn h2 h1) _ _ _ _ hr ht
    | _ => exact ht
  | _ => exact ht

/-! ### The mutex of the semaphore -/

def addHolds : Option Add → Prop
  | some (.push _ .post) => True
  | _ => False

/-- The worker is between the lock and the unlock of the semaphore's mutex. -/
def holdsSem (w : Worker F A) : Prop :=
  match w.pos with
  | .semTest => True
  | .pull (.post _) => True
  | .run _ _ _ c => addHolds c
  | _ => False

/-- So is the client. -/
def callHoldsSem : Call → Prop
  | .add c => addHolds (some c)
  | .destroy _ (.postAll _) => True
  | _ => False

theorem addStep_sem {self : Tid n κ} {x : Input n F A} {p p' : Pool n κ F A} {c : Add}
    {c' : Option Add} (h : AddStep self x p c p' c') :
    MutexStep self p.hasJobs.mutex p'.hasJobs.mutex (addHolds (some c)) (addHolds c') := by
  cases h with
  | push j hs =>
    cases hs with
    | postLock hm => exact Or.inr (Or.inl ⟨hm, rfl, trivial⟩)
    | post ws _ => exact Or.inr (Or.inr ⟨trivial, rfl, not_false⟩)
    | _ => exact Or.inl ⟨rfl, Iff.rfl⟩
  | _ => exact Or.inl ⟨rfl, Iff.rfl⟩

theorem posStep_sem {i : Fin n} {x : Input n F A} {fl : Flags} {p p' : Pool n κ F A} {w w' : Pos F A}
    {hd : Hold} (h : PosStep i x fl p w p' w') :
    MutexStep (Sum.inl i) p.hasJobs.mutex p'.hasJobs.mutex (holdsSem ⟨w, hd⟩) (holdsSem ⟨w', hd⟩) := by
  cases h with
  | countLock hw _ => cases hw <;> exact Or.inl ⟨rfl, Iff.rfl⟩
  | countUnlock hw => cases hw <;> exact Or.inl ⟨rfl, Iff.rfl⟩
  | silent hw => cases hw <;> exact Or.inl ⟨rfl, Iff.rfl⟩
  | semLock hw hm => rcases hw with rfl | ⟨rfl, -⟩ <;> exact Or.inr (Or.inl ⟨hm, rfl, trivial⟩)
  | semBlock _ => exact Or.inr (Or.inr ⟨trivial, rfl, not_false⟩)
  | semTake _ => exact Or.inr (Or.inr ⟨trivial, rfl, not_false⟩)
  | pull hs =>
    cases hs with
    | postLock j hm => exact Or.inr (Or.inl ⟨hm, rfl, trivial⟩)
    | post j ws _ => exact Or.inr (Or.inr ⟨trivial, rfl, not_false⟩)
    | _ => exact Or.inl ⟨rfl, Iff.rfl⟩
  | add j f a hs => exact addStep_sem hs
  | _ => exact Or.inl ⟨rfl, Iff.rfl⟩

/-- A step of a client outside `thpool_destroy`. -/
theorem callStep_sem {k : κ} {x : Input n F A} {m m' : Mem n κ F A} {c c' : Call}
    (h : CallStep k x m c m' c') (hd : ∀ total d, c ≠ .destroy total d) :
    Served m.pool m'.pool (callPosts c) (callPosts c') ∧
      MutexStep (Sum.inr k) m.pool.hasJobs.mutex m'.pool.hasJobs.mutex (callHoldsSem c)
        (callHoldsSem c') := by
  cases h with
  | add hs => exact ⟨addStep_served hs, addStep_sem hs⟩
  | addReturn hs => exact ⟨addStep_served hs, addStep_sem hs⟩
  | destroy _ => exact absurd rfl (hd _ _)
  | destroyReturn _ => exact absurd rfl (hd _ _)
  | waitMove hw => cases hw <;> exact ⟨Or.inr (Or.inr (Or.inr ⟨rfl, rfl, rfl⟩)), Or.inl ⟨rfl, Iff.rfl⟩⟩
  | _ => exact ⟨Or.inr (Or.inr (Or.inr ⟨rfl, rfl, rfl⟩)), Or.inl ⟨rfl, Iff.rfl⟩⟩

/-! ### Every reachable state -/

variable [DecidableEq κ]

/-- **The semaphore in a configuration.** -/
structure SemInv (c : State n κ F A) : Prop where
  flag : ∀ k total d, c.client k = .destroy total d →
    d = .keepalive ∨ c.mem.flags.threadsKeepalive = false
  token : TokenInv c.mem.pool.hasJobs
  cover : c.mem.flags.threadsKeepalive = true → 0 < c.mem.pool.len →
    c.mem.pool.hasJobs.v = 1 ∨ ∃ t, c.view serves callPosts t = true
  owned : c.mem.flags.threadsKeepalive = true →
    Owned c.mem.pool.hasJobs.mutex holdsSem callHoldsSem c

/-- The service of the others goes on. -/
theorem Served.cover {p p' : Pool n κ F A} {s : Tid n κ → Bool} {t : Tid n κ} {b : Bool}
    (h : Served p p' (s t) b) (hc : 0 < p.len → p.hasJobs.v = 1 ∨ ∃ u, s u = true) (hl : 0 < p'.len) :
    p'.hasJobs.v = 1 ∨ ∃ u, Function.update s t b u = true := by
  rcases h with h | h | h | ⟨hs, hv, hlen⟩
  · exact Or.inr ⟨t, by rw [Function.update_self, h]⟩
  · exact Or.inl h
  · omega
  · rw [hlen] at hl
    rcases hc hl with h1 | ⟨u, hu⟩
    · exact Or.inl (hv.trans h1)
    · refine Or.inr ⟨u, ?_⟩
      have hne : u ≠ t := by rintro rfl; rw [hs] at hu; cases hu
      rw [Function.update_of_ne hne, hu]

theorem SemInv.worker (hn : 0 < n) {c : State n κ F A} {i : Fin n} {x : Input n F A}
    {r : Mem n κ F A × Worker F A} (hi : SemInv c) (h : WorkerStep i x c.mem (c.worker i) r.1 r.2) :
    SemInv (c.moveWorker i r) := by
  obtain ⟨m', w'⟩ := r
  have hstep : m'.flags.threadsKeepalive = c.mem.flags.threadsKeepalive ∧ TokenInv m'.pool.hasJobs ∧
      (c.mem.flags.threadsKeepalive = true → Served c.mem.pool m'.pool (serves (c.worker i)) (serves w')) ∧
      MutexStep (Sum.inl i) c.mem.pool.hasJobs.mutex m'.pool.hasJobs.mutex (holdsSem (c.worker i))
        (holdsSem w') := by
    cases h with
    | move hh _ hp =>
      exact ⟨rfl, posStep_token hn hp hi.token, fun hk => posStep_served hp hk, posStep_sem hp⟩
    | _ =>
      refine ⟨rfl, hi.token, fun hk => ?_, Or.inl ⟨rfl, Iff.rfl⟩⟩
      by_cases hs : serves (c.worker i) = true
      · exact Or.inl hs
      · exact Or.inr (Or.inr (Or.inr ⟨by simpa using hs, rfl, rfl⟩))
  obtain ⟨hflag, htoken, hserved, hmutex⟩ := hstep
  refine ⟨fun k total d hk => ?_, htoken, fun hk hl => ?_, fun hk => ?_⟩
  · rcases hi.flag k total d hk with h1 | h1
    · exact Or.inl h1
    · exact Or.inr (hflag.trans h1)
  · have hk : c.mem.flags.threadsKeepalive = true := hflag.symm.trans hk
    rw [view_moveWorker]
    exact Served.cover (hserved hk) (hi.cover hk) hl
  · exact (hi.owned (hflag.symm.trans hk)).moveWorker hmutex

/-- No call sets `threads_keepalive` to `1`, and `thpool_destroy` sets it to `0` first. -/
theorem SemInv.client (hn : 0 < n) {c : State n κ F A} {k : κ} {x : Input n F A}
    {r : Mem n κ F A × Call} (hi : SemInv c) (h : CallStep k x c.mem (c.client k) r.1 r.2) :
    SemInv (c.moveClient k r) := by
  obtain ⟨m', l'⟩ := r
  have htoken := callStep_token hn h hi.token
  have hmono : c.mem.flags.threadsKeepalive = false → m'.flags.threadsKeepalive = false := by
    intro hf
    generalize c.client k = l at h
    cases h with
    | destroy hs => cases hs <;> first | exact hf | rfl
    | destroyReturn hs => cases hs; exact hf
    | _ => exact hf
  have hnew : ∀ total d, l' = .destroy total d → d = .keepalive ∨ m'.flags.threadsKeepalive = false := by
    intro total d hl
    have hold := hi.flag k
    generalize c.client k = l at h hold
    subst hl
    cases h with
    | destroyEnter _ _ => exact Or.inl rfl
    | destroy hs =>
      cases hs with
      | keepalive => exact Or.inr rfl
      | _ => exact Or.inr (hmono ((hold _ _ rfl).resolve_left (by simp)))
    | waitMove hw => cases hw
  -- while the flag is up the step is not one of `thpool_destroy`
  have hout : m'.flags.threadsKeepalive = true → ∀ total d, c.client k ≠ .destroy total d := by
    intro hk total d hc
    rw [hc] at h
    rcases hi.flag k total d hc with rfl | hf
    · cases h with
      | destroy hs => cases hs; cases hk
      | destroyReturn hs => cases hs
      | waitMove hw => cases hw
    · rw [hmono hf] at hk; cases hk
  have hup : m'.flags.threadsKeepalive = true → c.mem.flags.threadsKeepalive = true := by
    intro hk
    by_contra hf
    rw [hmono (by simpa using hf)] at hk
    cases hk
  refine ⟨?_, htoken, fun hk hl => ?_, fun hk => ?_⟩
  · exact forall_moveClient
      (P := fun _ (l : Call) => ∀ total d, l = .destroy total d →
        d = .keepalive ∨ m'.flags.threadsKeepalive = false) hnew
      fun k' _ total d hl => (hi.flag k' total d hl).imp id hmono
  · obtain ⟨hserved, -⟩ := callStep_sem h (hout hk)
    rw [view_moveClient]
    exact Served.cover hserved (hi.cover (hup hk)) hl
  · obtain ⟨-, hmutex⟩ := callStep_sem h (hout hk)
    exact (hi.owned (hup hk)).moveClient hmutex

theorem semInv_reach (hn : 0 < n) {ok : State n κ F A → Tid n κ × Input n F A → Prop}
    {c : State n κ F A} (h : Reach (thpool n κ F A).lts ok c) : SemInv c := by
  refine Program.invariant ?_ ?_ ?_ h
  · rintro _ ⟨heap, k0, rfl⟩
    refine ⟨?_, fun h1 => ?_, fun _ hl => ?_, fun _ => ⟨fun i => ?_, fun k => ?_⟩⟩
    · exact initClients_forall (P := fun l => ∀ total d, l = .destroy total d → d = .keepalive ∨ _)
        (by simp) (by simp) k0
    · exact absurd h1 (by simp [Pool.created, Bsem.init])
    · exact absurd hl (by simp [Pool.created])
    · simp [holdsSem, Worker.created, Pool.created, Bsem.init]
    · have hk : ¬ callHoldsSem (initClients k0 k) :=
        initClients_forall (P := fun l => ¬ callHoldsSem l) id id k0 k
      simp [hk, Pool.created, Bsem.init]
  · intro c i x r _ hi _ hs
    exact hi.worker hn (workerStep_cases hs)
  · intro c k x r _ hi _ hs
    exact hi.client hn (callStep_cases hs)

/-- The worker is blocked in `pthread_cond_wait` with no wake-up pending. -/
def asleep (c : State n κ F A) (i : Fin n) : Prop :=
  (c.worker i).pos = .semBlocked ∧ i ∈ c.mem.pool.hasJobs.cond

/-- With all workers asleep, whoever is about to post can go on, or whoever keeps it waiting can. -/
theorem post_enabled {c : State n κ F A} (hi : SemInv c) (hk : c.mem.flags.threadsKeepalive = true)
    (hall : ∀ i, asleep c i) {k : κ} (hp : callPosts (c.client k) = true) :
    ∃ k' x c', callPosts (c.client k') = true ∧ (thpool n κ F A).lts.next c (.inr k', x) = some c' := by
  -- inside `bsem_post` there is always a way on: wake everybody
  have hpost : ∀ k' j, c.client k' = .add (.push j .post) →
      ∃ x c', (thpool n κ F A).lts.next c (.inr k', x) = some c' := by
    intro k' j hc
    refine ⟨{ wake := c.mem.pool.hasJobs.cond }, ?_⟩
    simp [Program.lts, thpool, hc, callStep, addStep, pushStep, Pool.bsemPost, signal]
  have hkind : ∃ j, c.client k = .add (.push j .postLock) ∨ c.client k = .add (.push j .post) := by
    cases hc : c.client k with
    | add l =>
      rw [hc] at hp
      cases l with
      | lock j => cases hp
      | push j s => cases s <;> first | exact ⟨j, Or.inl rfl⟩ | exact ⟨j, Or.inr rfl⟩ | cases hp
    | _ => rw [hc] at hp; cases hp
  obtain ⟨j, hc | hc⟩ := hkind
  · cases hm : c.mem.pool.hasJobs.mutex with
    | none =>
      refine ⟨k, {}, ?_⟩
      simp [callPosts, addPosts, Program.lts, thpool, hc, callStep, addStep, pushStep, Pool.lockSem, hm]
    | some t =>
      rcases t with i | k'
      · have hw := ((hi.owned hk).worker i).mpr hm
        simp [holdsSem, (hall i).1] at hw
      · have hw := ((hi.owned hk).client k').mpr hm
        cases hc' : c.client k' with
        | add l =>
          rw [hc'] at hw
          cases l with
          | lock j' => exact hw.elim
          | push j' s =>
            cases s <;> first | exact hw.elim | skip
            obtain ⟨x, c', hs⟩ := hpost k' j' hc'
            exact ⟨k', x, c', by rw [hc']; rfl, hs⟩
        | destroy total d =>
          rw [hc'] at hw
          rcases hi.flag k' total d hc' with rfl | hf
          · exact hw.elim
          · rw [hk] at hf; cases hf
        | _ => rw [hc'] at hw; exact hw.elim
  · obtain ⟨x, c', hs⟩ := hpost k j hc
    exact ⟨k, x, c', hp, hs⟩

/-- **The semaphore strands no job.** In every reachable state of a pool with a worker, while
`threads_keepalive` is `1`: if there is a job, then `v = 1`, or some worker is between its return from
`bsem_wait` and its `jobqueue_pull`, or a thread is about to call `bsem_post`; whenever `v = 1` some worker
is not asleep; and with all workers asleep and a job in the queue a client about to post can go on. -/
theorem bsem_never_strands (hn : 0 < n) {c : State n κ F A}
    (h : Reach (thpool n κ F A).lts anyStep c) (hk : c.mem.flags.threadsKeepalive = true) :
    (0 < c.mem.pool.len → c.mem.pool.hasJobs.v = 1 ∨ (∃ i, towardsPull (c.worker i).pos = true) ∨
      (∃ i, posts (c.worker i).pos = true) ∨ ∃ k, callPosts (c.client k) = true) ∧
    (c.mem.pool.hasJobs.v = 1 → ∃ i, ¬ asleep c i) ∧
    (0 < c.mem.pool.len → (∀ i, asleep c i) → ∃ k x c', callPosts (c.client k) = true ∧
      (thpool n κ F A).lts.next c (.inr k, x) = some c') := by
  have hi := semInv_reach hn h
  have hawake : c.mem.pool.hasJobs.v = 1 → ∃ i, ¬ asleep c i := by
    intro hv
    obtain ⟨i, hni⟩ := hi.token hv
    exact ⟨i, fun hs => hni hs.2⟩
  have hcover : 0 < c.mem.pool.len → c.mem.pool.hasJobs.v = 1 ∨
      (∃ i, towardsPull (c.worker i).pos = true) ∨ (∃ i, posts (c.worker i).pos = true) ∨
      ∃ k, callPosts (c.client k) = true := by
    intro hl
    rcases hi.cover hk hl with h1 | ⟨t, ht⟩
    · exact Or.inl h1
    · rcases t with i | k
      · have ht : (towardsPull (c.worker i).pos || posts (c.worker i).pos) = true := ht
        rcases Bool.or_eq_true_iff.mp ht with h1 | h1
        · exact Or.inr (Or.inl ⟨i, h1⟩)
        · exact Or.inr (Or.inr (Or.inl ⟨i, h1⟩))
      · exact Or.inr (Or.inr (Or.inr ⟨k, ht⟩))
  refine ⟨hcover, hawake, fun hl hall => ?_⟩
  rcases hcover hl with h1 | ⟨i, h1⟩ | ⟨i, h1⟩ | ⟨k, h1⟩
  · obtain ⟨i, hni⟩ := hawake h1
    exact absurd (hall i) hni
  · rw [(hall i).1] at h1; cases h1
  · rw [(hall i).1] at h1; cases h1
  · exact post_enabled hi hk hall h1

/-- One worker goes to sleep; the client raises `len` and is about to post. -/
def sleepRun : List (Tid 1 Unit × Input 1 ℕ ℕ) :=
  let w : Tid 1 Unit := .inl (Fin.last 0)
  let d : Tid 1 Unit := .inr ()
  plainSteps [w, w, w, d, w, w, w] ++ [(d, { call := some (.addWork 7 0) })] ++
    plainSteps (List.replicate 6 d)

theorem bsem_never_strands_sleepRun : ∃ c : State 1 Unit ℕ ℕ,
    Reach (thpool 1 Unit ℕ ℕ).lts anyStep c ∧ c.mem.pool.len = 1 ∧ (∀ i, asleep c i) ∧
      ∃ k x c', callPosts (c.client k) = true ∧
        (thpool 1 Unit ℕ ℕ).lts.next c (.inr k, x) = some c' := by
  obtain ⟨c, hc, hp⟩ := reach_of_run (thpool 1 Unit ℕ ℕ).lts anyStep_of_test sleepRun
    (fun c => decide (c.mem.pool.len = 1) && (c.mem.flags.threadsKeepalive &&
      (decide (Fin.last 0 ∈ c.mem.pool.hasJobs.cond) && match (c.worker (Fin.last 0)).pos with
        | .semBlocked => true
        | _ => false)))
    ⟨fun _ => ⟨none, 0, 0⟩, (), rfl⟩ (by decide)
  simp only [Bool.and_eq_true, decide_eq_true_eq] at hp
  obtain ⟨hl, hk, hm, hpos⟩ := hp
  have hall : ∀ i, asleep c i := by
    intro i
    rw [Subsingleton.elim i (Fin.last 0)]
    refine ⟨?_, hm⟩
    cases h : (c.worker (Fin.last 0)).pos <;> simp_all
  exact ⟨c, hc, hl, hall, (bsem_never_strands (by decide) hc hk).2.2 (by omega) hall⟩

end PoolStudy.Thpool.Semaphore
