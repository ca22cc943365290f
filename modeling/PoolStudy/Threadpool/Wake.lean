import PoolStudy.Threadpool.Steps
import Mathlib.Algebra.BigOperators.Ring.Finset
import Mathlib.Algebra.Order.BigOperators.Group.Finset

/-! # The ring-buffer pool loses no wake-up

`threadpool_add` sends one signal per task. A busy worker may take the task first, a woken worker may
find the queue empty and wait again, and wake-ups may be spurious; still, while a worker is asleep there
are enough others on their way to the queue.

A worker *tests* if it is at the mutex, at the loop condition or in `pthread_cond_wait`; the sleeping
ones among these are `notify`. The invariant (`WakeInv`) is that, as long as some worker sleeps,
`count + |notify|` is at most the number of workers that test: every step that raises the left side by
one wakes a sleeper, and a worker that goes to sleep does so on an empty queue. -/

namespace PoolStudy.Threadpool.Wake

open PoolStudy.Lib.Transition PoolStudy.Lib.Threads
open PoolStudy.Threadpool.Model PoolStudy.Threadpool.Steps

variable {n : ℕ} {F A : Type}

/-- The worker `i` is blocked in `pthread_cond_wait` with no wake-up pending. -/
def asleep (c : State n F A) (i : Fin n) : Bool :=
  match c.worker i with
  | .wait => decide (i ∈ c.mem.pool.notify)
  | _ => false

/-- The worker `i` is not running a task and will test the queue before it blocks. -/
def willTest (c : State n F A) (i : Fin n) : Bool :=
  match c.worker i with
  | .lock | .test => true
  | .wait => decide (i ∉ c.mem.pool.notify)
  | .run _ _ | .exited => false

/-- A worker at the mutex, at the loop condition or waiting counts as one. -/
def tests : Worker F A → ℤ
  | .lock | .test | .wait => 1
  | .run _ _ | .exited => 0

/-- The number of workers that test. -/
def testers (f : Fin n → Worker F A) : ℤ := ∑ i, tests (f i)

/-- **The counting invariant**, for the sleepers `s`, the `count` `k` and the `shutdown` flag `d`. -/
structure WakeInv (s : Finset (Fin n)) (k : ℤ) (d : Option Shutdown) (f : Fin n → Worker F A) :
    Prop where
  sub : ∀ i ∈ s, f i = .wait
  enough : d = none → s.Nonempty → k + s.card ≤ testers f
  awake : d ≠ none → s = ∅

theorem tests_nonneg (w : Worker F A) : 0 ≤ tests w := by cases w <;> simp [tests]

theorem card_le_testers {f : Fin n → Worker F A} {s : Finset (Fin n)} (h : ∀ i ∈ s, f i = .wait) :
    (s.card : ℤ) ≤ testers f := by
  have h1 : (s.card : ℤ) = ∑ i ∈ s, tests (f i) := by
    rw [Finset.sum_congr rfl fun i hi => by rw [h i hi]]
    simp [tests]
  rw [h1]
  exact Finset.sum_le_sum_of_subset_of_nonneg (Finset.subset_univ s) fun i _ _ => tests_nonneg _

/-! ### Library calls -/

/-- **What a call does to the sleepers**: it only wakes; a task added to a queue with sleepers wakes one;
the shutdown wakes all. -/
structure CallWake (m m' : Mem n F A) : Prop where
  sub : m'.pool.notify ⊆ m.pool.notify
  enough : m'.pool.shutdown = none → m.pool.shutdown = none ∧ (m.pool.notify.Nonempty →
    m'.pool.count + m'.pool.notify.card ≤ m.pool.count + m.pool.notify.card)
  awake : m'.pool.shutdown ≠ none → m.pool.shutdown ≠ none ∨ m'.pool.notify = ∅

theorem CallWake.of_same {m m' : Mem n F A} (hn : m'.pool.notify = m.pool.notify)
    (hs : m'.pool.shutdown = m.pool.shutdown) (hc : m'.pool.count = m.pool.count) : CallWake m m' :=
  ⟨by rw [hn], fun h => ⟨by rw [← hs, h], fun _ => by rw [hn, hc]⟩, fun h => Or.inl (by rwa [← hs])⟩

theorem callStep_wake {self : Tid n} {x : Input n F A} {m m' : Mem n F A} {c c' : Call F A}
    (hx : x.Ok) (h : CallStep self x m c m' c') : CallWake m m' := by
  cases h with
  | addFull t hc => exact .of_same (unlock_notify _ _) (unlock_shutdown _ _) (unlock_count _ _)
  | addShut t hc hs => exact .of_same (unlock_notify _ _) (unlock_shutdown _ _) (unlock_count _ _)
  | addPush t ws hc hs hw =>
    obtain ⟨hsub, hlt⟩ := signal_some hw
    refine ⟨?_, fun _ => ⟨hs, fun hne => ?_⟩, fun h' => ?_⟩
    · simpa only [unlock_notify] using hsub
    · simp only [unlock_count, unlock_notify, Pool.push]
      have := hlt hne
      omega
    · simp only [unlock_shutdown, Pool.push] at h'
      exact absurd hs h'
  | addNoSignal t hc hs hl => exact absurd hl (by simp [hx.cond])
  | destroySet f hs hc hu =>
    exact ⟨Finset.empty_subset _, fun h' => by simp at h', fun _ => Or.inr rfl⟩
  | destroyNoUnlock f hs hl => exact absurd hl (by simp [hx.unlock])
  | destroyNoCast f hs hl => exact absurd hl (by simp [hx.cond])
  | _ => exact .of_same rfl rfl rfl

section Worker

variable {s s' : Finset (Fin n)} {k k' : ℤ} {d d' : Option Shutdown} {f : Fin n → Worker F A}

theorem WakeInv.call {f' : Fin n → Worker F A} {m m' : Mem n F A}
    (hi : WakeInv m.pool.notify m.pool.count m.pool.shutdown f) (h : CallWake m m')
    (hsub : ∀ i ∈ m.pool.notify, f' i = f i) (ht : testers f' = testers f) :
    WakeInv m'.pool.notify m'.pool.count m'.pool.shutdown f' := by
  refine ⟨fun i hin => ?_, fun hs hne => ?_, fun hs => ?_⟩
  · rw [hsub i (h.sub hin), hi.sub i (h.sub hin)]
  · obtain ⟨hs0, hle⟩ := h.enough hs
    have hne0 := hne.mono h.sub
    have h1 := hi.enough hs0 hne0
    have h2 := hle hne0
    omega
  · rcases h.awake hs with h0 | h0
    · exact Finset.subset_empty.mp (by rw [← hi.awake h0]; exact h.sub)
    · exact h0

/-- A worker that is not waiting does not sleep, so its move leaves the sleepers where they are. -/
theorem update_of_notMem {i : Fin n} (hne : i ∉ s) (w : Worker F A) :
    ∀ j ∈ s, Function.update f i w j = f j := by
  intro j hj
  rw [Function.update_of_ne]
  rintro rfl
  exact hne hj

theorem WakeInv.notMem (hi : WakeInv s k d f) {i : Fin n} (hne : f i ≠ .wait) : i ∉ s :=
  fun hin => hne (hi.sub i hin)

/-- **A worker goes to sleep** on an empty queue. -/
theorem WakeInv.sleep (hi : WakeInv s 0 none f) {i : Fin n} (hne : f i ≠ .wait) :
    WakeInv (insert i s) 0 none (Function.update f i .wait) := by
  have hsub : ∀ j ∈ insert i s, Function.update f i .wait j = .wait := by
    intro j hj
    rcases Finset.mem_insert.mp hj with rfl | hj
    · simp
    · rw [update_of_notMem (hi.notMem hne) _ j hj, hi.sub j hj]
  refine ⟨hsub, fun _ _ => ?_, fun h => absurd rfl h⟩
  have := card_le_testers hsub
  omega

/-- **A worker that was not asleep moves**: the count may fall by as much as the testers do. -/
theorem WakeInv.move (hi : WakeInv s k d f) {i : Fin n} {w : Worker F A} (hne : i ∉ s)
    (hk : k' + tests (f i) ≤ k + tests w) : WakeInv s k' d (Function.update f i w) := by
  have ht := sum_update (fun _ => tests) f i w
  refine ⟨fun j hj => ?_, fun hd hs => ?_, hi.awake⟩
  · rw [update_of_notMem hne _ j hj, hi.sub j hj]
  · have h1 := hi.enough hd hs
    unfold testers at h1 ⊢
    omega

/-- **A sleeper wakes up** for no reason. -/
theorem WakeInv.spurious (hi : WakeInv s k d f) {i : Fin n} (hin : i ∈ s) :
    WakeInv (s.erase i) k d f := by
  have hcard := Finset.card_erase_of_mem hin
  refine ⟨fun j hj => hi.sub j (Finset.mem_of_mem_erase hj), fun hd _ => ?_, fun hd => ?_⟩
  · have h1 := hi.enough hd ⟨i, hin⟩
    omega
  · rw [hi.awake hd] at hin
    simp at hin

theorem WakeInv.worker {i : Fin n} {x : Input n F A} {m m' : Mem n F A} {w' : Worker F A}
    (hi : WakeInv m.pool.notify m.pool.count m.pool.shutdown f) (hx : x.Ok)
    (h : WorkerStep i x m (f i) m' w') :
    WakeInv m'.pool.notify m'.pool.count m'.pool.shutdown (Function.update f i w') := by
  generalize hw : f i = w at h
  have hnot : f i ≠ .wait → i ∉ m.pool.notify := hi.notMem
  cases h with
  | lock hl => exact hi.move (hnot (by simp [hw])) (by simp [hw, tests])
  | sleep hc hs =>
    rw [hc, hs] at hi
    show WakeInv (insert i m.pool.notify) m.pool.count m.pool.shutdown _
    rw [hc, hs]
    exact hi.sleep (by simp [hw])
  | leave hs =>
    have hd : m.pool.shutdown ≠ none := by rcases hs with h | ⟨h, -⟩ <;> simp [h]
    have hemp := hi.awake hd
    exact ⟨fun j hj => by simp [hemp] at hj, fun h' => absurd h' hd, fun _ => hemp⟩
  | grab hc hs =>
    refine hi.move (hnot (by simp [hw])) ?_
    simp [hw, tests, Pool.pop]
  | spurious hin =>
    rw [← hw, Function.update_eq_self]
    exact hi.spurious hin
  | wake hin hl => exact hi.move hin (by simp [hw, tests])
  | finish t => exact hi.move (hnot (by simp [hw])) (by simp [hw, tests])
  | @call t c c' m' hf hs =>
    have ht := sum_update (fun _ => tests) f i (.run t c')
    refine hi.call (callStep_wake hx hs) (update_of_notMem (hnot (by simp [hw])) _) ?_
    have h1 : tests (f i) = 0 := by rw [hw]; rfl
    have h2 : tests (.run t c') = 0 := rfl
    unfold testers
    omega

end Worker

theorem wakeInv_reach {c : State n F A} (h : Reach (threadpool n F A).lts pthreadOk c) :
    WakeInv c.mem.pool.notify c.mem.pool.count c.mem.pool.shutdown c.worker := by
  refine Program.invariant (I := fun c : State n F A =>
    WakeInv c.mem.pool.notify c.mem.pool.count c.mem.pool.shutdown c.worker) ?_ ?_ ?_ h
  · rintro _ ⟨size, queue, -, rfl⟩
    exact ⟨fun i hi => by simp [created] at hi, fun _ hne => by simp [created] at hne,
      fun h => by simp [created] at h⟩
  · intro c i x r _ hi hx hs
    exact hi.worker hx (workerStep_cases hs)
  · intro c k x r _ hi hx hs
    exact hi.call (callStep_wake hx (callStep_cases hs).2) (fun _ _ => rfl) rfl

/-! ### The workers that will test -/

/-- The workers that test are those that sleep and those that will test. -/
theorem card_willTest {c : State n F A} (hi : ∀ i ∈ c.mem.pool.notify, c.worker i = .wait) :
    ((Finset.univ.filter fun i => willTest c i = true).card : ℤ) + c.mem.pool.notify.card =
      testers c.worker := by
  have hsplit : ∀ i, tests (c.worker i) =
      (if willTest c i = true then 1 else 0) + (if i ∈ c.mem.pool.notify then 1 else 0) := by
    intro i
    by_cases hin : i ∈ c.mem.pool.notify
    · simp [willTest, tests, hi i hin, hin]
    · cases hw : c.worker i <;> simp [willTest, tests, hw, hin]
  unfold testers
  rw [Finset.sum_congr rfl fun i _ => hsplit i, Finset.sum_add_distrib, Finset.sum_boole,
    Finset.sum_boole]
  simp

/-- **No lost wake-up.** While some worker sleeps, at least `count` workers that run no task are on their
way to the queue; once the shutdown has been set and broadcast, no worker sleeps. -/
theorem threadpool_no_lost_wakeup {c : State n F A}
    (h : Reach (threadpool n F A).lts pthreadOk c) :
    (c.mem.pool.shutdown = none → (∃ i, asleep c i = true) →
      c.mem.pool.count ≤ (Finset.univ.filter fun i => willTest c i = true).card) ∧
    (c.mem.pool.shutdown ≠ none → ∀ i, asleep c i = false) := by
  have hi := wakeInv_reach h
  have hmem : ∀ i, asleep c i = true → i ∈ c.mem.pool.notify := fun i ha => by
    unfold asleep at ha
    split at ha
    · simpa using ha
    · simp at ha
  refine ⟨fun hs ⟨i, ha⟩ => ?_, fun hs i => ?_⟩
  · have h1 := hi.enough hs ⟨i, hmem i ha⟩
    have h2 := card_willTest hi.sub
    omega
  · by_contra hne
    have hin := hmem i (by simpa using hne)
    rw [hi.awake hs] at hin
    simp at hin

/-- Two workers go to sleep; a client adds a task, and its signal wakes one of them. -/
def signalRun : List (Tid 2 × Input 2 ℕ ℕ) :=
  [(.inl 0, {}), (.inl 0, {}), (.inl 1, {}), (.inl 1, {}),
   (.inr 0, { call := some (.add (some 7) 0) }), (.inr 0, {}), (.inr 0, { wake := {1} })]

theorem threadpool_no_lost_wakeup_signalRun : ∃ c : State 2 ℕ ℕ,
    Reach (threadpool 2 ℕ ℕ).lts pthreadOk c ∧ c.mem.pool.count = 1 ∧ asleep c 0 = true ∧
      c.mem.pool.count ≤ (Finset.univ.filter fun i => willTest c i = true).card := by
  obtain ⟨c, hc, hp⟩ := reach_of_run (threadpool 2 ℕ ℕ).lts pthreadOk_of_okTest signalRun
    (fun c => decide (c.mem.pool.count = 1) && decide (c.mem.pool.shutdown = none) && asleep c 0)
    ⟨4, fun _ => ⟨0, 0⟩, by decide, rfl⟩ (by decide)
  simp only [Bool.and_eq_true, decide_eq_true_eq] at hp
  exact ⟨c, hc, hp.1.1, hp.2, (threadpool_no_lost_wakeup hc).1 hp.1.2 ⟨0, hp.2⟩⟩

end PoolStudy.Threadpool.Wake
