import PoolStudy.TP.Model

/-! # The Windows thread pool: what a step can do

`WorkerStep`, `PostStep` and `ClientStep` list the outcomes of a step of a worker, of a `PostRequest` and of
another thread, with the guards under which they happen. -/

namespace PoolStudy.TP.Steps

open PoolStudy.Lib.Transition PoolStudy.Lib.Threads PoolStudy.TP.Model

variable {R : Type} [DecidableEq R]

/-! ### The semaphore -/

omit [DecidableEq R] in
/-- A token is left for the workers. -/
def tokenLeft (m : Mem R) : Prop := ∃ s, m.semaphore = some s ∧ 0 < s.count

omit [DecidableEq R] in
/-- The memory with `k` tokens more. -/
def released (m : Mem R) (s : Semaphore) (k : ℕ) : Mem R :=
  { m with semaphore := some { s with count := s.count + k } }

omit [DecidableEq R] in
/-- The memory after a `NotifyThread` that succeeded. -/
def notified (m : Mem R) (s : Semaphore) : Mem R :=
  { released m s 1 with semaphoreCount := inc m.semaphoreCount }

omit [DecidableEq R] in
theorem releaseSemaphore_some {m m' : Mem R} {x : Input R} {k : ℕ} (h : releaseSemaphore m x k = some m') :
    ∃ s, m.semaphore = some s ∧ s.count + k ≤ s.max ∧ m' = released m s k := by
  unfold releaseSemaphore at h
  split at h
  · next s hs =>
    split_ifs at h with hc
    cases h
    exact ⟨s, hs, hc.2.1, rfl⟩
  · cases h

omit [DecidableEq R] in
/-- When the kernel refuses. -/
theorem releaseSemaphore_none {m : Mem R} {x : Input R} {k : ℕ} {s : Semaphore}
    (h : releaseSemaphore m x k = none) (hs : m.semaphore = some s) (hk : 0 < k) (hx : x.refuse = false) :
    ¬ s.count + k ≤ s.max := by
  intro hle
  simp [releaseSemaphore, hs, hk, hle, hx] at h

omit [DecidableEq R] in
theorem notifyThread_some {m m' : Mem R} {x : Input R} (h : notifyThread m x = some m') :
    ∃ s, m.semaphore = some s ∧ s.count + 1 ≤ s.max ∧ m' = notified m s := by
  obtain ⟨m1, h1, rfl⟩ := Option.map_eq_some_iff.mp h
  obtain ⟨s, hs, hle, rfl⟩ := releaseSemaphore_some h1
  exact ⟨s, hs, hle, rfl⟩

omit [DecidableEq R] in
theorem notifyThread_none {m : Mem R} {x : Input R} {s : Semaphore} (h : notifyThread m x = none)
    (hs : m.semaphore = some s) (hx : x.refuse = false) : ¬ s.count + 1 ≤ s.max :=
  releaseSemaphore_none (Option.map_eq_none_iff.mp h) hs Nat.one_pos hx

/-! ### Workers -/

/-- **The outcomes of a step of the worker `i`.** -/
inductive WorkerStep (i : Fin maxThreads) (x : Input R) (m : Mem R) : Worker R → Mem R → Worker R → Prop
  | start (h : m.thread i = .created) :
      WorkerStep i x m .off { m with thread := Function.update m.thread i .running } .wait
  | acquire {s : Semaphore} (hs : m.semaphore = some s) (h : 0 < s.count) :
      WorkerStep i x m .wait { m with semaphore := some { s with count := s.count - 1 } } .woken
  | waitFailed (h : m.semaphore = none) : WorkerStep i x m .wait m .wait
  | woken : WorkerStep i x m .woken { m with semaphoreCount := dec m.semaphoreCount } .enter
  | enter : WorkerStep i x m .enter { m with activeThread := inc m.activeThread } .check
  | checkQuit (h : m.destroyed = true) : WorkerStep i x m .check m .quit
  | check (h : m.destroyed = false) : WorkerStep i x m .check m .pop
  | popEmpty (h : m.requestQueue = []) : WorkerStep i x m .pop m .leave
  | pop {r : R} {q : List R} (h : m.requestQueue = r :: q) :
      WorkerStep i x m .pop
        { m with requestQueue := (r :: q).filter (· ≠ r), popped := m.popped ++ [r] } (.execute r)
  | execute (r : R) (h : x.result = .zero) :
      WorkerStep i x m (.execute r) { m with executed := m.executed ++ [r] } .recheck
  | executeFailed (r : R) (h : x.result ≠ .zero) :
      WorkerStep i x m (.execute r) { m with executed := m.executed ++ [r] } .leave
  | recheckQuit (h : m.destroyed = true) : WorkerStep i x m .recheck m .quit
  | recheck (h : m.destroyed = false) : WorkerStep i x m .recheck m .renotify
  | passOn {s : Semaphore} (hp : m.pendingReqCount > 0) (hc : m.semaphoreCount < m.threadCount)
      (hs : m.semaphore = some s) (h : s.count + 1 ≤ s.max) :
      WorkerStep i x m .renotify { notified m s with pendingReqCount := dec m.pendingReqCount } .leave
  | passOnFailed (hp : m.pendingReqCount > 0) (hc : m.semaphoreCount < m.threadCount)
      (h : notifyThread m x = none) : WorkerStep i x m .renotify m .leave
  | nothing (h : m.pendingReqCount = 0 ∨ m.threadCount ≤ m.semaphoreCount) : WorkerStep i x m .renotify m .leave
  | leave : WorkerStep i x m .leave { m with activeThread := dec m.activeThread } .wait
  | quit : WorkerStep i x m .quit { m with activeThread := dec m.activeThread } .exit
  | exit : WorkerStep i x m .exit { m with thread := Function.update m.thread i .ended } .off

theorem workerStep_cases {i : Fin maxThreads} {x : Input R} {m : Mem R} {w : Worker R}
    {r : Mem R × Worker R} (h : workerStep i x m w = some r) : WorkerStep i x m w r.1 r.2 := by
  cases w with
  | off =>
    simp only [workerStep] at h
    split_ifs at h with ht
    cases h; exact .start ht
  | wait =>
    simp only [workerStep] at h
    split at h
    · next s hs =>
      split_ifs at h with hc
      cases h; exact .acquire hs hc
    · next hs => cases h; exact .waitFailed hs
  | woken => cases h; exact .woken
  | enter => cases h; exact .enter
  | check =>
    simp only [workerStep, Option.some.injEq] at h
    subst h
    split_ifs with hd
    · exact .checkQuit hd
    · exact .check (by simpa using hd)
  | pop =>
    simp only [workerStep, popRequest, Option.some.injEq] at h
    subst h
    cases hq : m.requestQueue with
    | nil => exact .popEmpty hq
    | cons r q => exact .pop hq
  | execute r =>
    simp only [workerStep, Option.some.injEq] at h
    subst h
    split_ifs with hr
    · exact .execute r hr
    · exact .executeFailed r hr
  | recheck =>
    simp only [workerStep, Option.some.injEq] at h
    subst h
    split_ifs with hd
    · exact .recheckQuit hd
    · exact .recheck (by simpa using hd)
  | renotify =>
    simp only [workerStep, renotify, Option.some.injEq] at h
    subst h
    split_ifs with hp
    · cases hn : notifyThread m x with
      | none => exact .passOnFailed hp.1 hp.2 hn
      | some m' =>
        obtain ⟨s, hs, hle, rfl⟩ := notifyThread_some hn
        exact .passOn hp.1 hp.2 hs hle
    · exact .nothing (by omega)
  | leave => cases h; exact .leave
  | quit => cases h; exact .quit
  | exit => cases h; exact .exit

/-! ### Posting -/

omit [DecidableEq R] in
/-- The memory with one request more on the list and counted as pending. -/
def counted (m : Mem R) (r : R) : Mem R :=
  { pushBack m r with pendingReqCount := inc m.pendingReqCount }

/-- **The outcomes of a `PostRequest`**, with what it returns. -/
inductive PostStep (x : Input R) (m : Mem R) (r : R) : Mem R → Bool → Prop
  | noList (h : m.threadList = none) : PostStep x m r m false
  | notify {s : Semaphore} (hl : m.threadList ≠ none) (hc : m.semaphoreCount < m.threadCount)
      (hs : m.semaphore = some s) (h : s.count + 1 ≤ s.max) :
      PostStep x m r { notified (pushBack m r) s with posted := m.posted ++ [r] } true
  | notifyFailed (hl : m.threadList ≠ none) (hc : m.semaphoreCount < m.threadCount)
      (h : notifyThread (pushBack m r) x = none) : PostStep x m r (counted m r) false
  | count (hl : m.threadList ≠ none) (hc : m.threadCount ≤ m.semaphoreCount) :
      PostStep x m r { counted m r with posted := m.posted ++ [r] } true

omit [DecidableEq R] in
theorem postRequest_cases (m : Mem R) (x : Input R) (r : R) :
    PostStep x m r (postRequest m x r).1 (postRequest m x r).2 := by
  unfold postRequest
  split_ifs with hl hc
  · exact .noList hl
  · cases hn : notifyThread (pushBack m r) x with
    | none => exact .notifyFailed hl hc hn
    | some m' =>
      obtain ⟨s, hs, hle, rfl⟩ := notifyThread_some hn
      exact .notify hl hc hs hle
  · exact .count hl (Nat.le_of_not_lt hc)

/-! ### Other threads -/

omit [DecidableEq R] in
/-- The memory at the end of the first part of `Create`. -/
def initialized (m : Mem R) (n : ℕ) : Mem R :=
  { m with
    activeThread := 0, semaphoreCount := 0, pendingReqCount := 0, threadCount := n, semaphore := some ⟨0, n⟩
    stage := .creating, posted := [], popped := [], executed := [] }

/-- **The outcomes of a step of a call.** -/
inductive ClientStep (x : Input R) (m : Mem R) : Client → Mem R → Client → Prop
  | post {r : R} {m' : Mem R} {v : Bool} (last : Option Bool) (hx : x.call = some (.postRequest r))
      (h : PostStep x m r m' v) : ClientStep x m (.out last) m' (.out (some v))
  | createRefused {n : ℕ} (last : Option Bool) (hx : x.call = some (.create n)) :
      ClientStep x m (.out last) m (.out (some false))
  | create {n : ℕ} (last : Option Bool) (hx : x.call = some (.create n)) (hl : m.threadList = none)
      (h0 : 0 < n) (hn : n ≤ maxThreads) : ClientStep x m (.out last) m (.createInit n)
  | destroyRefused (last : Option Bool) (hx : x.call = some .destroy) (hl : m.threadList = none) :
      ClientStep x m (.out last) m (.out (some false))
  | destroy (last : Option Bool) (hx : x.call = some .destroy) (hl : m.threadList ≠ none) :
      ClientStep x m (.out last) (beginDestroy m false) (.cancel false)
  | createInit (n : ℕ) : ClientStep x m (.createInit n) (initialized m n) .createList
  | semaphoreFailed (n : ℕ) :
      ClientStep x m (.createInit n)
        { m with
          activeThread := 0, semaphoreCount := 0, pendingReqCount := 0, threadCount := 0, semaphore := none }
        (.out (some false))
  | createList : ClientStep x m .createList { m with threadList := some 0 } (.createThread 0)
  | listFailed : ClientStep x m .createList m .destroy
  | createThread (usIdx : ℕ) (h : usIdx < m.threadCount) :
      ClientStep x m (.createThread usIdx)
        { m with threadList := some (usIdx + 1), thread := Function.update m.thread usIdx .created }
        (.createThread (usIdx + 1))
  | threadFailed (usIdx : ℕ) (h : usIdx < m.threadCount) : ClientStep x m (.createThread usIdx) m .destroy
  | allThreads (usIdx : ℕ) (h : m.threadCount ≤ usIdx) : ClientStep x m (.createThread usIdx) m .createFlag
  | createFlag : ClientStep x m .createFlag { m with destroyed := false, stage := .up } (.out (some true))
  | createFailed (hl : m.threadList = none) :
      ClientStep x m .destroy { m with stage := .down } (.out (some false))
  | createDestroy (hl : m.threadList ≠ none) : ClientStep x m .destroy (beginDestroy m true) (.cancel true)
  | cancel (b : Bool) : ClientStep x m (.cancel b) { m with requestQueue := [] } (.setFlag b)
  | setFlag (b : Bool) : ClientStep x m (.setFlag b) { m with destroyed := true } (.release b)
  | release (b : Bool) {s : Semaphore} (ha : m.activeThread < m.threadCount) (hs : m.semaphore = some s)
      (h : s.count + (m.threadCount - m.activeThread) ≤ s.max) :
      ClientStep x m (.release b) (released m s (m.threadCount - m.activeThread)) (.waitAll b)
  | releaseFailed (b : Bool) (ha : m.activeThread < m.threadCount)
      (h : releaseSemaphore m x (m.threadCount - m.activeThread) = none) :
      ClientStep x m (.release b) m (.out (some false))
  | allActive (b : Bool) (ha : m.threadCount ≤ m.activeThread) : ClientStep x m (.release b) m (.waitAll b)
  | badHandle (b : Bool) (h : m.threadList ≠ some m.threadCount) :
      ClientStep x m (.waitAll b) m (.out (some false))
  | waitAll (b : Bool) (hl : m.threadList = some m.threadCount) (h : ∀ i < m.threadCount, m.thread i = .ended) :
      ClientStep x m (.waitAll b) m (.closeThreads b)
  | closeThreads (b : Bool) : ClientStep x m (.closeThreads b) { m with threadList := none } (.closeSemaphore b)
  | closeThreadsFailed (b : Bool) (h : x.refuse = true) :
      ClientStep x m (.closeThreads b) m (.out (some false))
  | closeSemaphore (b : Bool) : ClientStep x m (.closeSemaphore b) { m with semaphore := none } (.clear b)
  | closeSemaphoreFailed (b : Bool) (h : x.refuse = true) :
      ClientStep x m (.closeSemaphore b) m (.out (some false))
  | clear (b : Bool) :
      ClientStep x m (.clear b) { m with requestQueue := [], stage := .down } (.out (some (!b)))

omit [DecidableEq R] in
theorem clientStep_cases {x : Input R} {m : Mem R} {p : Client} {r : Mem R × Client}
    (h : clientStep x m p = some r) : ClientStep x m p r.1 r.2 := by
  cases p with
  | out last =>
    simp only [clientStep] at h
    split at h
    · cases h
    · next r' hx => cases h; exact .post last hx (postRequest_cases m x r')
    · next n hx =>
      simp only [Option.some.injEq] at h
      subst h
      split_ifs with hn
      · exact .createRefused last hx
      · simp only [not_or, not_not, not_lt] at hn
        exact .create last hx hn.1 (Nat.pos_of_ne_zero hn.2.1) hn.2.2
    · next hx =>
      split_ifs at h with hl
      · cases h; exact .destroyRefused last hx hl
      · cases h; exact .destroy last hx hl
  | createInit n =>
    simp only [clientStep] at h
    split_ifs at h <;> cases h
    · exact .createInit n
    · exact .semaphoreFailed n
  | createList =>
    simp only [clientStep] at h
    split_ifs at h <;> cases h
    · exact .createList
    · exact .listFailed
  | createThread usIdx =>
    simp only [clientStep] at h
    split_ifs at h with hlt ha <;> cases h
    · exact .createThread usIdx hlt
    · exact .threadFailed usIdx hlt
    · exact .allThreads usIdx (Nat.le_of_not_lt hlt)
  | createFlag => cases h; exact .createFlag
  | destroy =>
    simp only [clientStep] at h
    split_ifs at h with hl <;> cases h
    · exact .createFailed hl
    · exact .createDestroy hl
  | cancel b => cases h; exact .cancel b
  | setFlag b => cases h; exact .setFlag b
  | release b =>
    simp only [clientStep] at h
    split_ifs at h with ha
    · split at h
      · next m' hm =>
        obtain ⟨s, hs, hle, rfl⟩ := releaseSemaphore_some hm
        cases h; exact .release b ha hs hle
      · next hm => cases h; exact .releaseFailed b ha hm
    · cases h; exact .allActive b (Nat.le_of_not_lt ha)
  | waitAll b =>
    simp only [clientStep] at h
    split_ifs at h with hl ht
    · cases h; exact .badHandle b hl
    · cases h; exact .waitAll b (by simpa using hl) ht
  | closeThreads b =>
    simp only [clientStep] at h
    split_ifs at h with hr <;> cases h
    · exact .closeThreadsFailed b hr
    · exact .closeThreads b
  | closeSemaphore b =>
    simp only [clientStep] at h
    split_ifs at h with hr <;> cases h
    · exact .closeSemaphoreFailed b hr
    · exact .closeSemaphore b
  | clear b => cases h; exact .clear b

end PoolStudy.TP.Steps
