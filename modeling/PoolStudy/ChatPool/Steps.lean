import PoolStudy.ChatPool.Model

/-! # The pool of the chat server: what a step can do

`CallStep` and `WorkerStep` list the outcomes of a step of a thread in its own code or in a call, and of a
worker, with the guards under which they happen; `callStep_cases` and `workerStep_cases` read them off the
definitions once. -/

namespace PoolStudy.ChatPool.Steps

open PoolStudy.Lib.Transition PoolStudy.Lib.Threads PoolStudy.Lib.IntCounter PoolStudy.ChatPool.Model

variable {n : ℕ} {κ σ ℓ A I : Type} (C : Code n κ σ ℓ A I)

/-- The memory with the mutex taken by `self`. -/
def locked (m : Mem n κ σ A) (self : Tid n κ) : Mem n κ σ A :=
  { m with pool := { m.pool with queueLock := some self } }

/-- The memory with other threads asleep on `queueReady`. -/
def withReady (m : Mem n κ σ A) (ws : Finset (Fin n)) : Mem n κ σ A :=
  { m with pool := { m.pool with queueReady := ws } }

/-- The memory without its first item `p`. -/
def withoutHead (m : Mem n κ σ A) (p : Ptr) : Mem n κ σ A :=
  { m with
    pool := { m.pool with curQueueSize := wrap (m.pool.curQueueSize - 1), queueHead := (m.heap p).next }
    dequeued := m.dequeued ++ [p] }

/-- The memory whose first item `p` the clean-up loop has freed. -/
def cleanedHead (m : Mem n κ σ A) (p : Ptr) : Mem n κ σ A :=
  { m with pool := { m.pool with queueHead := (m.heap p).next }, cleaned := m.cleaned ++ [p] }

/-- **The outcomes of a step of a call** by `self`, from the memory `m`. -/
inductive CallStep (self : Tid n κ) (x : Input n I) (m : Mem n κ σ A) :
    Call ℓ → Mem n κ σ A → Call ℓ → Prop
  | goto {l l' : ℓ} {s : σ} (h : C.step self x.ext m.ext l = some (s, .goto l')) :
      CallStep self x m (.code l) { m with ext := s } (.code l')
  | add {l l' : ℓ} {s : σ} {a : A} (h : C.step self x.ext m.ext l = some (s, .add a l')) (hr : m.hasRoom) :
      CallStep self x m (.code l) (Mem.newWorker { m with ext := s } a) (.addLock m.fresh l')
  | destroy {l ok failed : ℓ} {s : σ} (h : C.step self x.ext m.ext l = some (s, .destroy ok failed)) :
      CallStep self x m (.code l) { m with ext := s } (.destroyTest ⟨m.added, m.returned⟩ ok failed)
  | addLock (p : Ptr) (l : ℓ) (h : m.pool.queueLock = none) :
      CallStep self x m (.addLock p l) (locked m self) (.addHead p l)
  | addHead (p : Ptr) (l : ℓ) {q : Ptr} (h : m.pool.queueHead = some q) :
      CallStep self x m (.addHead p l) m (.walk p q l)
  | addEmpty (p : Ptr) (l : ℓ) (h : m.pool.queueHead = none) :
      CallStep self x m (.addHead p l) m (.append p none l)
  | walk (p q : Ptr) (l : ℓ) {r : Ptr} (h : (m.heap q).next = some r) :
      CallStep self x m (.walk p q l) m (.walk p r l)
  | walkEnd (p q : Ptr) (l : ℓ) (h : (m.heap q).next = none) :
      CallStep self x m (.walk p q l) m (.append p (some q) l)
  | append (p : Ptr) (member : Option Ptr) (l : ℓ) (h : (m.link p member).pool.queueHead ≠ none) :
      CallStep self x m (.append p member l) ((m.link p member).count p) (.addUnlock p l)
  | appendAbort (p : Ptr) (member : Option Ptr) (l : ℓ) (h : (m.link p member).pool.queueHead = none) :
      CallStep self x m (.append p member l) (m.link p member) .aborted
  | addUnlock (p : Ptr) (l : ℓ) : CallStep self x m (.addUnlock p l) m.unlock (.addSignal p l)
  | addSignal (p : Ptr) (l : ℓ) {ws : Finset (Fin n)} (h : signal x.wake m.pool.queueReady = some ws) :
      CallStep self x m (.addSignal p l) { withReady m ws with returned := m.returned ++ [p] } (.code l)
  | testFailed (d : Before) (ok failed : ℓ) (h : m.pool.shutdown = true) :
      CallStep self x m (.destroyTest d ok failed) m (.code failed)
  | test (d : Before) (ok failed : ℓ) (h : m.pool.shutdown = false) :
      CallStep self x m (.destroyTest d ok failed) m (.destroySet d ok)
  | set (d : Before) (ok : ℓ) :
      CallStep self x m (.destroySet d ok) { m with pool := { m.pool with shutdown := true } }
        (.destroyCast d ok)
  | cast (d : Before) (ok : ℓ) : CallStep self x m (.destroyCast d ok) (withReady m ∅) (.join d 0 ok)
  | joinOne (d : Before) (ok : ℓ) (i : Fin n) (h : i ∈ m.exited) :
      CallStep self x m (.join d i ok) m (.join d (i + 1) ok)
  | joinEnd (d : Before) (ok : ℓ) {i : ℕ} (h : n ≤ i) :
      CallStep self x m (.join d i ok) { m with pool := { m.pool with threadid := false } } (.clean d ok)
  | cleanOne (d : Before) (ok : ℓ) {p : Ptr} (h : m.pool.queueHead = some p) :
      CallStep self x m (.clean d ok) (cleanedHead m p) (.clean d ok)
  | cleanEnd (d : Before) (ok : ℓ) (h : m.pool.queueHead = none) :
      CallStep self x m (.clean d ok) m (.destroyFree d ok)
  | free (d : Before) (ok : ℓ) :
      CallStep self x m (.destroyFree d ok) { m with freed := true, destroyed := m.destroyed ++ [d] }
        (.code ok)

theorem lock_some {m m' : Mem n κ σ A} {self : Tid n κ} (h : m.lock self = some m') :
    m.pool.queueLock = none ∧ m' = locked m self := by
  unfold Mem.lock at h
  split_ifs at h with hl
  cases h
  exact ⟨Option.isNone_iff_eq_none.mp hl, rfl⟩

variable {C}

theorem actStep_cases {self : Tid n κ} {x : Input n I} {m : Mem n κ σ A} {l : ℓ} {s : σ} {a : Act ℓ A}
    {r : Mem n κ σ A × Call ℓ} (hc : C.step self x.ext m.ext l = some (s, a))
    (h : actStep { m with ext := s } a = some r) : CallStep C self x m (.code l) r.1 r.2 := by
  cases a with
  | goto l' => cases h; exact .goto hc
  | add a l' =>
    simp only [actStep] at h
    split_ifs at h with hr
    cases h
    exact .add hc hr
  | destroy ok failed => cases h; exact .destroy hc
  | ret => cases h

theorem poolStep_cases {self : Tid n κ} {x : Input n I} {m : Mem n κ σ A} {c : Call ℓ}
    {r : Mem n κ σ A × Call ℓ} (h : poolStep self x m c = some r) : CallStep C self x m c r.1 r.2 := by
  unfold poolStep at h
  by_cases hf : m.freed = true
  · rw [if_pos hf] at h
    cases h
  rw [if_neg hf] at h
  cases c with
  | code l => cases h
  | addLock p l =>
    obtain ⟨m', hm, rfl⟩ := Option.map_eq_some_iff.mp h
    obtain ⟨hl, rfl⟩ := lock_some hm
    exact .addLock p l hl
  | addHead p l =>
    simp only [Option.some.injEq] at h
    subst h
    split
    · next q hq => exact .addHead p l hq
    · next hq => exact .addEmpty p l hq
  | walk p q l =>
    simp only [Option.some.injEq] at h
    subst h
    split
    · next r hr => exact .walk p q l hr
    · next hr => exact .walkEnd p q l hr
  | append p member l =>
    simp only [appendStep, Option.some.injEq] at h
    subst h
    split_ifs with hh
    · exact .append p member l (Option.isSome_iff_ne_none.mp hh)
    · exact .appendAbort p member l (by simpa using hh)
  | addUnlock p l => cases h; exact .addUnlock p l
  | addSignal p l =>
    obtain ⟨ws, hw, rfl⟩ := Option.map_eq_some_iff.mp h
    exact .addSignal p l hw
  | destroyTest d ok failed =>
    simp only [Option.some.injEq] at h
    subst h
    split_ifs with hs
    · exact .testFailed d ok failed hs
    · exact .test d ok failed (by simpa using hs)
  | destroySet d ok => cases h; exact .set d ok
  | destroyCast d ok => cases h; exact .cast d ok
  | join d i ok =>
    simp only [joinStep] at h
    split_ifs at h with hi he
    · cases h; exact .joinOne d ok ⟨i, hi⟩ he
    · cases h; exact .joinEnd d ok (by omega)
  | clean d ok =>
    simp only [cleanStep, Option.some.injEq] at h
    subst h
    split
    · next p hp => exact .cleanOne d ok hp
    · next hp => exact .cleanEnd d ok hp
  | destroyFree d ok => cases h; exact .free d ok
  | aborted => cases h

theorem callStep_cases {self : Tid n κ} {x : Input n I} {m : Mem n κ σ A} {c : Call ℓ}
    {r : Mem n κ σ A × Call ℓ} (h : callStep C self x m c = some r) : CallStep C self x m c r.1 r.2 := by
  unfold callStep at h
  split at h
  · obtain ⟨⟨s, a⟩, hc, ha⟩ := Option.bind_eq_some_iff.mp h
    exact actStep_cases hc ha
  · exact poolStep_cases h

/-- **The outcomes of a step of the worker `i`.** -/
inductive WorkerStep (C : Code n κ σ ℓ A I) (i : Fin n) (x : Input n I) (m : Mem n κ σ A) :
    Worker ℓ → Mem n κ σ A → Worker ℓ → Prop
  | lock (h : m.pool.queueLock = none) : WorkerStep C i x m .lock (locked m (.inl i)) .whileTest
  | mustWait (h : m.pool.curQueueSize = 0) (hs : m.pool.shutdown = false) :
      WorkerStep C i x m .whileTest m .wait
  | goOn (h : m.pool.curQueueSize ≠ 0 ∨ m.pool.shutdown = true) : WorkerStep C i x m .whileTest m .ifTest
  | wait : WorkerStep C i x m .wait (withReady m (insert i m.pool.queueReady)).unlock .blocked
  | spurious (h : i ∈ m.pool.queueReady) :
      WorkerStep C i x m .blocked (withReady m (m.pool.queueReady.erase i)) .blocked
  | wake (h : i ∉ m.pool.queueReady) (hl : m.pool.queueLock = none) :
      WorkerStep C i x m .blocked (locked m (.inl i)) .whileTest
  | leave (h : m.pool.curQueueSize = 0) (hs : m.pool.shutdown = true) :
      WorkerStep C i x m .ifTest m .exitUnlock
  | stay (h : ¬ (m.pool.curQueueSize = 0 ∧ m.pool.shutdown = true)) : WorkerStep C i x m .ifTest m .take
  | exit : WorkerStep C i x m .exitUnlock { m.unlock with exited := insert i m.exited } .exited
  | take {p : Ptr} (h : m.pool.curQueueSize ≠ 0) (hp : m.pool.queueHead = some p) :
      WorkerStep C i x m .take (withoutHead m p) (.unlock p)
  | takeAbort (h : m.pool.curQueueSize = 0 ∨ m.pool.queueHead = none) :
      WorkerStep C i x m .take m .aborted
  | unlock (p : Ptr) :
      WorkerStep C i x m (.unlock p) m.unlock (.run p (.code (C.process (m.heap p).arg)))
  | finish (p : Ptr) {l : ℓ} {s : σ} (h : C.step (.inl i) x.ext m.ext l = some (s, .ret)) :
      WorkerStep C i x m (.run p (.code l)) { m with ext := s, finished := m.finished ++ [p] } (.free p)
  | call (p : Ptr) {c c' : Call ℓ} {m' : Mem n κ σ A} (h : CallStep C (.inl i) x m c m' c') :
      WorkerStep C i x m (.run p c) m' (.run p c')
  | free (p : Ptr) : WorkerStep C i x m (.free p) m .lock

theorem returns_some {self : Tid n κ} {x : Input n I} {m : Mem n κ σ A} {c : Call ℓ} {s : σ}
    (h : returns C self x m c = some s) :
    ∃ l, c = .code l ∧ C.step self x.ext m.ext l = some (s, .ret) := by
  cases c with
  | code l =>
    simp only [returns] at h
    split at h
    · next s' hs =>
      cases h
      exact ⟨l, rfl, hs⟩
    · cases h
  | _ => cases h

theorem workerStep_cases {i : Fin n} {x : Input n I} {m : Mem n κ σ A} {w : Worker ℓ}
    {r : Mem n κ σ A × Worker ℓ} (h : workerStep C i x m w = some r) :
    WorkerStep C i x m w r.1 r.2 := by
  cases w with
  | lock =>
    obtain ⟨m', hm, rfl⟩ := Option.map_eq_some_iff.mp h
    obtain ⟨hl, rfl⟩ := lock_some hm
    exact .lock hl
  | whileTest =>
    simp only [workerStep, Option.some.injEq] at h
    subst h
    split_ifs with ht
    · exact .mustWait ht.1 ht.2
    · refine .goOn ?_
      by_cases hz : m.pool.curQueueSize = 0
      · exact Or.inr (by simpa [hz] using ht)
      · exact Or.inl hz
  | wait => cases h; exact .wait
  | blocked =>
    simp only [workerStep] at h
    split_ifs at h with hi
    · cases h; exact .spurious hi
    · obtain ⟨m', hm, rfl⟩ := Option.map_eq_some_iff.mp h
      obtain ⟨hl, rfl⟩ := lock_some hm
      exact .wake hi hl
  | ifTest =>
    simp only [workerStep, Option.some.injEq] at h
    subst h
    split_ifs with ht
    · exact .leave ht.1 ht.2
    · exact .stay ht
  | exitUnlock => cases h; exact .exit
  | take =>
    simp only [workerStep, takeStep, Option.some.injEq] at h
    subst h
    split_ifs with hz
    · split
      · next p hp => exact .take hz hp
      · next hp => exact .takeAbort (Or.inr hp)
    · exact .takeAbort (Or.inl (by simpa using hz))
  | unlock p => cases h; exact .unlock p
  | run p c =>
    simp only [workerStep] at h
    split at h
    · next s hs =>
      obtain ⟨l, rfl, hl⟩ := returns_some hs
      cases h
      exact .finish p hl
    · obtain ⟨⟨m', c'⟩, hr, rfl⟩ := Option.map_eq_some_iff.mp h
      exact .call p (callStep_cases hr)
  | free p => cases h; exact .free p
  | exited => cases h
  | aborted => cases h

/-! ### Where the threads are in their calls -/

/-- The call a worker's item is in. -/
def workerCall : Worker ℓ → Option (Call ℓ)
  | .run _ c => some c
  | _ => none

/-- The call every thread is in. -/
def callAt (c : State n κ σ ℓ A) : Tid n κ → Option (Call ℓ) := c.view workerCall some

/-- A step of a worker is a step of its call, or it leads to the start of an item or out of it. -/
theorem workerStep_call {i : Fin n} {x : Input n I} {m m' : Mem n κ σ A} {w w' : Worker ℓ} {d' : Call ℓ}
    (hs : WorkerStep C i x m w m' w') (hd : workerCall w' = some d') :
    (∃ d, workerCall w = some d ∧ CallStep C (.inl i) x m d m' d') ∨ ∃ l, d' = .code l := by
  cases hs with
  | unlock p =>
    cases hd
    exact Or.inr ⟨_, rfl⟩
  | call p hs =>
    cases hd
    exact Or.inl ⟨_, rfl, hs⟩
  | _ => cases hd

/-! ### The code that uses the pool -/

/-- Where a thread is in its own code, or will go on there after the call. -/
def places : Call ℓ → List ℓ
  | .code l | .addLock _ l | .addHead _ l | .walk _ _ l | .append _ _ l | .addUnlock _ l | .addSignal _ l => [l]
  | .destroyTest _ ok failed => [ok, failed]
  | .destroySet _ ok | .destroyCast _ ok | .join _ _ ok | .clean _ ok | .destroyFree _ ok => [ok]
  | .aborted => []

/-- Where the code goes on. -/
def actPlaces : Act ℓ A → List ℓ
  | .goto l | .add _ l => [l]
  | .destroy ok failed => [ok, failed]
  | .ret => []

/-- **The pool leaves the memory of the code alone**, and a call comes back where it was made. -/
theorem callStep_code {self : Tid n κ} {x : Input n I} {m m' : Mem n κ σ A} {d d' : Call ℓ}
    (hs : CallStep C self x m d m' d') :
    (m'.ext = m.ext ∧ ∀ l ∈ places d', l ∈ places d) ∨
      ∃ l s a, d = .code l ∧ C.step self x.ext m.ext l = some (s, a) ∧ m'.ext = s ∧ places d' = actPlaces a := by
  cases hs with
  | goto h | add h | destroy h => exact Or.inr ⟨_, _, _, rfl, h, rfl, rfl⟩
  | append p member l h | appendAbort p member l h =>
    refine Or.inl ⟨?_, ?_⟩
    · cases member <;> rfl
    · simp [places]
  | testFailed d ok failed h | test d ok failed h => exact Or.inl ⟨rfl, by simp [places]⟩
  | _ => exact Or.inl ⟨rfl, fun l hl => hl⟩

theorem workerStep_code {i : Fin n} {x : Input n I} {m m' : Mem n κ σ A} {w w' : Worker ℓ}
    (hs : WorkerStep C i x m w m' w') :
    m'.ext = m.ext ∨ ∃ l s a, C.step (.inl i) x.ext m.ext l = some (s, a) ∧ m'.ext = s := by
  cases hs with
  | finish p h => exact Or.inr ⟨_, _, _, h, rfl⟩
  | call p h =>
    rcases callStep_code h with ⟨he, -⟩ | ⟨l, s, a, -, hst, he, -⟩
    · exact Or.inl he
    · exact Or.inr ⟨l, s, a, hst, he⟩
  | _ => exact Or.inl rfl

variable [DecidableEq κ]

/-- **What holds of all calls before a step holds of all calls after it**, if the other calls keep it, it
holds in the code of the threads, and a step of a call keeps it. -/
theorem next_calls {c c' : State n κ σ ℓ A} {a : Tid n κ × Input n I} {P P' : Call ℓ → Prop}
    (hs : (chatPool C).lts.next c a = some c') (h : ∀ t d, callAt c t = some d → P d)
    (hother : ∀ d, P d → P' d) (hcode : ∀ l, P' (.code l))
    (hstep : ∀ d d', CallStep C a.1 a.2 c.mem d c'.mem d' → P d → P' d') :
    ∀ t d, callAt c' t = some d → P' d := by
  have hupd : ∀ (b : Option (Call ℓ)) (s : Tid n κ), (∀ d, b = some d → P' d) →
      ∀ t d, Function.update (callAt c) s b t = some d → P' d := by
    intro b s hb t d hd
    by_cases ht : t = s
    · subst ht
      rw [Function.update_self] at hd
      exact hb d hd
    · rw [Function.update_of_ne ht] at hd
      exact hother d (h t d hd)
  rcases Program.next_cases hs with ⟨i, x, r, rfl, hr, rfl⟩ | ⟨k, x, r, rfl, hr, rfl⟩
  · rw [callAt, view_moveWorker]
    refine hupd _ _ fun d hd => ?_
    rcases workerStep_call (workerStep_cases hr) hd with ⟨e, he, hst⟩ | ⟨l, rfl⟩
    · exact hstep e d hst (h (.inl i) e he)
    · exact hcode l
  · rw [callAt, view_moveClient]
    refine hupd _ _ fun d hd => ?_
    cases hd
    exact hstep (c.client k) r.2 (callStep_cases hr) (h (.inr k) _ rfl)

end PoolStudy.ChatPool.Steps
