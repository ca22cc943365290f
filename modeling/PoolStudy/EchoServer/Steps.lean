import PoolStudy.Workqueue.Steps
import PoolStudy.EchoServer.Model

/-! # The echo server: what a step can do

`MainStep` and `WorkerStep` list the outcomes of a step of the main thread (or of a killer) and of a worker,
read off the definitions once. -/

namespace PoolStudy.EchoServer.Steps

open PoolStudy.Lib.Transition PoolStudy.Lib.Threads PoolStudy.EchoServer.Model
open PoolStudy.Workqueue.Model (Tid Call Worker)

variable {n : ℕ}

/-- The memory with a new connection on the descriptor `fd`. -/
def accepted (m : Mem n) (fd : ℤ) : Mem n :=
  { m with fds := Function.update m.fds fd (some m.accepted), accepted := m.accepted + 1 }

/-- The memory with another work queue. -/
def withQueue (m : Mem n) (w : Workqueue.Model.Mem n ℕ) : Mem n := { m with workqueue := w }

/-- The next stage of `on_accept` for a connection with a client, and what it writes if it succeeds. -/
inductive Stage (m : Mem n) (j : ℕ) : Main n → Mem n → Main n → Prop
  | evbufferNew : Stage m j (.evbufferNew j) (m.setClient j { m.client j with outputBuffer := true }) (.eventBaseNew j)
  | eventBaseNew : Stage m j (.eventBaseNew j) (m.setClient j { m.client j with evbase := true }) (.buffereventNew j)
  | buffereventNew : Stage m j (.buffereventNew j) (m.setClient j { m.client j with bufEv := true }) (.mallocJob j)
  | mallocJob : Stage m j (.mallocJob j) m (.addJob (.addLock j))

/-- **The outcomes of a step of the main thread or of a killer.** -/
inductive MainStep (k : ℕ) (x : Input n) (m : Mem n) : Main n → Mem n → Main n → Prop
  | accept (fd : ℤ) (h0 : 0 ≤ fd) (h : m.fds fd = none) :
      MainStep k x m .loop (accepted m fd) (.setnonblock m.accepted fd)
  | acceptFailed : MainStep k x m .loop m .loop
  | exit : MainStep k x m .loop m .returned
  | setnonblock (j : ℕ) (fd : ℤ) : MainStep k x m (.setnonblock j fd) m (.mallocClient j fd)
  | nonblockFailed (j : ℕ) (fd : ℤ) : MainStep k x m (.setnonblock j fd) m (.close j fd)
  | close (j : ℕ) (fd : ℤ) : MainStep k x m (.close j fd) (m.close j fd) .loop
  | mallocClient (j : ℕ) (fd : ℤ) :
      MainStep k x m (.mallocClient j fd) (m.setClient j ⟨fd, false, false, false⟩) (.evbufferNew j)
  | mallocFailed (j : ℕ) (fd : ℤ) : MainStep k x m (.mallocClient j fd) m (.close j fd)
  | stage (j : ℕ) {p p' : Main n} {m' : Mem n} (h : Stage m j p m' p') : MainStep k x m p m' p'
  | stageFailed (j : ℕ) {p p' : Main n} {m' : Mem n} (h : Stage m j p m' p') : MainStep k x m p m (.closeClient j)
  | addJob {c c' : Call n ℕ} {w : Workqueue.Model.Mem n ℕ}
      (h : Workqueue.Steps.CallStep (.inr k) { wake := x.wake } m.workqueue c w c') :
      MainStep k x m (.addJob c) (withQueue m w) (if c' = .outside then .loop else .addJob c')
  | closeClient (j : ℕ) : MainStep k x m (.closeClient j) (closeClient m j) (.freeClient j)
  | freeClient (j : ℕ) : MainStep k x m (.freeClient j) (freeClient m j) .loop
  | kill : MainStep k x m .idle { m with loopexit := true } (.shutdown .head)
  | shutdown {c c' : Call n ℕ} {w : Workqueue.Model.Mem n ℕ}
      (h : Workqueue.Steps.CallStep (.inr k) { wake := x.wake } m.workqueue c w c') :
      MainStep k x m (.shutdown c) (withQueue m w) (if c' = .outside then .idle else .shutdown c')

theorem queueCall_cases {k : ℕ} {x : Input n} {m : Mem n} {c : Call n ℕ} {r : Mem n × Call n ℕ}
    (h : queueCall k x m c = some r) : ∃ w, r.1 = withQueue m w ∧
      Workqueue.Steps.CallStep (.inr k) { wake := x.wake } m.workqueue c w r.2 := by
  obtain ⟨⟨w, c'⟩, hr, rfl⟩ := Option.map_eq_some_iff.mp h
  exact ⟨w, rfl, Workqueue.Steps.callStep_cases hr⟩

theorem mainStep_cases {k : ℕ} {x : Input n} {m : Mem n} {p : Main n} {r : Mem n × Main n}
    (h : mainStep k x m p = some r) : MainStep k x m p r.1 r.2 := by
  cases p with
  | loop =>
    simp only [mainStep] at h
    split at h
    · next fd hx =>
      split_ifs at h with hfd
      cases h; exact .accept fd hfd.1 hfd.2
    · cases h; exact .acceptFailed
    · split_ifs at h
      cases h; exact .exit
    · cases h
  | setnonblock j fd =>
    simp only [mainStep, Option.some.injEq] at h
    subst h
    split_ifs
    · exact .nonblockFailed j fd
    · exact .setnonblock j fd
  | close j fd => cases h; exact .close j fd
  | mallocClient j fd =>
    simp only [mainStep] at h
    split_ifs at h <;> cases h
    · exact .mallocFailed j fd
    · exact .mallocClient j fd
  | evbufferNew j =>
    simp only [mainStep] at h
    split_ifs at h <;> cases h
    · exact .stageFailed j .evbufferNew
    · exact .stage j .evbufferNew
  | eventBaseNew j =>
    simp only [mainStep] at h
    split_ifs at h <;> cases h
    · exact .stageFailed j .eventBaseNew
    · exact .stage j .eventBaseNew
  | buffereventNew j =>
    simp only [mainStep] at h
    split_ifs at h <;> cases h
    · exact .stageFailed j .buffereventNew
    · exact .stage j .buffereventNew
  | mallocJob j =>
    simp only [mainStep, Option.some.injEq] at h
    subst h
    split_ifs
    · exact .stageFailed j .mallocJob
    · exact .stage j .mallocJob
  | addJob c =>
    obtain ⟨⟨m', c'⟩, hr, rfl⟩ := Option.map_eq_some_iff.mp h
    obtain ⟨w, rfl, hc⟩ := queueCall_cases hr
    exact .addJob hc
  | closeClient j => cases h; exact .closeClient j
  | freeClient j => cases h; exact .freeClient j
  | returned => cases h
  | idle => cases h; exact .kill
  | shutdown c =>
    obtain ⟨⟨m', c'⟩, hr, rfl⟩ := Option.map_eq_some_iff.mp h
    obtain ⟨w, rfl, hc⟩ := queueCall_cases hr
    exact .shutdown hc

/-- **The outcomes of a step of the worker `i`.** -/
inductive WorkerStep (i : Fin n) (x : Input n) (m : Mem n) : Pos n → Mem n → Pos n → Prop
  | run (j : ℕ) (c : Call n ℕ) : WorkerStep i x m (.pool (.run j c)) m (.dispatch j)
  | pool {w w' : Worker n ℕ} {q : Workqueue.Model.Mem n ℕ} (hw : ∀ j c, w ≠ .run j c)
      (h : Workqueue.Steps.WorkerStep i { wake := x.wake } m.workqueue w q w') :
      WorkerStep i x m (.pool w) (withQueue m q) (.pool w')
  | quiet (j : ℕ) : WorkerStep i x m (.dispatch j) m (.dispatch j)
  | error (j : ℕ) : WorkerStep i x m (.dispatch j) (closeClient m j) (.dispatch j)
  | exit (j : ℕ) : WorkerStep i x m (.dispatch j) m (.closeClient j)
  | closeClient (j : ℕ) : WorkerStep i x m (.closeClient j) (closeClient m j) (.freeClient j)
  | freeClient (j : ℕ) : WorkerStep i x m (.freeClient j) (freeClient m j) (.freeJob j)
  | freeJob (j : ℕ) : WorkerStep i x m (.freeJob j) m (.pool .lock)

theorem workerStep_cases {i : Fin n} {x : Input n} {m : Mem n} {p : Pos n} {r : Mem n × Pos n}
    (h : workerStep i x m p = some r) : WorkerStep i x m p r.1 r.2 := by
  cases p with
  | pool w =>
    by_cases hrun : ∃ j c, w = .run j c
    · obtain ⟨j, c, rfl⟩ := hrun
      cases h; exact .run j c
    · have hw : ∀ j c, w ≠ .run j c := fun j c hw => hrun ⟨j, c, hw⟩
      have h : (Workqueue.Model.workerStep i { wake := x.wake } m.workqueue w).map
          (fun r => (withQueue m r.1, Pos.pool r.2)) = some r := by
        cases w with
        | run j c => exact absurd rfl (hw j c)
        | _ => exact h
      obtain ⟨⟨q, w'⟩, hr, rfl⟩ := Option.map_eq_some_iff.mp h
      exact .pool hw (Workqueue.Steps.workerStep_cases hr)
  | dispatch j =>
    simp only [workerStep] at h
    unfold callback at h
    split at h
    · cases h
      split_ifs
      · exact .error j
      · exact .quiet j
    · cases h; exact .quiet j
    · cases h; exact .error j
    · cases h; exact .exit j
    · cases h
  | closeClient j => cases h; exact .closeClient j
  | freeClient j => cases h; exact .freeClient j
  | freeJob j => cases h; exact .freeJob j

end PoolStudy.EchoServer.Steps
