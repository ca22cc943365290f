import PoolStudy.ChatPool.Join
import PoolStudy.ChatServer.Steps

/-! # The server shuts down

When `epoll_wait` fails, `main` calls `poolDestroy`. `myprocess` is two loops over the table and never calls the
pool, so the items of the server return after a bounded number of steps (`server_returning`), and a broadcast that
reaches every worker lets `main` come to the end of its joins. -/

namespace PoolStudy.ChatServer.Shutdown

open PoolStudy.Lib.Transition PoolStudy.Lib.Threads
open PoolStudy.ChatPool.Model PoolStudy.ChatPool.Steps PoolStudy.ChatPool.Wake PoolStudy.ChatPool.Join
open PoolStudy.ChatServer.Model PoolStudy.ChatServer.Steps

/-! ### `myprocess` returns -/

/-- The places of `myprocess`. -/
def inProcess : Pos → Prop
  | .start | .search _ _ | .copy _ _ | .send _ _ _ _ => True
  | .sendTo _ _ j _ => j < maxEventNumber
  | _ => False

/-- The steps `myprocess` has left, at most. -/
def left : Pos → ℕ
  | .send _ _ j _ => 2 * (maxEventNumber - j) + 1
  | .sendTo _ _ j _ => 2 * (maxEventNumber - j)
  | .copy _ _ => 2 * maxEventNumber + 2
  | .search _ j => 2 * maxEventNumber + 3 + (maxEventNumber - j)
  | .start => 3 * maxEventNumber + 4
  | _ => 0

/-- **The items of the server return.** -/
theorem server_returning : Returning server inProcess left (left .start) := by
  refine ⟨fun _ => ⟨trivial, le_rfl⟩, fun i x m l m' a hl hst => ?_, fun i m l hl => ⟨none, ?_⟩⟩
  · have hs : ProcessStep m l m' a := processStep_cases hst
    cases hs with
    | ret fd buf j sentTo hj => exact Or.inl rfl
    | other fd buf j sentTo hj h => exact Or.inr ⟨_, rfl, hj, by simp only [left]; omega⟩
    | send fd buf j sentTo =>
      have hj : j < maxEventNumber := hl
      exact Or.inr ⟨_, rfl, trivial, by simp only [left]; omega⟩
    | _ => exact Or.inr ⟨_, rfl, trivial, by simp only [left]; omega⟩
  · show (processStep m l).isSome = true
    cases l with
    | search fd j | send fd buf j sentTo =>
      simp only [processStep]
      split_ifs <;> rfl
    | start | copy fd j | sendTo fd buf j sentTo => rfl
    | _ => exact hl.elim

/-! ### `poolDestroy` -/

/-- **Where `main` goes from `poolDestroy`**: to its end, where it is when the pool has been freed. -/
def Ends (freed : Bool) (d : Call Pos) : Prop :=
  (freed = true → d = .code .exit) ∧
    match d with
    | .destroyTest _ ok failed => ok = .exit ∧ failed = .exit
    | .destroySet _ ok | .destroyCast _ ok | .join _ _ ok | .clean _ ok | .destroyFree _ ok => ok = .exit
    | _ => True

theorem callStep_ends {x : Input threadNum (Option Kernel)} {m m' : Mem threadNum Unit Server Event}
    {d d' : Call Pos} (hs : CallStep server (.inr ()) x m d m' d') (h : Ends m.freed d) : Ends m'.freed d' := by
  -- the end of `main` is not left
  have hlive : m.freed = false := by
    by_contra hne
    obtain rfl := h.1 (by simpa using hne)
    cases hs with
    | goto hst | add hst | destroy hst => cases hst
  have hno : ∀ {d : Call Pos}, m.freed = true → d = .code .exit := by
    intro d hf
    rw [hlive] at hf
    cases hf
  obtain ⟨-, h⟩ := h
  cases hs with
  | destroy hst =>
    have hmain := mainStep_cases hst
    generalize x.ext = y at hmain
    cases hmain
    exact ⟨hno, rfl, rfl⟩
  | append p member l hh => cases member <;> exact ⟨hno, trivial⟩
  | appendAbort p member l hh => cases member <;> exact ⟨hno, trivial⟩
  | test d ok failed hsd => exact ⟨hno, h.1⟩
  | free d ok => exact ⟨fun _ => congrArg Call.code h, trivial⟩
  | set d ok | cast d ok | joinOne d ok i hi | joinEnd d ok hi | cleanOne d ok hp | cleanEnd d ok hp =>
    exact ⟨hno, h⟩
  | _ => exact ⟨hno, trivial⟩

theorem ends_reach {c : ServerState} (h : Reach chatServer anyStep c) : Ends c.mem.freed (c.client ()) := by
  refine Program.invariant (I := fun c : ServerState => Ends c.mem.freed (c.client ())) ?_ ?_ ?_ h
  · rintro _ ⟨m, heap, -, rfl⟩
    exact ⟨fun hf => absurd hf (by simp [poolInit]), trivial⟩
  · intro c i x r hc hi _ hr
    have hfreed : r.1.freed = c.mem.freed := by
      have hs := workerStep_cases hr
      have hitem := server_returning.itemsReturn c hc i
      generalize c.worker i = w, r.1 = m', r.2 = w' at hs hitem
      cases hs with
      | call p hs =>
        obtain ⟨l, rfl, -⟩ := hitem _ _ rfl
        cases hs <;> rfl
      | _ => rfl
    show Ends r.1.freed (c.client ())
    rw [hfreed]
    exact hi
  · intro c k x r _ hi _ hr
    have hmoved : (c.moveClient k r).client () = r.2 := by simp [Config.moveClient]
    rw [hmoved]
    exact callStep_ends (callStep_cases hr) hi

/-- **The server comes to the end of its joins.** If no worker stands between its test of `shutdown` and its
`pthread_cond_wait` when `main` broadcasts, then `main` can finish its join loop from every later state in which
it is there. -/
theorem server_joins {c c' c'' : ServerState} {x : Input threadNum (Option Kernel)} {d : Before} {ok : Pos} {i : ℕ}
    (h : Reach chatServer anyStep c) (hcast : c.client () = .destroyCast d ok)
    (hs : chatServer.next c (.inr (), x) = some c') (hwin : ∀ i, c.worker i ≠ .wait)
    (hr : Runs chatServer anyStep c' c'') (hjoin : c''.client () = .join d i ok) :
    ∃ e, Runs chatServer anyStep c'' e ∧ e.client () = .clean d ok := by
  have hreach : Reach chatServer anyStep c'' := (h.next trivial hs).trans hr
  have hawake : Awake c' := awake_of_broadcast (t := .inr ()) h (congrArg some hcast) hs hwin
  have hfreed : c''.mem.freed = false := by
    by_contra hne
    have hexit := (ends_reach hreach).1 (by simpa using hne)
    rw [hjoin] at hexit
    cases hexit
  exact (Joining.mk hreach (runs_awake hawake hr) hfreed hjoin).finishes server_returning.itemsReturn x

end PoolStudy.ChatServer.Shutdown
