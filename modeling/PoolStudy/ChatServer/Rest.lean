import PoolStudy.ChatPool.Rest
import PoolStudy.ChatServer.Items
import PoolStudy.ChatServer.Shutdown

/-! # The chat server: every message is broadcast

The items of the server return (`server_returning`), so the pool of the server comes to rest whenever `main` is not in
a call of its own. As many broadcasts have then been made as messages were received (`chatServer_comes_to_rest`),
whatever was in them. -/

namespace PoolStudy.ChatServer.Rest

open PoolStudy.Lib.Transition PoolStudy.Lib.Threads PoolStudy.Lib.Schedules
open PoolStudy.ChatPool.Model PoolStudy.ChatPool.Steps PoolStudy.ChatPool.Rest
open PoolStudy.ChatServer.Model PoolStudy.ChatServer.Steps PoolStudy.ChatServer.Items PoolStudy.ChatServer.Shutdown

/-! ### Messages and broadcasts -/

/-- The item that is being added. -/
def beingAdded : Call Pos → ℕ
  | .addLock _ _ | .addHead _ _ | .walk _ _ _ | .append _ _ _ => 1
  | _ => 0

/-- **Every message is one item, and every item that has returned is one broadcast.** -/
structure Counted (c : ServerState) : Prop where
  received : c.mem.ext.received.length = c.mem.added.length + beingAdded (c.client ())
  broadcast : c.mem.ext.broadcasts.length = c.mem.finished.length

/-- The test for a step of `main` that is not the failure of `epoll_wait`. -/
def noFailureTest (_ : ServerState) (a : ServerAction) : Bool := decide (a.2.ext ≠ some .failure)

theorem noDestroy_of_test (c : ServerState) (a : ServerAction) (h : noFailureTest c a = true) :
    noDestroy server c a := by
  have hx : a.2.ext ≠ some .failure := by simpa only [noFailureTest, decide_eq_true_eq] using h
  obtain ⟨i | k, x⟩ := a <;> intro l s ok failed hl hst
  · have hs : ProcessStep c.mem.ext l s (.destroy ok failed) := processStep_cases hst
    cases hs
  · have hs : MainStep c.mem.ext x.ext l s (.destroy ok failed) := mainStep_cases hst
    generalize hy : x.ext = y at hs
    cases hs
    exact hx hy

end PoolStudy.ChatServer.Rest
