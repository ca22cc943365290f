import PoolStudy.Lib.Hosting
import PoolStudy.TP.OneThread

/-! # A program on the Windows thread pool: the demo dialog

`ThreadPoolDemoDlg.cpp`: four buttons create a pool, post a number of new requests to it, abort all requests, and
destroy the pool and then delete all requests. All calls come from the thread of the dialog, which handles one click
at a time; `Request::Execute` returns `0` or throws.

`PostRequest` may return false when it has already put the request on the list, and the dialog then deletes the
request. That happens only when `Create` could not start all threads, and then nobody pops it: in every run, a request
that is executed, aborted or deleted has been allocated and not been deleted before (`demo_requests`). -/

namespace PoolStudy.TP.Demo

open PoolStudy.Lib.Transition PoolStudy.Lib.Threads PoolStudy.Lib.Hosting
open PoolStudy.TP.Model PoolStudy.TP.Steps PoolStudy.TP.Life PoolStudy.TP.Order PoolStudy.TP.OneThread

/-! ### The dialog -/

/-- The handler that is running: `Create` or `Destroy` has been called, the loop of `OnBnClickedPushRequest` is at
`nIndex`, or `ClearRequests` has `rest` before it. -/
inductive Handler
  | idle
  | creating
  | destroying
  | posting (nIndex : ℕ) (reqCount : ℤ)
  | clearing (rest : List ℕ)
  deriving DecidableEq

/-- `m_RequestList`, the addresses of the requests that have been allocated and not been deleted, and those of them
whose `m_bAborted` is set. -/
structure Dialog where
  handler : Handler
  requestList : List ℕ
  allocated : Finset ℕ
  aborted : Finset ℕ

/-- **One round of the loop of `OnBnClickedPushRequest`.** The new request is at an address that is not in use; it is
deleted if `PostRequest` returns false. -/
def pushRequest (m : Mem ℕ) (x : Input ℕ) (u : Dialog) (nIndex : ℕ) (reqCount : ℤ) (r : ℕ) : Option Dialog :=
  if (nIndex : ℤ) < reqCount ∧ r ∉ u.allocated then
    if (postRequest m x r).2 then
      some { u with
        handler := .posting (nIndex + 1) reqCount
        requestList := u.requestList ++ [r]
        allocated := insert r u.allocated }
    else some { u with handler := .idle }
  else none

/-- The part of the dialog in its calls: `OnBnClickedCreate`, `OnBnClickedDestroy`, `OnBnClickedPushRequest`. -/
def dialogPart (m : Mem ℕ) (x : Input ℕ) (u : Dialog) : Option Dialog :=
  match u.handler, x.call with
  | .idle, some (.create _) => some { u with handler := .creating }
  | .idle, some .destroy => some { u with handler := .destroying }
  | .posting nIndex reqCount, some (.postRequest r) => pushRequest m x u nIndex reqCount r
  | .creating, none | .destroying, none => some u
  | _, _ => none

/-- Who takes part in a step of the pool. -/
def part (s : State ℕ) (u : Dialog) (a : Tid × Input ℕ) : Option Dialog :=
  match a.1 with
  | .inl _ => if a.2.result = .nonZero then none else some u
  | .inr 0 => dialogPart s.mem a.2 u
  | .inr (_ + 1) => none

/-- What the dialog does by itself: a click on one of two buttons, the handler goes on, or `new` fails. -/
inductive Move
  | clickPost (reqCount : ℤ)
  | clickCancel
  | go
  | noMemory
  deriving DecidableEq

/-- The last call has returned. -/
def returned : Client → Option (Option Bool)
  | .out last => some last
  | _ => none

/-- **`OnBnClickedDestroy`** after the call, and **`ClearRequests`**. -/
def goOn (s : State ℕ) (u : Dialog) : Option Dialog :=
  match u.handler with
  | .idle => none
  | .creating => (returned (s.client 0)).map fun _ => { u with handler := .idle }
  | .destroying => (returned (s.client 0)).map fun last =>
      { u with handler := if last = some true then .clearing u.requestList else .idle }
  | .posting nIndex reqCount => if (nIndex : ℤ) < reqCount then none else some { u with handler := .idle }
  | .clearing (r :: rest) => some { u with
      handler := .clearing rest
      allocated := u.allocated.erase r
      aborted := u.aborted.erase r }
  | .clearing [] => some { u with handler := .idle, requestList := [] }

/-- **`OnBnClickedCancel`** aborts all requests; the other moves. -/
def own (s : State ℕ) (u : Dialog) : Move → Option Dialog
  | .clickPost reqCount => if u.handler = .idle then some { u with handler := .posting 0 reqCount } else none
  | .clickCancel =>
    if u.handler = .idle then some { u with aborted := u.aborted ∪ u.requestList.toFinset } else none
  | .go => goOn s u
  | .noMemory =>
    match u.handler with
    | .posting _ _ => some { u with handler := .idle }
    | _ => none

/-- **The demo.** -/
def demo : User (State ℕ) (Tid × Input ℕ) Dialog Move where
  init u := u = ⟨.idle, [], ∅, ∅⟩
  part := part
  own := own

/-- The kernel does what is documented. -/
def documented (_ : State ℕ × Dialog) (a : (Tid × Input ℕ) ⊕ Move) : Prop := ∀ b, a = .inl b → b.2.refuse = false

/-- **The pool has one user.** -/
theorem oneUser_of_part {s : State ℕ} {u u' : Dialog} {a : Tid × Input ℕ} (hok : documented (s, u) (.inl a))
    (h : part s u a = some u') : oneUser s a := by
  refine ⟨hok a rfl, fun k hk => ?_⟩
  obtain ⟨t, x⟩ := a
  obtain rfl : t = .inr k := hk
  cases k with
  | zero => rfl
  | succ k => cases h

/-! ### What a step can do -/

/-- **The outcomes of a step of the dialog in a call.** -/
inductive DialogPart (m : Mem ℕ) (x : Input ℕ) (u : Dialog) : Dialog → Prop
  | create {n : ℕ} (hh : u.handler = .idle) (hx : x.call = some (.create n)) :
      DialogPart m x u { u with handler := .creating }
  | destroy (hh : u.handler = .idle) (hx : x.call = some .destroy) :
      DialogPart m x u { u with handler := .destroying }
  | posted {nIndex : ℕ} {reqCount : ℤ} {r : ℕ} (hh : u.handler = .posting nIndex reqCount)
      (hx : x.call = some (.postRequest r)) (hr : r ∉ u.allocated) (hv : (postRequest m x r).2 = true) :
      DialogPart m x u { u with
        handler := .posting (nIndex + 1) reqCount
        requestList := u.requestList ++ [r]
        allocated := insert r u.allocated }
  | refused {nIndex : ℕ} {reqCount : ℤ} {r : ℕ} (hh : u.handler = .posting nIndex reqCount)
      (hx : x.call = some (.postRequest r)) (hv : (postRequest m x r).2 = false) :
      DialogPart m x u { u with handler := .idle }
  | inCall (hh : u.handler = .creating ∨ u.handler = .destroying) (hx : x.call = none) : DialogPart m x u u

theorem dialogPart_cases {m : Mem ℕ} {x : Input ℕ} {u u' : Dialog} (h : dialogPart m x u = some u') :
    DialogPart m x u u' := by
  unfold dialogPart at h
  split at h
  · next n hh hx => cases h; exact .create hh hx
  · next hh hx => cases h; exact .destroy hh hx
  · next nIndex reqCount r hh hx =>
    unfold pushRequest at h
    split_ifs at h with hlt hv
    · cases h; exact .posted hh hx hlt.2 hv
    · cases h; exact .refused hh hx (by simpa using hv)
  · next hh hx => cases h; exact .inCall (Or.inl hh) hx
  · next hh hx => cases h; exact .inCall (Or.inr hh) hx
  · cases h

/-- **The outcomes of a move of the dialog.** -/
inductive DialogMove (s : State ℕ) (u : Dialog) : Dialog → Prop
  | clickPost (reqCount : ℤ) (hh : u.handler = .idle) : DialogMove s u { u with handler := .posting 0 reqCount }
  | clickCancel (hh : u.handler = .idle) :
      DialogMove s u { u with aborted := u.aborted ∪ u.requestList.toFinset }
  | posted (hh : ∃ nIndex reqCount, u.handler = .posting nIndex reqCount) :
      DialogMove s u { u with handler := .idle }
  | back (hh : u.handler = .creating ∨ u.handler = .destroying) (hr : ∃ last, s.client 0 = .out last) :
      DialogMove s u { u with handler := .idle }
  | clear (hh : u.handler = .destroying) (hr : s.client 0 = .out (some true)) :
      DialogMove s u { u with handler := .clearing u.requestList }
  | delete {r : ℕ} {rest : List ℕ} (hh : u.handler = .clearing (r :: rest)) :
      DialogMove s u { u with
        handler := .clearing rest
        allocated := u.allocated.erase r
        aborted := u.aborted.erase r }
  | cleared (hh : u.handler = .clearing []) : DialogMove s u { u with handler := .idle, requestList := [] }

theorem returned_some {p : Client} {last : Option Bool} (h : returned p = some last) : p = .out last := by
  cases p with
  | out last' =>
    cases h
    rfl
  | _ => cases h

theorem goOn_cases {s : State ℕ} {u u' : Dialog} (h : goOn s u = some u') : DialogMove s u u' := by
  unfold goOn at h
  split at h
  · cases h
  · next hh =>
    obtain ⟨last, hr, rfl⟩ := Option.map_eq_some_iff.mp h
    exact .back (Or.inl hh) ⟨last, returned_some hr⟩
  · next hh =>
    obtain ⟨last, hr, rfl⟩ := Option.map_eq_some_iff.mp h
    have hout := returned_some hr
    split_ifs with hl
    · exact .clear hh (by rw [hout, hl])
    · exact .back (Or.inr hh) ⟨last, hout⟩
  · next nIndex reqCount hh =>
    split_ifs at h with hlt
    cases h
    exact .posted ⟨nIndex, reqCount, hh⟩
  · next hh => cases h; exact .delete hh
  · next hh => cases h; exact .cleared hh

theorem own_cases {s : State ℕ} {u u' : Dialog} {b : Move} (h : own s u b = some u') : DialogMove s u u' := by
  cases b with
  | clickPost reqCount =>
    simp only [own] at h
    split_ifs at h with hh
    cases h
    exact .clickPost reqCount hh
  | clickCancel =>
    simp only [own] at h
    split_ifs at h with hh
    cases h
    exact .clickCancel hh
  | go => exact goOn_cases h
  | noMemory =>
    simp only [own] at h
    split at h
    · next nIndex reqCount hh =>
      cases h
      exact .posted ⟨nIndex, reqCount, hh⟩
    · cases h

/-! ### The invariant -/

/-- The requests the dialog has to delete. -/
def held (u : Dialog) : List ℕ :=
  match u.handler with
  | .clearing rest => rest
  | _ => u.requestList

/-- **The requests of the dialog**: each is allocated, on the list once, and nothing else is. -/
structure Owns (u : Dialog) : Prop where
  nodup : (held u).Nodup
  allocated : ∀ r, r ∈ u.allocated ↔ r ∈ held u
  aborted : ∀ r ∈ u.aborted, r ∈ u.allocated

/-- Where `Destroy` can be: it returns true only when the pool is down. -/
def Destroying (m : Mem ℕ) : Client → Prop
  | .cancel _ | .setFlag _ | .release _ | .waitAll _ | .closeThreads _ | .closeSemaphore _ | .clear _ => True
  | .out last => last = some true → m.stage = .down
  | _ => False

/-- Where the calls of the dialog are. -/
def Placed (s : State ℕ) : Handler → Prop
  | .creating => True
  | .destroying => Destroying s.mem (s.client 0)
  | .clearing _ => s.mem.stage = .down ∧ ∃ last, s.client 0 = .out last
  | .idle | .posting _ _ => ∃ last, s.client 0 = .out last

/-- **The invariant.** -/
structure Inv (s : State ℕ) (u : Dialog) : Prop where
  placed : Placed s u.handler
  owns : Owns u
  popped : s.mem.popped.Nodup
  requests : working s.mem → (seen s.mem).Nodup ∧ ∀ r ∈ seen s.mem, r ∈ u.allocated

/-! ### The moves of the dialog -/

theorem held_of_idle {u : Dialog} (h : u.handler = .idle) : held u = u.requestList := by simp [held, h]

theorem held_of_posting {u : Dialog} (h : ∃ i k, u.handler = .posting i k) : held u = u.requestList := by
  obtain ⟨i, k, h⟩ := h
  simp [held, h]

theorem held_of_call {u : Dialog} (h : u.handler = .creating ∨ u.handler = .destroying) :
    held u = u.requestList := by
  rcases h with h | h <;> simp [held, h]

/-- The dialog goes to another handler, with the same requests to delete. -/
theorem Owns.goTo {u : Dialog} (h : Owns u) (p : Handler) (hp : held { u with handler := p } = held u) :
    Owns { u with handler := p } :=
  ⟨by rw [hp]; exact h.nodup, fun r => by rw [hp]; exact h.allocated r, h.aborted⟩

theorem Owns.cancel {u : Dialog} (h : Owns u) (hh : u.handler = .idle) :
    Owns { u with aborted := u.aborted ∪ u.requestList.toFinset } := by
  refine ⟨h.nodup, h.allocated, fun r hr => ?_⟩
  rcases Finset.mem_union.mp hr with hr | hr
  · exact h.aborted r hr
  · refine (h.allocated r).mpr ?_
    rw [held_of_idle hh]
    exact List.mem_toFinset.mp hr

theorem Owns.delete {u : Dialog} {r : ℕ} {rest : List ℕ} (h : Owns u) (hh : u.handler = .clearing (r :: rest)) :
    Owns { u with handler := .clearing rest, allocated := u.allocated.erase r, aborted := u.aborted.erase r } := by
  have hheld : held u = r :: rest := by simp [held, hh]
  have hnodup := h.nodup
  rw [hheld, List.nodup_cons] at hnodup
  refine ⟨hnodup.2, fun q => ?_, fun q hq => ?_⟩
  · rw [Finset.mem_erase, h.allocated, hheld, List.mem_cons]
    show _ ↔ q ∈ rest
    constructor
    · rintro ⟨hne, hq⟩
      exact hq.resolve_left hne
    · intro hq
      refine ⟨?_, Or.inr hq⟩
      rintro rfl
      exact hnodup.1 hq
  · rw [Finset.mem_erase] at hq ⊢
    exact ⟨hq.1, h.aborted q hq.2⟩

/-- The dialog has a new request. -/
theorem Owns.push {u : Dialog} {r nIndex : ℕ} {reqCount : ℤ} (h : Owns u)
    (hh : ∃ i k, u.handler = .posting i k) (hr : r ∉ u.allocated) :
    Owns { u with
      handler := .posting nIndex reqCount
      requestList := u.requestList ++ [r]
      allocated := insert r u.allocated } := by
  have hheld := held_of_posting hh
  have hnodup := h.nodup
  have hnew : r ∉ u.requestList := by
    rw [h.allocated, hheld] at hr
    exact hr
  rw [hheld] at hnodup
  refine ⟨?_, fun q => ?_, fun q hq => ?_⟩
  · show (u.requestList ++ [r]).Nodup
    rw [← List.concat_eq_append]
    exact hnodup.concat hnew
  · show q ∈ insert r u.allocated ↔ q ∈ u.requestList ++ [r]
    rw [Finset.mem_insert, h.allocated, hheld, List.mem_append, List.mem_singleton, or_comm]
  · exact Finset.mem_insert_of_mem (h.aborted q hq)

theorem Inv.own {s : State ℕ} {u u' : Dialog} (h : Inv s u) (hm : DialogMove s u u') : Inv s u' := by
  have hplaced := h.placed
  cases hm with
  | clickPost k hh =>
    rw [hh] at hplaced
    exact ⟨hplaced, h.owns.goTo _ (held_of_idle hh).symm, h.popped, h.requests⟩
  | clickCancel hh => exact ⟨h.placed, h.owns.cancel hh, h.popped, h.requests⟩
  | posted hh =>
    obtain ⟨i, k, hh'⟩ := id hh
    rw [hh'] at hplaced
    exact ⟨hplaced, h.owns.goTo _ (held_of_posting hh).symm, h.popped, h.requests⟩
  | back hh hr => exact ⟨hr, h.owns.goTo _ (held_of_call hh).symm, h.popped, h.requests⟩
  | clear hh hr =>
    rw [hh] at hplaced
    change Destroying s.mem (s.client 0) at hplaced
    rw [hr] at hplaced
    exact ⟨⟨hplaced rfl, some true, hr⟩, h.owns.goTo _ (held_of_call (Or.inr hh)).symm, h.popped, h.requests⟩
  | delete hh =>
    rw [hh] at hplaced
    exact ⟨hplaced, h.owns.delete hh, h.popped, fun hw => absurd hplaced.1 hw.1⟩
  | cleared hh =>
    rw [hh] at hplaced
    have hheld : held u = [] := by simp [held, hh]
    refine ⟨hplaced.2, ⟨List.nodup_nil, fun r => ?_, h.owns.aborted⟩, h.popped, h.requests⟩
    show r ∈ u.allocated ↔ r ∈ []
    rw [h.owns.allocated, hheld]

/-! ### The steps of the pool -/

/-- A worker moves a request from the list to those popped. -/
theorem workerStep_seen {i : Fin maxThreads} {x : Input ℕ} {m m' : Mem ℕ} {w w' : Worker ℕ}
    (hs : WorkerStep i x m w m' w') (h : m.requestQueue.Nodup) : seen m' = seen m := by
  cases hs with
  | pop hq =>
    rw [hq] at h
    simp only [seen, filter_head h, hq, List.append_assoc, List.singleton_append]
  | _ => simp only [seen, notified, released]

theorem workerStep_popped {i : Fin maxThreads} {x : Input ℕ} {m m' : Mem ℕ} {w w' : Worker ℕ}
    (hs : WorkerStep i x m w m' w') (h : early w) : m'.popped = m.popped := by
  cases hs with
  | pop _ => exact h.elim
  | _ => rfl

theorem Placed.moveWorker {s : State ℕ} {p : Handler} {i : Fin maxThreads} {r : Mem ℕ × Worker ℕ} (h : Placed s p)
    (hst : r.1.stage = s.mem.stage) : Placed (s.moveWorker i r) p := by
  cases p with
  | idle | creating | posting _ _ => exact h
  | clearing rest => exact ⟨hst.trans h.1, h.2⟩
  | destroying =>
    change Destroying s.mem (s.client 0) at h
    change Destroying r.1 (s.client 0)
    cases hp : s.client 0 with
    | out last =>
      rw [hp] at h
      exact fun hl => hst.trans (h hl)
    | _ => rw [hp] at h; exact h

/-- **A step of a worker.** -/
theorem Inv.worker {s : State ℕ} {u : Dialog} {i : Fin maxThreads} {x : Input ℕ} {r : Mem ℕ × Worker ℕ}
    (h : Inv s u) (hone : OneInv s) (hl : LifeInv s) (hs : WorkerStep i x s.mem (s.worker i) r.1 r.2) :
    Inv (s.moveWorker i r) u := by
  have hst := (workerStep_same hs).stage
  have hworking : working r.1 → working s.mem := fun hw => by rwa [working, ← hst]
  refine ⟨h.placed.moveWorker hst, h.owns, ?_, fun hw => ?_⟩
  · by_cases hearly : early (s.worker i)
    · show r.1.popped.Nodup
      rw [workerStep_popped hs hearly]
      exact h.popped
    · have hnodup := (h.requests (hone.working_of_pop hl hearly)).1
      have hseen := workerStep_seen hs (List.nodup_append.mp hnodup).2.1
      rw [← hseen] at hnodup
      exact (List.nodup_append.mp hnodup).1
  · obtain ⟨hnodup, hsub⟩ := h.requests (hworking hw)
    have hseen := workerStep_seen hs (List.nodup_append.mp hnodup).2.1
    show (seen r.1).Nodup ∧ ∀ q ∈ seen r.1, q ∈ u.allocated
    rw [hseen]
    exact ⟨hnodup, hsub⟩

/-- `Destroy` goes on. -/
theorem clientStep_destroying {x : Input ℕ} {m m' : Mem ℕ} {p p' : Client} (hs : ClientStep x m p m' p')
    (hx : x.call = none) (h : Destroying m p) : Destroying m' p' := by
  cases hs with
  | post _ hc _ | createRefused _ hc | create _ hc _ _ _ | destroyRefused _ hc _ | destroy _ hc _ =>
    rw [hx] at hc; cases hc
  | cancel _ | setFlag _ | release _ _ _ _ | allActive _ _ | waitAll _ _ _ | closeThreads _ | closeSemaphore _ =>
    trivial
  | releaseFailed _ _ _ | badHandle _ _ | closeThreadsFailed _ _ | closeSemaphoreFailed _ _ =>
    intro hl
    cases hl
  | clear b => exact fun _ => rfl
  | _ => exact h.elim

/-- **A step of `Create` or `Destroy`** keeps what is known of the requests. -/
theorem Inv.call {s : State ℕ} {u : Dialog} {x : Input ℕ} {m' : Mem ℕ} {p' : Client} {p : Handler} (h : Inv s u)
    (hone : OneInv s) (hl : LifeInv s) (hs : ClientStep x s.mem (s.client 0) m' p')
    (hx : ∀ r, x.call ≠ some (.postRequest r)) (hplaced : Placed (s.moveClient 0 (m', p')) p)
    (hheld : held { u with handler := p } = held u) :
    Inv (s.moveClient 0 (m', p')) { u with handler := p } := by
  refine ⟨hplaced, h.owns.goTo p hheld, ?_, fun hw => ?_⟩
  · show m'.popped.Nodup
    rcases clientStep_popped hs with hpop | hpop <;> rw [hpop]
    · exact h.popped
    · exact List.nodup_nil
  · show (seen m').Nodup ∧ ∀ r ∈ seen m', r ∈ u.allocated
    rcases clientStep_seen hs hl.ctl hx hw with ⟨hpop, hq, hd⟩ | ⟨hw', hsub⟩
    · rw [seen, hpop, hq, hone.down hd]
      exact ⟨List.nodup_nil, fun r hr => (by cases hr)⟩
    · obtain ⟨hnodup, hin⟩ := h.requests hw'
      exact ⟨hnodup.sublist hsub, fun r hr => hin r (hsub.subset hr)⟩

/-- A request that has been accepted is the last one on the list. -/
theorem postStep_seen {x : Input ℕ} {m m' : Mem ℕ} {r : ℕ} (hp : PostStep x m r m' true) :
    seen m' = seen m ++ [r] := by
  cases hp with
  | notify _ _ _ _ | count _ _ => exact (List.append_assoc _ _ _).symm

/-- **A request is accepted.** -/
theorem Inv.posted {s : State ℕ} {u : Dialog} {x : Input ℕ} {m' : Mem ℕ} {r nIndex : ℕ} {reqCount : ℤ} (h : Inv s u)
    (hh : ∃ i k, u.handler = .posting i k) (hr : r ∉ u.allocated) (hp : PostStep x s.mem r m' true) :
    Inv (s.moveClient 0 (m', .out (some true))) { u with
      handler := .posting nIndex reqCount
      requestList := u.requestList ++ [r]
      allocated := insert r u.allocated } := by
  have hst := (postStep_same hp).stage
  refine ⟨⟨some true, moveClient_self ..⟩, h.owns.push hh hr, ?_, fun hw => ?_⟩
  · show m'.popped.Nodup
    rw [(postStep_history hp).1]
    exact h.popped
  · obtain ⟨hnodup, hin⟩ := h.requests (by rwa [working, ← hst])
    show (seen m').Nodup ∧ ∀ q ∈ seen m', q ∈ insert r u.allocated
    rw [postStep_seen hp, ← List.concat_eq_append]
    refine ⟨hnodup.concat fun hseen => hr (hin r hseen), fun q hq => ?_⟩
    rw [List.concat_eq_append, List.mem_append, List.mem_singleton] at hq
    rw [Finset.mem_insert]
    exact hq.symm.imp id (hin q)

/-- **A request is refused**, and deleted. -/
theorem Inv.refused {s : State ℕ} {u : Dialog} {x : Input ℕ} {m' : Mem ℕ} {r : ℕ} (h : Inv s u) (hone : OneInv s)
    (hl : LifeInv s) (hh : ∃ i k, u.handler = .posting i k) (hx : x.refuse = false)
    (hout : ∃ last, s.client 0 = .out last) (hp : PostStep x s.mem r m' false) :
    Inv (s.moveClient 0 (m', .out (some false))) { u with handler := .idle } := by
  have hst := (postStep_same hp).stage
  refine ⟨⟨some false, moveClient_self ..⟩, h.owns.goTo _ (held_of_posting hh).symm, ?_, fun hw => ?_⟩
  · show m'.popped.Nodup
    rw [(postStep_history hp).1]
    exact h.popped
  · rcases hone.post_kept hl hout hx hp with hv | hm | hf
    · cases hv
    · have hw' : working m' := hw
      rw [hm] at hw'
      show (seen m').Nodup ∧ ∀ q ∈ seen m', q ∈ u.allocated
      rw [hm]
      exact h.requests hw'
    · exact absurd (hst.trans hf) hw.2

/-- **A step of the thread of the dialog.** -/
theorem Inv.dialog {s : State ℕ} {u u' : Dialog} {x : Input ℕ} {r : Mem ℕ × Client} (h : Inv s u) (hone : OneInv s)
    (hl : LifeInv s) (hx : x.refuse = false) (hd : DialogPart s.mem x u u')
    (hs : clientStep x s.mem (s.client 0) = some r) : Inv (s.moveClient 0 r) u' := by
  have hplaced := h.placed
  have hstep := clientStep_cases hs
  obtain ⟨m', p'⟩ := r
  cases hd with
  | create hh hc =>
    exact h.call hone hl hstep (by simp [hc]) trivial (held_of_idle hh).symm
  | destroy hh hc =>
    refine h.call hone hl hstep (by simp [hc]) ?_ (held_of_idle hh).symm
    rw [hh] at hplaced
    obtain ⟨last, hout⟩ := hplaced
    show Destroying m' ((s.moveClient 0 (m', p')).client 0)
    rw [moveClient_self]
    rw [hout] at hstep
    cases hstep with
    | destroyRefused _ _ _ =>
      intro hl'
      cases hl'
    | destroy _ _ _ => trivial
    | post _ hc' _ | createRefused _ hc' | create _ hc' _ _ _ => rw [hc] at hc'; cases hc'
  | @posted nIndex reqCount r hh hc hr hv =>
    rw [hh] at hplaced
    obtain ⟨last, hout⟩ := hplaced
    rw [hout, clientStep, hc] at hs
    cases hs
    have hp := postRequest_cases s.mem x r
    rw [hv] at hp ⊢
    exact h.posted ⟨nIndex, reqCount, hh⟩ hr hp
  | @refused nIndex reqCount r hh hc hv =>
    rw [hh] at hplaced
    obtain ⟨last, hout⟩ := id hplaced
    rw [hout, clientStep, hc] at hs
    cases hs
    have hp := postRequest_cases s.mem x r
    rw [hv] at hp ⊢
    exact h.refused hone hl ⟨nIndex, reqCount, hh⟩ hx hplaced hp
  | inCall hh hc =>
    refine h.call hone hl hstep (by simp [hc]) ?_ rfl
    rcases hh with hh | hh <;> rw [hh] at hplaced ⊢
    · trivial
    · show Destroying m' ((s.moveClient 0 (m', p')).client 0)
      rw [moveClient_self]
      exact clientStep_destroying hstep hc hplaced

/-- **The pool of the dialog** is one that one thread uses. -/
theorem pool_reach {c : State ℕ × Dialog} (h : Reach (demo.lts (pool ℕ).lts) documented c) :
    OneInv c.1 ∧ LifeInv c.1 :=
  one_reach (fun _ _ ha => ha) (User.reach (fun _ _ _ _ hok hp => oneUser_of_part hok hp) h)

/-- **The invariant holds in every run.** -/
theorem demo_inv {c : State ℕ × Dialog} (h : Reach (demo.lts (pool ℕ).lts) documented c) : Inv c.1 c.2 := by
  refine User.invariant (I := Inv) ?_ ?_ ?_ h
  · rintro _ _ rfl rfl
    refine ⟨⟨none, rfl⟩, ⟨List.nodup_nil, fun r => by simp [held], fun r hr => (by simp at hr)⟩, List.nodup_nil, ?_⟩
    exact fun hw => absurd rfl hw.1
  · intro s u a s' u' hr hi hok hp hs
    obtain ⟨hone, hl⟩ := pool_reach hr
    rcases Program.next_cases hs with ⟨i, x, r, rfl, hw, rfl⟩ | ⟨k, x, r, rfl, hw, rfl⟩
    · simp only [demo, part] at hp
      split_ifs at hp
      cases hp
      exact hi.worker hone hl (workerStep_cases hw)
    · obtain rfl := (oneUser_of_part hok hp).2 k rfl
      exact hi.dialog hone hl (hok _ rfl) (dialogPart_cases hp) hw
  · intro s u b u' _ hi _ hm
    exact hi.own (own_cases hm)

/-! ### The requests -/

/-- What a worker executes has been popped. -/
theorem mem_popped {s : State ℕ} (h : Handed s) {i : Fin maxThreads} {r : ℕ} (hi : s.worker i = .execute r) :
    r ∈ s.mem.popped := by
  have hr : r ∈ (s.mem.popped : Multiset ℕ) := by
    rw [h, Multiset.mem_add]
    refine Or.inr (Multiset.mem_sum.mpr ⟨i, Finset.mem_univ i, ?_⟩)
    rw [hi]
    exact Multiset.mem_singleton_self r
  exact hr

/-- **The requests of the demo.** In every run in which the kernel does what is documented, and for any clicks: a
request that a worker executes or that has been aborted is allocated and has not been deleted. The requests that are
allocated are those the dialog will delete, each once: those on its list, and while it deletes them those before it.
Those executed since the pool was created and those being executed are pairwise distinct. The requests on the list of
the pool are distinct and allocated, unless `Create` could not start all threads: then requests that have been
deleted may be on that list, and no worker takes one from it. -/
theorem demo_requests {c : State ℕ × Dialog} (h : Reach (demo.lts (pool ℕ).lts) documented c) :
    (∀ i r, c.1.worker i = .execute r → r ∈ c.2.allocated) ∧
    (∀ r ∈ c.2.aborted, r ∈ c.2.allocated) ∧
    (held c.2).Nodup ∧ (∀ r, r ∈ c.2.allocated ↔ r ∈ held c.2) ∧
    ((c.1.mem.executed : Multiset ℕ) + ∑ i, hand (c.1.worker i)).Nodup ∧
    (c.1.mem.stage ≠ .failed → c.1.mem.requestQueue.Nodup ∧ ∀ r ∈ c.1.mem.requestQueue, r ∈ c.2.allocated) ∧
    (c.1.mem.stage = .failed → ∀ i, c.1.worker i ≠ .pop) := by
  obtain ⟨hone, hl⟩ := pool_reach h
  have hi := demo_inv h
  refine ⟨fun i r hw => ?_, hi.owns.aborted, hi.owns.nodup, hi.owns.allocated, ?_, fun hf => ?_, fun hf i hw => ?_⟩
  · have hworking := hone.working_of_pop hl (i := i) (by rw [hw]; exact id)
    exact (hi.requests hworking).2 r (List.mem_append_left _ (mem_popped hone.handed hw))
  · rw [← hone.handed]
    exact hi.popped
  · by_cases hd : c.1.mem.stage = .down
    · rw [hone.down hd]
      exact ⟨List.nodup_nil, fun r hr => (by cases hr)⟩
    · obtain ⟨hnodup, hin⟩ := hi.requests ⟨hd, hf⟩
      exact ⟨(List.nodup_append.mp hnodup).2.1, fun r hr => hin r (List.mem_append_right _ hr)⟩
  · have hearly := (hone.failed hf).early i
    rw [hw] at hearly
    exact hearly

/-- The test for an allowed step. -/
def documentedTest (_ : State ℕ × Dialog) : (Tid × Input ℕ) ⊕ Move → Bool
  | .inl b => !b.2.refuse
  | .inr _ => true

theorem documented_of_test (c : State ℕ × Dialog) (a : (Tid × Input ℕ) ⊕ Move) (h : documentedTest c a = true) :
    documented c a := by
  rintro b rfl
  simpa [documentedTest] using h

/-- The dialog has been opened. -/
theorem demo_opened : (demo.lts (pool ℕ).lts).init
    (⟨threadPool, fun _ => .off, fun _ => .out none⟩, ⟨.idle, [], ∅, ∅⟩) := ⟨rfl, rfl⟩

/-- A pool of one thread is created, two requests are posted, and the worker has popped the first one. -/
def popRun : List ((Tid × Input ℕ) ⊕ Move) :=
  (createCall 1).map .inl ++ [.inr .go, .inr (.clickPost 2)] ++
    [.inl (.inr 0, { call := some (.postRequest 7) }), .inl (.inr 0, { call := some (.postRequest 8) }), .inr .go] ++
    (steps (.inl 0) 6).map .inl ++ [.inr .clickCancel]

theorem demo_requests_popRun : ∃ c : State ℕ × Dialog, Reach (demo.lts (pool ℕ).lts) documented c ∧
    c.1.worker 0 = .execute 7 ∧ 7 ∈ c.2.allocated := by
  obtain ⟨c, hc, hp⟩ := reach_of_run (demo.lts (pool ℕ).lts) documented_of_test popRun
    (fun c => decide (c.1.worker 0 = .execute 7)) demo_opened (by decide)
  rw [decide_eq_true_eq] at hp
  exact ⟨c, hc, hp, (demo_requests hc).1 0 7 hp⟩

/-- `Create` cannot start its thread, and a request is posted. -/
def threadFailsRun : List ((Tid × Input ℕ) ⊕ Move) :=
  [.inl (.inr 0, { call := some (.create 1) }), .inl (.inr 0, {}), .inl (.inr 0, {}),
    .inl (.inr 0, { alloc := false })] ++ (steps (.inr 0) 5).map .inl ++ [.inr .go, .inr (.clickPost 1)] ++
    [.inl (.inr 0, { call := some (.postRequest 7) })]

example : ∃ c, Reach (demo.lts (pool ℕ).lts) documented c ∧ c.1.mem.requestQueue = [7] ∧ 7 ∉ c.2.allocated := by
  obtain ⟨c, hc, hp⟩ := reach_of_run (demo.lts (pool ℕ).lts) documented_of_test threadFailsRun
    (fun c => decide (c.1.mem.requestQueue = [7] ∧ 7 ∉ c.2.allocated)) demo_opened (by decide)
  rw [decide_eq_true_eq] at hp
  exact ⟨c, hc, hp⟩

end PoolStudy.TP.Demo
