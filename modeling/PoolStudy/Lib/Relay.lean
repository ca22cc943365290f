import Mathlib.Data.Fintype.Card
import Mathlib.Data.List.Nodup

/-! # Items that go from hand to hand

Items `κ` are given out one after the other; they wait on lists, one for every element of `π`, are in the hands of
holders `τ`, at most one item each, and are over in the end. `Placed` says of a function `place` that it tells for
every item where it is, so that no item is in two places. The three moves of an item are `push` (to the end of a
list), `pop` (from the head of a list into a hand) and `drop` (it is over).

* `Placed.length_lt`: a list on which some item is not has room for it. -/

namespace PoolStudy.Lib.Relay

/-- Where an item is. -/
inductive Place (π τ : Type)
  | out
  | queued (q : π)
  | held (t : τ)
  | over
  deriving DecidableEq

/-- **The places of all items.** -/
structure Placed {π τ κ : Type} (place : κ → Place π τ) (todo : κ → Prop) (queue : π → List κ)
    (hold : τ → Option κ) : Prop where
  out : ∀ k, place k = .out ↔ todo k
  nodup : ∀ q, (queue q).Nodup
  queued : ∀ q k, place k = .queued q ↔ k ∈ queue q
  held : ∀ t k, place k = .held t ↔ hold t = some k

variable {π τ κ : Type} {place : κ → Place π τ} {todo : κ → Prop} {queue : π → List κ} {hold : τ → Option κ}

/-- The items are where they were. -/
theorem Placed.same (h : Placed place todo queue hold) {todo' : κ → Prop} {queue' : π → List κ} {hold' : τ → Option κ}
    (ht : ∀ k, todo' k ↔ todo k) (hq : queue' = queue) (hh : hold' = hold) : Placed place todo' queue' hold' := by
  subst hq hh
  exact ⟨fun k => (h.out k).trans (ht k).symm, h.nodup, h.queued, h.held⟩

variable [DecidableEq κ]

/-- **One item moves** to the place `x`, and nothing else does. -/
theorem Placed.move (h : Placed place todo queue hold) {todo' : κ → Prop} {queue' : π → List κ}
    {hold' : τ → Option κ} (k : κ) (x : Place π τ)
    (ht : ∀ j, todo' j ↔ if j = k then x = .out else todo j) (hn : ∀ q, (queue' q).Nodup)
    (hq : ∀ q j, j ∈ queue' q ↔ if j = k then x = .queued q else j ∈ queue q)
    (hh : ∀ t j, hold' t = some j ↔ if j = k then x = .held t else hold t = some j) :
    Placed (Function.update place k x) todo' queue' hold' := by
  have hself : ∀ j, j = k → Function.update place k x j = x := by
    rintro j rfl
    exact Function.update_self ..
  have hother : ∀ j, j ≠ k → Function.update place k x j = place j := fun j hj => Function.update_of_ne hj ..
  refine ⟨fun j => ?_, hn, fun q j => ?_, fun t j => ?_⟩
  · rw [ht j]
    split_ifs with hj
    · rw [hself j hj]
    · rw [hother j hj]
      exact h.out j
  · rw [hq q j]
    split_ifs with hj
    · rw [hself j hj]
    · rw [hother j hj]
      exact h.queued q j
  · rw [hh t j]
    split_ifs with hj
    · rw [hself j hj]
    · rw [hother j hj]
      exact h.held t j

/-- An item that has been given out is not to be given out. -/
theorem Placed.todo_other (h : Placed place todo queue hold) {k : κ} (hk : place k ≠ .out) {x : Place π τ}
    (hx : x ≠ .out) (j : κ) : todo j ↔ if j = k then x = .out else todo j := by
  split_ifs with hj
  · subst hj
    exact iff_of_false (fun ht => hk ((h.out j).mpr ht)) hx
  · rfl

/-- An item on no list stays on no list. -/
theorem Placed.queue_other (h : Placed place todo queue hold) {k : κ} (hk : ∀ q, place k ≠ .queued q) {x : Place π τ}
    (hx : ∀ q, x ≠ .queued q) (q : π) (j : κ) : j ∈ queue q ↔ if j = k then x = .queued q else j ∈ queue q := by
  split_ifs with hj
  · subst hj
    exact iff_of_false (fun hmem => hk q ((h.queued q j).mpr hmem)) (hx q)
  · rfl

/-- An item in no hand stays in no hand. -/
theorem Placed.hold_other (h : Placed place todo queue hold) {k : κ} (hk : ∀ t, place k ≠ .held t) {x : Place π τ}
    (hx : ∀ t, x ≠ .held t) (t : τ) (j : κ) : hold t = some j ↔ if j = k then x = .held t else hold t = some j := by
  split_ifs with hj
  · subst hj
    exact iff_of_false (fun ht => hk t ((h.held t j).mpr ht)) (hx t)
  · rfl

variable [DecidableEq π] [DecidableEq τ]

omit [DecidableEq τ] in
/-- The item `k` comes to the end of the list `q`. -/
theorem Placed.queue_push (h : Placed place todo queue hold) {k : κ} (hk : ∀ q, place k ≠ .queued q) (q : π) :
    (∀ r, (Function.update queue q (queue q ++ [k]) r).Nodup) ∧
    ∀ r j, j ∈ Function.update queue q (queue q ++ [k]) r ↔
      if j = k then (.queued q : Place π τ) = .queued r else j ∈ queue r := by
  have hnew : k ∉ queue q := fun hmem => hk q ((h.queued q k).mpr hmem)
  refine ⟨fun r => ?_, fun r j => ?_⟩
  · by_cases hr : r = q
    · subst hr
      rw [Function.update_self]
      refine List.nodup_append.mpr ⟨h.nodup r, List.nodup_singleton k, ?_⟩
      rintro a ha b hb rfl
      exact hnew (List.mem_singleton.mp hb ▸ ha)
    · rw [Function.update_of_ne hr]
      exact h.nodup r
  · by_cases hr : r = q
    · subst hr
      rw [Function.update_self, List.mem_append, List.mem_singleton]
      split_ifs with hj <;> simp [hj]
    · have hqr : (.queued q : Place π τ) ≠ .queued r := by
        simpa using fun hqr : q = r => hr hqr.symm
      rw [Function.update_of_ne hr]
      split_ifs with hj
      · subst hj
        exact iff_of_false (fun hmem => hk r ((h.queued r j).mpr hmem)) hqr
      · rfl

omit [DecidableEq π] in
/-- The item `k` leaves the hand of `t`. -/
theorem Placed.hold_drop (h : Placed place todo queue hold) {k : κ} {t : τ} (hk : hold t = some k) {x : Place π τ}
    (hx : ∀ t, x ≠ .held t) (s : τ) (j : κ) :
    Function.update hold t none s = some j ↔ if j = k then x = .held s else hold s = some j := by
  by_cases hs : s = t
  · subst hs
    rw [Function.update_self, hk]
    split_ifs with hj
    · simp [hx s]
    · simpa using fun hjk : k = j => hj hjk.symm
  · rw [Function.update_of_ne hs]
    split_ifs with hj
    · subst hj
      refine iff_of_false (fun hsj => hs ?_) (hx s)
      have hplace := (h.held s j).mpr hsj
      rw [(h.held t j).mpr hk] at hplace
      cases hplace
      rfl
    · rfl

omit [DecidableEq τ] in
/-- The next item is given out and put on the list `q`. -/
theorem Placed.put (h : Placed place todo queue hold) {k : κ} (hk : todo k) {todo' : κ → Prop}
    (ht : ∀ j, todo' j ↔ todo j ∧ j ≠ k) (q : π) :
    Placed (Function.update place k (.queued q)) todo' (Function.update queue q (queue q ++ [k])) hold := by
  have hout := (h.out k).mpr hk
  obtain ⟨hn, hq⟩ := h.queue_push (k := k) (by simp [hout]) q
  refine h.move k (.queued q) (fun j => ?_) hn hq (h.hold_other (by simp [hout]) (by simp))
  rw [ht j]
  split_ifs with hj <;> simp [hj]

/-- The item in the hand of `t` is put on the list `q`. -/
theorem Placed.push (h : Placed place todo queue hold) {k : κ} {t : τ} (hk : hold t = some k) (q : π) :
    Placed (Function.update place k (.queued q)) todo (Function.update queue q (queue q ++ [k]))
      (Function.update hold t none) := by
  have hheld := (h.held t k).mpr hk
  obtain ⟨hn, hq⟩ := h.queue_push (k := k) (by simp [hheld]) q
  exact h.move k (.queued q) (h.todo_other (by simp [hheld]) (by simp)) hn hq (h.hold_drop hk (by simp))

/-- The item at the head of the list `q` comes into the hand of `t`. -/
theorem Placed.pop (h : Placed place todo queue hold) {k : κ} {q : π} {l : List κ} (hk : queue q = k :: l) {t : τ}
    (ht : hold t = none) :
    Placed (Function.update place k (.held t)) todo (Function.update queue q l)
      (Function.update hold t (some k)) := by
  have hqueued : place k = .queued q := (h.queued q k).mpr (by rw [hk]; exact List.mem_cons_self)
  have hnodup := h.nodup q
  rw [hk] at hnodup
  obtain ⟨hnew, hnodup⟩ := List.nodup_cons.mp hnodup
  refine h.move k (.held t) (h.todo_other (by simp [hqueued]) (by simp)) (fun r => ?_) (fun r j => ?_) fun s j => ?_
  · by_cases hr : r = q
    · subst hr
      rw [Function.update_self]
      exact hnodup
    · rw [Function.update_of_ne hr]
      exact h.nodup r
  · by_cases hr : r = q
    · subst hr
      rw [Function.update_self, hk]
      split_ifs with hj
      · subst hj
        exact iff_of_false hnew (by simp)
      · simp [hj]
    · rw [Function.update_of_ne hr]
      split_ifs with hj
      · subst hj
        refine iff_of_false (fun hmem => hr ?_) (by simp)
        have hplace := (h.queued r j).mpr hmem
        rw [hqueued] at hplace
        cases hplace
        rfl
      · rfl
  · by_cases hs : s = t
    · subst hs
      rw [Function.update_self, ht]
      split_ifs with hj
      · simp [hj]
      · simpa using fun hjk : k = j => hj hjk.symm
    · rw [Function.update_of_ne hs]
      split_ifs with hj
      · subst hj
        refine iff_of_false (fun hsj => ?_) (by simpa using fun hts : t = s => hs hts.symm)
        rw [(h.held s j).mpr hsj] at hqueued
        cases hqueued
      · rfl

omit [DecidableEq π] in
/-- The item in the hand of `t` is over. -/
theorem Placed.drop (h : Placed place todo queue hold) {k : κ} {t : τ} (hk : hold t = some k) :
    Placed (Function.update place k .over) todo queue (Function.update hold t none) := by
  have hheld := (h.held t k).mpr hk
  exact h.move k .over (h.todo_other (by simp [hheld]) (by simp)) h.nodup
    (h.queue_other (by simp [hheld]) (by simp)) (h.hold_drop hk (by simp))

omit [DecidableEq κ] [DecidableEq π] [DecidableEq τ] in
/-- **A list has room** for an item that is not on it. -/
theorem Placed.length_lt [Fintype κ] (h : Placed place todo queue hold) {k : κ} {q : π} (hk : place k ≠ .queued q) :
    (queue q).length < Fintype.card κ := by
  have hnew : k ∉ queue q := fun hmem => hk ((h.queued q k).mpr hmem)
  exact (List.nodup_cons.mpr ⟨hnew, h.nodup q⟩).length_le_card

end PoolStudy.Lib.Relay
