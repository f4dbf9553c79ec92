import Mathlib.Order.Compare
import WorkTablesIndex.PublishedIndexLaws
import WorkTablesIndex.Library.Reference
import WorkTablesIndex.Set

/-! Whole runs of the published route index. Whatever calls it has served, it
answers as the ordered map of its routes does. -/

universe v w x

namespace WorkTablesIndex.PublishedNodeIndex
open Slice SortedMap

variable {κ : Type v} {Q : Type w} [LinearOrder κ] [LinearOrder Q]

theorem removeBorrowed_eq {borrow : κ → Q} (strict : StrictMono borrow) (index : PublishedNodeIndex κ) (key : κ) :
    index.removeBorrowed borrow (borrow key) = index.remove key := by
  have below : chunkBelow borrow (borrow key) = chunkBelow id key := by
    funext chunk
    simp [chunkBelow, strict.lt_iff_lt]
  have compared : (fun candidate : κ × NodeId => compare (borrow candidate.1) (borrow key)) =
      fun candidate => compare candidate.1 key := by
    funext candidate
    rw [← cmp_eq_compare, ← cmp_eq_compare]
    exact strict.cmp_map_eq _ _
  simp only [removeBorrowed, remove, chunkFor, below, compared]

omit [LinearOrder κ] in
theorem removeBorrowed_absent {borrow : κ → Q} {index : PublishedNodeIndex κ} {key : Q}
    (absent : ∀ entry ∈ index.routes, borrow entry.1 ≠ key) : index.removeBorrowed borrow key = (none, index) := by
  simp only [removeBorrowed]
  split
  · rfl
  next chunk there =>
    rcases binarySearchBy_cases (fun candidate : κ × NodeId => compare (borrow candidate.1) key) chunk with
      ⟨entry, found, equal, _⟩ | ⟨_, missed⟩
    · have stored : entry ∈ index.routes :=
        List.mem_flatten.mpr ⟨chunk, List.mem_of_getElem? there, List.mem_of_getElem? found⟩
      exact absurd (compare_eq_iff_eq.mp equal) (absent entry stored)
    · rw [missed]

/-- The mutating calls. A borrowed key compares as the keys do (`Borrow`). -/
inductive Call (κ : Type v) [LinearOrder κ] : Type (max v (w + 1)) where
  | insert (key : κ) (node : NodeId)
  | remove {Q : Type w} [LinearOrder Q] (borrow : κ → Q) (faithful : StrictMono borrow) (key : Q)

def Call.run : Call.{v, w} κ → PublishedNodeIndex κ → Option NodeId × PublishedNodeIndex κ
  | .insert key node, index => index.insert key node
  | @Call.remove _ _ _ _ borrow _ key, index => index.removeBorrowed borrow key

def Call.answer : Call.{v, w} κ → SortedMap κ NodeId → Option NodeId × SortedMap κ NodeId
  | .insert key node, map => (map.get? key, map.insert key node)
  | @Call.remove _ _ _ _ borrow _ key, map =>
    match map.find? (fun candidate => decide (borrow candidate = key)) with
    | some (held, node) => (some node, map.erase held)
    | none => (none, map)

/-- The chunks are in shape and hold the entries of the map. -/
structure Mirrors (index : PublishedNodeIndex κ) (map : SortedMap κ NodeId) : Prop where
  valid : WellFormed index
  same : index.routes = map.entries

theorem Mirrors.call {index : PublishedNodeIndex κ} {map : SortedMap κ NodeId} (mirrors : Mirrors index map)
    (call : Call.{v, w} κ) :
    (call.run index).1 = (call.answer map).1 ∧ Mirrors (call.run index).2 (call.answer map).2 := by
  have same := mirrors.same
  cases call with
  | insert key node =>
    obtain ⟨displaced, stored, valid⟩ := insert_spec mirrors.valid key node
    rw [same] at displaced stored
    exact ⟨displaced, valid, stored⟩
  | remove borrow faithful key =>
    simp only [Call.run, Call.answer]
    split
    next held node found =>
      obtain ⟨member, equal, _⟩ := find?_eq_some.mp found
      have named : borrow held = key := of_decide_eq_true equal
      subst named
      obtain ⟨removed, kept, valid⟩ := remove_spec mirrors.valid held
      rw [same] at removed kept
      rw [removeBorrowed_eq faithful]
      refine ⟨removed.trans ?_, valid, kept⟩
      exact get?_eq_some.mpr member
    next missing =>
      rw [removeBorrowed_absent]
      · exact ⟨rfl, mirrors⟩
      · intro entry member
        rw [same] at member
        exact of_decide_eq_false (find?_eq_none.mp missing entry member)

theorem Mirrors.firstForBound {index : PublishedNodeIndex κ} {map : SortedMap κ NodeId} (mirrors : Mirrors index map)
    {borrow : κ → Q} (monotone : Monotone borrow) (bound : Bound Q) :
    index.firstForBound borrow bound = map.find? (bound.admits borrow) := by
  rw [firstForBound_eq borrow monotone mirrors.valid, mirrors.same]
  rfl

inductive Start (κ : Type v) [LinearOrder κ] where
  | empty
  | rebuilt (index : SortedMap κ NodeId)

def Start.published : Start κ → PublishedNodeIndex κ
  | .empty => new
  | .rebuilt index => fromCanonical index

def Start.canonical : Start κ → SortedMap κ NodeId
  | .empty => SortedMap.empty
  | .rebuilt index => index

theorem Start.mirrors (start : Start κ) : Mirrors start.published start.canonical := by
  cases start with
  | empty => exact ⟨new_wellFormed, rfl⟩
  | rebuilt index => exact ⟨fromCanonical_wellFormed index, fromCanonical_routes index⟩

theorem run_mirrors (start : Start κ) (calls : List (Call.{v, w} κ)) :
    (Reference.replies Call.run calls start.published).1 = (Reference.replies Call.answer calls start.canonical).1 ∧
    Mirrors (Reference.replies Call.run calls start.published).2 (Reference.replies Call.answer calls start.canonical).2 := by
  apply Reference.replies_agree
  · intro call index map mirrors
    exact mirrors.call call
  · exact start.mirrors

/-- From either start, every sequence of calls gets the replies of an ordered map and
leaves chunks in shape that hold its entries; a point route is then the first entry
that satisfies its bound, found as the scan for grouped keys finds it. -/
theorem runs_refine_sortedMap (start : Start κ) (calls : List (Call.{v, w} κ)) :
    let run := Reference.replies Call.run calls start.published
    let model := Reference.replies Call.answer calls start.canonical
    run.1 = model.1 ∧ WellFormed run.2 ∧ run.2.routes = model.2.entries ∧
      ∀ {Q : Type x} [LinearOrder Q] (borrow : κ → Q), Monotone borrow → ∀ bound : Bound Q,
        run.2.firstForBound borrow bound = model.2.find? (bound.admits borrow) ∧
        run.2.firstForBound borrow bound = firstPublishedForBorrowedBound borrow run.2 bound false := by
  intro run model
  obtain ⟨replies, mirrors⟩ := run_mirrors start calls
  refine ⟨replies, mirrors.valid, mirrors.same, ?_⟩
  intro Q _ borrow monotone bound
  refine ⟨mirrors.firstForBound monotone bound, ?_⟩
  rw [firstForBound_eq borrow monotone mirrors.valid]
  simp [firstPublishedForBorrowedBound, run]

end WorkTablesIndex.PublishedNodeIndex
