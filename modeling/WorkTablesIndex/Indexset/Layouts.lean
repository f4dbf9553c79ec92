import Mathlib.Logic.Relation
import WorkTablesIndex.Indexset.MapRefinement

/-! The nodes of sets and maps with any maximum node size. A node of one element is halved into an
empty node and a full one, so nodes may be empty here, and a spine with empty nodes need not be
partitioned for the search: where a call lands on it is left open. -/

namespace WorkTablesIndex.Indexset
open Relation Slice

variable {F α κ : Type} [FenwickTree F] [LinearOrder κ] [Keyed α κ]

namespace BTreeSet
variable {set after : BTreeSet F α}

/-- What the public calls are made of, at whatever node and position they find. -/
inductive Step : BTreeSet F α → BTreeSet F α → Prop where
  | clear (set : BTreeSet F α) : Step set set.clear
  | rewrite (set : BTreeSet F α) (inner : List (List α)) (same : inner.map List.length = set.inner.map List.length) :
      Step set { set with inner }
  | insertAt {set after : BTreeSet F α} {result : Bool} (nodeIdx : Nat) (value : α)
      (ran : set.insertAt nodeIdx value = some (result, after)) : Step set after
  | deleteAt {set after : BTreeSet F α} {result : α} (nodeIdx positionWithinNode : Nat)
      (ran : set.deleteAt nodeIdx positionWithinNode = some (result, after)) : Step set after
  | splitOffAt {set kept moved : BTreeSet F α} (nodeIdx positionWithinNode : Nat)
      (ran : set.splitOffAt nodeIdx positionWithinNode = some (kept, moved)) : Step set kept

def Steps : BTreeSet F α → BTreeSet F α → Prop := ReflTransGen Step

/-- The sets that steps lead to, and the parts that are split off. -/
inductive Built : BTreeSet F α → Prop where
  | withMaximumNodeSize (maximumNodeSize : Nat) : Built (.withMaximumNodeSize maximumNodeSize)
  | step {set after : BTreeSet F α} (earlier : Built set) (step : Step set after) : Built after
  | latterHalf {set kept moved : BTreeSet F α} (earlier : Built set) (nodeIdx positionWithinNode : Nat)
      (ran : set.splitOffAt nodeIdx positionWithinNode = some (kept, moved)) : Built moved

theorem Built.steps (built : Built set) (steps : Steps set after) : Built after := by
  induction steps with
  | refl => exact built
  | tail _ step ih => exact ih.step step

theorem deleteAt_steps {result : α} {nodeIdx positionWithinNode : Nat}
    (ran : set.deleteAt nodeIdx positionWithinNode = some (result, after)) : Steps set after :=
  .single (.deleteAt nodeIdx positionWithinNode ran)

theorem insert_steps {result : Bool} {value : α} (ran : set.insert value = some (result, after)) : Steps set after :=
  .single (.insertAt _ value ran)

theorem popIndex_steps {result : α} {idx : Nat} (ran : set.popIndex idx = some (result, after)) : Steps set after :=
  deleteAt_steps ran

theorem popFirst_steps {result : Option α} (ran : set.popFirst = some (result, after)) : Steps set after := by
  rw [popFirst] at ran
  split at ran
  next =>
    obtain ⟨⟨_, _⟩, deleted, same⟩ := Option.map_eq_some_iff.mp ran
    cases same
    exact deleteAt_steps deleted
  next =>
    cases ran
    exact .refl

theorem popLast_steps {result : Option α} (ran : set.popLast = some (result, after)) : Steps set after := by
  simp only [popLast, bind] at ran
  obtain ⟨node, _, ran⟩ := Option.bind_eq_some_iff.mp ran
  split at ran
  next =>
    obtain ⟨⟨_, _⟩, deleted, same⟩ := Option.map_eq_some_iff.mp ran
    cases same
    exact deleteAt_steps deleted
  next =>
    cases ran
    exact .refl

section Borrowed
variable {Q : Type} [LinearOrder Q] {borrow : κ → Q} {value : Q}

theorem delete_steps {result : Option α × Bool} (ran : set.delete borrow value = some (result, after)) :
    Steps set after := by
  simp only [delete, bind] at ran
  obtain ⟨⟨nodeIdx, positionWithinNode⟩, _, ran⟩ := Option.bind_eq_some_iff.mp ran
  split at ran
  next =>
    split at ran
    next =>
      obtain ⟨⟨_, _⟩, deleted, same⟩ := Option.bind_eq_some_iff.mp ran
      cases same
      exact deleteAt_steps deleted
    next =>
      cases ran
      exact .refl
  next =>
    cases ran
    exact .refl

theorem remove_steps {result : Bool} (ran : set.remove borrow value = some (result, after)) : Steps set after := by
  obtain ⟨⟨_, _⟩, deleted, same⟩ := Option.map_eq_some_iff.mp ran
  cases same
  exact delete_steps deleted

theorem take_steps {result : Option α} (ran : set.take borrow value = some (result, after)) : Steps set after := by
  obtain ⟨⟨_, _⟩, deleted, same⟩ := Option.map_eq_some_iff.mp ran
  cases same
  exact delete_steps deleted

end Borrowed

theorem replace_steps {result : Option α} {value : α} (ran : set.replace value = some (result, after)) : Steps set after := by
  simp only [replace, bind] at ran
  obtain ⟨⟨_, _⟩, taken, ran⟩ := Option.bind_eq_some_iff.mp ran
  obtain ⟨⟨_, _⟩, stored, same⟩ := Option.bind_eq_some_iff.mp ran
  cases same
  exact (take_steps taken).trans (insert_steps stored)

theorem append_steps {fuel : Nat} {other drained : BTreeSet F α} (ran : append fuel set other = some (after, drained)) :
    Steps set after ∧ Steps other drained := by
  induction fuel generalizing set other with
  | zero => cases ran
  | succ fuel ih =>
    simp only [append, bind] at ran
    obtain ⟨⟨popped, rest⟩, first, ran⟩ := Option.bind_eq_some_iff.mp ran
    cases popped with
    | none =>
      cases ran
      exact ⟨.refl, popFirst_steps first⟩
    | some value =>
      obtain ⟨⟨_, _⟩, stored, ran⟩ := Option.bind_eq_some_iff.mp ran
      obtain ⟨left, right⟩ := ih ran
      exact ⟨(replace_steps stored).trans left, (popFirst_steps first).trans right⟩

section Retain
variable {σ : Type} (f : α → σ → Bool × α × σ)

omit [FenwickTree F] [LinearOrder κ] [Keyed α κ] in
private theorem visitNode_length (nodeIdx position : Nat) (items : List α) (state : σ) :
    (visitNode f nodeIdx position items state).2.2.length = items.length := by
  induction items generalizing position state with
  | nil => rfl
  | cons item rest ih => exact congrArg (· + 1) (ih _ _)

omit [FenwickTree F] [LinearOrder κ] [Keyed α κ] in
private theorem visitNodes_lengths (nodeIdx : Nat) (nodes : List (List α)) (state : σ) :
    (visitNodes f nodeIdx nodes state).2.2.map List.length = nodes.map List.length := by
  induction nodes generalizing nodeIdx state with
  | nil => rfl
  | cons node rest ih => exact congrArg₂ List.cons (visitNode_length f _ _ _ _) (ih _ _)

private theorem deletions_steps (positions : List (Nat × Nat)) (ran : positions.foldlM (fun set (nodeIdx, positionWithinNode) =>
    (deleteAt nodeIdx positionWithinNode set).map Prod.snd) set = some after) : Steps set after := by
  induction positions generalizing set with
  | nil =>
    cases ran
    exact .refl
  | cons position rest ih =>
    rw [List.foldlM_cons] at ran
    obtain ⟨middle, first, ran⟩ := Option.bind_eq_some_iff.mp ran
    obtain ⟨⟨_, _⟩, deleted, same⟩ := Option.map_eq_some_iff.mp first
    cases same
    exact (deleteAt_steps deleted).trans (ih ran)

theorem retainMut_steps {state result : σ} (ran : set.retainMut f state = some (result, after)) : Steps set after := by
  simp only [retainMut, bind] at ran
  obtain ⟨_, deleted, same⟩ := Option.bind_eq_some_iff.mp ran
  cases same
  exact .head (.rewrite set _ (visitNodes_lengths f 0 set.inner state)) (deletions_steps _ deleted)

end Retain

omit [FenwickTree F] [LinearOrder κ] [Keyed α κ] in
theorem refAt_same {nodeIdx positionWithinNode : Nat} {ref : RefMut α (BTreeSet F α)}
    (ran : set.refAt nodeIdx positionWithinNode = some ref) (value : α) :
    ∃ inner, ref.write value = { set with inner } ∧ inner.map List.length = set.inner.map List.length := by
  simp only [refAt, bind] at ran
  obtain ⟨node, there, ran⟩ := Option.bind_eq_some_iff.mp ran
  obtain ⟨_, _, same⟩ := Option.bind_eq_some_iff.mp ran
  cases same
  obtain ⟨inside, rfl⟩ := List.getElem?_eq_some_iff.mp there
  refine ⟨_, rfl, ?_⟩
  have within : nodeIdx < (set.inner.map List.length).length := by rwa [List.length_map]
  have here : (set.inner.map List.length)[nodeIdx] = set.inner[nodeIdx].length := List.getElem_map _
  rw [List.map_set, List.length_set, ← here, List.set_getElem_self within]

theorem refAt_steps {nodeIdx positionWithinNode : Nat} {ref : RefMut α (BTreeSet F α)}
    (ran : set.refAt nodeIdx positionWithinNode = some ref) (value : α) : Steps set (ref.write value) := by
  obtain ⟨inner, written, same⟩ := refAt_same ran value
  rw [written]
  exact .single (.rewrite set inner same)

theorem splitOff_steps {kept moved : BTreeSet F α} {Q : Type} [LinearOrder Q] {borrow : κ → Q} {value : Q}
    (ran : set.splitOff borrow value = some (kept, moved)) : Steps set kept ∧ (Built set → Built moved) := by
  simp only [splitOff, bind] at ran
  obtain ⟨⟨nodeIdx, positionWithinNode⟩, _, ran⟩ := Option.bind_eq_some_iff.mp ran
  exact ⟨.single (.splitOffAt _ _ ran), fun built => built.latterHalf _ _ ran⟩

section Counters
variable [LawfulFenwickTree F]

omit [LinearOrder κ] [Keyed α κ] in
private theorem Consistent.of_lengths (consistent : Consistent set) {inner : List (List α)}
    (same : inner.map List.length = set.inner.map List.length) : Consistent { set with inner } := by
  refine ⟨?_, ?_, ?_⟩
  · rintro rfl
    exact consistent.nonempty (List.map_eq_nil_iff.mp same.symm)
  · rw [elements, List.length_flatten, same, ← List.length_flatten]
    exact consistent.counted
  · rw [same]
    exact consistent.indexed

omit [LinearOrder κ] [Keyed α κ] in
private theorem consistent_of_nodes {inner : List (List α)} (some : inner ≠ []) (nodeCapacity : Nat) :
    Consistent (⟨inner, reindex inner, nodeCapacity, (inner.map List.length).sum⟩ : BTreeSet F α) :=
  ⟨some, List.length_flatten.symm, slots_reindex _⟩

omit [LinearOrder κ] [Keyed α κ] in
private theorem SplitOff.consistent {before rest : List (List α)} {low high : List α} {kept moved : BTreeSet F α}
    (split : SplitOff set before low high rest kept moved) : Consistent kept ∧ Consistent moved := by
  obtain ⟨_, rfl, rfl⟩ := split
  refine ⟨consistent_of_nodes ?_ _, consistent_of_nodes (List.cons_ne_nil _ _) _⟩
  unfold shrink
  split
  next gone => exact gone.2
  next => simp

theorem Step.consistent (step : Step set after) (consistent : Consistent set) : Consistent after := by
  cases step with
  | clear => exact ⟨List.cons_ne_nil _ _, rfl, LawfulFenwickTree.slots_fromIter _⟩
  | rewrite inner same => exact consistent.of_lengths same
  | insertAt nodeIdx value ran =>
    obtain ⟨_, _, _, inserted⟩ := insertAt_inv ran
    exact inserted.consistent consistent
  | deleteAt nodeIdx positionWithinNode ran =>
    obtain ⟨_, _, _, _, deleted⟩ := deleteAt_inv ran
    exact deleted.consistent consistent
  | splitOffAt nodeIdx positionWithinNode ran =>
    obtain ⟨_, _, _, _, split⟩ := splitOffAt_inv ran
    exact split.consistent.1

theorem Built.consistent (built : Built set) : Consistent set := by
  induction built with
  | withMaximumNodeSize => exact ⟨List.cons_ne_nil _ _, rfl, LawfulFenwickTree.slots_fromIter _⟩
  | step earlier step ih => exact step.consistent ih
  | latterHalf earlier nodeIdx positionWithinNode ran ih =>
    obtain ⟨_, _, _, _, split⟩ := splitOffAt_inv ran
    exact split.consistent.2

end Counters

end BTreeSet
end WorkTablesIndex.Indexset
