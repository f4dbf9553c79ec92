import Mathlib.Data.List.InsertIdx
import WorkTablesIndex.Refinement

/-! The reference consumer of change events (`PersistedBTreeMap` in the tests of
`concurrent/map.rs`). It keeps the nodes under the key of their maximum and knows
a node by nothing else, so every event has to name the maximum the node has at
that moment. -/

universe u v

namespace WorkTablesIndex
open SortedMap

variable {α : Type u} {κ : Type v} [LinearOrder κ]

abbrev PersistedBTreeMap (α : Type u) (κ : Type v) [LinearOrder κ] := SortedMap κ (List α)

def Layout.topology (layout : Layout α κ) : PersistedBTreeMap α κ := layout.index.mapValues layout.heap.cells

def BTreeSet.topology (set : BTreeSet α κ) : PersistedBTreeMap α κ := set.layout.topology

namespace PersistedBTreeMap
variable [Keyed α κ]

/-- `persist`. `none` is a panic; the flag says whether the event found the node it
names, for otherwise it is silently dropped. -/
def persist (nodes : PersistedBTreeMap α κ) : ChangeEvent α → Option (Bool × PersistedBTreeMap α κ)
  | .createNode _ maxValue => some (true, nodes.insert (key maxValue) [maxValue])
  | .removeNode _ maxValue => some ((nodes.get? (key maxValue)).isSome, nodes.erase (key maxValue))
  | .insertAt _ maxValue value index =>
    match nodes.get? (key maxValue) with
    | some node =>
      if index ≤ node.length then
        if key maxValue < key value then some (true, (nodes.erase (key maxValue)).insert (key value) (node.insertIdx index value))
        else some (true, nodes.insert (key maxValue) (node.insertIdx index value))
      else none
    | none => if key maxValue < key value then none else some (false, nodes)
  | .removeAt _ maxValue value index =>
    match nodes.get? (key maxValue) with
    | some node =>
      if index < node.length then
        if key maxValue = key value then
          match Node.max (node.eraseIdx index) with
          | some newMax => some (true, (nodes.erase (key maxValue)).insert (key newMax) (node.eraseIdx index))
          | none => some (true, nodes.erase (key maxValue))
        else some (true, nodes.insert (key maxValue) (node.eraseIdx index))
      else none
    | none => some (false, nodes)
  | .splitNode _ maxValue splitIndex =>
    match nodes.get? (key maxValue) with
    | some node =>
      if splitIndex ≤ node.length then
        match Node.max (node.drop splitIndex), Node.max (node.take splitIndex) with
        | some newMax, some oldMax =>
          some (true, ((nodes.erase (key maxValue)).insert (key newMax) (node.drop splitIndex)).insert (key oldMax)
            (node.take splitIndex))
        | _, _ => none
      else none
    | none => some (false, nodes)

def persistAll : List (ChangeEvent α) → PersistedBTreeMap α κ → Option (Bool × PersistedBTreeMap α κ)
  | [], nodes => some (true, nodes)
  | event :: rest, nodes =>
    match persist nodes event with
    | none => none
    | some (found, nodes) => (persistAll rest nodes).map fun (others, nodes) => (found && others, nodes)

theorem persistAll_append (first second : List (ChangeEvent α)) (nodes : PersistedBTreeMap α κ) {middle : PersistedBTreeMap α κ}
    (earlier : persistAll first nodes = some (true, middle)) : persistAll (first ++ second) nodes = persistAll second middle := by
  induction first generalizing nodes with
  | nil =>
    cases earlier
    rfl
  | cons event rest ih =>
    simp only [List.cons_append, persistAll] at earlier ⊢
    cases applied : persist nodes event with
    | none => simp [applied] at earlier
    | some outcome =>
      obtain ⟨found, next⟩ := outcome
      simp only [applied, Option.map_eq_some_iff, Prod.mk.injEq] at earlier ⊢
      obtain ⟨⟨others, final⟩, ran, every, rfl⟩ := earlier
      obtain ⟨rfl, rfl⟩ := Bool.and_eq_true_iff.mp every
      rw [ih next ran]
      cases persistAll second final with
      | none => rfl
      | some outcome => simp

variable {nodes : PersistedBTreeMap α κ} {values : List α} {max value : α}

theorem persist_insertAt (held : nodes.get? (key max) = some values) (value : α) {index : Nat} (inside : index ≤ values.length)
    (eventId : Id) :
    persist nodes (.insertAt eventId max value index) =
      some (true, (nodes.erase (key max)).insert (if key max < key value then key value else key max)
        (values.insertIdx index value)) := by
  simp only [persist, held, inside, if_true]
  split
  · rfl
  · rw [erase_insert]

theorem persist_removeAt (held : nodes.get? (key max) = some values) (value : α) {index : Nat} (inside : index < values.length)
    {top : α} (remaining : Node.max (values.eraseIdx index) = some top) (eventId : Id) :
    persist nodes (.removeAt eventId max value index) =
      some (true, (nodes.erase (key max)).insert (if key max = key value then key top else key max) (values.eraseIdx index)) := by
  simp only [persist, held, inside, if_true, remaining]
  split
  · rfl
  · rw [erase_insert]

theorem persist_splitNode (held : nodes.get? (key max) = some values) {splitIndex : Nat} (inside : splitIndex ≤ values.length)
    {rightMax leftMax : α} (right : Node.max (values.drop splitIndex) = some rightMax)
    (left : Node.max (values.take splitIndex) = some leftMax) (eventId : Id) :
    persist nodes (.splitNode eventId max splitIndex) =
      some (true, ((nodes.erase (key max)).insert (key rightMax) (values.drop splitIndex)).insert (key leftMax)
        (values.take splitIndex)) := by
  simp only [persist, held, inside, if_true, right, left]

omit [LinearOrder κ] [Keyed α κ] in
private theorem reinserted {index : Nat} (inside : index < values.length) (value : α) :
    index ≤ (values.eraseIdx index).length ∧ (values.eraseIdx index).insertIdx index value = values.set index value := by
  refine ⟨?_, List.insertIdx_eraseIdx_self inside.ne value⟩
  rw [List.length_eraseIdx, if_pos inside]
  omega

theorem persist_replace_inner (sorted : Node.Sorted values) (held : nodes.get? (key max) = some values)
    (top : Node.max values = some max) {index : Nat} {old : α} (there : values[index]? = some old) (same : key old = key value)
    (inner : index + 1 ≠ values.length) (eventId : Id) :
    persistAll (assignIds eventId [.removeAt max old index, .insertAt max value index]) nodes =
      some (true, nodes.insert (key max) (values.set index value)) := by
  have inside := (List.getElem?_eq_some_iff.mp there).1
  have different : key max ≠ key old := fun equal => inner ((sorted.key_eq_max top there).mp equal.symm)
  have above : ¬ key max < key value :=
    not_lt.mpr (same ▸ ((Node.max_eq_some sorted).mp top).2 old (List.mem_of_getElem? there))
  obtain ⟨newMax, remaining⟩ : ∃ newMax, Node.max (values.eraseIdx index) = some newMax := by
    cases seen : Node.max (values.eraseIdx index) with
    | none => exact absurd (Node.max_eq_none.mp seen) (BTreeSet.eraseIdx_ne_nil (by omega) index)
    | some newMax => exact ⟨newMax, rfl⟩
  obtain ⟨within, restored⟩ := reinserted inside value
  have removed := persist_removeAt held old inside remaining eventId
  rw [if_neg different, erase_insert] at removed
  have kept : (nodes.insert (key max) (values.eraseIdx index)).get? (key max) = some (values.eraseIdx index) :=
    get?_insert_self ..
  have inserted := persist_insertAt kept value within (eventId + 1)
  rw [if_neg above, erase_insert, insert_insert, restored] at inserted
  simp only [assignIds, ChangeEventUnassigned.assignId, persistAll, removed, inserted, Option.map_some, Bool.and_self]

/-- Replacing the maximum, with the insertion addressed to the maximum before it. -/
theorem persist_replace_last (sorted : Node.Sorted values) (held : nodes.get? (key max) = some values)
    (top : Node.max values = some max) {index : Nat} {old : α} (there : values[index]? = some old) (same : key old = key value)
    (last : index + 1 = values.length) {newMax : α} (remaining : Node.max (values.eraseIdx index) = some newMax)
    (free : ∀ entry ∈ nodes, entry.1 ≠ key max → entry.1 ≠ key newMax) (eventId : Id) :
    persistAll (assignIds eventId [.removeAt max old index, .insertAt newMax value index]) nodes =
      some (true, nodes.insert (key max) (values.set index value)) := by
  have inside := (List.getElem?_eq_some_iff.mp there).1
  have equal := (sorted.key_eq_max top there).mpr last
  obtain ⟨within, restored⟩ := reinserted inside value
  have member := ((Node.max_eq_some (Node.eraseIdx_sorted sorted index)).mp remaining).1
  have lower : key newMax < key value := by
    obtain ⟨kept, different⟩ := (Node.mem_eraseIdx sorted there newMax).mp member
    rw [← same]
    refine lt_of_le_of_ne ?_ different
    rw [equal]
    exact ((Node.max_eq_some sorted).mp top).2 newMax kept
  have removed := persist_removeAt held old inside remaining eventId
  rw [if_pos equal.symm] at removed
  have moved : ((nodes.erase (key max)).insert (key newMax) (values.eraseIdx index)).get? (key newMax) =
      some (values.eraseIdx index) := get?_insert_self ..
  have inserted := persist_insertAt moved value within (eventId + 1)
  have unused : (nodes.erase (key max)).erase (key newMax) = nodes.erase (key max) := by
    apply ext_mem
    intro entry
    rw [mem_erase, mem_erase]
    exact ⟨And.right, fun both => ⟨free entry both.2 both.1, both⟩⟩
  rw [if_pos lower, insert_erase, unused, restored, ← same, equal, erase_insert] at inserted
  simp only [assignIds, ChangeEventUnassigned.assignId, persistAll, removed, inserted, Option.map_some, Bool.and_self]

/-- The same replacement with both events addressed to the old maximum: the removal
re-keys the node, and the insertion finds nothing under that name. -/
theorem persist_replace_lost (sorted : Node.Sorted values) (held : nodes.get? (key max) = some values)
    (top : Node.max values = some max) {index : Nat} {old : α} (there : values[index]? = some old) (same : key old = key value)
    (last : index + 1 = values.length) (eventId : Id) :
    ∃ after, persistAll (assignIds eventId [.removeAt max old index, .insertAt max value index]) nodes = some (false, after) ∧
      ∀ entry ∈ after, entry.1 ≠ key max := by
  have inside := (List.getElem?_eq_some_iff.mp there).1
  have equal := (sorted.key_eq_max top there).mpr last
  obtain ⟨after, removed, gone⟩ : ∃ after, persist nodes (.removeAt eventId max old index) = some (true, after) ∧
      ∀ entry ∈ after, entry.1 ≠ key max := by
    cases remaining : Node.max (values.eraseIdx index) with
    | none =>
      refine ⟨nodes.erase (key max), by simp [persist, held, inside, equal, remaining], fun entry member => ?_⟩
      exact ((mem_erase ..).mp member).1
    | some newMax =>
      have result := persist_removeAt held old inside remaining eventId
      rw [if_pos equal.symm] at result
      refine ⟨_, result, fun entry member => ?_⟩
      rcases (mem_insert ..).mp member with rfl | ⟨_, kept⟩
      · have present := ((Node.max_eq_some (Node.eraseIdx_sorted sorted index)).mp remaining).1
        rw [← equal]
        exact ((Node.mem_eraseIdx sorted there newMax).mp present).2
      · exact ((mem_erase ..).mp kept).1
  have dropped : persist after (.insertAt (eventId + 1) max value index) = some (false, after) := by
    have missing : after.get? (key max) = none := get?_eq_none.mpr gone
    have level : ¬ key max < key value := by
      rw [← same, equal]
      exact lt_irrefl _
    simp only [persist, missing, level, if_false]
  refine ⟨after, ?_, gone⟩
  simp only [assignIds, ChangeEventUnassigned.assignId, persistAll, removed, dropped, Option.map_some, Bool.and_true, Bool.and_false]

end PersistedBTreeMap
end WorkTablesIndex
