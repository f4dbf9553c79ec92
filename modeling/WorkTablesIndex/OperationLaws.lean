import WorkTablesIndex.NodeLaws
import WorkTablesIndex.Operation
import WorkTablesIndex.Publication

/-! What the two deferred operations do when they commit, stated once for every
later proof: which checks they passed, the guard they leave, and the halves. -/

universe u v

namespace WorkTablesIndex
open SortedMap

variable {α : Type u} {κ : Type v} [LinearOrder κ]

namespace Heap

@[simp] theorem write_same (heap : Heap α) (node : NodeId) (values : List α) :
    (heap.write node values).cells node = values := by
  simp [write]

theorem write_other (heap : Heap α) {node other : NodeId} (values : List α) (different : other ≠ node) :
    (heap.write node values).cells other = heap.cells other := by
  simp [write, different]

@[simp] theorem write_next (heap : Heap α) (node : NodeId) (values : List α) :
    (heap.write node values).next = heap.next := rfl

@[simp] theorem alloc_node (heap : Heap α) (values : List α) : (heap.alloc values).1 = heap.next := rfl

@[simp] theorem alloc_next (heap : Heap α) (values : List α) : (heap.alloc values).2.next = heap.next + 1 := rfl

@[simp] theorem alloc_same (heap : Heap α) (values : List α) : (heap.alloc values).2.cells heap.next = values := by
  simp [alloc]

theorem alloc_other (heap : Heap α) {other : NodeId} (values : List α) (different : other ≠ heap.next) :
    (heap.alloc values).2.cells other = heap.cells other := by
  simp [alloc, different]

end Heap

def Allocated (index : NodeIndex κ) (heap : Heap α) : Prop := ∀ key node, (key, node) ∈ index → node < heap.next

theorem Allocated.fresh {index : NodeIndex κ} {heap : Heap α} (allocated : Allocated index heap) :
    ∀ other, (other, heap.next) ∉ index := by
  intro other member
  exact absurd (allocated other heap.next member) (lt_irrefl _)

theorem Allocated.insert {index : NodeIndex κ} {heap : Heap α} (allocated : Allocated index heap) (key : κ) {node : NodeId}
    (inside : node < heap.next) : Allocated (index.insert key node) heap := by
  intro other target member
  rcases (mem_insert ..).mp member with equal | ⟨_, present⟩
  · cases equal
    exact inside
  · exact allocated other target present

theorem Allocated.erase {index : NodeIndex κ} {heap : Heap α} (allocated : Allocated index heap) (key : κ) :
    Allocated (index.erase key) heap :=
  fun other target member => allocated other target ((mem_erase ..).mp member).2

theorem Allocated.mono {index : NodeIndex κ} {heap changed : Heap α} (allocated : Allocated index heap)
    (grown : heap.next ≤ changed.next) : Allocated index changed :=
  fun other target member => (allocated other target member).trans_le grown

variable [Keyed α κ]

namespace Half

theorem put_cases (adopt : α → α → α) {values : List α} (sorted : Node.Sorted values) (max value : α) :
    (∃ index, Node.Gap values value index ∧
      Half.put adopt values max value = ⟨values.insertIdx index value, true, none, [.insertAt max value index]⟩) ∨
    ∃ index old, values[index]? = some old ∧ key old = key value ∧
      Half.put adopt values max value = ⟨values.set index (adopt old value), false, some old,
        [.removeAt max old index, .insertAt max (adopt old value) index]⟩ := by
  rcases Node.insert_cases sorted value with ⟨index, result, gap⟩ | ⟨index, old, result, there, same⟩
  · exact Or.inl ⟨index, gap, by simp [put, result]⟩
  · exact Or.inr ⟨index, old, there, same, by simp [put, result, Node.getIth, Node.replace, there]⟩

/-- What a replacing insertion returns: the stored value with the key, if any. -/
def Found (values : List α) (wanted : κ) (result : Option α) : Prop :=
  ∀ item, result = some item ↔ item ∈ values ∧ key item = wanted

theorem put_spec {values : List α} (sorted : Node.Sorted values) (max value : α) :
    Node.Upserted values value (Half.put noIdentityAdoption values max value).values ∧
      Found values (key value) (Half.put noIdentityAdoption values max value).oldValue := by
  rcases put_cases noIdentityAdoption sorted max value with ⟨index, gap, result⟩ | ⟨index, old, there, same, result⟩
  · rw [result]
    refine ⟨gap.upserted sorted, fun item => ?_⟩
    simp only [reduceCtorEq, false_iff]
    exact fun both => gap.absent item both.1 both.2
  · rw [result]
    refine ⟨Node.set_upserted sorted there same, fun item => ?_⟩
    constructor
    · intro equal
      cases equal
      exact ⟨List.mem_of_getElem? there, same⟩
    · intro both
      exact congrArg some (sorted.key_unique (List.mem_of_getElem? there) both.1 (same.trans both.2.symm))

end Half

namespace Operation

def leftHalf (values : List α) (value : α) : Half α := (keepLeft noIdentityAdoption (Node.halve values).1 value).1

def rightHalf (values : List α) (value : α) : Half α :=
  match Node.max (Node.halve values).2 with
  | none => .untouched []
  | some max =>
    (moveRight noIdentityAdoption (keepLeft noIdentityAdoption (Node.halve values).1 value).2 (Node.halve values).2 max value).1

def splitEvents (values : List α) (value : α) : List (ChangeEventUnassigned α) :=
  match Node.max values with
  | none => []
  | some max => .splitNode max (Node.halve values).1.length :: ((leftHalf values value).events ++ (rightHalf values value).events)

/-- Which half of a node with two values or more takes the new one. -/
theorem halves_cases {values : List α} (sorted : Node.Sorted values) (many : 2 ≤ values.length) (value : α) :
    ∃ leftMax rightMax, Node.max (Node.halve values).1 = some leftMax ∧ Node.max (Node.halve values).2 = some rightMax ∧
      key leftMax < key rightMax ∧
      ((key value ≤ key leftMax ∧ leftHalf values value = .put noIdentityAdoption (Node.halve values).1 leftMax value ∧
          rightHalf values value = .untouched (Node.halve values).2) ∨
        key leftMax < key value ∧ leftHalf values value = .untouched (Node.halve values).1 ∧
          rightHalf values value = .put noIdentityAdoption (Node.halve values).2 rightMax value) := by
  obtain ⟨leftSorted, rightSorted, across⟩ := Node.sorted_append.mp ((Node.halve_append values).symm ▸ sorted)
  have half : (Node.halve values).1.length = values.length / 2 := by
    simp only [Node.halve, List.length_take]
    omega
  cases left : Node.max (Node.halve values).1 with
  | none =>
    have empty := congrArg List.length (Node.max_eq_none.mp left)
    rw [half, List.length_nil] at empty
    omega
  | some leftMax =>
    cases right : Node.max (Node.halve values).2 with
    | none =>
      have filled : values ≠ [] := List.ne_nil_of_length_pos (by omega)
      exact absurd (Node.max_eq_none.mp right) (Node.halve_right_ne_nil filled)
    | some rightMax =>
      have below := across leftMax ((Node.max_eq_some leftSorted).mp left).1 rightMax ((Node.max_eq_some rightSorted).mp right).1
      refine ⟨leftMax, rightMax, rfl, rfl, below, ?_⟩
      by_cases reached : key value ≤ key leftMax
      · exact Or.inl ⟨reached, by simp [leftHalf, keepLeft, left, reached],
          by simp [rightHalf, keepLeft, left, right, reached, moveRight]⟩
      · exact Or.inr ⟨not_le.mp reached, by simp [leftHalf, keepLeft, left, reached],
          by simp [rightHalf, keepLeft, left, right, reached, moveRight]⟩

theorem commitSplit_none (adopt : α → α → α) {guard : TopologyWriteGuard κ} {heap : Heap α} {oldNode : NodeId} {oldMax : κ}
    (value : α) (failed : guard.index.get? oldMax ≠ some oldNode ∨ heap.cells oldNode = []) :
    commitSplit adopt guard heap oldNode oldMax value = none := by
  rcases failed with unlinked | drained
  · simp [commitSplit, unlinked]
  · simp [commitSplit, drained, Node.max]

def rekey (guard : TopologyWriteGuard κ) (node : NodeId) (oldMax newMax : κ) : TopologyWriteGuard κ :=
  if newMax = oldMax then guard
  else if guard.canRekeyLastNodeWithoutPublication node newMax then guard.rekeyLastNode oldMax newMax node
  else ((guard.enablePublication.remove oldMax).2.insert newMax node).2

theorem commitUpdateMax_some {guard : TopologyWriteGuard κ} {heap : Heap α} {node : NodeId} {oldMax newMax : κ}
    (linked : guard.index.get? oldMax = some node) (greatest : Node.maxKey (heap.cells node) = some newMax) :
    commitUpdateMax guard heap node oldMax = some (rekey guard node oldMax newMax) := by
  obtain ⟨max, seen, rfl⟩ := Option.map_eq_some_iff.mp greatest
  simp only [commitUpdateMax, linked, if_true, seen, rekey]
  by_cases same : key max = oldMax
  · simp [same]
  · simp only [ne_eq, same, not_false_eq_true, if_true, if_false]
    split <;> rfl

theorem commitUpdateMax_none (guard : TopologyWriteGuard κ) (heap : Heap α) (node : NodeId) (oldMax : κ)
    (failed : guard.index.get? oldMax ≠ some node ∨ heap.cells node = []) :
    commitUpdateMax guard heap node oldMax = none := by
  rcases failed with unlinked | drained
  · simp [commitUpdateMax, unlinked]
  · simp [commitUpdateMax, drained, Node.max]

/-- The halves of a committed split: together they hold the node's values with the
new one stored, and each is linked under its own maximum. -/
private theorem split_halves {values : List α} (sorted : Node.Sorted values)
    (value : α) {max : α} (right : Node.max (Node.halve values).2 = some max) :
    let kept := keepLeft noIdentityAdoption (Node.halve values).1 value
    let moved := moveRight noIdentityAdoption kept.2 (Node.halve values).2 max value
    Node.Upserted values value (kept.1.values ++ moved.1.values) ∧ moved.1.values ≠ [] ∧
      Node.maxKey kept.1.values = Node.maxKey (Node.halve values).1 ∧ Node.maxKey moved.1.values = some moved.2 ∧
      Half.Found values (key value) (kept.1.oldValue.or moved.1.oldValue) := by
  intro kept moved
  have whole := Node.halve_append values
  have parts := Node.sorted_append.mp (whole.symm ▸ sorted)
  obtain ⟨leftSorted, rightSorted, across⟩ := parts
  obtain ⟨member, bound⟩ := (Node.max_eq_some rightSorted).mp right
  have rightKey : Node.maxKey (Node.halve values).2 = some (key max) := by simp [Node.maxKey, right]
  have locate (item : α) : item ∈ values ↔ item ∈ (Node.halve values).1 ∨ item ∈ (Node.halve values).2 := by
    conv_lhs => rw [← whole]
    exact List.mem_append
  by_cases attempted : kept.2 = true
  · obtain ⟨leftMax, leftTop, below, keptEq⟩ : ∃ leftMax, Node.max (Node.halve values).1 = some leftMax ∧
        key value ≤ key leftMax ∧ kept.1 = Half.put noIdentityAdoption (Node.halve values).1 leftMax value := by
      cases leftTop : Node.max (Node.halve values).1 with
      | none => simp [kept, keepLeft, leftTop] at attempted
      | some leftMax =>
        by_cases below : key value ≤ key leftMax
        · exact ⟨leftMax, rfl, below, by simp [kept, keepLeft, leftTop, below]⟩
        · simp [kept, keepLeft, leftTop, below] at attempted
    have movedEq : moved = (.untouched (Node.halve values).2, key max) := by simp [moved, moveRight, attempted]
    obtain ⟨stored, found⟩ := Half.put_spec leftSorted leftMax value
    obtain ⟨leftMember, _⟩ := (Node.max_eq_some leftSorted).mp leftTop
    have beyond : ∀ item ∈ (Node.halve values).2, key value < key item :=
      fun item there => below.trans_lt (across leftMax leftMember item there)
    have leftKey : Node.maxKey (Node.halve values).1 = some (key leftMax) := by simp [Node.maxKey, leftTop]
    rw [movedEq, keptEq]
    refine ⟨?_, List.ne_nil_of_mem member, ?_, rightKey, ?_⟩
    · have merged := stored.append_right (whole.symm ▸ sorted) beyond
      rwa [whole] at merged
    · rw [leftKey]
      exact stored.maxKey_of_le leftSorted leftKey below
    · intro item
      simp only [Half.untouched, Option.or_none]
      rw [found item, locate item]
      constructor
      · exact fun both => ⟨Or.inl both.1, both.2⟩
      · intro both
        refine ⟨both.1.resolve_right fun there => ?_, both.2⟩
        exact (beyond item there).ne both.2.symm
  · have keptEq : kept.1 = .untouched (Node.halve values).1 ∧ ∀ item ∈ (Node.halve values).1, key item < key value := by
      cases leftTop : Node.max (Node.halve values).1 with
      | none =>
        refine ⟨by simp [kept, keepLeft, leftTop], ?_⟩
        rw [Node.max_eq_none.mp leftTop]
        simp
      | some leftMax =>
        have above : key leftMax < key value := by
          by_contra reached
          exact attempted (by simp [kept, keepLeft, leftTop, not_lt.mp reached])
        refine ⟨by simp [kept, keepLeft, leftTop, above.not_ge], fun item there => ?_⟩
        exact (((Node.max_eq_some leftSorted).mp leftTop).2 item there).trans_lt above
    obtain ⟨keptEq, below⟩ := keptEq
    obtain ⟨stored, found⟩ := Half.put_spec rightSorted max value
    have movedEq : moved.1 = Half.put noIdentityAdoption (Node.halve values).2 max value := by
      simp [moved, moveRight, attempted]
    have merged := stored.append_left (whole.symm ▸ sorted) below
    rw [whole] at merged
    rw [movedEq, keptEq]
    refine ⟨merged, List.ne_nil_of_mem ((stored.mem value).mpr (Or.inl rfl)), rfl, ?_, ?_⟩
    · by_cases beyond : key max < key value
      · have grown : moved.2 = key value := by
          rcases Half.put_cases noIdentityAdoption rightSorted max value with ⟨index, _, result⟩ | ⟨index, old, there, same, _⟩
          · simp [moved, moveRight, attempted, result, beyond]
          · exact absurd (bound old (List.mem_of_getElem? there)) (same ▸ beyond).not_ge
        rw [grown]
        exact stored.maxKey_of_lt fun item there => (bound item there).trans beyond.le
      · have kept : moved.2 = key max := by simp [moved, moveRight, attempted, beyond]
        rw [kept]
        exact stored.maxKey_of_le rightSorted rightKey (not_lt.mp beyond)
    · intro item
      simp only [Half.untouched, Option.none_or]
      rw [found item, locate item]
      constructor
      · exact fun both => ⟨Or.inr both.1, both.2⟩
      · intro both
        refine ⟨both.1.resolve_left fun there => ?_, both.2⟩
        exact (below item there).ne both.2

def link (index : NodeIndex κ) (node : NodeId) : Option κ → NodeIndex κ
  | none => index
  | some greatest => index.insert greatest node

private theorem unlinked_after_remove {index : NodeIndex κ} (once : LinkedOnce index) {oldMax : κ} {node : NodeId}
    (linked : index.get? oldMax = some node) : ∀ other, (other, node) ∉ index.erase oldMax := by
  intro other member
  obtain ⟨different, present⟩ := (mem_erase ..).mp member
  exact different (once other oldMax node present (get?_eq_some.mp linked))

theorem split_guard {guard : TopologyWriteGuard κ} (valid : guard.Consistent) (publishing : guard.publish = true)
    {oldNode next : NodeId} {oldMax : κ} (linked : guard.index.get? oldMax = some oldNode)
    (fresh : ∀ other, (other, next) ∉ guard.index) (left : List α) (newMax : κ) :
    let after := ((linkLeft (guard.remove oldMax).2 oldNode left).insert newMax next).2
    after.Consistent ∧ after.Exact ∧ after.publish = true ∧
      after.index = (link (guard.index.erase oldMax) oldNode (Node.maxKey left)).insert newMax next := by
  intro after
  obtain ⟨_, erased, removedPublish, removedValid, _⟩ := TopologyWriteGuard.remove_spec valid publishing oldMax
  have apart : next ≠ oldNode := fun same => fresh oldMax (same ▸ get?_eq_some.mp linked)
  have freshErased : ∀ other, (other, next) ∉ guard.index.erase oldMax :=
    fun other member => fresh other ((mem_erase ..).mp member).2
  cases greatest : Node.max left with
  | none =>
    have final := TopologyWriteGuard.insert_spec removedValid removedPublish newMax next (by rwa [erased])
    simp only [after, linkLeft, Node.maxKey, greatest, Option.map_none, link]
    exact ⟨final.2.2.2.1, final.2.2.2.2, final.2.2.1, by rw [final.2.1, erased]⟩
  | some max =>
    obtain ⟨_, linkedLeft, leftPublish, leftValid, _⟩ := TopologyWriteGuard.insert_spec removedValid removedPublish (key max)
      oldNode (by rw [erased]; exact unlinked_after_remove valid.publishes.once linked)
    have final := TopologyWriteGuard.insert_spec leftValid leftPublish newMax next (by
      intro other member
      rw [linkedLeft, erased] at member
      rcases (mem_insert ..).mp member with equal | ⟨_, present⟩
      · exact apart (Prod.mk.inj equal).2
      · exact freshErased other present)
    simp only [after, linkLeft, Node.maxKey, greatest, Option.map_some, link]
    exact ⟨final.2.2.2.1, final.2.2.2.2, final.2.2.1, by rw [final.2.1, linkedLeft, erased]⟩

/-- A split commits when the entry still names the node and the node is not drained. -/
theorem commitSplit_some (adopt : α → α → α) (guard : TopologyWriteGuard κ) {heap : Heap α} {oldNode : NodeId} {oldMax : κ}
    (value : α) (linked : guard.index.get? oldMax = some oldNode) (filled : heap.cells oldNode ≠ []) :
    ∃ maxValue max, Node.max (heap.cells oldNode) = some maxValue ∧
      Node.max (Node.halve (heap.cells oldNode)).2 = some max ∧
      let left := (Node.halve (heap.cells oldNode)).1
      let kept := keepLeft adopt left value
      let moved := moveRight adopt kept.2 (Node.halve (heap.cells oldNode)).2 max value
      commitSplit adopt guard heap oldNode oldMax value =
        some ⟨kept.1.oldValue.or moved.1.oldValue, .splitNode maxValue left.length :: (kept.1.events ++ moved.1.events),
          ((linkLeft (guard.remove oldMax).2 oldNode left).insert moved.2 heap.next).2,
          ((heap.write oldNode kept.1.values).alloc moved.1.values).2⟩ := by
  cases whole : Node.max (heap.cells oldNode) with
  | none => exact absurd (Node.max_eq_none.mp whole) filled
  | some maxValue =>
    cases right : Node.max (Node.halve (heap.cells oldNode)).2 with
    | none => exact absurd (Node.max_eq_none.mp right) (Node.halve_right_ne_nil filled)
    | some max =>
      refine ⟨maxValue, max, rfl, rfl, ?_⟩
      simp only [commitSplit, linked, whole, right, if_true]
      rfl

theorem commitSplit_spec {guard : TopologyWriteGuard κ} (valid : guard.Consistent) (publishing : guard.publish = true)
    {heap : Heap α} {oldNode : NodeId} {oldMax : κ} (value : α) (linked : guard.index.get? oldMax = some oldNode)
    (filled : heap.cells oldNode ≠ []) (sorted : Node.Sorted (heap.cells oldNode))
    (fresh : ∀ other, (other, heap.next) ∉ guard.index) :
    let left := leftHalf (heap.cells oldNode) value
    let right := rightHalf (heap.cells oldNode) value
    ∃ after, commitSplit noIdentityAdoption guard heap oldNode oldMax value =
        some ⟨left.oldValue.or right.oldValue, splitEvents (heap.cells oldNode) value, after,
          ((heap.write oldNode left.values).alloc right.values).2⟩ ∧
      after.Consistent ∧
      after.index = link (link (guard.index.erase oldMax) oldNode (Node.maxKey left.values)) heap.next (Node.maxKey right.values) ∧
      Node.Upserted (heap.cells oldNode) value (left.values ++ right.values) ∧ right.values ≠ [] ∧
      Half.Found (heap.cells oldNode) (key value) (left.oldValue.or right.oldValue) := by
  intro left right
  obtain ⟨maxValue, max, whole, rightMax, result⟩ := commitSplit_some noIdentityAdoption guard value linked filled
  obtain ⟨stored, rightFilled, leftKey, rightKey, found⟩ := split_halves sorted value rightMax
  have rightEq : right = (moveRight noIdentityAdoption (keepLeft noIdentityAdoption (Node.halve (heap.cells oldNode)).1 value).2
      (Node.halve (heap.cells oldNode)).2 max value).1 := by simp [right, rightHalf, rightMax]
  obtain ⟨consistent, _, _, index⟩ := split_guard valid publishing linked fresh (Node.halve (heap.cells oldNode)).1
    (moveRight noIdentityAdoption (keepLeft noIdentityAdoption (Node.halve (heap.cells oldNode)).1 value).2
      (Node.halve (heap.cells oldNode)).2 max value).2
  refine ⟨_, ?_, consistent, ?_, rightEq ▸ stored, rightEq ▸ rightFilled, rightEq ▸ found⟩
  · rw [result]
    simp only [splitEvents, whole, ← rightEq]
    rfl
  · rw [index, rightEq, rightKey, show Node.maxKey left.values = _ from leftKey]
    rfl

theorem rekey_guard {guard : TopologyWriteGuard κ} (valid : guard.Consistent) (optOut : guard.publish = false)
    (clean : guard.dirty = false) {node : NodeId} {oldMax : κ} (linked : guard.index.get? oldMax = some node) (newMax : κ) :
    (rekey guard node oldMax newMax).Consistent ∧
      (rekey guard node oldMax newMax).index = (guard.index.erase oldMax).insert newMax node := by
  by_cases same : newMax = oldMax
  · rw [rekey, if_pos same]
    refine ⟨valid, ?_⟩
    rw [same, erase_insert_self (get?_eq_some.mp linked)]
  · rw [rekey, if_neg same]
    split
    next allowed =>
      obtain ⟨_, moved, consistent⟩ := TopologyWriteGuard.rekeyLastNode_spec valid optOut clean linked allowed
      exact ⟨consistent, moved⟩
    next =>
      obtain ⟨kept, publishing, enabled, _⟩ := TopologyWriteGuard.enablePublication_spec valid fun _ => clean
      obtain ⟨_, erased, removedPublish, removed, _⟩ := TopologyWriteGuard.remove_spec enabled publishing oldMax
      obtain ⟨_, inserted, _, consistent, _⟩ := TopologyWriteGuard.insert_spec removed removedPublish newMax node
        (by rw [erased, kept]; exact unlinked_after_remove valid.publishes.once linked)
      exact ⟨consistent, by rw [inserted, erased, kept]⟩

end Operation
end WorkTablesIndex
