import WorkTablesIndex.Boundaries
import WorkTablesIndex.CheckpointCapacity

/-! The node capacity under concurrency. A split may find its node shorter than when it was
scheduled, but never so long that a half, with the value riding on the split, outgrows a
capacity of two or more; so no interleaving makes a node longer than a checkpoint may be. -/

universe u v

namespace WorkTablesIndex
open Relation SortedMap

variable {α : Type u} {κ : Type v} [LinearOrder κ] [Keyed α κ] {nodeCapacity : Nat}

theorem Operation.leftHalf_length {values : List α} (sorted : Node.Sorted values) (value : α) :
    (leftHalf values value).values.length ≤ values.length / 2 + 1 := by
  obtain ⟨leftSorted, _, _⟩ := Node.sorted_append.mp ((Node.halve_append values).symm ▸ sorted)
  have left : (Node.halve values).1.length ≤ values.length / 2 := by
    simp only [Node.halve, List.length_take]
    exact Nat.min_le_left ..
  simp only [leftHalf, keepLeft]
  split
  next => exact left.trans (Nat.le_succ _)
  next max _ =>
    split
    next => exact (Half.put_length leftSorted max value).trans (Nat.succ_le_succ left)
    next => exact left.trans (Nat.le_succ _)

theorem Operation.rightHalf_length {values : List α} (sorted : Node.Sorted values) (value : α) :
    (rightHalf values value).values.length ≤ values.length - values.length / 2 + 1 := by
  obtain ⟨_, rightSorted, _⟩ := Node.sorted_append.mp ((Node.halve_append values).symm ▸ sorted)
  have right : (Node.halve values).2.length = values.length - values.length / 2 := by
    simp only [Node.halve, List.length_drop]
  rw [← right]
  simp only [rightHalf]
  split
  next => exact Nat.zero_le _
  next max _ =>
    simp only [moveRight]
    split
    next => exact Nat.le_succ _
    next => exact Half.put_length rightSorted max value

theorem Layout.Bounded.trim {before after : Layout α κ} (bounded : before.Bounded nodeCapacity) (trim : Trim before after) :
    after.Bounded nodeCapacity := by
  cases trim with
  | erase entry => exact bounded
  | drain node values unlinked fewer => exact bounded.write node (fewer.length_le.trans (bounded node))
  | shrink entry node values linked fewer filled same => exact bounded.write node (fewer.length_le.trans (bounded node))
  | cut entry new node values linked fewer greatest => exact bounded.write node (fewer.length_le.trans (bounded node))

namespace BTreeSet
variable {set after : BTreeSet α κ}

structure Fits (nodeCapacity : Nat) (set : BTreeSet α κ) : Prop where
  capacity : set.nodeCapacity = nodeCapacity
  bounded : set.layout.Bounded nodeCapacity

omit [Keyed α κ] in
theorem Fits.rewrite (fits : Fits nodeCapacity set) {node : NodeId} {values : List α} (same : after.nodeCapacity = set.nodeCapacity)
    (changed : after.layout = set.layout.rewrite node values) (short : values.length ≤ nodeCapacity) : Fits nodeCapacity after :=
  ⟨same.trans fits.capacity, changed ▸ fits.bounded.write node short⟩

theorem Fits.putNode (fits : Fits nodeCapacity set) (valid : set.Valid) (emitCdc : Bool) (value : α) :
    Fits nodeCapacity (putNode emitCdc value set).2 := by
  rcases putNode_cases valid emitCdc value with ⟨_, result⟩ | ⟨entry, node, _, _, found⟩
  · rw [result]
    exact fits
  · have grown {position : Nat} (room : (set.heap.cells node).length < set.nodeCapacity)
        (gap : Node.Gap (set.heap.cells node) value position) :
        ((set.heap.cells node).insertIdx position value).length ≤ nodeCapacity := by
      rw [List.length_insertIdx_of_le_length gap.inside]
      exact fits.capacity ▸ room
    generalize BTreeSet.putNode emitCdc value set = outcome at found
    cases found with
    | full => exact fits
    | inner oldMax position room gap =>
      exact fits.rewrite (emit_nodeCapacity ..) (insertAt_layout ..) (grown room gap)
    | grows oldMax position room gap =>
      exact fits.rewrite (emit_nodeCapacity ..) (insertAt_layout ..) (grown room gap)
    | occupied => exact fits

omit [Keyed α κ] in
theorem Fits.replaceNode (fits : Fits nodeCapacity set) (emitCdc : Bool) (value : α) (node : NodeId) (position : Nat) :
    Fits nodeCapacity (replaceNode noIdentityAdoption emitCdc value node position set).2 := by
  cases there : (set.heap.cells node)[position]? with
  | none =>
    have result : (BTreeSet.replaceNode noIdentityAdoption emitCdc value node position set).2 = set := by
      simp only [BTreeSet.replaceNode, Node.getIth, there]
    rw [result]
    exact fits
  | some old =>
    refine fits.rewrite ?_ (replaceNode_layout emitCdc value there) ?_
    · rw [replaceNode_eq noIdentityAdoption emitCdc value there]
      exact emit_nodeCapacity ..
    · rw [List.length_set]
      exact fits.bounded node

theorem Fits.createRoot (fits : Fits nodeCapacity set) (valid : set.Valid) (positive : 1 ≤ nodeCapacity) (emitCdc : Bool)
    (value : α) : Fits nodeCapacity (createRoot emitCdc value set).2 := by
  rcases createRoot_cases valid emitCdc value with ⟨_, after, result, _, rooted, same, _⟩ | ⟨_, result⟩
  · rw [result]
    refine ⟨same.trans fits.capacity, rooted ▸ fun other => ?_⟩
    by_cases here : other = set.heap.next
    · subst here
      simpa [Layout.root, BTreeSet.layout] using positive
    · have away : ((set.heap.alloc [value]).2.cells other) = set.heap.cells other := Heap.alloc_other _ _ here
      exact away ▸ fits.bounded other
  · rw [result]
    exact ⟨fits.capacity, fits.bounded⟩

theorem Fits.commitOperation (fits : Fits nodeCapacity set) (valid : set.Valid) (many : 2 ≤ nodeCapacity) (emitCdc : Bool)
    (operation : Operation α κ) : Fits nodeCapacity (commitOperation noIdentityAdoption emitCdc operation set).2 := by
  cases operation with
  | split node old value =>
    by_cases linked : (old, node) ∈ set.index.index
    · obtain ⟨after, result, _, divided, same, _⟩ := commitOperation_split_some valid emitCdc value linked
      rw [result]
      refine ⟨same.trans fits.capacity, divided ▸ fun other => ?_⟩
      have sorted : Node.Sorted (set.heap.cells node) := valid.sound.sorted node
      have short : (set.heap.cells node).length ≤ nodeCapacity := fits.bounded node
      have left := Operation.leftHalf_length sorted value
      have right := Operation.rightHalf_length sorted value
      rw [Layout.split_cells]
      split
      next => omega
      next =>
        split
        next => omega
        next => exact fits.bounded other
    · rw [commitOperation_split_none set emitCdc node old value (Or.inl fun found => linked (get?_eq_some.mp found))]
      exact ⟨fits.capacity, fits.bounded⟩
  | updateMax node old =>
    by_cases linked : (old, node) ∈ set.index.index
    · obtain ⟨new, greatest⟩ := Node.maxKey_isSome (κ := κ) (valid.sound.filled old node linked)
      obtain ⟨after, result, _, rekeyed, same, _⟩ := commitOperation_updateMax_some valid emitCdc linked greatest
      rw [result]
      exact ⟨same.trans fits.capacity, rekeyed ▸ fits.bounded⟩
    · rw [commitOperation_updateMax_none set emitCdc node old (Or.inl fun found => linked (get?_eq_some.mp found))]
      exact ⟨fits.capacity, fits.bounded⟩

theorem Fits.removeNode (fits : Fits nodeCapacity set) (valid : set.Valid) (emitCdc : Bool) (wanted : κ) :
    Fits nodeCapacity (removeNode id emitCdc wanted set).2 := by
  rcases removeNode_cases valid emitCdc wanted with ⟨_, result⟩ | ⟨entry, node, _, _, found⟩
  · rw [result]
    exact fits
  · have fewer (position : Nat) : ((set.heap.cells node).eraseIdx position).length ≤ nodeCapacity :=
      (List.length_eraseIdx_le ..).trans (fits.bounded node)
    generalize BTreeSet.removeNode id emitCdc wanted set = outcome at found
    cases found with
    | absent => exact fits
    | singleton => exact fits
    | inner deleted oldMax position => exact fits.rewrite (emit_nodeCapacity ..) (deleteAt_layout ..) (fewer position)
    | shrinks deleted oldMax position => exact fits.rewrite (emit_nodeCapacity ..) (deleteAt_layout ..) (fewer position)

theorem Fits.unlinkNode (fits : Fits nodeCapacity set) (valid : set.Valid) (emitCdc : Bool) (wanted : κ) :
    Fits nodeCapacity (unlinkNode id emitCdc wanted set).2 := by
  rcases unlinkNode_cases valid emitCdc wanted with ⟨_, result⟩ | ⟨_, _, _, _, _, result⟩ |
    ⟨entry, node, _, after, _, _, _, _, result, _, unlinked, same, _⟩
  · rw [result]
    exact ⟨fits.capacity, fits.bounded⟩
  · rw [result]
    exact ⟨fits.capacity, fits.bounded⟩
  · rw [result]
    exact ⟨same.trans fits.capacity, unlinked ▸ fits.bounded.write node (Nat.zero_le _)⟩

theorem Fits.removeRange (fits : Fits nodeCapacity set) (valid : set.Valid) (start last : Bound κ) :
    Fits nodeCapacity (removeRange id start last set) := by
  refine ⟨(removeRange_nodeCapacity ..).trans fits.capacity, ?_⟩
  obtain ⟨_, trims⟩ := removeRange_trims valid id start last
  generalize (BTreeSet.removeRange id start last set).layout = final at trims
  induction trims with
  | refl => exact fits.bounded
  | tail _ trim ih => exact ih.trim trim

end BTreeSet

namespace Machine
variable {machine : Machine α κ}

theorem advance_fits (fits : machine.set.Fits nodeCapacity) (valid : machine.set.Valid) (many : 2 ≤ nodeCapacity)
    (thread : ThreadId) (call : CallId) (phase : Phase α κ) : (machine.advance thread call phase).set.Fits nodeCapacity := by
  have positive : 1 ≤ nodeCapacity := Nat.le_of_succ_le many
  cases phase with
  | put value checked emitCdc =>
    have put := fits.putNode valid emitCdc value
    simp only [advance]
    split
    next same =>
      rw [same] at put
      exact put
    next same =>
      rw [same] at put
      exact put
    next node position set same =>
      rw [same] at put
      have kept : set.Fits nodeCapacity := put
      split
      next => exact kept
      next => exact kept.replaceNode emitCdc value node position
    next same =>
      rw [same] at put
      exact put
    next same =>
      rw [same] at put
      exact put
  | root value checked emitCdc =>
    have rooted := fits.createRoot valid positive emitCdc value
    simp only [advance]
    split <;> (next same => rw [same] at rooted; exact rooted)
  | commitSplit node old value checked emitCdc cdc =>
    have committed := fits.commitOperation valid many emitCdc (.split node old value)
    simp only [advance]
    split <;> (next same => rw [same] at committed; exact committed)
  | commitMax node old emitCdc cdc =>
    have committed := fits.commitOperation valid many emitCdc (.updateMax node old)
    simp only [advance]
    split <;> (next same => rw [same] at committed; exact committed)
  | remove wanted emitCdc =>
    have removed := fits.removeNode valid emitCdc wanted
    simp only [advance]
    split <;> (next same => rw [same] at removed; exact removed)
  | unlink wanted emitCdc =>
    have unlinked := fits.unlinkNode valid emitCdc wanted
    simp only [advance]
    split <;> (next same => rw [same] at unlinked; exact unlinked)
  | repair node old deleted cdc => exact fits.commitOperation valid many false (.updateMax node old)
  | removeRange start last => exact fits.removeRange valid start last

omit [Keyed α κ] in
theorem start_fits (nodeCapacity : Nat) : (start nodeCapacity : Machine α κ).set.Fits nodeCapacity :=
  ⟨rfl, fun _ => Nat.zero_le _⟩

/-- In every interleaving, stale splits included. -/
theorem Reached.fits {permits : Machine α κ → Action α κ → Prop} (many : 2 ≤ nodeCapacity)
    (reached : Reached permits nodeCapacity machine) : machine.set.Fits nodeCapacity := by
  induction reached with
  | start => exact start_fits nodeCapacity
  | step earlier action allowed taken ih =>
    rcases step_cases earlier.sound.valid taken with ⟨_, _, _, _, rfl⟩ | ⟨thread, call, phase, rfl, running, _⟩
    · exact ih
    · simp only [Machine.step, running, Option.some.injEq] at taken
      exact taken ▸ advance_fits ih earlier.sound.valid many thread call phase

end Machine
end WorkTablesIndex
