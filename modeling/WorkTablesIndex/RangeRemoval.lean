import Mathlib.Logic.Relation
import WorkTablesIndex.Sections

/-! Range removal as a sequence of trims. Whatever state the index is in, the
section only drops entries, drains nodes that are no longer linked, and shrinks
linked ones, re-keying a node that loses its maximum. -/

universe u v w

namespace WorkTablesIndex
open Relation SortedMap

variable {α : Type u} {κ : Type v} {Q : Type w} [LinearOrder κ] [Keyed α κ]

namespace Layout

inductive Trim : Layout α κ → Layout α κ → Prop where
  | erase (layout : Layout α κ) (entry : κ) : Trim layout ⟨layout.index.erase entry, layout.heap⟩
  | drain (layout : Layout α κ) (node : NodeId) (values : List α) (unlinked : ∀ entry, (entry, node) ∉ layout.index)
      (fewer : values.Sublist (layout.heap.cells node)) : Trim layout (layout.rewrite node values)
  | shrink (layout : Layout α κ) (entry : κ) (node : NodeId) (values : List α) (linked : (entry, node) ∈ layout.index)
      (fewer : values.Sublist (layout.heap.cells node)) (filled : values ≠ [])
      (same : Node.maxKey values = Node.maxKey (layout.heap.cells node)) : Trim layout (layout.rewrite node values)
  | cut (layout : Layout α κ) (entry new : κ) (node : NodeId) (values : List α) (linked : (entry, node) ∈ layout.index)
      (fewer : values.Sublist (layout.heap.cells node)) (greatest : Node.maxKey values = some new) :
      Trim layout ((layout.rewrite node values).rekey node entry new)

variable {before after : Layout α κ}

theorem Trim.sound (trim : Trim before after) (sound : Sound before) : Sound after := by
  cases trim with
  | erase entry =>
    refine ⟨sound.once.erase entry, sound.allocated.erase entry, sound.sorted, fun other node member => ?_⟩
    exact sound.filled other node ((mem_erase ..).mp member).2
  | drain node values unlinked fewer =>
    refine ⟨sound.once, sound.allocated, fun other => ?_, fun entry other member => ?_⟩
    · by_cases here : other = node
      · subst here
        simpa [rewrite] using (sound.sorted other).sublist fewer
      · simpa [rewrite, Heap.write_other _ _ here] using sound.sorted other
    · have here : other ≠ node := fun same => unlinked entry (same ▸ member)
      simpa [rewrite, Heap.write_other _ _ here] using sound.filled entry other member
  | shrink entry node values linked fewer filled same => exact sound.rewrite ((sound.sorted node).sublist fewer) filled
  | cut entry new node values linked fewer greatest =>
    exact (sound.rewrite ((sound.sorted node).sublist fewer) (Node.ne_nil_of_maxKey greatest)).rekey linked new

theorem trims_sound (trims : ReflTransGen Trim before after) (sound : Sound before) : Sound after := by
  induction trims with
  | refl => exact sound
  | tail _ trim ih => exact trim.sound ih

omit [Keyed α κ] in
private theorem unlinked_erase {index : NodeIndex κ} {entry : κ} {node : NodeId}
    (only : ∀ other, (other, node) ∈ index → other = entry) : ∀ other, (other, node) ∉ index.erase entry := by
  intro other member
  obtain ⟨different, present⟩ := (mem_erase ..).mp member
  exact different (only other present)

end Layout

namespace BTreeSet
variable {set : BTreeSet α κ}

/-- An open guard whose index and heap were trimmed from the given layout. -/
private structure Trimmed (layout : Layout α κ) (guard : TopologyWriteGuard κ) (heap : Heap α) : Prop where
  consistent : guard.Consistent
  publishing : guard.publish = true
  trims : ReflTransGen Layout.Trim layout ⟨guard.index, heap⟩

private theorem Trimmed.remove {layout : Layout α κ} {guard : TopologyWriteGuard κ} {heap : Heap α}
    (trimmed : Trimmed layout guard heap) (entry : κ) : Trimmed layout (guard.remove entry).2 heap := by
  obtain ⟨_, index, publishing, consistent, _⟩ := TopologyWriteGuard.remove_spec trimmed.consistent trimmed.publishing entry
  refine ⟨consistent, publishing, trimmed.trims.tail ?_⟩
  rw [index]
  exact .erase _ entry

private theorem Trimmed.rewrite {layout : Layout α κ} {guard : TopologyWriteGuard κ} {heap : Heap α}
    (trimmed : Trimmed layout guard heap) {node : NodeId} {values : List α}
    (trim : Layout.Trim ⟨guard.index, heap⟩ (Layout.rewrite ⟨guard.index, heap⟩ node values)) :
    Trimmed layout guard (heap.write node values) :=
  ⟨trimmed.consistent, trimmed.publishing, trimmed.trims.tail trim⟩

private theorem Trimmed.unlink {layout : Layout α κ} {guard : TopologyWriteGuard κ} {heap : Heap α}
    (trimmed : Trimmed layout guard heap) (entry : κ) (node : NodeId)
    (only : ∀ other, (other, node) ∈ guard.index → other = entry) :
    Trimmed layout (guard.remove entry).2 (heap.write node []) := by
  have removed := trimmed.remove entry
  have index := (TopologyWriteGuard.remove_spec trimmed.consistent trimmed.publishing entry).2.1
  refine removed.rewrite (.drain _ node [] (fun other => ?_) (List.nil_sublist _))
  rw [index]
  exact Layout.unlinked_erase only other

private theorem Trimmed.removeMiddle {layout : Layout α κ} (sound : layout.Sound) :
    ∀ (middle : List (κ × NodeId)) {guard : TopologyWriteGuard κ} {heap : Heap α}, Trimmed layout guard heap →
      (∀ entry ∈ middle, entry ∈ guard.index) → middle.Pairwise (fun first second => first.1 < second.1) →
      let after := BTreeSet.removeMiddle middle guard heap
      Trimmed layout after.1 after.2 ∧
        ∀ entry, entry ∈ after.1.index ↔ entry ∈ guard.index ∧ ∀ other ∈ middle, entry.1 ≠ other.1 := by
  intro middle
  induction middle with
  | nil =>
    intro guard heap trimmed _ _
    exact ⟨trimmed, fun entry => by simp [BTreeSet.removeMiddle]⟩
  | cons head rest ih =>
    intro guard heap trimmed present ascending
    obtain ⟨entry, node⟩ := head
    obtain ⟨below, ordered⟩ := List.pairwise_cons.mp ascending
    have current := Layout.trims_sound trimmed.trims sound
    have linked : (entry, node) ∈ guard.index := present _ List.mem_cons_self
    have index := (TopologyWriteGuard.remove_spec trimmed.consistent trimmed.publishing entry).2.1
    have next := trimmed.unlink entry node fun other member =>
      current.once other entry node member linked
    obtain ⟨final, remaining⟩ := ih next (fun other member => by
      rw [index]
      exact (mem_erase ..).mpr ⟨(below other member).ne', present other (List.mem_cons_of_mem _ member)⟩) ordered
    refine ⟨final, fun other => ?_⟩
    apply (remaining other).trans
    rw [index, mem_erase, List.forall_mem_cons]
    constructor
    · exact fun both => ⟨both.1.2, both.1.1, both.2⟩
    · exact fun both => ⟨⟨both.2.1, both.1⟩, both.2.2⟩

/-- Cutting a node at its end: re-key it to its new maximum, or unlink it when
drained. Entries of other nodes can only disappear. -/
private theorem Trimmed.cut {layout : Layout α κ} (sound : layout.Sound) {guard : TopologyWriteGuard κ} {heap : Heap α}
    (trimmed : Trimmed layout guard heap) {entry : κ} {node : NodeId} (linked : (entry, node) ∈ guard.index)
    {values : List α} (fewer : values.Sublist (heap.cells node)) :
    let after := match Node.max values with
      | some newMax => ((guard.remove entry).2.insert (key newMax) node).2
      | none => (guard.remove entry).2
    Trimmed layout after (heap.write node values) ∧
      ∀ other target, (other, target) ∈ after.index → target ≠ node → (other, target) ∈ guard.index := by
  have current := Layout.trims_sound trimmed.trims sound
  have only : ∀ other, (other, node) ∈ guard.index → other = entry :=
    fun other member => current.once other entry node member linked
  obtain ⟨_, erased, publishing, removed, _⟩ := TopologyWriteGuard.remove_spec trimmed.consistent trimmed.publishing entry
  cases greatest : Node.max values with
  | none =>
    rw [Node.max_eq_none.mp greatest]
    refine ⟨trimmed.unlink entry node only, fun other target member _ => ?_⟩
    simp only at member
    rw [erased] at member
    exact ((mem_erase ..).mp member).2
  | some newMax =>
    obtain ⟨_, index, inserted, consistent, _⟩ := TopologyWriteGuard.insert_spec removed publishing (key newMax) node (by
      rw [erased]
      exact Layout.unlinked_erase only)
    refine ⟨⟨consistent, inserted, trimmed.trims.tail ?_⟩, fun other target member away => ?_⟩
    · have changed : (⟨((guard.remove entry).2.insert (key newMax) node).2.index, heap.write node values⟩ : Layout α κ) =
          (Layout.rewrite ⟨guard.index, heap⟩ node values).rekey node entry (key newMax) := by
        rw [index, erased]
        rfl
      rw [changed]
      exact .cut _ entry (key newMax) node values linked fewer (by simp [Node.maxKey, greatest])
    · simp only at member
      rw [index, erased] at member
      rcases (mem_insert ..).mp member with same | ⟨_, kept⟩
      · exact absurd (Prod.mk.inj same).2 away
      · exact ((mem_erase ..).mp kept).2

omit [LinearOrder κ] in
private theorem maxKey_append_drop (kept values : List α) {position : Nat} (inside : position < values.length) :
    kept ++ values.drop position ≠ [] ∧ Node.maxKey (kept ++ values.drop position) = Node.maxKey values := by
  have filled : values.drop position ≠ [] := by
    rw [ne_eq, List.drop_eq_nil_iff]
    omega
  refine ⟨by simp [filled], ?_⟩
  simp only [Node.maxKey, Node.max]
  rw [List.getLast?_append_of_ne_nil _ filled, List.getLast?_drop, if_neg (by omega)]

omit [LinearOrder κ] [Keyed α κ] in
private theorem take_drop_sublist (values : List α) {first second : Nat} (ordered : first ≤ second) :
    (values.take first ++ values.drop second).Sublist values := by
  conv_rhs => rw [← List.take_append_drop first values]
  exact List.Sublist.append_left (List.drop_sublist_drop_left values ordered) _

omit [LinearOrder κ] in
private theorem removedPrefixLen_le [LinearOrder Q] (borrow : κ → Q) (values : List α) (last : Bound Q) :
    removedPrefixLen borrow values last ≤ values.length := by
  cases last with
  | included value =>
    rw [removedPrefixLen, Node.rank_excluded_start]
    exact Slice.partitionPoint_le
  | excluded value =>
    rw [removedPrefixLen, Node.rank_included_start]
    exact Slice.partitionPoint_le
  | unbounded => exact le_rfl

private theorem Trimmed.dropPrefix {layout : Layout α κ} {guard : TopologyWriteGuard κ} {heap : Heap α}
    (trimmed : Trimmed layout guard heap) {node : NodeId} {position : Nat} (inside : position < (heap.cells node).length) :
    Trimmed layout guard (heap.write node ((heap.cells node).drop position)) := by
  by_cases linked : ∃ entry, (entry, node) ∈ guard.index
  · obtain ⟨entry, member⟩ := linked
    obtain ⟨filled, same⟩ := maxKey_append_drop [] (heap.cells node) inside
    exact trimmed.rewrite (.shrink _ entry node _ member (List.drop_sublist ..) filled same)
  · exact trimmed.rewrite (.drain _ node _ (fun entry member => linked ⟨entry, member⟩) (List.drop_sublist ..))

private theorem Trimmed.finish (valid : Valid set) {guard : TopologyWriteGuard κ} {heap : Heap α}
    (trimmed : Trimmed set.layout guard heap) :
    Valid { set with index := guard.drop, heap } ∧
      ReflTransGen Layout.Trim set.layout ({ set with index := guard.drop, heap } : BTreeSet α κ).layout := by
  obtain ⟨after, layout⟩ := valid_drop set trimmed.consistent (Layout.trims_sound trimmed.trims valid.sound)
  exact ⟨after, layout ▸ trimmed.trims⟩

variable [LinearOrder Q]

omit [LinearOrder κ] [Keyed α κ] in
private theorem nodeForBorrowedEndLoop_mem {borrow : κ → Q} {last : Q} {entry : κ × NodeId} :
    ∀ (entries : List (κ × NodeId)) (lastEqual : Option (κ × NodeId)),
      nodeForBorrowedEndLoop borrow last entries lastEqual = some entry → entry ∈ entries ∨ lastEqual = some entry := by
  intro entries
  induction entries with
  | nil => exact fun lastEqual found => Or.inr found
  | cons head rest ih =>
    intro lastEqual found
    simp only [nodeForBorrowedEndLoop] at found
    split at found
    next => exact (ih _ found).imp (List.mem_cons_of_mem _) id
    next =>
      rcases ih _ found with later | same
      · exact Or.inl (List.mem_cons_of_mem _ later)
      · exact Or.inl (Option.some.inj same ▸ List.mem_cons_self)
    next => exact Or.inl (Option.some.inj found ▸ List.mem_cons_self)

omit [Keyed α κ] in
theorem nodeForBorrowedEnd_mem {borrow : κ → Q} {index : NodeIndex κ} {last : Q} {borrowOrderMatches : Bool} {entry : κ × NodeId}
    (found : nodeForBorrowedEnd borrow index last borrowOrderMatches = some entry) : entry ∈ index := by
  have fallback {first : Option (κ × NodeId)} (inside : ∀ entry, first = some entry → entry ∈ index)
      (found : first.or index.last? = some entry) : entry ∈ index := by
    cases first with
    | some other => exact inside entry found
    | none => exact (last?_eq_some.mp found).1
  unfold nodeForBorrowedEnd at found
  split at found
  next => exact fallback (fun _ first => (find?_eq_some.mp first).1) found
  next =>
    refine fallback (fun other first => ?_) found
    exact (nodeForBorrowedEndLoop_mem _ _ first).resolve_right (by simp)

/-- The section keeps the set valid and only trims its layout. -/
theorem removeRange_trims (valid : Valid set) (borrow : κ → Q) (start last : Bound Q) :
    Valid (removeRange borrow start last set) ∧
      ReflTransGen Layout.Trim set.layout (removeRange borrow start last set).layout := by
  obtain ⟨consistent, publishing⟩ := consistent_write valid.publishes
  have opened : Trimmed set.layout set.index.write set.heap := ⟨consistent, publishing, .refl⟩
  have unchanged := opened.finish valid
  simp only [removeRange]
  split
  next => exact unchanged
  next frontKey frontNode front =>
    have frontLinked : (frontKey, frontNode) ∈ set.index.write.index := (find?_eq_some.mp front).1
    split
    next => exact unchanged
    next backKey backNode back =>
      split
      next => exact unchanged
      next ordered =>
        split
        next =>
          split
          next => exact unchanged
          next nonempty =>
            have fewer := take_drop_sublist (set.heap.cells frontNode) (le_of_lt (not_le.mp nonempty))
            split
            next => exact (opened.cut valid.sound frontLinked fewer).1.finish valid
            next partial_ =>
              have inside := lt_of_le_of_ne (removedPrefixLen_le borrow (set.heap.cells frontNode) last) partial_
              obtain ⟨filled, same⟩ := maxKey_append_drop
                ((set.heap.cells frontNode).take (((Node.rank borrow (set.heap.cells frontNode) start true).map (· + 1)).getD 0))
                (set.heap.cells frontNode) inside
              exact (opened.rewrite (.shrink _ frontKey frontNode _ frontLinked fewer filled same)).finish valid
        next apart =>
          -- the nodes strictly between go first, so the front entry is still there to be cut
          let middle := set.index.write.index.entries.filter fun entry => decide (frontKey < entry.1 ∧ entry.1 < backKey)
          have members : ∀ entry ∈ middle, entry ∈ set.index.write.index := fun entry member => (List.mem_filter.mp member).1
          have ascending := List.Pairwise.filter (fun entry => decide (frontKey < entry.1 ∧ entry.1 < backKey))
            set.index.write.index.sorted
          obtain ⟨swept, remaining⟩ := opened.removeMiddle valid.sound middle members ascending
          have frontStill := (remaining (frontKey, frontNode)).mpr ⟨frontLinked, fun other member same => by
            have inside := (List.mem_filter.mp member).2
            simp only [decide_eq_true_eq] at inside
            exact inside.1.ne same⟩
          obtain ⟨cut, others⟩ := swept.cut valid.sound frontStill (List.take_sublist
            (((Node.rank borrow (set.heap.cells frontNode) start true).map (· + 1)).getD 0) _)
          have backLinked : (backKey, backNode) ∈ set.index.write.index := by
            cases last with
            | included value => exact nodeForBorrowedEnd_mem back
            | excluded value => exact nodeForBorrowedEnd_mem back
            | unbounded => exact (last?_eq_some.mp back).1
          have backOnly : ∀ other, (other, backNode) ∈ _ → other = backKey := fun other member =>
            valid.sound.once other backKey backNode ((remaining _).mp (others other backNode member (Ne.symm apart))).1 backLinked
          split
          next => exact (cut.unlink backKey backNode backOnly).finish valid
          next inside => exact (cut.dropPrefix (not_le.mp inside)).finish valid

theorem removeRange_nodeCapacity (borrow : κ → Q) (start last : Bound Q) (set : BTreeSet α κ) :
    (removeRange borrow start last set).nodeCapacity = set.nodeCapacity := by
  simp only [removeRange]
  repeat' split
  all_goals rfl

end BTreeSet
end WorkTablesIndex
