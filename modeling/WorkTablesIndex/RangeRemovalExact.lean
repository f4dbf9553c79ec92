import WorkTablesIndex.RangeExact

/-! Range removal on a set between two calls. Every linked node keeps the values outside the
bounds, and is unlinked when it keeps none. -/

universe u v w

namespace WorkTablesIndex
open Relation SortedMap

variable {α : Type u} {κ : Type v} {Q : Type w} [LinearOrder κ] [Keyed α κ] [LinearOrder Q]

def Range.spares (borrow : κ → Q) (start last : Bound Q) (item : α) : Bool :=
  !(start.admits borrow (key item) && last.permits borrow (key item))

namespace Layout
variable {before after : Layout α κ} {node : NodeId} {entry : κ} {spares : α → Bool}

/-- Every node keeps the values that are spared, and stays linked as long as there are any. -/
structure Sieved (spares : α → Bool) (before after : Layout α κ) : Prop where
  cells : ∀ entry node, (entry, node) ∈ before.index → after.heap.cells node = (before.heap.cells node).filter spares
  linked : ∀ entry node, (entry, node) ∈ before.index → after.heap.cells node ≠ [] → ∃ other, (other, node) ∈ after.index

theorem Trim.linked_before (trim : Trim before after) (member : (entry, node) ∈ after.index) : ∃ old, (old, node) ∈ before.index := by
  cases trim with
  | erase gone => exact ⟨entry, ((mem_erase ..).mp member).2⟩
  | drain target values unlinked fewer => exact ⟨entry, member⟩
  | shrink other target values linked fewer filled same => exact ⟨entry, member⟩
  | cut other new target values linked fewer greatest =>
    rcases mem_rekey member with ⟨rfl, rfl⟩ | ⟨_, kept⟩
    · exact ⟨other, linked⟩
    · exact ⟨entry, kept⟩

theorem trims_linked_before (trims : ReflTransGen Trim before after) :
    ∀ {entry : κ} {node : NodeId}, (entry, node) ∈ after.index → ∃ old, (old, node) ∈ before.index := by
  induction trims with
  | refl => exact fun member => ⟨_, member⟩
  | tail _ trim ih =>
    intro entry node member
    obtain ⟨middle, there⟩ := trim.linked_before member
    exact ih there

theorem Sieved.stored (sieved : Sieved spares before after) (trims : ReflTransGen Trim before after) (item : α) :
    after.Stored item ↔ before.Stored item ∧ spares item = true := by
  constructor
  · intro given
    obtain ⟨entry, node, member, held⟩ := given
    obtain ⟨old, linked⟩ := trims_linked_before trims member
    rw [sieved.cells old node linked, List.mem_filter] at held
    exact ⟨⟨old, node, linked, held.1⟩, held.2⟩
  · intro given
    obtain ⟨⟨old, node, linked, held⟩, spared⟩ := given
    have kept : item ∈ after.heap.cells node := by
      rw [sieved.cells old node linked, List.mem_filter]
      exact ⟨held, spared⟩
    obtain ⟨entry, member⟩ := sieved.linked old node linked (List.ne_nil_of_mem kept)
    exact ⟨entry, node, member, kept⟩

omit [Keyed α κ] in
theorem Sieved.unchanged (all : ∀ item, before.Stored item → spares item = true) : Sieved spares before before := by
  refine ⟨fun entry node member => ?_, fun entry node member _ => ⟨entry, member⟩⟩
  rw [eq_comm, List.filter_eq_self]
  exact fun item held => all item ⟨entry, node, member, held⟩

end Layout

private def relink (index : NodeIndex κ) (entry : κ) (node : NodeId) (values : List α) : NodeIndex κ :=
  match Node.max values with
  | some newMax => (index.erase entry).insert (key newMax) node
  | none => index.erase entry

private theorem relink_keeps {index : NodeIndex κ} {entry : κ} (node : NodeId) {values : List α}
    (apart : ∀ item ∈ values, ∀ other ∈ index, other.1 ≠ entry → other.1 ≠ key item) :
    (∀ other ∈ index, other.1 ≠ entry → other ∈ relink index entry node values) ∧
      (values ≠ [] → ∃ item ∈ values, (key item, node) ∈ relink index entry node values) := by
  unfold relink
  cases greatest : Node.max values with
  | none =>
    refine ⟨fun other member different => (mem_erase ..).mpr ⟨different, member⟩, fun filled => ?_⟩
    exact absurd (Node.max_eq_none.mp greatest) filled
  | some newMax =>
    have present : newMax ∈ values := List.mem_of_getLast? greatest
    refine ⟨fun other member different => ?_, fun _ => ⟨newMax, present, (mem_insert ..).mpr (Or.inl rfl)⟩⟩
    exact (mem_insert ..).mpr (Or.inr ⟨apart newMax present other member different, (mem_erase ..).mpr ⟨different, member⟩⟩)

private theorem relink_index (guard : TopologyWriteGuard κ) (entry : κ) (node : NodeId) (values : List α) :
    (match Node.max values with
      | some newMax => ((guard.remove entry).2.insert (key newMax) node).2
      | none => (guard.remove entry).2).index = relink guard.index entry node values := by
  unfold relink
  cases Node.max values with
  | none => exact TopologyWriteGuard.remove_index guard entry
  | some newMax => simp only [TopologyWriteGuard.insert_index, TopologyWriteGuard.remove_index]

private theorem Layout.Sieved.relinked {spares : α → Bool} {before : Layout α κ} {guard : TopologyWriteGuard κ} {entry : κ}
    {node : NodeId} {values : List α} {heap : Heap α} (sieved : Sieved spares before ⟨relink guard.index entry node values, heap⟩) :
    Sieved spares before ⟨(match Node.max values with
      | some newMax => ((guard.remove entry).2.insert (key newMax) node).2
      | none => (guard.remove entry).2).index, heap⟩ := by
  rw [relink_index]
  exact sieved

namespace Node
variable {values : List α} {borrow : κ → Q} {start last : Bound Q}

omit [LinearOrder κ] in
private theorem removedPrefixLen_eq (borrow : κ → Q) (values : List α) (last : Bound Q) :
    BTreeSet.removedPrefixLen borrow values last = Slice.partitionPoint (fun item => last.permits borrow (key item)) values := by
  cases last with
  | included value => exact rank_excluded_start value
  | excluded value => exact rank_included_start value
  | unbounded => exact (congrArg List.length (List.takeWhile_eq_self_iff.mpr fun _ _ => rfl)).symm

private theorem mem_take_start (sorted : Sorted values) (monotone : Monotone borrow) (item : α) :
    item ∈ values.take (((rank borrow values start true).map (· + 1)).getD 0) ↔
      item ∈ values ∧ start.admits borrow (key item) = false := by
  rw [rank_start, Slice.take_eq_filter (sorted.prefixed_start monotone start), List.mem_filter, Bool.not_eq_true']

private theorem mem_drop_end (sorted : Sorted values) (monotone : Monotone borrow) (item : α) :
    item ∈ values.drop (BTreeSet.removedPrefixLen borrow values last) ↔
      item ∈ values ∧ last.permits borrow (key item) = false := by
  rw [removedPrefixLen_eq, Slice.drop_eq_filter (sorted.prefixed_end monotone last), List.mem_filter, Bool.not_eq_true']

omit [LinearOrder κ] in
private theorem spares_iff (item : α) : Range.spares borrow start last item = true ↔
    start.admits borrow (key item) = false ∨ last.permits borrow (key item) = false := by
  rw [Range.spares, Bool.not_eq_true', Bool.and_eq_false_iff]

private theorem cut_both (sorted : Sorted values) (monotone : Monotone borrow)
    (ordered : ((rank borrow values start true).map (· + 1)).getD 0 ≤ BTreeSet.removedPrefixLen borrow values last) :
    values.take (((rank borrow values start true).map (· + 1)).getD 0) ++
      values.drop (BTreeSet.removedPrefixLen borrow values last) = values.filter (Range.spares borrow start last) := by
  have fewer : (values.take (((rank borrow values start true).map (· + 1)).getD 0) ++
      values.drop (BTreeSet.removedPrefixLen borrow values last)).Sublist values := by
    conv_rhs => rw [← List.take_append_drop (((rank borrow values start true).map (· + 1)).getD 0) values]
    exact List.Sublist.append_left (List.drop_sublist_drop_left values ordered) _
  apply (sorted.sublist fewer).ext (sorted.sublist List.filter_sublist)
  intro item
  rw [List.mem_append, mem_take_start sorted monotone, mem_drop_end sorted monotone, List.mem_filter, spares_iff, and_or_left]

private theorem spares_all (sorted : Sorted values) (monotone : Monotone borrow)
    (crossed : BTreeSet.removedPrefixLen borrow values last ≤ ((rank borrow values start true).map (· + 1)).getD 0) :
    ∀ item ∈ values, Range.spares borrow start last item = true := by
  intro item member
  rw [spares_iff]
  rw [← List.take_append_drop (BTreeSet.removedPrefixLen borrow values last) values] at member
  rcases List.mem_append.mp member with early | late
  · exact Or.inl ((mem_take_start sorted monotone item).mp (List.take_subset_take_left values crossed early)).2
  · exact Or.inr ((mem_drop_end sorted monotone item).mp late).2

/-- Cut at its end, a node within the end bound keeps what the bounds spare; so does a node past
the start that is cut at its beginning. -/
private theorem cut_front (sorted : Sorted values) (monotone : Monotone borrow)
    (permitted : ∀ item ∈ values, last.permits borrow (key item) = true) :
    values.take (((rank borrow values start true).map (· + 1)).getD 0) = values.filter (Range.spares borrow start last) := by
  rw [rank_start, Slice.take_eq_filter (sorted.prefixed_start monotone start)]
  apply List.filter_congr
  intro item member
  rw [Range.spares, permitted item member, Bool.and_true]

private theorem cut_back (sorted : Sorted values) (monotone : Monotone borrow)
    (admitted : ∀ item ∈ values, start.admits borrow (key item) = true) :
    values.drop (BTreeSet.removedPrefixLen borrow values last) = values.filter (Range.spares borrow start last) := by
  rw [removedPrefixLen_eq, Slice.drop_eq_filter (sorted.prefixed_end monotone last)]
  apply List.filter_congr
  intro item member
  rw [Range.spares, admitted item member, Bool.true_and]

end Node

namespace BTreeSet
variable {set : BTreeSet α κ} {borrow : κ → Q} {start last : Bound Q}

omit [Keyed α κ] in
private theorem mem_removeMiddle {middle : List (κ × NodeId)} {guard : TopologyWriteGuard κ} {heap : Heap α} (entry : κ × NodeId) :
    entry ∈ (removeMiddle middle guard heap).1.index ↔ entry ∈ guard.index ∧ ∀ other ∈ middle, entry.1 ≠ other.1 := by
  induction middle generalizing guard heap with
  | nil => simp [removeMiddle]
  | cons first rest ih =>
    rw [removeMiddle, ih, TopologyWriteGuard.remove_index, mem_erase, List.forall_mem_cons]
    constructor
    · exact fun both => ⟨both.1.2, both.1.1, both.2⟩
    · exact fun both => ⟨⟨both.2.1, both.1⟩, both.2.2⟩

omit [Keyed α κ] in
private theorem removeMiddle_cells {middle : List (κ × NodeId)} {guard : TopologyWriteGuard κ} {heap : Heap α} (node : NodeId) :
    (removeMiddle middle guard heap).2.cells node = if ∃ entry ∈ middle, entry.2 = node then [] else heap.cells node := by
  induction middle generalizing guard heap with
  | nil => simp [removeMiddle]
  | cons first rest ih =>
    rw [removeMiddle, ih]
    by_cases here : first.2 = node
    · subst here
      simp
    · rw [Heap.write_other _ _ (Ne.symm here)]
      apply if_congr ?_ rfl rfl
      rw [List.exists_mem_cons_iff, or_iff_right here]

/-- Where the values of each node lie: before the front node nothing is admitted, and behind it
everything is. -/
private theorem front_zones (routed : set.layout.Routed) (monotone : Monotone borrow) {frontKey : κ} {frontNode : NodeId}
    (found : firstForBorrowedBound borrow set.index.index start = some (frontKey, frontNode)) {old : κ} {node : NodeId}
    (member : (old, node) ∈ set.index.index) {item : α} (held : item ∈ set.heap.cells node) :
    (old < frontKey → start.admits borrow (key item) = false) ∧ (frontKey < old → start.admits borrow (key item) = true) := by
  obtain ⟨linked, reached, first⟩ := find?_eq_some.mp found
  constructor
  · intro before
    rw [Bool.eq_false_iff]
    intro admitted
    exact before.not_ge (first _ member (Bound.admits_mono monotone start ((routed old node member item held).within _ linked before) admitted))
  · intro after
    exact Bound.admits_mono monotone start ((routed old node member item held).above _ linked after).le reached

omit [Keyed α κ] in
private theorem layout_drop (set : BTreeSet α κ) (guard : TopologyWriteGuard κ) (heap : Heap α) :
    ({ set with index := guard.drop, heap } : BTreeSet α κ).layout = ⟨guard.index, heap⟩ := by
  simp only [BTreeSet.layout, TopologyWriteGuard.drop_index]

private theorem apart_of_routed (routed : set.layout.Routed) {entry : κ} {node : NodeId} (linked : (entry, node) ∈ set.index.index)
    {values : List α} (fewer : values ⊆ set.heap.cells node) :
    ∀ item ∈ values, ∀ other ∈ set.index.index, other.1 ≠ entry → other.1 ≠ key item := by
  intro item held other member different
  rcases lt_or_gt_of_ne different with before | after
  · exact ((routed entry node linked item (fewer held)).above other member before).ne
  · exact (((routed entry node linked item (fewer held)).within other member after).trans_lt after).ne'

private theorem sieved_single (sound : set.layout.Sound) (routed : set.layout.Routed) (strict : StrictMono borrow) {frontKey : κ} {node : NodeId}
    (found : firstForBorrowedBound borrow set.index.index start = some (frontKey, node))
    (parts : Range.Parts borrow last set frontKey node) {index : NodeIndex κ} {values : List α}
    (kept : values = (set.heap.cells node).filter (Range.spares borrow start last))
    (others : ∀ other ∈ set.index.index, other.1 ≠ frontKey → other ∈ index)
    (relinked : values ≠ [] → ∃ other, (other, node) ∈ index) :
    Layout.Sieved (Range.spares borrow start last) set.layout ⟨index, set.heap.write node values⟩ := by
  have linked := parts.linked
  refine ⟨fun old target member => ?_, fun old target member filled => ?_⟩
  · by_cases here : old = frontKey
    · subst here
      cases value_unique member linked
      exact (Heap.write_same ..).trans kept
    · have away : target ≠ node := sound.apart linked member here
      refine (Heap.write_other _ _ away).trans (List.filter_eq_self.mpr fun item held => ?_).symm
      rw [Node.spares_iff]
      rcases lt_or_gt_of_ne here with before | after
      · exact Or.inl ((front_zones routed strict.monotone found member held).1 before)
      · exact Or.inr (Bool.eq_false_iff.mpr (parts.late old target member after item held))
  · by_cases here : old = frontKey
    · subst here
      cases value_unique member linked
      exact relinked (by simpa using filled)
    · exact ⟨old, others (old, target) member here⟩

private theorem sieved_many (routed : set.layout.Routed) (strict : StrictMono borrow) {frontKey backKey : κ} {frontNode backNode : NodeId}
    (found : firstForBorrowedBound borrow set.index.index start = some (frontKey, frontNode))
    (parts : Range.Parts borrow last set backKey backNode) {index : NodeIndex κ} {heap : Heap α}
    (front : heap.cells frontNode = (set.heap.cells frontNode).filter (Range.spares borrow start last))
    (back : heap.cells backNode = (set.heap.cells backNode).filter (Range.spares borrow start last))
    (drained : ∀ other ∈ set.index.index, frontKey < other.1 → other.1 < backKey → heap.cells other.2 = [])
    (untouched : ∀ other ∈ set.index.index, other.1 < frontKey ∨ backKey < other.1 →
      heap.cells other.2 = set.heap.cells other.2 ∧ other ∈ index)
    (relinked : heap.cells frontNode ≠ [] → ∃ other, (other, frontNode) ∈ index)
    (stays : heap.cells backNode ≠ [] → (backKey, backNode) ∈ index) :
    Layout.Sieved (Range.spares borrow start last) set.layout ⟨index, heap⟩ := by
  have frontLinked := (find?_eq_some.mp found).1
  refine ⟨fun old node member => ?_, fun old node member filled => ?_⟩
  · rcases eq_or_ne old frontKey with rfl | notFront
    · exact value_unique member frontLinked ▸ front
    rcases eq_or_ne old backKey with rfl | notBack
    · exact value_unique member parts.linked ▸ back
    by_cases outer : old < frontKey ∨ backKey < old
    · refine (untouched (old, node) member outer).1.trans (List.filter_eq_self.mpr fun item held => ?_).symm
      rw [Node.spares_iff]
      rcases outer with before | after
      · exact Or.inl ((front_zones routed strict.monotone found member held).1 before)
      · exact Or.inr (Bool.eq_false_iff.mpr (parts.late old node member after item held))
    · obtain ⟨above, below⟩ := not_or.mp outer
      have after : frontKey < old := lt_of_le_of_ne (not_lt.mp above) notFront.symm
      have before : old < backKey := lt_of_le_of_ne (not_lt.mp below) notBack
      refine (drained (old, node) member after before).trans (List.filter_eq_nil_iff.mpr fun item held => ?_).symm
      rw [Node.spares_iff, (front_zones routed strict.monotone found member held).2 after,
        parts.early old node member before item held]
      simp
  · rcases eq_or_ne old frontKey with rfl | notFront
    · cases value_unique member frontLinked
      exact relinked filled
    rcases eq_or_ne old backKey with rfl | notBack
    · cases value_unique member parts.linked
      exact ⟨old, stays filled⟩
    by_cases outer : old < frontKey ∨ backKey < old
    · exact ⟨old, (untouched (old, node) member outer).2⟩
    · obtain ⟨above, below⟩ := not_or.mp outer
      exact absurd (drained (old, node) member (lt_of_le_of_ne (not_lt.mp above) notFront.symm)
        (lt_of_le_of_ne (not_lt.mp below) notBack)) filled

private theorem sieved_swept (sound : set.layout.Sound) (routed : set.layout.Routed) (strict : StrictMono borrow) {frontKey backKey : κ} {frontNode backNode : NodeId}
    (found : firstForBorrowedBound borrow set.index.index start = some (frontKey, frontNode))
    (parts : Range.Parts borrow last set backKey backNode) (ordered : frontKey < backKey) {middle : List (κ × NodeId)}
    (between : middle = set.index.index.entries.filter fun entry => decide (frontKey < entry.1 ∧ entry.1 < backKey))
    {swept : TopologyWriteGuard κ × Heap α} (sweeps : swept = removeMiddle middle set.index.write set.heap)
    {front : List α} (cut : front = (swept.2.cells frontNode).take
      (((Node.rank borrow (set.heap.cells frontNode) start true).map (· + 1)).getD 0))
    {relinked : NodeIndex κ} (linking : relinked = relink swept.1.index frontKey frontNode front) {index : NodeIndex κ}
    {current back : List α} (present : current = (swept.2.write frontNode front).cells backNode)
    (final : (current.length ≤ removedPrefixLen borrow (set.heap.cells backNode) last ∧ back = [] ∧
        index = relinked.erase backKey) ∨
      (¬ current.length ≤ removedPrefixLen borrow (set.heap.cells backNode) last ∧
        back = current.drop (removedPrefixLen borrow (set.heap.cells backNode) last) ∧ index = relinked)) :
    Layout.Sieved (Range.spares borrow start last) set.layout
      ⟨index, (swept.2.write frontNode front).write backNode back⟩ := by
  have frontLinked : (frontKey, frontNode) ∈ set.index.index := (find?_eq_some.mp found).1
  have backLinked := parts.linked
  have frontSorted : Node.Sorted (set.heap.cells frontNode) := sound.sorted frontNode
  have backSorted : Node.Sorted (set.heap.cells backNode) := sound.sorted backNode
  have distinct : frontNode ≠ backNode := sound.apart backLinked frontLinked ordered.ne
  have member_middle : ∀ other, other ∈ middle ↔ other ∈ set.index.index ∧ frontKey < other.1 ∧ other.1 < backKey := by
    intro other
    rw [between, List.mem_filter, decide_eq_true_eq]
    exact Iff.rfl
  -- the sweep touches the nodes strictly between and no others
  have spared : ∀ other ∈ set.index.index, ¬ (frontKey < other.1 ∧ other.1 < backKey) →
      swept.2.cells other.2 = set.heap.cells other.2 := by
    intro other member outer
    rw [sweeps, removeMiddle_cells, if_neg]
    intro given
    obtain ⟨entry, there, same⟩ := given
    obtain ⟨linked, inside⟩ := (member_middle entry).mp there
    have level : entry.1 = other.1 := sound.once entry.1 other.1 other.2 (same ▸ linked) member
    exact outer (level ▸ inside)
  have swept_index : ∀ other, other ∈ swept.1.index ↔ other ∈ set.index.index ∧ ¬ (frontKey < other.1 ∧ other.1 < backKey) := by
    intro other
    rw [sweeps, mem_removeMiddle]
    refine and_congr_right fun member => ⟨fun apart inside => ?_, fun outer entry there same => ?_⟩
    · exact apart other ((member_middle other).mpr ⟨member, inside⟩) rfl
    · exact outer (same ▸ ((member_middle entry).mp there).2)
  have frontCells : swept.2.cells frontNode = set.heap.cells frontNode :=
    spared (frontKey, frontNode) frontLinked fun inside => inside.1.false
  have frontKept : front = (set.heap.cells frontNode).filter (Range.spares borrow start last) := by
    rw [cut, frontCells]
    exact Node.cut_front frontSorted strict.monotone (parts.early frontKey frontNode frontLinked ordered)
  have backCells : current = set.heap.cells backNode := by
    rw [present, Heap.write_other _ _ distinct.symm]
    exact spared (backKey, backNode) backLinked fun inside => inside.2.false
  have rest : back = (set.heap.cells backNode).drop (removedPrefixLen borrow (set.heap.cells backNode) last) := by
    rw [backCells] at final
    rcases final with ⟨short, empty, _⟩ | ⟨_, kept, _⟩
    · rw [empty, List.drop_of_length_le short]
    · exact kept
  have backKept : back = (set.heap.cells backNode).filter (Range.spares borrow start last) := by
    rw [rest]
    exact Node.cut_back backSorted strict.monotone fun item held =>
      (front_zones routed strict.monotone found backLinked held).2 ordered
  have subset : front ⊆ set.heap.cells frontNode := fun item member =>
    List.mem_of_mem_filter (frontKept ▸ member)
  obtain ⟨others, linked⟩ := relink_keeps frontNode fun item held other member different =>
    apart_of_routed routed frontLinked subset item held other ((swept_index other).mp member).1 different
  rw [← linking] at others linked
  have survives : ∀ other ∈ relinked, other.1 ≠ backKey ∨ back ≠ [] → other ∈ index := by
    intro other member either
    rcases final with ⟨_, empty, rfl⟩ | ⟨_, _, rfl⟩
    · exact (mem_erase ..).mpr ⟨either.resolve_right (not_not.mpr empty), member⟩
    · exact member
  apply sieved_many routed strict found parts
  · rw [Heap.write_other _ _ distinct, Heap.write_same, frontKept]
  · rw [Heap.write_same, backKept]
  · intro other member after before
    rw [Heap.write_other _ _ (sound.apart backLinked member before.ne), Heap.write_other _ _ (sound.apart frontLinked member after.ne'),
      sweeps, removeMiddle_cells, if_pos ⟨other, (member_middle other).mpr ⟨member, after, before⟩, rfl⟩]
  · intro other member outer
    have notFront : other.1 ≠ frontKey := outer.elim (fun before => before.ne) fun after => (ordered.trans after).ne'
    have notBack : other.1 ≠ backKey := outer.elim (fun before => (before.trans ordered).ne) fun after => after.ne'
    have notBetween : ¬ (frontKey < other.1 ∧ other.1 < backKey) := fun inside =>
      outer.elim (fun before => before.asymm inside.1) fun after => after.asymm inside.2
    refine ⟨?_, survives other (others other ((swept_index other).mpr ⟨member, notBetween⟩) notFront) (Or.inl notBack)⟩
    rw [Heap.write_other _ _ (sound.apart backLinked member notBack), Heap.write_other _ _ (sound.apart frontLinked member notFront),
      spared other member notBetween]
  · intro filled
    rw [Heap.write_other _ _ distinct, Heap.write_same] at filled
    obtain ⟨item, held, member⟩ := linked filled
    have below : key item < backKey := ((routed frontKey frontNode frontLinked item (subset held)).within _ backLinked ordered).trans_lt ordered
    exact ⟨key item, survives _ member (Or.inl below.ne)⟩
  · intro filled
    rw [Heap.write_same] at filled
    have kept : (backKey, backNode) ∈ swept.1.index := (swept_index _).mpr ⟨backLinked, fun inside => inside.2.false⟩
    exact survives _ (others _ kept ordered.ne') (Or.inr filled)

/-- Range removal sieves the layout, on every path, when it reaches every value within the bounds. -/
theorem removeRange_sieves (sound : set.layout.Sound) (routed : set.layout.Routed) (strict : StrictMono borrow)
    (matched : set.borrowOrderMatches = true) (start last : Bound Q)
    (reaches : (∀ entry ∈ set.index.index, start.admits borrow entry.1 = false) →
      ∀ item, set.layout.Stored item → Range.spares borrow start last item = true) :
    Layout.Sieved (Range.spares borrow start last) set.layout (removeRange borrow start last set).layout := by
  have unchanged (all : ∀ item, set.layout.Stored item → Range.spares borrow start last item = true) :
      Layout.Sieved (Range.spares borrow start last) set.layout ({ set with index := set.index.write.drop } : BTreeSet α κ).layout := by
    rw [show ({ set with index := set.index.write.drop } : BTreeSet α κ).layout = set.layout from
      layout_drop set set.index.write set.heap]
    exact .unchanged all
  simp only [removeRange]
  split
  next missing =>
    exact unchanged (reaches fun entry member => find?_eq_none.mp missing entry member)
  next frontKey frontNode front =>
    have found : firstForBorrowedBound borrow set.index.index start = some (frontKey, frontNode) := front
    split
    next missing =>
      apply unchanged
      intro item given
      obtain ⟨old, node, member, _⟩ := given
      have none : Range.backEntry borrow last set = none := by cases last <;> exact missing
      exact absurd member (Range.backEntry_none matched none _)
    next backKey backNode back =>
      have parts : Range.Parts borrow last set backKey backNode :=
        Range.parts_matched routed strict matched (by cases last <;> exact back)
      -- a value within the bounds is in a node from the front one to the back one
      have spared : ∀ old node, (old, node) ∈ set.index.index → old < frontKey ∨ backKey < old →
          ∀ item ∈ set.heap.cells node, Range.spares borrow start last item = true := by
        intro old node member outer item held
        rw [Node.spares_iff]
        rcases outer with before | after
        · exact Or.inl ((front_zones routed strict.monotone found member held).1 before)
        · exact Or.inr (Bool.eq_false_iff.mpr (parts.late old node member after item held))
      split
      next crossed =>
        apply unchanged
        intro item given
        obtain ⟨old, node, member, held⟩ := given
        exact spared old node member ((lt_or_ge old frontKey).imp_right crossed.trans_le) item held
      next ordered =>
        split
        next same =>
          subst same
          have level : frontKey = backKey := sound.once frontKey backKey frontNode (find?_eq_some.mp found).1 parts.linked
          subst level
          have sorted : Node.Sorted (set.heap.cells frontNode) := sound.sorted frontNode
          split
          next crossed =>
            apply unchanged
            intro item given
            obtain ⟨old, node, member, held⟩ := given
            rcases eq_or_ne old frontKey with rfl | different
            · cases value_unique member parts.linked
              exact Node.spares_all sorted strict.monotone crossed item held
            · exact spared old node member (lt_or_gt_of_ne different) item held
          next straight =>
            have kept := Node.cut_both sorted strict.monotone (le_of_lt (not_le.mp straight))
            have subset := kept ▸ (List.filter_sublist (p := Range.spares borrow start last) (l := set.heap.cells frontNode)).subset
            split
            next whole =>
              obtain ⟨others, relinked⟩ := relink_keeps frontNode (apart_of_routed routed parts.linked subset)
              rw [layout_drop]
              refine (sieved_single sound routed strict found parts kept others fun filled => ?_).relinked
              obtain ⟨item, _, member⟩ := relinked filled
              exact ⟨key item, member⟩
            next =>
              rw [layout_drop]
              exact sieved_single sound routed strict found parts kept (fun other member _ => member) fun _ => ⟨frontKey, parts.linked⟩
        next distinct =>
          have less : frontKey < backKey := by
            refine lt_of_le_of_ne (not_lt.mp ordered) fun level => distinct ?_
            exact value_unique (find?_eq_some.mp found).1 (level ▸ parts.linked)
          split
          next short =>
            rw [layout_drop]
            exact sieved_swept sound routed strict found parts less rfl rfl rfl (relink_index ..) rfl
              (Or.inl ⟨short, rfl, TopologyWriteGuard.remove_index ..⟩)
          next long =>
            rw [layout_drop]
            exact sieved_swept sound routed strict found parts less rfl rfl rfl (relink_index ..) rfl (Or.inr ⟨long, rfl, rfl⟩)

theorem removeRange_sieved (tidy : set.Tidy) (strict : StrictMono borrow) (matched : set.borrowOrderMatches = true)
    (start last : Bound Q) :
    Layout.Sieved (Range.spares borrow start last) set.layout (removeRange borrow start last set).layout := by
  refine removeRange_sieves tidy.valid.sound tidy.layout.routed strict matched start last fun missing item stored => ?_
  obtain ⟨old, node, member, held⟩ := stored
  rw [Node.spares_iff]
  refine Or.inl (Bool.eq_false_iff.mpr fun admitted => ?_)
  exact Bool.eq_false_iff.mp (missing (old, node) member)
    (Bound.admits_mono strict.monotone start (tidy.layout.le member held) admitted)

/-- What a range removal leaves: the values outside the bounds, in filled nodes under their maxima
whose routes are published, and nothing in a node that was detached. -/
structure RangeRemoved (borrow : κ → Q) (start last : Bound Q) (set after : BTreeSet α κ) : Prop where
  contents : after.nodes.flatten = set.nodes.flatten.filter (Range.spares borrow start last)
  filled : ∀ entry node, (entry, node) ∈ after.index.index → after.heap.cells node ≠ []
  keyed : ∀ entry node, (entry, node) ∈ after.index.index → Node.maxKey (after.heap.cells node) = some entry
  publishes : Publishes after.index.index after.index.published after.index.publishedKeys
  emptied : ∀ entry node, (entry, node) ∈ set.index.index → (∀ other, (other, node) ∉ after.index.index) →
    after.heap.cells node = []

theorem removeRange_removes {nodeCapacity : Nat} (reachable : Reachable nodeCapacity set) (strict : StrictMono borrow)
    (start last : Bound Q) : RangeRemoved borrow start last set (removeRange borrow start last set) := by
  obtain ⟨tidy, _⟩ := reachable.tidy
  obtain ⟨valid, trims⟩ := removeRange_trims tidy.valid borrow start last
  have after : (removeRange borrow start last set).Tidy := ⟨valid, Layout.trims_tidy trims tidy.layout⟩
  have sieved := removeRange_sieved tidy strict reachable.matched start last
  refine ⟨?_, valid.sound.filled, after.layout.tight, valid.publishes, fun entry node linked detached => ?_⟩
  · apply after.sorted_contents.ext (tidy.sorted_contents.sublist List.filter_sublist)
    intro item
    rw [mem_flatten_nodes, sieved.stored trims, List.mem_filter, mem_flatten_nodes]
  · by_contra filled
    obtain ⟨other, member⟩ := sieved.linked entry node linked filled
    exact detached other member

/-- The nodes of 3 and 5 are detached, and the last one keeps its maximum. -/
theorem removeRange_removes_middle : ∃ set : BTreeSet Nat Nat, Reachable 2 set ∧ set.nodes = [[1], [3], [5], [7, 9]] ∧
    (removeRange id (.excluded 1) (.included 8) set).nodes.flatten = [1, 9] ∧
    (removeRange id (.excluded 1) (.included 8) set).heap.cells 1 = [] := by
  obtain ⟨set, reachable, nodes, linked, detached⟩ : ∃ set : BTreeSet Nat Nat, Reachable 2 set ∧ set.nodes = [[1], [3], [5], [7, 9]] ∧
      (3, 1) ∈ set.index.index ∧ ∀ other ∈ (removeRange id (.excluded 1) (.included 8) set).index.index.entries, other.2 ≠ 1 :=
    ⟨_, .mutates (.mutates (.mutates (.mutates (.mutates .new (.insert false 1 1 rfl)) (.insert false 3 1 rfl))
      (.insert false 5 1 rfl)) (.insert false 7 1 rfl)) (.insert false 9 1 rfl), by decide, by decide, by decide⟩
  have removed := removeRange_removes reachable strictMono_id (.excluded 1) (.included 8)
  refine ⟨set, reachable, nodes, ?_, removed.emptied 3 1 linked fun other member => detached _ member rfl⟩
  rw [removed.contents, nodes]
  rfl

end BTreeSet
end WorkTablesIndex
