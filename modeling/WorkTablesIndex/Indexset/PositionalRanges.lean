import WorkTablesIndex.Indexset.IterLaws
import WorkTablesIndex.Indexset.Mutations

/-! Ranges of positions, as slices of the list of elements, in sets and maps with any maximum node
size. -/

namespace WorkTablesIndex.Indexset

variable {F α K V κ : Type} [FenwickTree F]

def sliceStart : Bound Nat → Nat
  | .included bound => bound
  | .excluded bound => bound + 1
  | .unbounded => 0

def sliceEnd (len : Nat) : Bound Nat → Nat
  | .included bound => bound + 1
  | .excluded bound => bound
  | .unbounded => len

def slice (start last : Bound Nat) (items : List α) : List α :=
  (items.take (sliceEnd items.length last)).drop (sliceStart start)

structure ValidSlice (len : Nat) (start last : Bound Nat) : Prop where
  ordered : sliceStart start ≤ sliceEnd len last
  within : sliceEnd len last ≤ len

/-- The positions of a range neither overflow nor, when `locate_ith` subtracts from them, underflow. -/
structure Iter.Resolved (iter : Iter F α) (set : BTreeSet F α) : Prop where
  front : iter.currentFrontIdx ≤ set.len
  back : iter.currentBackIdx ≤ max 1 set.len
  frontOffset : FenwickTree.indexOf set.index iter.currentFrontIdx ≠ 0 →
    FenwickTree.prefixSum set.index (FenwickTree.indexOf set.index iter.currentFrontIdx) 0 ≤ iter.currentFrontIdx
  backOffset : FenwickTree.indexOf set.index (iter.currentBackIdx - 1) ≠ 0 →
    FenwickTree.prefixSum set.index (FenwickTree.indexOf set.index (iter.currentBackIdx - 1)) 0 ≤ iter.currentBackIdx - 1

/-- The range is made without under- or overflow and shares the slice between its ends. -/
def BTreeSet.Accepts (set : BTreeSet F α) (start last : Bound Nat) : Prop :=
  ∃ iter, set.rangeIdx start last = some iter ∧ iter.Resolved set ∧
    Deque.Delivers Iter.draw iter (slice start last set.elements)

def BTreeMap.Accepts (map : BTreeMap F K V) (start last : Bound Nat) : Prop :=
  ∃ iter, map.rangeIdx start last = some iter ∧ iter.Resolved map.set ∧
    Deque.Delivers BTreeMap.draw iter ((slice start last map.entries).map BTreeMap.item)

namespace BTreeSet
variable [LawfulFenwickTree F] {set : BTreeSet F α} {start last : Bound Nat}

private theorem prefixSum_all (consistent : Consistent set) :
    FenwickTree.prefixSum set.index set.inner.length 0 = set.len := by
  have all : set.inner.length = (slots set.index).length := by rw [consistent.indexed, List.length_map]
  rw [LawfulFenwickTree.prefixSum_eq _ _ _ all.le, all, List.take_length, consistent.indexed, Nat.zero_add,
    ← List.length_flatten, consistent.counted]
  rfl

private theorem rangeIdx_resolved (consistent : Consistent set) (start : Bound Nat) (positive : last ≠ .excluded 0) :
    set.rangeIdx start last = set.rangeIdx (.included (sliceStart start)) (.included (sliceEnd set.len last - 1)) := by
  cases last with
  | included bound => cases start <;> rfl
  | excluded bound =>
    cases bound with
    | zero => exact absurd rfl positive
    | succ bound => cases start <;> rfl
  | unbounded =>
    simp only [rangeIdx, resolveRange, prefixSum_all consistent]
    cases start <;> rfl

/-- A range of positions panics where it ends at zero or at a gap, and is exact otherwise. -/
private theorem rangeIdx_cases (consistent : Consistent set) (valid : ValidSlice set.len start last) :
    ((last = .excluded 0 ∨ GapAt (sliceEnd set.len last - 1) set.inner) → set.rangeIdx start last = none) ∧
    (last ≠ .excluded 0 ∧ ¬GapAt (sliceEnd set.len last - 1) set.inner → set.Accepts start last) := by
  have counted := consistent.counted
  have ordered := valid.ordered
  have within := valid.within
  have starts : sliceStart start ≤ set.elements.length := by omega
  have ends : sliceEnd set.len last - 1 ≤ set.elements.length := by omega
  obtain ⟨panics, made⟩ := rangeIdx_within consistent starts ends
  constructor
  · rintro (rfl | gap)
    · rfl
    · by_cases zero : last = .excluded 0
      · rw [zero]
        rfl
      · rw [rangeIdx_resolved consistent start zero, panics gap]
  · intro given
    obtain ⟨positive, whole⟩ := given
    obtain ⟨iter, ran, ranges⟩ := made whole
    refine ⟨iter, (rangeIdx_resolved consistent start positive).trans ran, ?_, ?_⟩
    · refine ⟨?_, ?_, prefixSum_le consistent, prefixSum_le consistent⟩
      · rw [ranges.frontIdx]
        omega
      · rw [ranges.backIdx]
        omega
    · rcases Nat.eq_zero_or_pos (sliceEnd set.len last) with empty | some
      · -- only the unbounded end of an empty set: the back starts behind an element that is not there
        have none : set.elements = [] := by
          apply List.length_eq_zero_iff.mp
          cases last with
          | included bound => cases empty
          | excluded bound =>
            cases empty
            exact absurd rfl positive
          | unbounded => rwa [← counted]
        apply Iter.serves_idle.delivers
        refine ⟨?_, ranges.inside, ?_, ?_, ?_⟩
        · rw [slice, none, List.take_nil, List.drop_nil]
        · rw [ranges.frontIdx, ranges.backIdx]
          omega
        · rw [ranges.ahead, none, List.drop_nil]
        · rw [ranges.behind, none, List.take_nil]
      · have selects : set.selected (sliceStart start) (sliceEnd set.len last - 1) = slice start last set.elements := by
          rw [selected, slice, List.drop_take, Nat.sub_add_cancel some, counted]
        apply Iter.serves.delivers
        rw [← selects]
        exact ranges.spans (by omega) (by omega)

/-- Only a range that ends at zero, or at a gap between the nodes, is not accepted. -/
theorem accepts_iff (consistent : Consistent set) (valid : ValidSlice set.len start last) :
    set.Accepts start last ↔ last ≠ .excluded 0 ∧ ¬GapAt (sliceEnd set.len last - 1) set.inner := by
  obtain ⟨panics, accepts⟩ := rangeIdx_cases consistent valid
  constructor
  · intro given
    obtain ⟨iter, made, _⟩ := given
    rw [← not_or]
    intro fails
    rw [panics fails] at made
    cases made
  · exact accepts

end BTreeSet

theorem BTreeMap.accepts_iff [LawfulFenwickTree F] {map : BTreeMap F K V} {start last : Bound Nat}
    (consistent : map.set.Consistent) (valid : ValidSlice map.len start last) :
    map.Accepts start last ↔ last ≠ .excluded 0 ∧ ¬BTreeSet.GapAt (sliceEnd map.len last - 1) map.set.inner := by
  obtain ⟨panics, accepts⟩ := BTreeSet.rangeIdx_cases consistent valid
  constructor
  · intro given
    obtain ⟨iter, made, resolved, _⟩ := given
    rw [← not_or]
    intro fails
    cases made.symm.trans (panics fails)
  · intro whole
    obtain ⟨iter, made, resolved, delivers⟩ := accepts whole
    exact ⟨iter, made, resolved, delivers.view⟩

/-- In every set and every map, with any maximum node size: a slice is accepted unless its range
ends at an exclusive zero, or its last element lies behind an empty node. -/
theorem positional_ranges_accept_iff [LawfulFenwickTree F] [LinearOrder κ] [Keyed α κ] [Keyed K κ] :
    (∀ (set : BTreeSet F α) (start last : Bound Nat), set.Built → ValidSlice set.len start last →
      (set.Accepts start last ↔ last ≠ .excluded 0 ∧ ¬BTreeSet.GapAt (sliceEnd set.len last - 1) set.inner)) ∧
    ∀ (map : BTreeMap F K V) (start last : Bound Nat), map.set.Built → ValidSlice map.len start last →
      (map.Accepts start last ↔ last ≠ .excluded 0 ∧ ¬BTreeSet.GapAt (sliceEnd map.len last - 1) map.set.inner) := by
  constructor
  · intro set start last built valid
    exact BTreeSet.accepts_iff built.consistent valid
  · intro map start last built valid
    exact BTreeMap.accepts_iff built.consistent valid

/-- An empty slice behind the first element, and one up to the end, of two nodes each. -/
theorem positional_ranges_accept_two :
    (∃ set : BTreeSet (List Nat) Nat, set.Built ∧ set.inner = [[1], [3, 5]] ∧ set.Accepts (.excluded 0) (.excluded 1)) ∧
    ∃ map : BTreeMap (List Nat) Nat Nat, map.set.Built ∧ map.set.inner = [[⟨1, 10⟩], [⟨3, 30⟩, ⟨5, 50⟩]] ∧
      map.Accepts (.included 1) .unbounded := by
  obtain ⟨_, set, rfl⟩ : ∃ set : BTreeSet (List Nat) Nat, (BTreeSet.calls 2 fun _ _ => True).Reaches set ∧
      set = ⟨[[1], [3, 5]], [1, 2], 2, 3⟩ :=
    ⟨_, .change (.change (.change (.make ⟨2, le_rfl, rfl⟩) (.insert 1 rfl)) (.insert 3 rfl)) (.insert 5 rfl), rfl⟩
  obtain ⟨_, map, rfl⟩ : ∃ map : BTreeMap (List Nat) Nat Nat, (Holding.calls 2 fun _ _ => True).Reaches (.map map) ∧
      map = ⟨⟨[[⟨1, 10⟩], [⟨3, 30⟩, ⟨5, 50⟩]], [1, 2], 2, 3⟩⟩ :=
    ⟨_, .change (.change (.change (.make ⟨2, le_rfl, rfl⟩) (.insert 1 10 rfl)) (.insert 3 30 rfl)) (.insert 5 50 rfl), rfl⟩
  have builtSet := BTreeSet.calls_built.reaches set
  have builtMap := Holding.calls_built.reaches map
  obtain ⟨sets, maps⟩ := positional_ranges_accept_iff (F := List Nat) (α := Nat) (K := Nat) (V := Nat)
  refine ⟨⟨_, builtSet, rfl, (sets _ _ _ builtSet ⟨?_, ?_⟩).mpr ⟨?_, fun gap => ?_⟩⟩, _, builtMap, rfl,
    (maps _ _ _ builtMap ⟨?_, ?_⟩).mpr ⟨?_, fun gap => ?_⟩⟩
  · exact le_rfl
  · exact Nat.le_add_left 1 2
  · simp
  · simpa using gap.empty_node
  · exact Nat.le_add_left 1 2
  · exact le_rfl
  · simp
  · simpa using gap.empty_node

/-- `0..0` in a set that holds an element; and, with nodes of one, `0..2` where the second element
lies behind an empty node. -/
theorem positional_ranges_panic :
    (∃ set : BTreeSet (List Nat) Nat, set.Reachable ∧ set.inner = [[1]] ∧ ValidSlice set.len (.included 0) (.excluded 0) ∧
      set.rangeIdx (.included 0) (.excluded 0) = none ∧ ¬set.Accepts (.included 0) (.excluded 0)) ∧
    ∃ set : BTreeSet (List Nat) Nat, (BTreeSet.calls 1 fun _ _ => True).Reaches set ∧ set.inner = [[0], [], [1]] ∧
      ValidSlice set.len (.included 0) (.excluded 2) ∧ set.rangeIdx (.included 0) (.excluded 2) = none ∧
      ¬set.Accepts (.included 0) (.excluded 2) := by
  constructor
  · refine ⟨_, .insert (.withMaximumNodeSize (le_refl 2)) 1 rfl, rfl, ⟨le_rfl, Nat.zero_le _⟩, rfl, ?_⟩
    intro given
    obtain ⟨iter, made, _⟩ := given
    cases made
  · refine ⟨_, .change (.change (.change (.make ⟨1, le_rfl, rfl⟩) (.insert 1 rfl)) (.insert 0 rfl)) (.insert 1 rfl), rfl,
      ⟨Nat.zero_le _, le_rfl⟩, rfl, ?_⟩
    intro given
    obtain ⟨iter, made, _⟩ := given
    cases made

end WorkTablesIndex.Indexset
