import WorkTablesIndex.MultiMapRefinement

/-! Ranges of a multimap that nobody changes. Many pairs borrow as one key, and the node at an
exclusive end is looked for as if the end were inclusive: pairs of the end key in earlier nodes
stay inside. -/

universe u v

namespace WorkTablesIndex.BTreeMultiMap
open BTreeSet OrdMultiPair SortedMap

variable {K : Type u} {V : Type v} [LinearOrder K] [LinearOrder V]

inductive Reachable (nodeCapacity : Nat) : BTreeMultiMap K V → Prop where
  | new : Reachable nodeCapacity (withMaximumNodeSize nodeCapacity)
  | mutates {map after : BTreeMultiMap K V} (earlier : Reachable nodeCapacity map) (call : Mutates map after) :
      Reachable nodeCapacity after
  | removeSome {map after : BTreeMultiMap K V} {result : Option (OrdMultiPair K V) × List (ChangeEvent (OrdMultiPair K V))}
      (earlier : Reachable nodeCapacity map) (emitCdc : Bool) (key : K) (fuel : Nat)
      (ran : removeInner borrow emitCdc key fuel map = some (result, after)) : Reachable nodeCapacity after
  | attachMultiNodes {map after : BTreeMultiMap K V} (earlier : Reachable nodeCapacity map) (nodes : List (List (OrdMultiPair K V)))
      (attachable : Attachable map.layout nodes) (ran : map.attachMultiNodes nodes = some after) : Reachable nodeCapacity after

variable {map : BTreeMultiMap K V} {nodeCapacity : Nat} {start last : Bound K}

theorem Reachable.tidy (reachable : Reachable nodeCapacity map) : map.Tidy ∧ map.borrowOrderMatches = false := by
  induction reachable with
  | new => exact ⟨(holding_new nodeCapacity).tidy, rfl⟩
  | mutates earlier call ih =>
    refine ⟨(call.tidy ih.1).1, ?_⟩
    cases call with
    | insert emitCdc value fuel ran => exact (putInner_routing ran).trans ih.2
    | checkedInsert emitCdc value fuel ran => exact (putCheckedInner_routing ran).trans ih.2
    | remove emitCdc wanted fuel ran => exact (removeInner_routing ran).trans ih.2
    | removeRange start last => exact (removeRange_routing ..).trans ih.2
  | removeSome earlier emitCdc key fuel ran ih =>
    refine ⟨?_, (removeInner_routing ran).trans ih.2⟩
    cases fuel with
    | zero => cases ran
    | succ fuel =>
      rcases ih.1.removeInner_borrowed borrow_monotone emitCdc key fuel with ⟨pair, _, _, same⟩ | ⟨_, unchanged⟩
      · rw [same] at ran
        exact (Mutates.tidy (.remove emitCdc (Keyed.key pair) (fuel + 1) ran) ih.1).1
      · cases unchanged.symm.trans ran
        exact ih.1
  | attachMultiNodes earlier nodes attachable ran ih =>
    obtain ⟨_, result, tidy, _⟩ := attachNodes_spec ih.1 attachable
    cases ran.symm.trans result
    exact ⟨tidy, (attachNodes_routing result).trans ih.2⟩

/-- Of the nodes whose maximum has the key of an exclusive end, there is at most the last. -/
def EndsLast (map : BTreeMultiMap K V) (last : Bound K) : Prop :=
  ∀ key, last = .excluded key → ∀ entry ∈ map.index.index, (ofLex entry.1).1 = key → map.index.index.last? = some entry

private theorem between_of_endsLast (tidy : map.Tidy) (grouped : map.borrowOrderMatches = false) (ends : EndsLast map last) :
    Iter.between map (range start last map) = map.within borrow start last := by
  apply Range.between_eq tidy borrow_monotone
  cases last with
  | included key => exact Range.backValue_sentinel tidy borrow_monotone grouped key
  | excluded key => exact Range.backValue_excluded tidy borrow_monotone grouped (ends key rfl)
  | unbounded => exact Range.backValue_unbounded tidy borrow_monotone

private theorem between_of_inverted (crossed : Range.inverted start last = true) :
    Iter.between map (range start last map) = map.within borrow start last := by
  have met : (range start last map).met = true := by simp [range, BTreeSet.range, Range.new, crossed]
  rw [Iter.between_met met, eq_comm, List.eq_nil_iff_forall_not_mem]
  intro pair member
  exact Range.not_within_inverted crossed (Keyed.key pair) ((Range.mem_within pair).mp member).2

/-- The node that an exclusive end is looked for in comes after every node that ends in its key,
so its first pair outside the range does too. -/
private theorem backValue_late (tidy : map.Tidy) (grouped : map.borrowOrderMatches = false) {key : K} {entry : (K ×ₗ V) × NodeId}
    (linked : entry ∈ map.index.index) (ends : borrow entry.1 = key) (early : map.index.index.last? ≠ some entry) :
    ∃ pair, Range.backValue borrow (.excluded key) map = some pair ∧ entry.1 < Keyed.key pair := by
  have chosen : Range.backEntry borrow (.excluded key) map = _ :=
    (congrArg (nodeForBorrowedEnd borrow map.index.index key) grouped).trans (Range.nodeForBorrowedEnd_grouped borrow_monotone _ key)
  obtain ⟨⟨backKey, backNode⟩, found, member, later⟩ : ∃ back, Range.backEntry borrow (.excluded key) map = some back ∧
      back ∈ map.index.index ∧ entry.1 < back.1 := by
    rw [chosen]
    cases beyond : map.index.index.find? fun entry => decide (key < borrow entry) with
    | some back =>
      obtain ⟨member, reached, _⟩ := find?_eq_some.mp beyond
      refine ⟨back, Option.some_or, member, ?_⟩
      by_contra before
      have bound : borrow back.1 ≤ key := ends ▸ borrow_monotone (not_lt.mp before)
      exact bound.not_gt (by simpa using reached)
    | none =>
      cases final : map.index.index.last? with
      | none => exact absurd linked (last?_eq_none.mp final _)
      | some back =>
        obtain ⟨member, greatest⟩ := last?_eq_some.mp final
        refine ⟨back, by rw [Option.none_or], member, lt_of_le_of_ne (greatest _ linked) fun same => ?_⟩
        have here : entry = back := Prod.ext same (value_unique (same ▸ linked) member)
        exact early (here ▸ final)
  -- every pair of that node lies behind the entry, so none of them is within the end
  have outside : ∀ pair ∈ map.heap.cells backNode, ¬ (Bound.excluded key).permits borrow (Keyed.key pair) = true := by
    intro pair held permitted
    have above : entry.1 < Keyed.key pair := tidy.layout.lt member held linked later
    have bound : key ≤ borrow (Keyed.key pair) := ends ▸ borrow_monotone above.le
    exact bound.not_gt (by simpa [Bound.permits] using permitted)
  rcases Node.rank_end_cases (tidy.valid.sound.sorted backNode) borrow_monotone (.excluded key) with
    ⟨position, pair, rank, there, present, _⟩ | ⟨_, all⟩
  · have rank : Node.rank borrow (map.heap.cells backNode) (.excluded key) false = some position := rank
    have there : (map.heap.cells backNode).reverse[position]? = some pair := there
    exact ⟨pair, by simp only [Range.backValue, found, rank, there], tidy.layout.lt member present linked later⟩
  · obtain ⟨pair, held⟩ := List.exists_mem_of_ne_nil _ (tidy.valid.sound.filled backKey backNode member)
    exact absurd (all pair held) (outside pair held)

/-- A node before that one gives its last pair to the range, although the pair is outside. -/
private theorem between_ne (tidy : map.Tidy) (grouped : map.borrowOrderMatches = false)
    (straight : Range.inverted start last = false) (apart : ¬ EndsLast map last) :
    Iter.between map (range start last map) ≠ map.within borrow start last := by
  intro same
  simp only [EndsLast, not_forall] at apart
  obtain ⟨key, rfl, ⟨entry, node⟩, linked, ends, early⟩ := apart
  have ends : borrow entry = key := ends
  obtain ⟨⟨pair, held, level⟩, _⟩ := (Node.maxKey_eq_some (tidy.valid.sound.sorted node)).mp (tidy.layout.tight entry node linked)
  have stored : map.layout.Stored pair := ⟨entry, node, linked, held⟩
  obtain ⟨sentinel, back, later⟩ := backValue_late tidy grouped linked ends early
  have admitted : start.admits borrow entry = true := by
    cases start with
    | included first => simpa [Bound.admits, ends] using le_of_lt (by simpa [Range.inverted] using straight)
    | excluded first => simpa [Bound.admits, ends, Range.inverted] using straight
    | unbounded => rfl
  have front : Past (· < ·) (Range.frontValue borrow start map) (Keyed.key pair) := by
    cases found : firstForBorrowedBound borrow map.index.index start with
    | none => exact absurd admitted (Bool.eq_false_iff.mp (find?_eq_none.mp found _ linked))
    | some first =>
      have sentinel := Range.frontValue_sentinel tidy borrow_monotone start found
      exact (sentinel.past_iff (fun first second before => Bound.admits_mono borrow_monotone start (le_of_lt before)) stored).mpr
        (level ▸ admitted)
  have unmet : (range start (.excluded key) map).met = false := by
    simp [range, BTreeSet.range, Range.new, straight, back]
  have member : pair ∈ Iter.between map (range start (.excluded key) map) := by
    refine (Iter.mem_between unmet pair).mpr ⟨stored, front, fun last found => ?_⟩
    cases back.symm.trans found
    exact level ▸ later
  rw [same, Range.mem_within, level] at member
  simp [Bound.permits, ends] at member

/-- A range yields exactly the pairs within its bounds, from either end, just when the bounds are
inverted or no node before the last ends in the key of an exclusive end. -/
theorem range_exact_iff (reachable : Reachable nodeCapacity map) (start last : Bound K) (fuel more : Nat) :
    (Deque.drain (Iter.draw map (fuel + 3)) .front (map.len + (more + 1)) (range start last map) =
        some (map.within borrow start last) ∧
      Deque.drain (Iter.draw map (fuel + 3)) .back (map.len + (more + 1)) (range start last map) =
        some (map.within borrow start last).reverse) ↔ Range.inverted start last = true ∨ EndsLast map last := by
  obtain ⟨tidy, grouped⟩ := reachable.tidy
  have drained (side : Deque.End) := (Iter.serves tidy fuel).drain ⟨Range.quiet borrow start last map, rfl⟩ side
    ((Iter.between_length_le map (range start last map)).trans_lt (scan_enough map more))
  have exactly : Iter.between map (range start last map) = map.within borrow start last ↔
      Range.inverted start last = true ∨ EndsLast map last := by
    constructor
    · intro same
      by_contra neither
      obtain ⟨straight, apart⟩ := not_or.mp neither
      exact between_ne tidy grouped (Bool.eq_false_iff.mpr straight) apart same
    · intro either
      rcases either with crossed | ends
      · exact between_of_inverted crossed
      · exact between_of_endsLast tidy grouped ends
  rw [← exactly]
  constructor
  · exact fun both => Option.some.inj ((drained .front).symm.trans both.1)
  · intro same
    rw [← same]
    exact ⟨drained .front, drained .back⟩

private theorem reachable_grouped : ∃ map : BTreeMultiMap Nat Nat, Reachable 2 map ∧
    map.nodes = [[⟨0, 7⟩], [⟨1, 5⟩, ⟨1, 10⟩], [⟨1, 20⟩]] ∧
    (∀ entry ∈ map.index.index.entries, (ofLex entry.1).1 ≠ 2) ∧
    Deque.drain (Iter.draw map 3) .front (map.len + 1) (range .unbounded (.excluded 1) map) =
      some [⟨0, 7⟩, ⟨1, 5⟩, ⟨1, 10⟩] :=
  ⟨_, .mutates (.mutates (.mutates (.mutates .new (.insert false ⟨0, 7⟩ 1 rfl)) (.insert false ⟨1, 10⟩ 1 rfl))
    (.insert false ⟨1, 20⟩ 1 rfl)) (.insert false ⟨1, 5⟩ 1 rfl), by decide, by decide, by decide⟩

/-- No node ends in key 2. -/
theorem range_exact_above : ∃ map : BTreeMultiMap Nat Nat, Reachable 2 map ∧
    map.nodes = [[⟨0, 7⟩], [⟨1, 5⟩, ⟨1, 10⟩], [⟨1, 20⟩]] ∧
    Deque.drain (Iter.draw map 3) .back (map.len + 1) (range (.included 1) (.excluded 2) map) =
      some [⟨1, 20⟩, ⟨1, 10⟩, ⟨1, 5⟩] := by
  obtain ⟨map, reachable, nodes, apart, _⟩ := reachable_grouped
  have ends : EndsLast map (.excluded 2) := by
    intro key same entry member ends
    cases same
    exact absurd ends (apart entry member)
  obtain ⟨_, backward⟩ := (range_exact_iff reachable (.included 1) (.excluded 2) 0 0).mpr (Or.inr ends)
  refine ⟨map, reachable, nodes, backward.trans ?_⟩
  rw [within, nodes]
  rfl

/-- The range below key 1 yields two pairs of key 1. -/
theorem range_exceeds_excluded_end : ∃ map : BTreeMultiMap Nat Nat, Reachable 2 map ∧
    map.nodes = [[⟨0, 7⟩], [⟨1, 5⟩, ⟨1, 10⟩], [⟨1, 20⟩]] ∧
    Deque.drain (Iter.draw map 3) .front (map.len + 1) (range .unbounded (.excluded 1) map) = some [⟨0, 7⟩, ⟨1, 5⟩, ⟨1, 10⟩] ∧
    map.within borrow .unbounded (.excluded 1) = [⟨0, 7⟩] := by
  obtain ⟨map, reachable, nodes, _, drained⟩ := reachable_grouped
  refine ⟨map, reachable, nodes, drained, ?_⟩
  rw [within, nodes]
  rfl

end WorkTablesIndex.BTreeMultiMap
