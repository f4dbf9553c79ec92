import WorkTablesIndex.Indexset.IterLaws
import WorkTablesIndex.Indexset.Mutations
import WorkTablesIndex.Indexset.SetAlgebra
import WorkTablesIndex.Library.Join

/-! The four iterators of the set algebra each give a part of the join of the two lists of
elements, whatever the lists are; the join is the right one where both lists are in order. -/

namespace WorkTablesIndex.Indexset
open Join

variable {F α κ : Type} [FenwickTree F] [LinearOrder κ] [Keyed α κ]

namespace MergeIter
variable {merge after : MergeIter F α} {left right : List α}

/-- The merge has shown the heads of two lists, and the iterators stand behind them. -/
structure Shows (merge : MergeIter F α) (left right : List α) : Prop where
  start : merge.start = false
  currentLeft : merge.currentLeft = left.head?
  currentRight : merge.currentRight = right.head?
  leftIter : merge.leftIter.Spans left.tail
  rightIter : merge.rightIter.Spans right.tail

inductive Pending (merge : MergeIter F α) : List α → List α → Prop where
  | fresh {left right : List α} (start : merge.start = true) (leftIter : merge.leftIter.Spans left)
      (rightIter : merge.rightIter.Spans right) : Pending merge left right
  | under {left right : List α} (shows : Shows merge left right) :
      Pending merge (advance key left right).1 (advance key left right).2

omit [FenwickTree F] [LinearOrder κ] [Keyed α κ] in
private theorem next_spans {iter : Iter F α} {values : List α} (spans : iter.Spans values) :
    ∃ rest, iter.next = some (values.head?, rest) ∧ rest.Spans values.tail := Iter.serves .front _ _ spans

omit [FenwickTree F] in
theorem next_spec (pending : Pending merge left right) : ∃ shown after, merge.next = some (shown, after) ∧
    Shows after left right ∧ (shown = some (left.head?, right.head?) ∨ shown = none ∧ left = [] ∧ right = []) := by
  cases pending with
  | fresh start leftIter rightIter =>
    obtain ⟨_, first, restLeft⟩ := next_spans leftIter
    obtain ⟨_, second, restRight⟩ := next_spans rightIter
    simp only [next, nextLeft, nextRight, start, Bool.true_eq_false, if_false, first, second, Option.map_some, bind,
      Option.bind_some, pure]
    exact ⟨_, _, rfl, ⟨rfl, rfl, rfl, restLeft, restRight⟩, Or.inl rfl⟩
  | @under shownLeft shownRight shows =>
    obtain ⟨start, atLeft, atRight, leftIter, rightIter⟩ := shows
    obtain ⟨_, drawnLeft, restLeft⟩ := next_spans leftIter
    obtain ⟨_, drawnRight, restRight⟩ := next_spans rightIter
    simp only [next, nextLeft, nextRight, start, if_true, atLeft, atRight, drawnLeft, drawnRight, Option.map_some, bind,
      Option.bind_some, pure]
    cases shownLeft with
    | nil =>
      cases shownRight with
      | nil => exact ⟨_, _, rfl, ⟨start, atLeft, atRight, leftIter, rightIter⟩, Or.inr ⟨rfl, rfl, rfl⟩⟩
      | cons second right => exact ⟨_, _, rfl, ⟨rfl, rfl, rfl, leftIter, restRight⟩, Or.inl rfl⟩
    | cons first left =>
      cases shownRight with
      | nil => exact ⟨_, _, rfl, ⟨rfl, rfl, rfl, restLeft, rightIter⟩, Or.inl rfl⟩
      | cons second right =>
        simp only [List.head?_cons, advance]
        cases compare (key first) (key second) with
        | lt => exact ⟨_, _, rfl, ⟨rfl, rfl, rfl, restLeft, rightIter⟩, Or.inl rfl⟩
        | eq => exact ⟨_, _, rfl, ⟨rfl, rfl, rfl, restLeft, restRight⟩, Or.inl rfl⟩
        | gt => exact ⟨_, _, rfl, ⟨rfl, rfl, rfl, leftIter, restRight⟩, Or.inl rfl⟩

omit [FenwickTree F] in
/-- The iterators have all but one of the values that are still to be shown. -/
theorem Pending.length_le (pending : Pending merge left right) :
    left.length + right.length ≤ merge.leftIter.left + merge.rightIter.left + 1 := by
  have remaining : ∀ {iter : Iter F α} {values : List α}, iter.Spans values → iter.left = values.length := by
    intro iter values spans
    rw [Iter.left, spans.counted, Nat.add_sub_cancel_left]
  cases pending with
  | fresh start leftIter rightIter =>
    rw [remaining leftIter, remaining rightIter]
    exact Nat.le_succ _
  | @under shownLeft shownRight shows =>
    rw [remaining shows.leftIter, remaining shows.rightIter, List.length_tail, List.length_tail]
    by_cases none : shownLeft = [] ∧ shownRight = []
    · obtain ⟨rfl, rfl⟩ := none
      exact Nat.zero_le _
    · have fewer := advance_length key shownLeft shownRight none
      omega

def given (pick : Round α → Option α) (left right : List α) : List α := (join key left right).filterMap pick

def chosen : Option α → Selection α
  | some value => .give value
  | none => .skip

structure Follows (select : Option α → Option α → Selection α) (pick : Round α → Option α) : Prop where
  go (left right : Option α) : select left right = .finish ∨
    ∃ found, round key left right = some found ∧ select left right = chosen (pick found)
  finish (left right : List α) : select left.head? right.head? = .finish → given pick left right = []

variable {select : Option α → Option α → Selection α} {pick : Round α → Option α}

private theorem given_step (pick : Round α → Option α) (left right : List α) : given pick left right =
    ((round key left.head? right.head?).bind pick).toList ++
      given pick (advance key left right).1 (advance key left right).2 := by
  rw [given, join_step, List.filterMap_append]
  congr 1
  cases round key left.head? right.head? with
  | none => rfl
  | some found => cases picked : pick found <;> simp [picked]

omit [FenwickTree F] in
private theorem selectWithin_spec (follows : Follows select pick) {fuel : Nat} (pending : Pending merge left right)
    (enough : left.length + right.length < fuel) : ∃ after left' right',
      merge.selectWithin select fuel = some ((given pick left right).head?, after) ∧ Pending after left' right' ∧
        given pick left' right' = (given pick left right).tail := by
  induction fuel generalizing merge left right with
  | zero => omega
  | succ fuel ih =>
    obtain ⟨shown, after, ran, shows, seen⟩ := next_spec pending
    have step := given_step pick left right
    simp only [selectWithin, ran, bind, Option.bind_some]
    rcases seen with rfl | ⟨rfl, rfl, rfl⟩
    · simp only
      rcases follows.go left.head? right.head? with finished | ⟨found, matched, selected⟩
      · have none := follows.finish left right finished
        rw [none] at step ⊢
        rw [finished]
        exact ⟨after, _, _, rfl, .under shows, (List.append_eq_nil_iff.mp step.symm).2⟩
      · rw [matched, Option.bind_some] at step
        rw [selected, step]
        cases pick found with
        | some value => exact ⟨after, _, _, rfl, .under shows, rfl⟩
        | none =>
          have more : ¬(left = [] ∧ right = []) := by
            intro given
            obtain ⟨rfl, rfl⟩ := given
            cases matched
          have fewer := advance_length key left right more
          exact ih (.under shows) (by omega)
    · exact ⟨after, _, _, by simp [given], .under shows, by simp [given, advance]⟩

omit [FenwickTree F] in
/-- Every iterator gives what it picks from the join, and nothing from then on. -/
theorem select_feeds (follows : Follows select pick) : Deque.Feeds (MergeIter.select (F := F) select) fun merge values =>
    ∃ left right, Pending merge left right ∧ values = given pick left right := by
  intro merge _ given
  obtain ⟨left, right, pending, rfl⟩ := given
  have bound := pending.length_le
  obtain ⟨after, left', right', ran, rest, tail⟩ := selectWithin_spec follows pending
    (by omega : left.length + right.length < merge.leftIter.left + merge.rightIter.left + 2)
  exact ⟨after, ran, left', right', rest, tail.symm⟩

end MergeIter

def Union.pick : Round α → Option α
  | .left item | .right item | .both item _ => some item

def Difference.pick : Round α → Option α
  | .left item => some item
  | .right _ | .both _ _ => none

def SymmetricDifference.pick : Round α → Option α
  | .left item | .right item => some item
  | .both _ _ => none

def Intersection.pick : Round α → Option α
  | .both item _ => some item
  | .left _ | .right _ => none

open MergeIter

private theorem follows_of {select : Option α → Option α → Selection α} {pick : Round α → Option α}
    (lt : ∀ first second, key first < key second → select (some first) (some second) = chosen (pick (.left first)))
    (eq : ∀ first second, key first = key second → select (some first) (some second) = chosen (pick (.both first second)))
    (gt : ∀ first second, key second < key first → select (some first) (some second) = chosen (pick (.right second)))
    (alone : ∀ first, select (some first) none = chosen (pick (.left first)) ∨
      select (some first) none = .finish ∧ ∀ item, pick (.left item) = none)
    (other : ∀ second, select none (some second) = chosen (pick (.right second)) ∨
      select none (some second) = .finish ∧ ∀ item, pick (.right item) = none)
    (neither : select none none = .finish) : Follows select pick := by
  have decided (picked : Option α) : chosen picked ≠ .finish := by
    cases picked with
    | none => simp [chosen]
    | some value => simp [chosen]
  constructor
  case go =>
    intro left right
    cases left with
    | none =>
      cases right with
      | none => exact Or.inl neither
      | some second => exact (other second).symm.imp And.left fun follows => ⟨_, rfl, follows⟩
    | some first =>
      cases right with
      | none => exact (alone first).symm.imp And.left fun follows => ⟨_, rfl, follows⟩
      | some second =>
        rcases lt_trichotomy (key first) (key second) with below | same | above
        · exact Or.inr ⟨_, round_lt below, lt first second below⟩
        · exact Or.inr ⟨_, round_eq same, eq first second same⟩
        · exact Or.inr ⟨_, round_gt above, gt first second above⟩
  case finish =>
    intro left right finished
    cases left with
    | nil =>
      rw [given, join_nil_left]
      cases right with
      | nil => rfl
      | cons second right =>
        rcases other second with follows | ⟨_, unpicked⟩
        · exact absurd (follows.symm.trans finished) (decided _)
        · simp [unpicked]
    | cons first left =>
      cases right with
      | nil =>
        rw [given, join_nil_right]
        rcases alone first with follows | ⟨_, unpicked⟩
        · exact absurd (follows.symm.trans finished) (decided _)
        · simp [unpicked]
      | cons second right =>
        rcases lt_trichotomy (key first) (key second) with below | same | above
        · exact absurd ((lt first second below).symm.trans finished) (decided _)
        · exact absurd ((eq first second same).symm.trans finished) (decided _)
        · exact absurd ((gt first second above).symm.trans finished) (decided _)

theorem Union.follows : Follows (α := α) Union.select Union.pick := by
  apply follows_of
  case lt => exact fun first second below => if_neg (not_lt_of_gt below)
  case eq => exact fun first second same => if_neg (not_lt_of_ge (le_of_eq same))
  case gt => exact fun first second above => if_pos above
  case alone => exact fun first => Or.inl rfl
  case other => exact fun second => Or.inl rfl
  case neither => rfl

theorem Difference.follows : Follows (α := α) Difference.select Difference.pick := by
  apply follows_of
  case lt => exact fun first second below => if_pos below
  case eq => exact fun first second same => if_neg (not_lt_of_ge (ge_of_eq same))
  case gt => exact fun first second above => if_neg (not_lt_of_gt above)
  case alone => exact fun first => Or.inl rfl
  case other => exact fun second => Or.inr ⟨rfl, fun item => rfl⟩
  case neither => rfl

theorem SymmetricDifference.follows : Follows (α := α) SymmetricDifference.select SymmetricDifference.pick := by
  apply follows_of
  case lt => exact fun first second below => if_pos below
  case eq =>
    intro first second same
    exact (if_neg (not_lt_of_ge (ge_of_eq same))).trans (if_neg (not_lt_of_ge (le_of_eq same)))
  case gt => exact fun first second above => (if_neg (not_lt_of_gt above)).trans (if_pos above)
  case alone => exact fun first => Or.inl rfl
  case other => exact fun second => Or.inl rfl
  case neither => rfl

theorem Intersection.follows : Follows (α := α) Intersection.select Intersection.pick := by
  apply follows_of
  case lt => exact fun first second below => if_neg (ne_of_lt below)
  case eq => exact fun first second same => if_pos same
  case gt => exact fun first second above => if_neg (ne_of_gt above)
  case alone => exact fun first => Or.inr ⟨rfl, fun item => rfl⟩
  case other => exact fun second => Or.inr ⟨rfl, fun item => rfl⟩
  case neither => rfl

namespace BTreeSet

def Collects (next : MergeIter F α → Option (Option α × MergeIter F α)) (made : Option (MergeIter F α))
    (wanted : α → Prop) : Prop :=
  ∃ merge values, made = some merge ∧ Deque.Yields next merge values ∧ Node.Sorted values ∧ ∀ item, item ∈ values ↔ wanted item

def Has (set : BTreeSet F α) (item : α) : Prop := ∃ other ∈ set.elements, key other = key item

/-- The operations on two sets are those on their elements; of two equal elements the first set's is given. -/
structure Algebra (set other : BTreeSet F α) : Prop where
  union : Collects Union.next (set.union other) fun item =>
    item ∈ set.elements ∨ item ∈ other.elements ∧ ¬set.Has item
  intersection : Collects Intersection.next (set.intersection other) fun item => item ∈ set.elements ∧ other.Has item
  difference : Collects Difference.next (set.difference other) fun item => item ∈ set.elements ∧ ¬other.Has item
  symmetricDifference : Collects SymmetricDifference.next (set.symmetricDifference other) fun item =>
    item ∈ set.elements ∧ ¬other.Has item ∨ item ∈ other.elements ∧ ¬set.Has item
  isSubset : ∃ answer, set.isSubset other = some answer ∧ (answer = true ↔ ∀ item ∈ set.elements, other.Has item)
  isSuperset : ∃ answer, set.isSuperset other = some answer ∧ (answer = true ↔ ∀ item ∈ other.elements, set.Has item)
  isDisjoint : ∃ answer, set.isDisjoint other = some answer ∧ (answer = true ↔ ∀ item ∈ set.elements, ¬other.Has item)

variable [LawfulFenwickTree F] {set other : BTreeSet F α}

theorem merge_pending (consistent : Consistent set) (beside : Consistent other) :
    ∃ merge, set.merge other = some merge ∧ merge.Pending set.elements other.elements := by
  obtain ⟨leftIter, madeLeft, left⟩ := iter_spans consistent
  obtain ⟨rightIter, madeRight, right⟩ := iter_spans beside
  refine ⟨⟨true, leftIter, none, rightIter, none⟩, ?_, .fresh rfl left right⟩
  simp only [merge, madeLeft, madeRight, bind, Option.bind_some, pure]

omit [FenwickTree F] [LawfulFenwickTree F] in
private theorem mem_given (sorted : Node.Sorted set.elements) (ordered : Node.Sorted other.elements)
    (pick : Round α → Option α) (item : α) : item ∈ given pick set.elements other.elements ↔
      ∃ found, Matches key set.elements other.elements found ∧ pick found = some item := by
  rw [given, List.mem_filterMap]
  exact exists_congr fun found => and_congr_left' (mem_join sorted ordered found)

omit [FenwickTree F] [LawfulFenwickTree F] in
private theorem given_sorted (sorted : Node.Sorted set.elements) (ordered : Node.Sorted other.elements)
    {pick : Round α → Option α} (keyed : ∀ found item, pick found = some item → key item = keyOf key found) :
    Node.Sorted (given pick set.elements other.elements) := by
  apply List.Pairwise.filterMap pick _ (keys_ascending sorted ordered)
  intro found further below item picked item' picked'
  rw [keyed found item picked, keyed further item' picked']
  exact below

private theorem collects (consistent : Consistent set) (beside : Consistent other) (sorted : Node.Sorted set.elements)
    (ordered : Node.Sorted other.elements) {select : Option α → Option α → Selection α} {pick : Round α → Option α}
    (follows : Follows select pick) (keyed : ∀ found item, pick found = some item → key item = keyOf key found)
    {wanted : α → Prop}
    (exact_ : ∀ item, (∃ found, Matches key set.elements other.elements found ∧ pick found = some item) ↔ wanted item) :
    Collects (MergeIter.select select) (set.merge other) wanted := by
  obtain ⟨merge, made, pending⟩ := merge_pending consistent beside
  refine ⟨merge, _, made, (select_feeds follows).yields ⟨_, _, pending, rfl⟩, given_sorted sorted ordered keyed, ?_⟩
  intro item
  rw [mem_given sorted ordered, exact_]

omit [FenwickTree F] [LawfulFenwickTree F] in
private theorem Collects.first {next : MergeIter F α → Option (Option α × MergeIter F α)}
    {made : Option (MergeIter F α)} {wanted : α → Prop} (collects : Collects next made wanted) :
    ∃ merge first after, made = some merge ∧ next merge = some (first, after) ∧
      ((!first.isSome) = true ↔ ∀ item, ¬wanted item) := by
  obtain ⟨merge, values, made, yields, _, exact_⟩ := collects
  obtain ⟨final, ran⟩ := yields 1
  simp only [Deque.calls] at ran
  cases given : next merge with
  | none => simp [given] at ran
  | some outcome =>
    obtain ⟨first, after⟩ := outcome
    simp only [given, Option.map_some, Option.some.injEq, Prod.mk.injEq] at ran
    refine ⟨merge, first, after, made, given, ?_⟩
    have head : first = values[0]? := by simpa using ran.1
    simp only [head, ← exact_]
    rw [← List.eq_nil_iff_forall_not_mem]
    cases values with
    | nil => simp
    | cons value values => simp

omit [FenwickTree F] [LawfulFenwickTree F] [LinearOrder κ] in
private theorem matches_left {item : α} :
    Matches key set.elements other.elements (.left item) ↔ item ∈ set.elements ∧ ¬other.Has item := by
  simp [Matches, Has]

omit [FenwickTree F] [LawfulFenwickTree F] [LinearOrder κ] in
private theorem matches_right {item : α} :
    Matches key set.elements other.elements (.right item) ↔ item ∈ other.elements ∧ ¬set.Has item := by
  simp [Matches, Has]

private theorem difference_collects (consistent : Consistent set) (beside : Consistent other)
    (sorted : Node.Sorted set.elements) (ordered : Node.Sorted other.elements) :
    Collects Difference.next (set.difference other) fun item => item ∈ set.elements ∧ ¬other.Has item := by
  apply collects consistent beside sorted ordered Difference.follows
  · rintro (found | found | ⟨found, same⟩) item ⟨⟩
    rfl
  · intro item
    constructor
    · intro given
      obtain ⟨found | found | ⟨found, same⟩, there, ⟨⟩⟩ := given
      exact matches_left.mp there
    · intro wanted
      exact ⟨.left item, matches_left.mpr wanted, rfl⟩

private theorem intersection_collects (consistent : Consistent set) (beside : Consistent other)
    (sorted : Node.Sorted set.elements) (ordered : Node.Sorted other.elements) :
    Collects Intersection.next (set.intersection other) fun item => item ∈ set.elements ∧ other.Has item := by
  apply collects consistent beside sorted ordered Intersection.follows
  · rintro (found | found | ⟨found, same⟩) item ⟨⟩
    rfl
  · intro item
    constructor
    · intro given
      obtain ⟨found | found | ⟨found, equal⟩, there, ⟨⟩⟩ := given
      exact ⟨there.1, equal, there.2.1, there.2.2.symm⟩
    · intro given
      obtain ⟨stored, equal, there, same⟩ := given
      exact ⟨.both item equal, ⟨stored, there, same.symm⟩, rfl⟩

private theorem symmetricDifference_collects (consistent : Consistent set) (beside : Consistent other)
    (sorted : Node.Sorted set.elements) (ordered : Node.Sorted other.elements) :
    Collects SymmetricDifference.next (set.symmetricDifference other) fun item =>
      item ∈ set.elements ∧ ¬other.Has item ∨ item ∈ other.elements ∧ ¬set.Has item := by
  apply collects consistent beside sorted ordered SymmetricDifference.follows
  · rintro (found | found | ⟨found, same⟩) item ⟨⟩
    · rfl
    · rfl
  · intro item
    constructor
    · intro given
      obtain ⟨found | found | ⟨found, same⟩, there, ⟨⟩⟩ := given
      · exact Or.inl (matches_left.mp there)
      · exact Or.inr (matches_right.mp there)
    · intro wanted
      rcases wanted with only | only
      · exact ⟨.left item, matches_left.mpr only, rfl⟩
      · exact ⟨.right item, matches_right.mpr only, rfl⟩

private theorem union_collects (consistent : Consistent set) (beside : Consistent other)
    (sorted : Node.Sorted set.elements) (ordered : Node.Sorted other.elements) :
    Collects Union.next (set.union other) fun item => item ∈ set.elements ∨ item ∈ other.elements ∧ ¬set.Has item := by
  apply collects consistent beside sorted ordered Union.follows
  · rintro (found | found | ⟨found, same⟩) item ⟨⟩
    · rfl
    · rfl
    · rfl
  · intro item
    constructor
    · intro given
      obtain ⟨found | found | ⟨found, same⟩, there, ⟨⟩⟩ := given
      · exact Or.inl there.1
      · exact Or.inr (matches_right.mp there)
      · exact Or.inl there.1
    · intro wanted
      rcases wanted with stored | only
      · by_cases matched : other.Has item
        · obtain ⟨equal, there, same⟩ := matched
          exact ⟨.both item equal, ⟨stored, there, same.symm⟩, rfl⟩
        · exact ⟨.left item, matches_left.mpr ⟨stored, matched⟩, rfl⟩
      · exact ⟨.right item, matches_right.mpr only, rfl⟩

theorem Consistent.algebra (consistent : Consistent set) (beside : Consistent other)
    (sorted : Node.Sorted set.elements) (ordered : Node.Sorted other.elements) : Algebra set other := by
  have only := difference_collects consistent beside sorted ordered
  have missing := difference_collects beside consistent ordered sorted
  have shared := intersection_collects consistent beside sorted ordered
  constructor
  case union => exact union_collects consistent beside sorted ordered
  case intersection => exact shared
  case difference => exact only
  case symmetricDifference => exact symmetricDifference_collects consistent beside sorted ordered
  case isSubset =>
    obtain ⟨merge, first, after, made, given, answer⟩ := only.first
    refine ⟨!first.isSome, by simp only [isSubset, made, given, bind, Option.bind_some, pure], answer.trans ?_⟩
    simp only [not_and, not_not]
  case isSuperset =>
    obtain ⟨merge, first, after, made, given, answer⟩ := missing.first
    refine ⟨!first.isSome, by simp only [isSuperset, made, given, bind, Option.bind_some, pure], answer.trans ?_⟩
    simp only [not_and, not_not]
  case isDisjoint =>
    obtain ⟨merge, first, after, made, given, answer⟩ := shared.first
    refine ⟨!first.isSome, by simp only [isDisjoint, made, given, bind, Option.bind_some, pure], answer.trans ?_⟩
    simp only [not_and]

/-- The union has the keys of both sets in their orders, so it is in order only if they are. -/
theorem Algebra.sorted (algebra : Algebra set other) (consistent : Consistent set) (beside : Consistent other) :
    Node.Sorted set.elements ∧ Node.Sorted other.elements := by
  obtain ⟨merge, values, made, yields, ascending, _⟩ := algebra.union
  obtain ⟨started, made', pending⟩ := merge_pending consistent beside
  obtain rfl : merge = started := Option.some.inj (made.symm.trans made')
  obtain rfl := yields.unique ((select_feeds Union.follows).yields ⟨_, _, pending, rfl⟩)
  have keys : (given Union.pick set.elements other.elements).map key =
      (join key set.elements other.elements).map (keyOf key) := by
    rw [given, List.map_filterMap, ← List.filterMap_eq_map]
    apply List.filterMap_congr
    intro found _
    cases found <;> rfl
  have inOrder := keys ▸ List.pairwise_map.mpr ascending
  obtain ⟨left, right⟩ : (set.elements.map key).Sublist ((join key set.elements other.elements).map (keyOf key)) ∧
      (other.elements.map key).Sublist ((join key set.elements other.elements).map (keyOf key)) := keys_sublist _ _
  exact ⟨List.pairwise_map.mp (inOrder.sublist left), List.pairwise_map.mp (inOrder.sublist right)⟩

/-- The set algebra is right exactly where the elements of both sets are in order, whatever the nodes
are; with nodes of at least two they always are. -/
theorem set_algebra_exact_iff :
    (∀ set other : BTreeSet F α, set.Reachable → other.Reachable → Algebra set other) ∧
    ∀ set other : BTreeSet F α, set.Built → other.Built →
      (Algebra set other ↔ Node.Sorted set.elements ∧ Node.Sorted other.elements) := by
  constructor
  · intro set other reached beside
    exact reached.valid.consistent.algebra beside.valid.consistent reached.valid.sorted beside.valid.sorted
  · intro set other built beside
    constructor
    · exact fun algebra => algebra.sorted built.consistent beside.consistent
    · exact fun ⟨sorted, ordered⟩ => built.consistent.algebra beside.consistent sorted ordered

/-- Two sets of several nodes that have one of their elements in common, and a set with nodes of one. -/
theorem set_algebra_exact_two :
    (∃ set other : BTreeSet (List Nat) Nat, set.Reachable ∧ other.Reachable ∧ set.inner = [[1], [3, 5]] ∧
      other.inner = [[2], [3, 4]] ∧ Algebra set other) ∧
    ∃ set : BTreeSet (List Nat) Nat, set.Built ∧ set.inner = [[1]] ∧ set.nodeCapacity = 1 ∧ Algebra set set := by
  obtain ⟨reachable, sized⟩ := set_algebra_exact_iff (F := List Nat) (α := Nat)
  obtain ⟨set, reached, nodes⟩ : ∃ set : BTreeSet (List Nat) Nat, set.Reachable ∧ set.inner = [[1], [3, 5]] :=
    ⟨_, .insert (.insert (.insert (.withMaximumNodeSize (le_refl 2)) 1 rfl) 3 rfl) 5 rfl, rfl⟩
  obtain ⟨other, beside, further⟩ : ∃ set : BTreeSet (List Nat) Nat, set.Reachable ∧ set.inner = [[2], [3, 4]] :=
    ⟨_, .insert (.insert (.insert (.withMaximumNodeSize (le_refl 2)) 2 rfl) 3 rfl) 4 rfl, rfl⟩
  obtain ⟨_, one, rfl⟩ : ∃ set : BTreeSet (List Nat) Nat, (calls 1 fun _ _ => True).Reaches set ∧ set = ⟨[[1]], [1], 1, 1⟩ :=
    ⟨_, .change (.make ⟨1, le_rfl, rfl⟩) (.insert 1 rfl), rfl⟩
  have built := calls_built.reaches one
  have sorted : Node.Sorted [1] := List.pairwise_singleton _ _
  exact ⟨⟨set, other, reached, beside, nodes, further, reachable set other reached beside⟩,
    _, built, rfl, rfl, (sized _ _ built built).mpr ⟨sorted, sorted⟩⟩

/-- With nodes of one, a value that is inserted three times is stored twice, and the union gives it twice. -/
theorem union_repeats : ∃ set : BTreeSet (List Nat) Nat, (calls 1 fun _ _ => True).Reaches set ∧ set.inner = [[1], [1]] ∧
    (∃ union after, set.union (.withMaximumNodeSize 1) = some union ∧
      Deque.calls Union.next 3 union = some ([some 1, some 1, none], after)) ∧
    ¬Algebra set (.withMaximumNodeSize 1) := by
  obtain ⟨_, reached, rfl⟩ : ∃ set : BTreeSet (List Nat) Nat, (calls 1 fun _ _ => True).Reaches set ∧
      set = ⟨[[1], [1]], [1, 1], 1, 2⟩ :=
    ⟨_, .change (.change (.change (.make ⟨1, le_rfl, rfl⟩) (.insert 1 rfl)) (.insert 1 rfl)) (.insert 1 rfl), rfl⟩
  refine ⟨_, reached, rfl, ⟨_, _, rfl, rfl⟩, fun algebra => ?_⟩
  have sorted := (algebra.sorted (calls_built.reaches reached).consistent (Built.withMaximumNodeSize 1).consistent).1
  exact absurd (List.rel_of_pairwise_cons sorted (List.mem_singleton_self 1)) (lt_irrefl _)

end BTreeSet
end WorkTablesIndex.Indexset
