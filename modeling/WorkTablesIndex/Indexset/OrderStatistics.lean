import WorkTablesIndex.Indexset.Cursor
import WorkTablesIndex.Indexset.IterLaws

/-! Lookups by value and by position. A rank counts the elements below a value, a position leads
back to its element, and the located element need not be the sought one. -/

namespace WorkTablesIndex

namespace SortedList
variable {α κ Q : Type} [LinearOrder κ] [Keyed α κ] [LinearOrder Q] {borrow : κ → Q} {items : List α}

/-- The element behind those below a value is its lower bound. -/
theorem getElem?_rank (sorted : Node.Sorted items) (strict : StrictMono borrow) (value : Q) :
    items[(items.filter (Indexset.BTreeSet.below borrow value)).length]? = lowerBound borrow value items := by
  have prefixed : Slice.Prefixed (Indexset.BTreeSet.below borrow value) items :=
    sorted.imp fun before => Indexset.BTreeSet.descending_below strict.monotone value _ _ before
  rw [Slice.getElem?_filter_length prefixed, lowerBound]
  congr 1
  funext item
  rw [Bool.eq_iff_iff]
  simp [Indexset.BTreeSet.below]

theorem rank_getElem? (sorted : Node.Sorted items) (strict : StrictMono borrow) {idx : Nat} {item : α}
    (there : items[idx]? = some item) :
    (items.filter (Indexset.BTreeSet.below borrow (borrow (key item)))).length = idx := by
  obtain ⟨inside, _⟩ := List.getElem?_eq_some_iff.mp there
  have parts := Slice.split_at there
  rw [parts] at sorted
  obtain ⟨_, later, across⟩ := Node.sorted_append.mp sorted
  have cut : Cut borrow (borrow (key item)) (items.take idx) (item :: items.drop (idx + 1)) := by
    refine ⟨sorted, fun other member => strict (across other member item List.mem_cons_self), fun other member => ?_⟩
    rcases List.mem_cons.mp member with rfl | behind
    · exact le_rfl
    · exact (strict (List.rel_of_pairwise_cons later behind)).le
  rw [parts]
  calc _ = (items.take idx).length := congrArg List.length cut.filter_lt
    _ = idx := by rw [List.length_take, Nat.min_eq_left inside.le]

theorem lowerBound_stored (sorted : Node.Sorted items) (strict : StrictMono borrow) {item : α} (member : item ∈ items) :
    lowerBound borrow (borrow (key item)) items = some item := by
  obtain ⟨idx, there⟩ := List.mem_iff_getElem?.mp member
  rw [← getElem?_rank sorted strict, rank_getElem? sorted strict there, there]

end SortedList

namespace Indexset
variable {F α K V κ Q : Type} [FenwickTree F] [LinearOrder κ] [LinearOrder Q]

namespace BTreeSet
variable [Keyed α κ] {set : BTreeSet F α} {borrow : κ → Q}

/-- What positions and ranks say of each other, and of the order of iteration. -/
structure OrderStatistics (set : BTreeSet F α) : Prop where
  iterated : ∃ iter values, set.iter = some iter ∧ Deque.Gives Iter.draw .front iter values ∧ values.length = set.len ∧
    ∀ idx, set.getIndex idx = values[idx]?
  beyond (idx : Nat) : set.len ≤ idx → set.getIndex idx = none
  rank {Q : Type} [LinearOrder Q] (borrow : κ → Q) (strict : StrictMono borrow) (value : Q) :
    set.rank borrow value = some (set.elements.filter fun item => decide (borrow (key item) < value)).length
  rankOf {Q : Type} [LinearOrder Q] (borrow : κ → Q) (strict : StrictMono borrow) (idx : Nat) (item : α) :
    set.getIndex idx = some item → set.rank borrow (borrow (key item)) = some idx
  atRank {Q : Type} [LinearOrder Q] (borrow : κ → Q) (strict : StrictMono borrow) (value : Q) : ∃ rank,
    set.rank borrow value = some rank ∧ set.lowerBound borrow value = some (set.getIndex rank)

variable [LawfulFenwickTree F]

theorem rank_spec (valid : Valid set) (monotone : Monotone borrow) (value : Q) :
    set.rank borrow value = some (set.elements.filter (below borrow value)).length := by
  obtain ⟨before, low, high, after, located, _, position⟩ :=
    locateValueBy_spec valid false (descending_below monotone value)
  simp only [rank, locateValue, position, bind, Option.bind_some, pure]
  rw [prefixSum_spec valid.indexed located.toOpened, located.satisfying, List.length_append]

theorem Valid.orderStatistics (valid : Valid set) : OrderStatistics set := by
  constructor
  case iterated =>
    obtain ⟨iter, made, spans⟩ := iter_spans valid.consistent
    exact ⟨iter, _, made, Iter.serves.gives spans .front, valid.counted.symm, getIndex_spec valid⟩
  case beyond =>
    intro idx outside
    rw [getIndex_spec valid, List.getElem?_eq_none (valid.counted ▸ outside)]
  case rank => exact fun borrow strict value => rank_spec valid strict.monotone value
  case rankOf =>
    intro Q _ borrow strict idx item there
    rw [getIndex_spec valid] at there
    rw [rank_spec valid strict.monotone, SortedList.rank_getElem? valid.sorted strict there]
  case atRank =>
    intro Q _ borrow strict value
    refine ⟨_, rank_spec valid strict.monotone value, ?_⟩
    rw [lowerBound_spec valid strict, getIndex_spec valid, SortedList.getElem?_rank valid.sorted strict]

def ExactLookup (borrow : κ → Q) (value : Q) (set : BTreeSet F α) : Prop :=
  ∃ found, set.get borrow value = some found ∧
    (∀ item, found = some item ↔ item ∈ set.elements ∧ borrow (key item) = value) ∧
    set.contains borrow value = some found.isSome

/-- The lookup gives the lower bound of the value, so it is exact where the lower bound is equal
to the value, or where there is none. -/
theorem get_exact_iff (reached : Reachable set) (strict : StrictMono borrow) (value : Q) :
    ExactLookup borrow value set ↔
      (∃ item ∈ set.elements, borrow (key item) = value) ∨ ∀ item ∈ set.elements, borrow (key item) < value := by
  have valid := reached.valid
  have got : set.get borrow value = some (SortedList.lowerBound borrow value set.elements) :=
    lowerBound_spec valid strict value
  have contained := contains_spec valid strict value
  rw [SortedList.contains] at contained
  constructor
  · intro given
    obtain ⟨found, ran, exact_, _⟩ := given
    cases got.symm.trans ran
    cases first : SortedList.lowerBound borrow value set.elements with
    | some item => exact Or.inl ⟨item, (exact_ item).mp first⟩
    | none => exact Or.inr (by simpa [SortedList.lowerBound] using first)
  · rintro (⟨item, member, rfl⟩ | below)
    · rw [SortedList.lowerBound_stored valid.sorted strict member] at got
      rw [SortedList.find_isSome.mpr ⟨item, member, rfl⟩] at contained
      refine ⟨some item, got, fun other => ⟨?_, ?_⟩, contained⟩
      · intro given
        obtain ⟨⟩ := given
        exact ⟨member, rfl⟩
      · intro given
        obtain ⟨stored, same⟩ := given
        rw [← SortedList.lowerBound_stored valid.sorted strict stored, same]
        exact (SortedList.lowerBound_stored valid.sorted strict member).symm
    · have none : SortedList.lowerBound borrow value set.elements = none := by
        simpa [SortedList.lowerBound] using below
      rw [SortedList.find_absent fun item member => (below item member).ne] at contained
      rw [none] at got
      refine ⟨.none, got, fun other => ⟨?_, ?_⟩, contained⟩
      · intro given
        obtain ⟨⟩ := given
      · intro given
        obtain ⟨stored, same⟩ := given
        exact absurd same (below other stored).ne

/-- In two nodes: a stored value is found, and nothing above the last element. -/
theorem get_exact_iff_stored : ∃ set : BTreeSet (List Nat) Nat, Reachable set ∧ set.inner = [[1], [3, 5]] ∧
    ExactLookup id 3 set ∧ ExactLookup id 6 set := by
  obtain ⟨_, reached, rfl⟩ : ∃ set : BTreeSet (List Nat) Nat, Reachable set ∧ set = ⟨[[1], [3, 5]], [1, 2], 2, 3⟩ :=
    ⟨_, .insert (.insert (.insert (.withMaximumNodeSize (le_refl 2)) 1 rfl) 3 rfl) 5 rfl, rfl⟩
  refine ⟨_, reached, rfl, (get_exact_iff reached strictMono_id 3).mpr (Or.inl ⟨3, ?_, rfl⟩),
    (get_exact_iff reached strictMono_id 6).mpr (Or.inr ?_)⟩
  · decide
  · decide

/-- An absent value gives the next stored one. -/
theorem get_gives_next : ∃ set : BTreeSet (List Nat) Nat, Reachable set ∧ set.inner = [[1], [3, 5]] ∧
    set.get id 4 = some (some 5) ∧ set.contains id 4 = some false ∧ ¬ExactLookup id 4 set := by
  refine ⟨_, .insert (.insert (.insert (.withMaximumNodeSize (le_refl 2)) 1 rfl) 3 rfl) 5 rfl, rfl, rfl, rfl, ?_⟩
  intro given
  obtain ⟨found, ran, exact_, _⟩ := given
  cases ran
  exact absurd ((exact_ 5).mp rfl).2 (by decide)

end BTreeSet

namespace BTreeMap
variable [Keyed K κ] {map : BTreeMap F K V} {borrow : κ → Q}

/-- The same for the entries; the lower bound is where a cursor starts. -/
structure OrderStatistics (map : BTreeMap F K V) : Prop where
  iterated : ∃ iter values, map.iter = some iter ∧ Deque.Gives draw .front iter values ∧ values.length = map.len ∧
    ∀ idx, map.getIndex idx = values[idx]?
  beyond (idx : Nat) : map.len ≤ idx → map.getIndex idx = none
  rank {Q : Type} [LinearOrder Q] (borrow : κ → Q) (strict : StrictMono borrow) (value : Q) :
    map.rank borrow value = some (map.entries.filter fun pair => decide (borrow (Keyed.key pair) < value)).length
  rankOf {Q : Type} [LinearOrder Q] (borrow : κ → Q) (strict : StrictMono borrow) (idx : Nat) (key : K) (value : V) :
    map.getIndex idx = some (key, value) → map.rank borrow (borrow (Keyed.key key)) = some idx
  atRank {Q : Type} [LinearOrder Q] (borrow : κ → Q) (strict : StrictMono borrow) (value : Q) : ∃ rank cursor,
    map.rank borrow value = some rank ∧ map.lowerBound borrow (.included value) = some cursor ∧
      cursor.keyValue = map.getIndex rank ∧ cursor.keyValue = (SortedList.lowerBound borrow value map.entries).map item

variable [LawfulFenwickTree F]

theorem getIndex_spec (valid : map.set.Valid) (idx : Nat) : map.getIndex idx = (map.entries[idx]?).map item := by
  rw [getIndex, BTreeSet.getIndex_spec valid]
  rfl

theorem orderStatistics (valid : map.set.Valid) : map.OrderStatistics := by
  have counted : map.len = map.entries.length := valid.counted
  constructor
  case iterated =>
    obtain ⟨iter, made, spans⟩ := BTreeSet.iter_spans valid.consistent
    have gives := Iter.serves.gives spans .front
    have injective : Function.Injective (item : Pair K V → K × V) := by
      rintro ⟨_, _⟩ ⟨_, _⟩ same
      cases same
      rfl
    refine ⟨iter, _, made, (Deque.gives_view injective).mpr gives, ?_, fun idx => ?_⟩
    · rw [List.length_map, counted]
      rfl
    · rw [getIndex_spec valid, List.getElem?_map]
      rfl
  case beyond =>
    intro idx outside
    rw [getIndex_spec valid, List.getElem?_eq_none (counted ▸ outside), Option.map_none]
  case rank => exact fun borrow strict value => rankCmp_spec valid strict value
  case rankOf =>
    intro Q _ borrow strict idx key value there
    rw [getIndex_spec valid, Option.map_eq_some_iff] at there
    obtain ⟨pair, there, same⟩ := there
    cases same
    exact (rankCmp_spec valid strict _).trans (congrArg some (SortedList.rank_getElem? valid.sorted strict there))
  case atRank =>
    intro Q _ borrow strict value
    have ranked := rankCmp_spec valid strict value
    refine ⟨_, ⟨⟨map.set, _⟩⟩, ranked, ?_, rfl, ?_⟩
    · simp only [lowerBound, ranked, bind, Option.bind_some, pure]
    · have there := BTreeSet.getIndex_spec valid (map.set.elements.filter (BTreeSet.below borrow value)).length
      rw [SortedList.getElem?_rank valid.sorted strict value] at there
      exact congrArg (Option.map item) there

end BTreeMap

/-- Positions and ranks are exact and undo each other, in every set and every map. -/
theorem order_statistics_exact [Keyed α κ] [Keyed K κ] [LawfulFenwickTree F] :
    (∀ set : BTreeSet F α, set.Reachable → set.OrderStatistics) ∧
      ∀ map : BTreeMap F K V, Reached (.map map) → map.OrderStatistics :=
  ⟨fun _ reached => reached.valid.orderStatistics, fun _ reached => BTreeMap.orderStatistics reached.sound⟩

/-- A set and a map with an element at the start of a node, and ranks beside it. -/
theorem order_statistics_exact_two :
    (∃ set : BTreeSet (List Nat) Nat, set.Reachable ∧ set.inner = [[1], [3, 5]] ∧ set.OrderStatistics) ∧
    ∃ map : BTreeMap (List Nat) Nat Nat, Reached (.map map) ∧ map.set.inner = [[⟨1, 10⟩], [⟨3, 30⟩, ⟨5, 50⟩]] ∧
      map.OrderStatistics := by
  obtain ⟨set, reachedSet, nodes⟩ : ∃ set : BTreeSet (List Nat) Nat, set.Reachable ∧ set.inner = [[1], [3, 5]] :=
    ⟨_, .insert (.insert (.insert (.withMaximumNodeSize (le_refl 2)) 1 rfl) 3 rfl) 5 rfl, rfl⟩
  obtain ⟨map, reachedMap, pairs⟩ : ∃ map : BTreeMap (List Nat) Nat Nat, Reached (.map map) ∧
      map.set.inner = [[⟨1, 10⟩], [⟨3, 30⟩, ⟨5, 50⟩]] :=
    ⟨_, .insert (.insert (.insert (.withMaximumNodeSize (le_refl 2)) 1 10 rfl) 3 30 rfl) 5 50 rfl, rfl⟩
  have both := order_statistics_exact (F := List Nat) (α := Nat) (K := Nat) (V := Nat)
  exact ⟨⟨set, reachedSet, nodes, both.1 set reachedSet⟩, map, reachedMap, pairs, both.2 map reachedMap⟩

end Indexset
end WorkTablesIndex
