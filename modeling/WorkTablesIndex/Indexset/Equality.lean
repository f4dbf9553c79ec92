import WorkTablesIndex.Indexset.MapRefinement
import WorkTablesIndex.Library.Lex

/-! The derived equality, order and hash of the single-threaded collections. They read the
representation field by field: the nodes, the index, the capacity and the length. -/

namespace WorkTablesIndex.Indexset

variable {F α κ : Type} [FenwickTree F] [LawfulFenwickTree F] [ComparedFenwickTree F] [LinearOrder κ] [Keyed α κ]

/-- What is written to a `Hasher`: a length or a counter, or the data of one element. -/
inductive Written (κ : Type) where
  | usize (value : Nat)
  | element (key : κ)
  deriving DecidableEq

namespace BTreeSet

def nodeKeys (set : BTreeSet F α) : List (List κ) := set.inner.map (List.map key)

def keys (set : BTreeSet F α) : List κ := set.elements.map key

def eq (set other : BTreeSet F α) : Bool :=
  decide (set.nodeKeys = other.nodeKeys) && ComparedFenwickTree.eq set.index other.index &&
    decide (set.nodeCapacity = other.nodeCapacity) && decide (set.len = other.len)

def cmp (set other : BTreeSet F α) : Ordering :=
  (List.compareLex (List.compareLex compare) set.nodeKeys other.nodeKeys).then
    ((ComparedFenwickTree.cmp set.index other.index).then
      ((compare set.nodeCapacity other.nodeCapacity).then (compare set.len other.len)))

/-- `#[derive(Hash)]`; a vector writes its length before its items. -/
def hash (set : BTreeSet F α) : List (Written κ) :=
  .usize set.inner.length :: set.nodeKeys.flatMap (fun node => .usize node.length :: node.map .element) ++
    (ComparedFenwickTree.hash set.index).map .usize ++ [.usize set.nodeCapacity, .usize set.len]

structure Extensional (set other : BTreeSet F α) : Prop where
  eq : set.eq other = true ↔ set.keys = other.keys
  cmp : set.cmp other = List.compareLex compare set.keys other.keys
  hash : set.eq other = true → set.hash = other.hash

/-- Sets with the same elements have the same nodes and the same capacity; others agree where their
nodes first part. -/
def Aligned (set other : BTreeSet F α) : Prop :=
  if set.keys = other.keys then set.nodeKeys = other.nodeKeys ∧ set.nodeCapacity = other.nodeCapacity
  else Lex.Agreeing set.nodeKeys other.nodeKeys

variable {set other : BTreeSet F α}

omit [FenwickTree F] [LawfulFenwickTree F] [ComparedFenwickTree F] [LinearOrder κ] in
theorem nodeKeys_flatten (set : BTreeSet F α) : set.nodeKeys.flatten = set.keys := by
  rw [nodeKeys, keys, elements, List.map_flatten]

omit [ComparedFenwickTree F] in
private theorem Valid.same_nodes (valid : Valid set) (beside : Valid other) (same : set.nodeKeys = other.nodeKeys) :
    slots set.index = slots other.index ∧ set.len = other.len := by
  have lengths := congrArg (List.map List.length) same
  have flat := congrArg (fun nodes => nodes.flatten.length) same
  simp only [nodeKeys_flatten, keys, List.length_map] at flat
  simp only [nodeKeys, List.map_map, Function.comp_def, List.length_map] at lengths
  exact ⟨by rw [valid.indexed, beside.indexed, lengths], by rw [valid.counted, beside.counted, flat]⟩

theorem eq_iff (valid : Valid set) (beside : Valid other) :
    set.eq other = true ↔ set.nodeKeys = other.nodeKeys ∧ set.nodeCapacity = other.nodeCapacity := by
  simp only [eq, Bool.and_eq_true, decide_eq_true_eq, ComparedFenwickTree.eq_iff]
  constructor
  · exact fun all => ⟨all.1.1.1, all.1.2⟩
  · intro both
    obtain ⟨index, len⟩ := valid.same_nodes beside both.1
    exact ⟨⟨⟨both.1, index⟩, both.2⟩, len⟩

omit [FenwickTree F] [LawfulFenwickTree F] [ComparedFenwickTree F] in
private theorem compareLex_self (set : BTreeSet F α) : List.compareLex (List.compareLex compare) set.nodeKeys set.nodeKeys = .eq :=
  (Lex.compareLex_compares (Lex.compareLex_compares Lex.compare_compares) _ _).eq_eq.mpr rfl

theorem hash_of_eq (valid : Valid set) (beside : Valid other) (equal : set.eq other = true) : set.hash = other.hash := by
  obtain ⟨nodes, capacity⟩ := (eq_iff valid beside).mp equal
  obtain ⟨index, len⟩ := valid.same_nodes beside nodes
  have count : set.inner.length = other.inner.length := by simpa [nodeKeys] using congrArg List.length nodes
  simp only [hash, nodes, count, capacity, len, ComparedFenwickTree.hash_eq _ _ index]

/-- Sets with different elements are unequal, and the first nodes that differ decide their order. -/
private theorem cmp_of_ne (different : set.keys ≠ other.keys) :
    set.cmp other = List.compareLex (List.compareLex compare) set.nodeKeys other.nodeKeys := by
  have apart : set.nodeKeys ≠ other.nodeKeys := by
    intro same
    rw [← nodeKeys_flatten, ← nodeKeys_flatten, same] at different
    exact different rfl
  have decided : List.compareLex (List.compareLex compare) set.nodeKeys other.nodeKeys ≠ .eq :=
    fun equal => apart ((Lex.compareLex_compares (Lex.compareLex_compares Lex.compare_compares) _ _).eq_eq.mp equal)
  cases order : List.compareLex (List.compareLex compare) set.nodeKeys other.nodeKeys with
  | eq => exact absurd order decided
  | lt => simp only [cmp, order, Ordering.then]
  | gt => simp only [cmp, order, Ordering.then]

/-- Equality, order and hash of two reachable sets are extensional exactly when the sets are aligned. -/
theorem extensional_iff (reached : Reachable set) (beside : Reachable other) : Extensional set other ↔ Aligned set other := by
  have valid := reached.valid
  have validOther := beside.valid
  unfold Aligned
  split
  next same =>
    constructor
    · exact fun extensional => (eq_iff valid validOther).mp (extensional.eq.mpr same)
    · intro both
      obtain ⟨nodes, capacity⟩ := both
      obtain ⟨index, len⟩ := valid.same_nodes validOther nodes
      refine ⟨iff_of_true ((eq_iff valid validOther).mpr ⟨nodes, capacity⟩) same, ?_, hash_of_eq valid validOther⟩
      rw [same, (Lex.compareLex_compares Lex.compare_compares other.keys other.keys).eq_eq.mpr rfl]
      simp only [cmp, nodes, compareLex_self, ComparedFenwickTree.cmp_eq _ _ index, capacity, len, Ordering.then,
        (Lex.compare_compares _ _).eq_eq.mpr rfl]
  next different =>
    have unequal : ¬set.eq other = true := by
      intro equal
      have nodes := ((eq_iff valid validOther).mp equal).1
      rw [← nodeKeys_flatten, ← nodeKeys_flatten, nodes] at different
      exact different rfl
    have apart : set.nodeKeys.flatten ≠ other.nodeKeys.flatten := by rwa [nodeKeys_flatten, nodeKeys_flatten]
    rw [← Lex.compareLex_eq_flatten apart, nodeKeys_flatten, nodeKeys_flatten, ← cmp_of_ne different]
    exact ⟨fun extensional => extensional.cmp, fun ordered =>
      ⟨iff_of_false unequal different, ordered, fun equal => absurd equal unequal⟩⟩

/-- Different insertion orders that end with the same nodes. -/
theorem extensional_iff_same_nodes : ∃ set other : BTreeSet (List Nat) Nat, Reachable set ∧ Reachable other ∧
    set.inner = [[1, 2], [3]] ∧ other.inner = [[1, 2], [3]] ∧ Extensional set other := by
  have first : ∃ set : BTreeSet (List Nat) Nat, Reachable set ∧ set = ⟨[[1, 2], [3]], [2, 1], 2, 3⟩ :=
    ⟨_, .insert (.insert (.insert (.withMaximumNodeSize (le_refl 2)) 3 rfl) 2 rfl) 1 rfl, rfl⟩
  have second : ∃ set : BTreeSet (List Nat) Nat, Reachable set ∧ set = ⟨[[1, 2], [3]], [2, 1], 2, 3⟩ :=
    ⟨_, .insert (.insert (.insert (.withMaximumNodeSize (le_refl 2)) 1 rfl) 3 rfl) 2 rfl, rfl⟩
  obtain ⟨_, reached, rfl⟩ := first
  obtain ⟨_, beside, rfl⟩ := second
  refine ⟨_, _, reached, beside, rfl, rfl, (extensional_iff reached beside).mpr ?_⟩
  rw [Aligned, if_pos rfl]
  exact ⟨rfl, rfl⟩

/-- The same three elements inserted in two orders: the sets are unequal, ordered and hashed apart. -/
theorem insertion_order_observable : ∃ set other : BTreeSet (List Nat) Nat, Reachable set ∧ Reachable other ∧
    set.inner = [[1], [2, 3]] ∧ other.inner = [[1, 2], [3]] ∧ set.elements = other.elements ∧ set.eq other = false ∧
      set.cmp other = .lt ∧ set.hash ≠ other.hash ∧ ¬Extensional set other := by
  have first : ∃ set : BTreeSet (List Nat) Nat, Reachable set ∧ set = ⟨[[1], [2, 3]], [1, 2], 2, 3⟩ :=
    ⟨_, .insert (.insert (.insert (.withMaximumNodeSize (le_refl 2)) 1 rfl) 2 rfl) 3 rfl, rfl⟩
  have second : ∃ set : BTreeSet (List Nat) Nat, Reachable set ∧ set = ⟨[[1, 2], [3]], [2, 1], 2, 3⟩ :=
    ⟨_, .insert (.insert (.insert (.withMaximumNodeSize (le_refl 2)) 3 rfl) 2 rfl) 1 rfl, rfl⟩
  obtain ⟨_, reached, rfl⟩ := first
  obtain ⟨_, beside, rfl⟩ := second
  refine ⟨_, _, reached, beside, rfl, rfl, rfl, by decide, by decide, by decide, fun extensional => ?_⟩
  have unequal : ¬(⟨[[1], [2, 3]], [1, 2], 2, 3⟩ : BTreeSet (List Nat) Nat).eq ⟨[[1, 2], [3]], [2, 1], 2, 3⟩ = true := by decide
  exact unequal (extensional.eq.mpr rfl)

end BTreeSet

namespace BTreeMap
variable {K V : Type} [Keyed K κ] {map : BTreeMap F K V}

def eq (map other : BTreeMap F K V) : Bool := map.set.eq other.set

def RespectsValues (map other : BTreeMap F K V) : Prop :=
  map.eq other = true → ∀ wanted : κ,
    (SortedList.find id wanted map.entries).map Pair.value = (SortedList.find id wanted other.entries).map Pair.value

omit [ComparedFenwickTree F] in
/-- Inserting under a stored key leaves the nodes as they are, but for the value. -/
private theorem insert_present (valid : map.set.Valid) {wanted : K} {pair : Pair K V} (value : V)
    (present : SortedList.find id (Keyed.key wanted) map.entries = some pair) : ∃ after : BTreeMap F K V,
    map.insert wanted value = some (some pair.value, after) ∧ after.set.Valid ∧ after.set.nodeKeys = map.set.nodeKeys ∧
      after.set.nodeCapacity = map.set.nodeCapacity := by
  obtain ⟨before, low, high, after, located, found | ⟨absent, _⟩⟩ := findCmp_spec valid strictMono_id (Keyed.key wanted)
  · obtain ⟨other, rest, rfl, same, listed, ran⟩ := found
    cases present.symm.trans listed
    obtain ⟨ref, there, rfl, write⟩ := BTreeSet.refAt_spec valid located.toOpened
    obtain ⟨writtenValid, opened, capacity⟩ := write { ref.current with value } rfl
    refine ⟨⟨ref.write { ref.current with value }⟩, ?_, writtenValid, ?_, capacity⟩
    · simp only [insert, ran, there, bind, Option.bind_some, pure]
      rfl
    · rw [BTreeSet.nodeKeys, BTreeSet.nodeKeys, opened.nodes, located.nodes]
      simp [Keyed.key]
  · rw [SortedList.find_absent absent] at present
    cases present

/-- A map equals its former self after any value has been replaced, and with a different value the two
do not agree. -/
private theorem insert_equals_former (reached : Reached (.map map)) {wanted : K} {value : V} {pair : Pair K V}
    (present : SortedList.find id (Keyed.key wanted) map.entries = some pair) (different : value ≠ pair.value) :
    ∃ after : BTreeMap F K V, map.insert wanted value = some (some pair.value, after) ∧ Reached (.map after) ∧
      after.get id (Keyed.key wanted) = some value ∧ after.eq map = true ∧ ¬RespectsValues after map := by
  have valid : map.set.Valid := reached.sound
  obtain ⟨after, ran, afterValid, nodes, capacity⟩ := insert_present valid value present
  have equal : after.eq map = true := (BTreeSet.eq_iff afterValid valid).mpr ⟨nodes, capacity⟩
  obtain ⟨_, returned, _, entries⟩ := insert_spec valid wanted value
  have listed : SortedList.find id (Keyed.key (⟨wanted, value⟩ : Pair K V)) map.entries = some pair := present
  simp only [SortedList.insertPair, listed] at returned entries
  cases ran.symm.trans returned
  have stored : (SortedList.find id (Keyed.key wanted) after.entries).map Pair.value = some value := by
    rw [entries, show Keyed.key (⟨wanted, value⟩ : Pair K V) = Keyed.key wanted from rfl, SortedList.find_assign, present]
    rfl
  refine ⟨after, ran, .insert reached wanted value ran, ?_, equal, fun respects => ?_⟩
  · rw [get_spec afterValid strictMono_id, stored]
  · have same := respects equal (Keyed.key wanted)
    rw [stored, present] at same
    exact different (Option.some.inj same)

/-- Equality of two reachable maps respects values only where the maps are unequal for their layout or
store the same values anyway. A map equals its former self after any other value has been inserted under a
stored key. -/
theorem respectsValues_iff {other : BTreeMap F K V} (reached : Reached (.map map)) (beside : Reached (.map other)) :
    (RespectsValues map other ↔ map.set.nodeKeys ≠ other.set.nodeKeys ∨ map.set.nodeCapacity ≠ other.set.nodeCapacity ∨
      ∀ wanted : κ, (SortedList.find id wanted map.entries).map Pair.value =
        (SortedList.find id wanted other.entries).map Pair.value) ∧
    ∀ wanted value pair, SortedList.find id (Keyed.key wanted) map.entries = some pair → value ≠ pair.value →
      ∃ after : BTreeMap F K V, map.insert wanted value = some (some pair.value, after) ∧ Reached (.map after) ∧
        after.get id (Keyed.key wanted) = some value ∧ after.eq map = true ∧ ¬RespectsValues after map := by
  refine ⟨?_, fun wanted value pair present different => insert_equals_former reached present different⟩
  have equal_iff : map.eq other = true ↔ _ := BTreeSet.eq_iff reached.sound beside.sound
  unfold RespectsValues
  rw [equal_iff, ← or_assoc, ← not_and_or, imp_iff_not_or]

/-- A value replaced under the only key. -/
theorem respectsValues_iff_single : ∃ map after : BTreeMap (List Nat) Nat Nat, Reached (.map map) ∧
    map.entries = [⟨1, 10⟩] ∧ map.insert 1 11 = some (some 10, after) ∧ after.entries = [⟨1, 11⟩] ∧
      after.eq map = true ∧ ¬RespectsValues after map := by
  have reached : ∃ map : BTreeMap (List Nat) Nat Nat, Reached (.map map) ∧ map = ⟨⟨[[⟨1, 10⟩]], [1], 2, 1⟩⟩ :=
    ⟨_, .insert (.withMaximumNodeSize (le_refl 2)) 1 10 rfl, rfl⟩
  obtain ⟨_, reached, rfl⟩ := reached
  have listed : SortedList.find id (Keyed.key 1) [(⟨1, 10⟩ : Pair Nat Nat)] = some ⟨1, 10⟩ := rfl
  have different : 11 ≠ (⟨1, 10⟩ : Pair Nat Nat).value := by decide
  obtain ⟨after, ran, _, _, equal, disagree⟩ := (respectsValues_iff reached reached).2 1 11 ⟨1, 10⟩ listed different
  have final : after = ⟨⟨[[⟨1, 11⟩]], [1], 2, 1⟩⟩ := by
    cases ran
    rfl
  exact ⟨_, after, reached, rfl, ran, by rw [final]; rfl, equal, disagree⟩

/-- A map of one pair, and the map after another value has been inserted under its key. -/
theorem equal_maps_disagree : ∃ map after : BTreeMap (List Nat) Nat Nat, Reached (.map map) ∧ Reached (.map after) ∧
    map.insert 1 11 = some (some 10, after) ∧ after.eq map = true ∧
      map.get id 1 = some 10 ∧ after.get id 1 = some 11 := by
  have reached : ∃ map : BTreeMap (List Nat) Nat Nat, Reached (.map map) ∧ map = ⟨⟨[[⟨1, 10⟩]], [1], 2, 1⟩⟩ :=
    ⟨_, .insert (.withMaximumNodeSize (le_refl 2)) 1 10 rfl, rfl⟩
  obtain ⟨_, reached, rfl⟩ := reached
  exact ⟨_, _, reached, .insert reached 1 11 rfl, rfl, by decide, rfl, rfl⟩

end BTreeMap
end WorkTablesIndex.Indexset
