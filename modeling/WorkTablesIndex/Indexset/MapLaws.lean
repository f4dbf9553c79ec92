import WorkTablesIndex.Indexset.Map
import WorkTablesIndex.Indexset.SetRefinement

/-! What the calls of the single-threaded map do to its entries. -/

namespace WorkTablesIndex

namespace SortedList
open Indexset
variable {K V κ Q : Type} [LinearOrder κ] [Keyed K κ] [LinearOrder Q]

def assign (wanted : κ) (value : V) (items : List (Pair K V)) : List (Pair K V) :=
  items.map fun pair => if key pair = wanted then { pair with value } else pair

def insertPair (pair : Pair K V) (items : List (Pair K V)) : Option V × List (Pair K V) :=
  match find id (key pair) items with
  | some old => (some old.value, assign (key pair) pair.value items)
  | none => (none, store pair items)

theorem assign_at {before after : List (Pair K V)} {pair : Pair K V} (sorted : Node.Sorted (before ++ pair :: after)) (value : V) :
    assign (key pair) value (before ++ pair :: after) = before ++ { pair with value } :: after := by
  obtain ⟨_, rest, across⟩ := Node.sorted_append.mp sorted
  have above := (List.pairwise_cons.mp rest).1
  have same : ∀ {list : List (Pair K V)}, (∀ other ∈ list, key other ≠ key pair) →
      list.map (fun other => if key other = key pair then { other with value } else other) = list := by
    intro list apart
    exact (List.map_congr_left fun other member => if_neg (apart other member)).trans (List.map_id _)
  rw [assign, List.map_append, List.map_cons, if_pos rfl, same, same]
  · exact fun other member => (above other member).ne'
  · exact fun other member => (across other member pair List.mem_cons_self).ne

theorem find_assign (wanted : κ) (value : V) (items : List (Pair K V)) :
    find id wanted (assign wanted value items) = (find id wanted items).map fun pair => { pair with value } := by
  have keys : ∀ pair : Pair K V, key (if key pair = wanted then { pair with value } else pair) = key pair := by
    intro pair
    split <;> rfl
  induction items with
  | nil => rfl
  | cons head rest ih =>
    simp only [find, assign, List.map_cons, List.find?_cons, keys, id_eq] at ih ⊢
    by_cases same : key head = wanted
    · simp [same]
    · simpa [same] using ih

end SortedList

namespace Indexset
open Slice

variable {F K V κ Q : Type} [FenwickTree F] [LawfulFenwickTree F] [LinearOrder κ] [Keyed K κ] [LinearOrder Q]

def BTreeMap.entries (map : BTreeMap F K V) : List (Pair K V) := map.set.elements

/-- The reference points at the value of the pair, and writes to nothing else. -/
structure Refers (ref : RefMut V (BTreeMap F K V)) (map : BTreeMap F K V) (pair : Pair K V) : Prop where
  current : ref.current = pair.value
  valid : ∀ value, (ref.write value).set.Valid
  write : ∀ value, (ref.write value).entries = SortedList.assign (key pair) value map.entries

namespace BTreeMap

variable {map : BTreeMap F K V} {borrow : κ → Q} {before after : List (List (Pair K V))} {low high : List (Pair K V)}
  {pair : Pair K V}

theorem refAt_refers (valid : map.set.Valid) (opened : map.set.Opened before (low ++ pair :: high) after) :
    ∃ ref, map.set.refAt before.length low.length = some ref ∧ ref.current = pair ∧ Refers (RefMut.value ref) map pair := by
  obtain ⟨ref, found, current, write⟩ := BTreeSet.refAt_spec valid opened
  have sorted := valid.sorted
  have parts : map.set.elements = (before.flatten ++ low) ++ pair :: (high ++ after.flatten) := by
    rw [opened.elements]
    simp
  rw [parts] at sorted
  subst current
  refine ⟨ref, found, rfl, rfl, fun value => (write { ref.current with value } rfl).1, fun value => ?_⟩
  have written := (write { ref.current with value } rfl).2.1.elements
  rw [show map.entries = _ from parts, SortedList.assign_at sorted]
  apply written.trans
  simp

private theorem locateIth_at (valid : map.set.Valid) {idx : Nat} (there : map.entries[idx]? = some pair) :
    ∃ before low high after, map.set.Opened before (low ++ pair :: high) after ∧
      map.set.locateIth idx = (before.length, low.length) := by
  obtain ⟨inside, stored⟩ := List.getElem?_eq_some_iff.mp there
  obtain ⟨before, low, item, high, after, opened, position, rank⟩ := BTreeSet.locateIth_spec valid inside
  have same : map.entries[idx]? = some item := by
    rw [entries, opened.elements, rank, ← List.append_assoc, ← List.append_assoc, List.append_assoc _ _ after.flatten,
      ← List.length_append, List.getElem?_append_right le_rfl]
    simp
  cases there.symm.trans same
  exact ⟨before, low, high, after, opened, position⟩

theorem getIndex_at (valid : map.set.Valid) {idx : Nat} (there : map.entries[idx]? = some pair) :
    map.set.getIndex idx = some pair :=
  (BTreeSet.getIndex_spec valid idx).trans there

theorem getMutIndex_at (valid : map.set.Valid) {idx : Nat} (there : map.entries[idx]? = some pair) :
    ∃ ref, map.getMutIndex idx = some ref ∧ Refers ref map pair := by
  obtain ⟨before, low, high, after, opened, position⟩ := locateIth_at valid there
  obtain ⟨ref, found, _, refers⟩ := refAt_refers valid opened
  exact ⟨RefMut.value ref, by simp only [getMutIndex, BTreeSet.getMutIndex, position, found, Option.map_some], refers⟩

theorem popIndex_at (valid : map.set.Valid) {idx : Nat} (there : map.entries[idx]? = some pair) :
    ∃ left : BTreeMap F K V, map.popIndex idx = some ((pair.key, pair.value), left) ∧ left.set.Valid ∧
      left.entries = map.entries.eraseIdx idx := by
  obtain ⟨inside, stored⟩ := List.getElem?_eq_some_iff.mp there
  obtain ⟨left, popped, leftValid, _, elements⟩ := BTreeSet.popIndex_spec valid inside
  have same : map.set.elements[idx] = pair := stored
  exact ⟨⟨left⟩, by rw [popIndex, popped, same]; rfl, leftValid, elements⟩

theorem containsKey_spec (valid : map.set.Valid) (strict : StrictMono borrow) (wanted : Q) :
    map.containsKey borrow wanted = some (SortedList.contains borrow wanted map.entries) :=
  (Option.map_eq_bind ..).symm.trans (BTreeSet.candidateBy_any valid true strict wanted)

omit [FenwickTree F] [LawfulFenwickTree F] [LinearOrder κ] in
/-- The exact search of the located node stops at the located position. -/
private theorem partitionPoint_node {wanted : Q} (lower : ∀ item ∈ low, borrow (key item) < wanted)
    (upper : ∀ item ∈ high, wanted ≤ borrow (key item)) :
    partitionPoint (fun candidate => compare (borrow (key candidate)) wanted == .lt) (low ++ high) = low.length := by
  rw [partitionPoint, List.takeWhile_append_of_pos]
  · cases high with
    | nil => simp
    | cons head rest =>
      rw [List.takeWhile_cons_of_neg]
      · simp
      · simpa [compare_lt_iff_lt] using upper head List.mem_cons_self
  · intro item member
    simpa [compare_lt_iff_lt] using lower item member

theorem getKeyValue_spec (valid : map.set.Valid) (strict : StrictMono borrow) (wanted : Q) :
    map.getKeyValue borrow wanted = (SortedList.find borrow wanted map.entries).map fun pair => (pair.key, pair.value) := by
  obtain ⟨before, low, high, after, located, position, _⟩ :=
    BTreeSet.locateValueBy_spec valid true (BTreeSet.descending_below strict.monotone wanted)
  have cut := located.cut valid
  have point := partitionPoint_node (fun item member => cut.lower item (List.mem_append_right _ member))
    (fun item member => cut.upper item (List.mem_append_left _ member))
  have first : (low ++ high)[low.length]? = high.head? := by
    rw [List.getElem?_append_right le_rfl, Nat.sub_self, List.head?_eq_getElem?]
  have node : map.set.inner[map.set.locateNodeCmp (keyBelow borrow wanted)]? = some (low ++ high) := by
    rw [BTreeSet.locateNodeCmp, keyBelow, position, located.toOpened.get]
  simp only [getKeyValue, node, bind, Option.bind_some, binarySearchBy, point, first]
  rcases located.sought valid strict with ⟨pair, rest, rfl, same, found⟩ | ⟨other, absent⟩
  · rw [entries, found]
    simp [same]
  · rw [entries, SortedList.find_absent absent]
    cases high with
    | nil => rfl
    | cons head rest =>
      have different : compare (borrow (key head)) wanted ≠ .eq := fun equal => other head rfl (compare_eq_iff_eq.mp equal)
      simp [different]

theorem get_spec (valid : map.set.Valid) (strict : StrictMono borrow) (wanted : Q) :
    map.get borrow wanted = (SortedList.find borrow wanted map.entries).map Pair.value := by
  rw [get, getKeyValue_spec valid strict, Option.map_map]
  rfl

theorem getMut_spec (valid : map.set.Valid) (strict : StrictMono borrow) (wanted : Q) :
    ∃ found, map.getMut borrow wanted = some found ∧
    match SortedList.find borrow wanted map.entries with
    | some pair => ∃ ref, found = some ref ∧ Refers ref map pair
    | none => found = none := by
  obtain ⟨before, low, high, after, located, _, position⟩ :=
    BTreeSet.locateValueBy_spec valid true (BTreeSet.descending_below strict.monotone wanted)
  simp only [getMut, BTreeSet.locateValueCmp, keyBelow, position, bind, Option.bind_some, pure]
  rcases located.sought valid strict with ⟨pair, rest, rfl, same, found⟩ | ⟨other, absent⟩
  · obtain ⟨ref, there, current, refers⟩ := refAt_refers valid located.toOpened
    rw [entries, found]
    simp only [there, current, same, if_true]
    exact ⟨_, rfl, _, rfl, refers⟩
  · rw [entries, SortedList.find_absent absent]
    cases high with
    | nil =>
      have none : map.set.refAt before.length low.length = none := by
        simp [BTreeSet.refAt, located.toOpened.get]
      simp only [none]
      exact ⟨_, rfl, rfl⟩
    | cons head rest =>
      obtain ⟨ref, there, current, _⟩ := refAt_refers valid located.toOpened
      simp only [there, current, other head rfl, if_false]
      exact ⟨_, rfl, rfl⟩

theorem findCmp_spec (valid : map.set.Valid) (strict : StrictMono borrow) (wanted : Q) : ∃ before low high after,
    map.set.Located (BTreeSet.below borrow wanted) before low high after ∧
    ((∃ pair rest, high = pair :: rest ∧ borrow (key pair) = wanted ∧ SortedList.find borrow wanted map.entries = some pair ∧
      map.set.findCmp (keyBelow borrow wanted) (keyEquals borrow wanted) = some (.exist before.length low.length)) ∨
    (∀ pair ∈ map.entries, borrow (key pair) ≠ wanted) ∧
      map.set.findCmp (keyBelow borrow wanted) (keyEquals borrow wanted) = some (.empty before.length)) := by
  obtain ⟨before, low, high, after, located, _, position⟩ :=
    BTreeSet.locateValueBy_spec valid true (BTreeSet.descending_below strict.monotone wanted)
  refine ⟨before, low, high, after, located, ?_⟩
  simp only [BTreeSet.findCmp, BTreeSet.locateValueCmp, keyBelow, position, located.get, bind, Option.bind_some, pure]
  rcases located.sought valid strict with ⟨pair, rest, rfl, same, found⟩ | ⟨other, absent⟩
  · exact Or.inl ⟨pair, rest, rfl, same, found, by simp [keyEquals, BTreeSet.equals, same]⟩
  · refine Or.inr ⟨absent, ?_⟩
    cases high with
    | nil => rfl
    | cons head rest => simp [keyEquals, BTreeSet.equals, other head rfl]

theorem insert_spec (valid : map.set.Valid) (wanted : K) (value : V) : ∃ after : BTreeMap F K V,
    map.insert wanted value = some ((SortedList.insertPair ⟨wanted, value⟩ map.entries).1, after) ∧ after.set.Valid ∧
      after.entries = (SortedList.insertPair ⟨wanted, value⟩ map.entries).2 := by
  obtain ⟨before, low, high, after, located, present | absent⟩ := findCmp_spec valid strictMono_id (key wanted)
  · obtain ⟨pair, rest, rfl, same, found, ran⟩ := present
    obtain ⟨ref, there, current, refers⟩ := refAt_refers valid located.toOpened
    have listed : SortedList.find id (key (⟨wanted, value⟩ : Pair K V)) map.entries = some pair := found
    simp only [insert, ran, there, bind, Option.bind_some, pure, SortedList.insertPair, listed]
    refine ⟨_, by rw [current], refers.valid value, ?_⟩
    have written := refers.write value
    rwa [show key pair = key wanted from same] at written
  · obtain ⟨absent, ran⟩ := absent
    have lower : ∀ item ∈ before.flatten, key item < key (⟨wanted, value⟩ : Pair K V) := fun item member =>
      (located.cut valid).lower item (List.mem_append_left _ member)
    obtain ⟨inserted, grown, stored, gained⟩ := BTreeSet.insertAt_spec valid located.toOpened lower
      (located.beyond valid strictMono_id)
    have listed : SortedList.find id (key (⟨wanted, value⟩ : Pair K V)) map.entries = none := SortedList.find_absent absent
    have fresh : inserted = true := by
      by_contra old
      obtain ⟨⟨item, member, same⟩, _⟩ := gained.known (Bool.eq_false_iff.mpr old)
      exact absent item member same
    simp only [insert, ran, stored, bind, Option.bind_some, pure, SortedList.insertPair, listed]
    exact ⟨_, rfl, gained.valid, SortedList.eq_store valid.sorted (gained.fresh fresh).2⟩

theorem deleteCmp_spec (valid : map.set.Valid) (strict : StrictMono borrow) (wanted : Q) : ∃ left,
    map.set.deleteCmp (keyBelow borrow wanted) (keyEquals borrow wanted) =
      some ((SortedList.find borrow wanted map.entries, (SortedList.find borrow wanted map.entries).isSome), left) ∧
      left.Valid ∧ left.elements = SortedList.without borrow wanted map.entries := by
  obtain ⟨before, low, high, after, located, present | absent⟩ := findCmp_spec valid strict wanted
  · obtain ⟨pair, rest, rfl, same, found, ran⟩ := present
    obtain ⟨left, deleted, leftValid, _, elements⟩ := located.delete valid strict same
    exact ⟨left, by simp [BTreeSet.deleteCmp, ran, deleted, found], leftValid, elements⟩
  · obtain ⟨absent, ran⟩ := absent
    refine ⟨map.set, ?_, valid, (SortedList.without_absent absent).symm⟩
    simp [BTreeSet.deleteCmp, ran, SortedList.find_absent absent]

theorem remove_spec (valid : map.set.Valid) (strict : StrictMono borrow) (wanted : Q) : ∃ left : BTreeMap F K V,
    map.remove borrow wanted = some ((SortedList.find borrow wanted map.entries).map Pair.value, left) ∧ left.set.Valid ∧
      left.entries = SortedList.without borrow wanted map.entries := by
  obtain ⟨left, ran, leftValid, elements⟩ := deleteCmp_spec valid strict wanted
  refine ⟨⟨left⟩, ?_, leftValid, elements⟩
  rw [remove, ran]
  cases SortedList.find borrow wanted map.entries <;> rfl

theorem removeEntry_spec (valid : map.set.Valid) (strict : StrictMono borrow) (wanted : Q) : ∃ left : BTreeMap F K V,
    map.removeEntry borrow wanted = some ((SortedList.find borrow wanted map.entries).map fun pair => (pair.key, pair.value), left) ∧
      left.set.Valid ∧ left.entries = SortedList.without borrow wanted map.entries := by
  obtain ⟨left, ran, leftValid, elements⟩ := deleteCmp_spec valid strict wanted
  refine ⟨⟨left⟩, ?_, leftValid, elements⟩
  rw [removeEntry, ran]
  cases SortedList.find borrow wanted map.entries <;> rfl

theorem rankCmp_spec (valid : map.set.Valid) (strict : StrictMono borrow) (wanted : Q) :
    map.set.rankCmp (keyBelow borrow wanted) =
      some (map.entries.filter fun pair => decide (borrow (key pair) < wanted)).length :=
  BTreeSet.rankCmp_spec valid (BTreeSet.descending_below strict.monotone wanted)

theorem rank_at (valid : map.set.Valid) (strict : StrictMono borrow) {wanted : Q}
    (found : SortedList.find borrow wanted map.entries = some pair) :
    map.entries[(map.entries.filter fun pair => decide (borrow (key pair) < wanted)).length]? = some pair := by
  obtain ⟨before, low, high, after, located, _, _⟩ :=
    BTreeSet.locateValueBy_spec valid true (BTreeSet.descending_below strict.monotone wanted)
  have cut := located.cut valid
  rcases located.sought valid strict with ⟨item, rest, rfl, same, listed⟩ | ⟨other, absent⟩
  · cases found.symm.trans listed
    rw [entries, located.parts, cut.filter_lt, List.getElem?_append_right le_rfl, Nat.sub_self]
    rfl
  · rw [entries, SortedList.find_absent absent] at found
    cases found

end BTreeMap
end Indexset
end WorkTablesIndex
