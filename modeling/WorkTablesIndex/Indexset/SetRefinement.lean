import WorkTablesIndex.Indexset.SetPositions
import WorkTablesIndex.Indexset.SortedList

/-! The single-threaded set against a sorted list: every public call on every reachable set
returns what the list operation returns and leaves what it leaves. -/

namespace WorkTablesIndex.Indexset
open Slice

variable {F α κ Q : Type} [FenwickTree F] [LinearOrder κ] [Keyed α κ] [LinearOrder Q]

def Returns {R : Type} (result : Option (R × BTreeSet F α)) (expected : R × List α) : Prop :=
  ∃ after, result = some (expected.1, after) ∧ after.elements = expected.2

def IntoIter.run : List SortedList.End → IntoIter F α → Option (List (Option α) × IntoIter F α)
  | [], iter => some ([], iter)
  | side :: rest, iter => do
    let (item, iter) ← match side with
      | .front => iter.next
      | .back => iter.nextBack
    let (items, iter) ← IntoIter.run rest iter
    return (item :: items, iter)

namespace BTreeSet

/-- The sets that public calls lead to, with nodes of at least two. -/
inductive Reachable : BTreeSet F α → Prop where
  | new : Reachable new
  | withMaximumNodeSize {maximumNodeSize : Nat} (room : 2 ≤ maximumNodeSize) : Reachable (.withMaximumNodeSize maximumNodeSize)
  | clear {set : BTreeSet F α} (earlier : Reachable set) : Reachable set.clear
  | insert {set after : BTreeSet F α} {result} (earlier : Reachable set) (value : α)
      (ran : set.insert value = some (result, after)) : Reachable after
  | replace {set after : BTreeSet F α} {result} (earlier : Reachable set) (value : α)
      (ran : set.replace value = some (result, after)) : Reachable after
  | remove {set after : BTreeSet F α} {result} {Q : Type} [LinearOrder Q] (earlier : Reachable set) (borrow : κ → Q)
      (strict : StrictMono borrow) (value : Q) (ran : set.remove borrow value = some (result, after)) : Reachable after
  | take {set after : BTreeSet F α} {result} {Q : Type} [LinearOrder Q] (earlier : Reachable set) (borrow : κ → Q)
      (strict : StrictMono borrow) (value : Q) (ran : set.take borrow value = some (result, after)) : Reachable after
  | popFirst {set after : BTreeSet F α} {result} (earlier : Reachable set)
      (ran : set.popFirst = some (result, after)) : Reachable after
  | popLast {set after : BTreeSet F α} {result} (earlier : Reachable set)
      (ran : set.popLast = some (result, after)) : Reachable after
  | popIndex {set after : BTreeSet F α} {result} (earlier : Reachable set) (idx : Nat) (inside : idx < set.len)
      (ran : set.popIndex idx = some (result, after)) : Reachable after
  | retain {set after : BTreeSet F α} {σ : Type} {result : σ} (earlier : Reachable set) (f : α → σ → Bool × σ) (state : σ)
      (ran : set.retain f state = some (result, after)) : Reachable after
  | append {set other after drained : BTreeSet F α} (earlier : Reachable set) (beside : Reachable other) (fuel : Nat)
      (ran : append fuel set other = some (after, drained)) : Reachable after
  | appended {set other after drained : BTreeSet F α} (earlier : Reachable set) (beside : Reachable other) (fuel : Nat)
      (ran : BTreeSet.append fuel set other = some (after, drained)) : Reachable drained
  | splitOff {set kept moved : BTreeSet F α} {Q : Type} [LinearOrder Q] (earlier : Reachable set) (borrow : κ → Q)
      (strict : StrictMono borrow) (value : Q) (ran : set.splitOff borrow value = some (kept, moved)) : Reachable kept
  | latterHalf {set kept moved : BTreeSet F α} {Q : Type} [LinearOrder Q] (earlier : Reachable set) (borrow : κ → Q)
      (strict : StrictMono borrow) (value : Q) (ran : set.splitOff borrow value = some (kept, moved)) : Reachable moved

structure RefinesList (set : BTreeSet F α) : Prop where
  insert (value : α) : Returns (set.insert value) (SortedList.insert value set.elements)
  replace (value : α) : Returns (set.replace value) (SortedList.replace value set.elements)
  remove {Q : Type} [LinearOrder Q] (borrow : κ → Q) (strict : StrictMono borrow) (value : Q) :
    Returns (set.remove borrow value) (SortedList.remove borrow value set.elements)
  take {Q : Type} [LinearOrder Q] (borrow : κ → Q) (strict : StrictMono borrow) (value : Q) :
    Returns (set.take borrow value) (SortedList.take borrow value set.elements)
  popFirst : Returns set.popFirst (SortedList.popFirst set.elements)
  popLast : Returns set.popLast (SortedList.popLast set.elements)
  popIndex (idx : Nat) : idx < set.len →
    ∃ inside : idx < set.elements.length, Returns (set.popIndex idx) (set.elements[idx], set.elements.eraseIdx idx)
  retain {σ : Type} (f : α → σ → Bool × σ) (state : σ) : Returns (set.retain f state) (SortedList.retain f set.elements state)
  append (other : BTreeSet F α) (fuel : Nat) : Reachable other → other.len < fuel → ∃ after drained,
    append fuel set other = some (after, drained) ∧ after.elements = SortedList.append set.elements other.elements ∧
      drained.elements = []
  splitOff {Q : Type} [LinearOrder Q] (borrow : κ → Q) (strict : StrictMono borrow) (value : Q) : ∃ kept moved,
    set.splitOff borrow value = some (kept, moved) ∧ (kept.elements, moved.elements) = SortedList.splitOff borrow value set.elements
  contains {Q : Type} [LinearOrder Q] (borrow : κ → Q) (strict : StrictMono borrow) (value : Q) :
    set.contains borrow value = some (SortedList.contains borrow value set.elements)
  lowerBound {Q : Type} [LinearOrder Q] (borrow : κ → Q) (strict : StrictMono borrow) (value : Q) :
    set.lowerBound borrow value = some (SortedList.lowerBound borrow value set.elements)
  first : set.first = set.elements.head?
  last : set.last = set.elements.getLast?
  len : set.len = set.elements.length
  intoIter (ends : List SortedList.End) : ∃ iter, IntoIter.run ends ⟨set⟩ = some ((SortedList.drain ends set.elements).1, iter) ∧
    iter.btree.elements = (SortedList.drain ends set.elements).2

section Calls
variable [LawfulFenwickTree F] {set : BTreeSet F α} {borrow : κ → Q}

theorem Located.cut {value : Q} {before after : List (List α)} {low high : List α} (valid : Valid set)
    (located : Located (below borrow value) set before low high after) :
    SortedList.Cut borrow value (before.flatten ++ low) (high ++ after.flatten) := by
  refine ⟨located.parts ▸ valid.sorted, fun item member => ?_, fun item member => ?_⟩
  · simpa [below] using located.lower item member
  · simpa [below] using located.upper item member

theorem Located.beyond {value : Q} {before after : List (List α)} {low high : List α} (valid : Valid set)
    (strict : StrictMono borrow)
    (located : Located (below borrow value) set before low high after) : ∀ item ∈ after.flatten, value < borrow (key item) := by
  intro item member
  cases high with
  | nil =>
    rw [located.final rfl] at member
    cases member
  | cons head rest =>
    have cut := located.cut valid
    have sorted := (Node.sorted_append.mp cut.sorted).2.1
    have behind : item ∈ rest ++ after.flatten := List.mem_append_right _ member
    exact (cut.upper head List.mem_cons_self).trans_lt (strict (List.rel_of_pairwise_cons sorted behind))

theorem insert_spec (valid : Valid set) (value : α) :
    ∃ inserted grown, set.insert value = some (inserted, grown) ∧ Gained set value inserted grown := by
  obtain ⟨before, low, high, after, located, position, _⟩ :=
    locateValueBy_spec valid false (descending_below monotone_id (key value))
  have lower : ∀ item ∈ before.flatten, key item < key value := fun item member =>
    (located.cut valid).lower item (List.mem_append_left _ member)
  rw [insert, locateNode, position]
  exact insertAt_spec valid located.toOpened lower (located.beyond valid strictMono_id)

theorem Gained.returns {value : α} {inserted : Bool} {grown : BTreeSet F α} (gained : Gained set value inserted grown)
    (valid : Valid set) : (inserted, grown.elements) = SortedList.insert value set.elements := by
  cases inserted with
  | true =>
    obtain ⟨absent, upserted⟩ := gained.fresh rfl
    rw [SortedList.insert, SortedList.find_absent (by simpa using absent), if_neg (by simp),
      SortedList.eq_store valid.sorted upserted]
  | false =>
    obtain ⟨present, same⟩ := gained.known rfl
    rw [SortedList.insert, if_pos (SortedList.find_isSome.mpr present), same]

theorem Located.sought {value : Q} {before after : List (List α)} {low high : List α} (valid : Valid set)
    (strict : StrictMono borrow)
    (located : Located (below borrow value) set before low high after) :
    (∃ item rest, high = item :: rest ∧ borrow (key item) = value ∧ SortedList.find borrow value set.elements = some item) ∨
    (∀ item, high.head? = some item → borrow (key item) ≠ value) ∧ (∀ item ∈ set.elements, borrow (key item) ≠ value) := by
  have cut := located.cut valid
  by_cases found : ∃ item, high.head? = some item ∧ borrow (key item) = value
  · obtain ⟨item, first, same⟩ := found
    obtain ⟨rest, rfl⟩ := List.head?_eq_some_iff.mp first
    refine Or.inl ⟨item, rest, rfl, same, ?_⟩
    rw [located.parts, List.cons_append]
    exact cut.find_equal same
  · refine Or.inr ⟨fun item first same => found ⟨item, first, same⟩, ?_⟩
    rw [located.parts]
    refine cut.absent strict fun item first same => found ⟨item, ?_, same⟩
    cases high with
    | nil =>
      rw [located.final rfl] at first
      cases first
    | cons head rest => exact first

omit [LinearOrder κ] [Keyed α κ] [LawfulFenwickTree F] [LinearOrder Q] [FenwickTree F] in
theorem Located.get {cmp : α → Bool} {before after : List (List α)} {low high : List α}
    (located : Located cmp set before low high after) :
    ((set.inner[before.length]?).bind fun node => node[low.length]?) = high.head? := by
  rw [located.toOpened.get, Option.bind_some, List.getElem?_append_right le_rfl, Nat.sub_self, List.head?_eq_getElem?]

theorem Located.delete {value : Q} {item : α} {before after : List (List α)} {low rest : List α} (valid : Valid set)
    (strict : StrictMono borrow) (located : Located (below borrow value) set before low (item :: rest) after)
    (same : borrow (key item) = value) :
    ∃ left, deleteAt before.length low.length set = some (item, left) ∧ Valid left ∧ left.nodeCapacity = set.nodeCapacity ∧
      left.elements = SortedList.without borrow value set.elements := by
  obtain ⟨left, deleted, lost⟩ := deleteAt_spec valid located.toOpened
  refine ⟨left, deleted, lost.valid, lost.nodeCapacity, ?_⟩
  have cut := located.cut valid
  rw [List.cons_append] at cut
  rw [lost.elements, located.parts, List.cons_append, cut.without_equal strict same]
  simp

theorem delete_spec (valid : Valid set) (strict : StrictMono borrow) (value : Q) :
    ∃ left, set.delete borrow value =
        some ((SortedList.find borrow value set.elements, (SortedList.find borrow value set.elements).isSome), left) ∧
      Valid left ∧ left.nodeCapacity = set.nodeCapacity ∧ left.elements = SortedList.without borrow value set.elements := by
  obtain ⟨before, low, high, after, located, _, position⟩ :=
    locateValueBy_spec valid false (descending_below strict.monotone value)
  simp only [BTreeSet.delete, locateValue, position, located.get, bind, Option.bind_some, pure]
  rcases located.sought valid strict with ⟨item, rest, rfl, same, found⟩ | ⟨other, absent⟩
  · obtain ⟨left, deleted, leftValid, capacity, elements⟩ := located.delete valid strict same
    exact ⟨left, by simp [same, deleted, found], leftValid, capacity, elements⟩
  · refine ⟨set, ?_, valid, rfl, (SortedList.without_absent absent).symm⟩
    rw [SortedList.find_absent absent]
    cases high with
    | nil => rfl
    | cons head rest => simp [other head rfl]

theorem replace_spec (valid : Valid set) (value : α) :
    ∃ after, set.replace value = some (SortedList.find id (key value) set.elements, after) ∧ Valid after ∧
      after.nodeCapacity = set.nodeCapacity ∧ after.elements = SortedList.store value set.elements := by
  obtain ⟨left, taken, leftValid, capacity, elements⟩ := delete_spec valid strictMono_id (key value)
  obtain ⟨inserted, grown, stored, gained⟩ := insert_spec leftValid value
  have absent : ∀ item ∈ left.elements, key item ≠ key value := by
    rw [elements]
    intro item member
    simpa using (List.mem_filter.mp member).2
  have fresh : inserted = true := by
    by_contra old
    obtain ⟨⟨item, member, same⟩, _⟩ := gained.known (Bool.eq_false_iff.mpr old)
    exact absent item member same
  refine ⟨grown, ?_, gained.valid, gained.nodeCapacity.trans capacity, ?_⟩
  · simp only [replace, BTreeSet.take, taken, Option.map_some, bind, Option.bind_some, stored, pure]
  · refine SortedList.eq_store valid.sorted ⟨gained.valid.sorted, fun item => ?_⟩
    rw [(gained.fresh fresh).2.mem, elements, SortedList.without, List.mem_filter]
    simp only [id_eq, decide_eq_true_eq, and_assoc, and_self]

theorem splitOff_spec (valid : Valid set) (strict : StrictMono borrow) (value : Q) :
    ∃ kept moved, set.splitOff borrow value = some (kept, moved) ∧ Valid kept ∧ Valid moved ∧
      kept.nodeCapacity = set.nodeCapacity ∧ moved.nodeCapacity = defaultInnerSize ∧
      (kept.elements, moved.elements) = SortedList.splitOff borrow value set.elements := by
  obtain ⟨before, low, high, after, located, _, position⟩ :=
    locateValueBy_spec valid false (descending_below strict.monotone value)
  obtain ⟨kept, moved, ran, ⟨keptValid, keptCapacity, stays⟩, movedValid, movedCapacity, goes⟩ := splitOffAt_spec valid located
  have cut := located.cut valid
  refine ⟨kept, moved, ?_, keptValid, movedValid, keptCapacity, movedCapacity, ?_⟩
  · simp only [splitOff, locateValue, position, bind, Option.bind_some, ran]
  · rw [SortedList.splitOff, located.parts, cut.filter_lt, cut.filter_ge, stays, goes]

/-- What `append` makes of the list: the other elements one after the other, each in its place. -/
private theorem append_loop (fuel : Nat) {other : BTreeSet F α} (valid : Valid set) (beside : Valid other)
    (enough : other.elements.length < fuel) :
    ∃ after drained, append fuel set other = some (after, drained) ∧ Valid after ∧ Valid drained ∧
      after.nodeCapacity = set.nodeCapacity ∧ drained.nodeCapacity = other.nodeCapacity ∧
      after.elements = other.elements.foldl (fun items value => SortedList.store value items) set.elements ∧
        drained.elements = [] := by
  induction fuel generalizing set other with
  | zero => exact absurd enough (Nat.not_lt_zero _)
  | succ fuel ih =>
    obtain ⟨left, popped, leftValid, capacity, rest⟩ := popFirst_spec beside
    cases elements : other.elements with
    | nil =>
      rw [elements] at popped rest
      refine ⟨set, left, ?_, valid, leftValid, rfl, capacity, rfl, rest⟩
      simp only [append, popped, bind, Option.bind_some]
      rfl
    | cons value further =>
      rw [elements] at popped rest enough
      obtain ⟨replaced, stored, replacedValid, replacedCapacity, holds⟩ := replace_spec valid value
      have fewer : left.elements.length < fuel := by
        rw [rest]
        simpa using enough
      obtain ⟨after, drained, ran, afterValid, drainedValid, afterCapacity, drainedCapacity, result, empty⟩ :=
        ih replacedValid leftValid fewer
      refine ⟨after, drained, ?_, afterValid, drainedValid, afterCapacity.trans replacedCapacity,
        drainedCapacity.trans capacity, ?_, empty⟩
      · simp only [append, popped, List.head?_cons, bind, Option.bind_some, stored]
        exact ran
      · rw [result, rest, holds]
        rfl

omit [FenwickTree F] [LawfulFenwickTree F] [LinearOrder Q] in
/-- Storing sorted elements one after the other is the same as merging them in. -/
private theorem foldl_store {items other : List α} (sorted : Node.Sorted items) (ordered : Node.Sorted other) :
    other.foldl (fun items value => SortedList.store value items) items = SortedList.append items other := by
  have folded : ∀ other items : List α, Node.Sorted items → Node.Sorted other →
      Node.Sorted (other.foldl (fun items value => SortedList.store value items) items) ∧
      ∀ item, item ∈ other.foldl (fun items value => SortedList.store value items) items ↔
        item ∈ other ∨ item ∈ items ∧ ∀ moved ∈ other, key moved ≠ key item := by
    intro other
    induction other with
    | nil => exact fun items sorted _ => ⟨sorted, by simp⟩
    | cons value rest ih =>
      intro items sorted ordered
      obtain ⟨below, ordered⟩ := List.pairwise_cons.mp ordered
      have upserted := SortedList.store_upserted sorted value
      obtain ⟨result, members⟩ := ih _ upserted.sorted ordered
      refine ⟨result, fun item => ?_⟩
      rw [List.foldl_cons, members, upserted.mem, List.mem_cons, List.forall_mem_cons]
      constructor
      · intro member
        rcases member with later | ⟨rfl | ⟨there, different⟩, apart⟩
        · exact Or.inl (Or.inr later)
        · exact Or.inl (Or.inl rfl)
        · exact Or.inr ⟨there, different.symm, apart⟩
      · intro member
        rcases member with (rfl | later) | ⟨there, different, apart⟩
        · exact Or.inr ⟨Or.inl rfl, fun moved there same => (below moved there).ne same.symm⟩
        · exact Or.inl later
        · exact Or.inr ⟨Or.inr ⟨there, different.symm⟩, apart⟩
  obtain ⟨result, members⟩ := folded other items sorted ordered
  exact result.ext (SortedList.append_sorted sorted ordered) fun item => by rw [members, SortedList.mem_append]

theorem append_spec {fuel : Nat} {other : BTreeSet F α} (valid : Valid set) (beside : Valid other)
    (enough : other.elements.length < fuel) :
    ∃ after drained, append fuel set other = some (after, drained) ∧ Valid after ∧ Valid drained ∧
      after.nodeCapacity = set.nodeCapacity ∧ drained.nodeCapacity = other.nodeCapacity ∧
      after.elements = SortedList.append set.elements other.elements ∧ drained.elements = [] := by
  obtain ⟨after, drained, ran, afterValid, drainedValid, capacity, capacity', result, empty⟩ := append_loop fuel valid beside enough
  exact ⟨after, drained, ran, afterValid, drainedValid, capacity, capacity',
    result.trans (foldl_store valid.sorted beside.sorted), empty⟩

omit [LawfulFenwickTree F] in
private theorem append_more {fuel : Nat} {set other : BTreeSet F α} {result} (ran : append fuel set other = some result)
    (more : Nat) :
    append (fuel + more) set other = some result := by
  induction fuel generalizing set other with
  | zero => cases ran
  | succ fuel ih =>
    rw [Nat.add_right_comm]
    simp only [append, bind] at ran ⊢
    obtain ⟨⟨popped, rest⟩, first, ran⟩ := Option.bind_eq_some_iff.mp ran
    rw [first, Option.bind_some]
    cases popped with
    | none => exact ran
    | some value =>
      obtain ⟨replaced, stored, ran⟩ := Option.bind_eq_some_iff.mp ran
      simp only [stored, Option.bind_some]
      exact ih ran

theorem append_valid {fuel : Nat} {other after drained : BTreeSet F α} (valid : Valid set) (beside : Valid other)
    (ran : append fuel set other = some (after, drained)) : Valid after ∧ Valid drained := by
  have longer := append_more ran (other.elements.length + 1)
  obtain ⟨_, _, returned, afterValid, drainedValid, _⟩ := append_spec valid beside (Nat.lt_add_left fuel (Nat.lt_succ_self _))
  cases longer.symm.trans returned
  exact ⟨afterValid, drainedValid⟩

theorem Reachable.valid (reached : Reachable set) : Valid set := by
  induction reached with
  | new => exact valid_withMaximumNodeSize (by decide)
  | withMaximumNodeSize room => exact valid_withMaximumNodeSize room
  | clear earlier ih => exact ih.clear
  | insert earlier value ran ih =>
    obtain ⟨_, _, returned, gained⟩ := insert_spec ih value
    cases ran.symm.trans returned
    exact gained.valid
  | replace earlier value ran ih =>
    obtain ⟨_, returned, valid, _⟩ := replace_spec ih value
    cases ran.symm.trans returned
    exact valid
  | remove earlier borrow strict value ran ih =>
    obtain ⟨_, returned, valid, _⟩ := delete_spec ih strict value
    rw [BTreeSet.remove, returned] at ran
    cases ran
    exact valid
  | take earlier borrow strict value ran ih =>
    obtain ⟨_, returned, valid, _⟩ := delete_spec ih strict value
    rw [BTreeSet.take, returned] at ran
    cases ran
    exact valid
  | popFirst earlier ran ih =>
    obtain ⟨_, returned, valid, _⟩ := popFirst_spec ih
    cases ran.symm.trans returned
    exact valid
  | popLast earlier ran ih =>
    obtain ⟨_, returned, valid, _⟩ := popLast_spec ih
    cases ran.symm.trans returned
    exact valid
  | popIndex earlier idx inside ran ih =>
    obtain ⟨_, returned, valid, _⟩ := popIndex_spec ih (ih.counted ▸ inside)
    cases ran.symm.trans returned
    exact valid
  | retain earlier f state ran ih =>
    obtain ⟨_, returned, valid, _⟩ := retainMut_spec (fun item state => ((f item state).1, item, (f item state).2)) ih
      (fun _ _ => rfl) state
    cases ran.symm.trans returned
    exact valid
  | append earlier beside fuel ran ih other => exact (append_valid ih other ran).1
  | appended earlier beside fuel ran ih other => exact (append_valid ih other ran).2
  | splitOff earlier borrow strict value ran ih =>
    obtain ⟨_, _, returned, kept, _⟩ := splitOff_spec ih strict value
    cases ran.symm.trans returned
    exact kept
  | latterHalf earlier borrow strict value ran ih =>
    obtain ⟨_, _, returned, _, moved, _⟩ := splitOff_spec ih strict value
    cases ran.symm.trans returned
    exact moved

omit [LinearOrder Q] in
theorem head_flatten (valid : Valid set) : (set.inner.head?).bind List.head? = set.elements.head? := by
  rcases valid.filled with empty | filled
  · rw [elements, empty]
    rfl
  · obtain ⟨node, rest, nodes⟩ := List.exists_cons_of_ne_nil valid.nonempty
    obtain ⟨item, further, values⟩ := List.exists_cons_of_ne_nil (filled node (nodes ▸ List.mem_cons_self))
    rw [elements, nodes, values]
    rfl

omit [LinearOrder Q] in
private theorem getLast_flatten (valid : Valid set) : (set.inner.getLast?).bind List.getLast? = set.elements.getLast? := by
  rcases valid.filled with empty | filled
  · rw [elements, empty]
    rfl
  · obtain ⟨rest, node, nodes⟩ := List.eq_nil_or_concat set.inner |>.resolve_left valid.nonempty
    rw [List.concat_eq_append] at nodes
    have holds : node ≠ [] := filled node (nodes ▸ List.mem_append_right _ List.mem_cons_self)
    obtain ⟨max, top⟩ : ∃ max, node.getLast? = some max := ⟨_, List.getLast?_eq_some_getLast holds⟩
    rw [elements, nodes]
    simp [top]

theorem candidateBy_any (valid : Valid set) (onEmpty : Bool) (strict : StrictMono borrow) (value : Q) :
    (candidateBy onEmpty (below borrow value) set).map (Option.any (equals borrow value)) =
      some (SortedList.contains borrow value set.elements) := by
  obtain ⟨before, low, high, after, located, _, position⟩ :=
    locateValueBy_spec valid onEmpty (descending_below strict.monotone value)
  simp only [candidateBy, position, located.get, bind, Option.bind_some, pure, Option.map_some, SortedList.contains]
  rcases located.sought valid strict with ⟨item, rest, rfl, same, found⟩ | ⟨other, absent⟩
  · simp [found, equals, same]
  · rw [SortedList.find_absent absent]
    cases high with
    | nil => rfl
    | cons head rest => simp [equals, other head rfl]

theorem contains_spec (valid : Valid set) (strict : StrictMono borrow) (value : Q) :
    set.contains borrow value = some (SortedList.contains borrow value set.elements) :=
  (Option.map_eq_bind ..).symm.trans (candidateBy_any valid false strict value)

theorem lowerBound_spec (valid : Valid set) (strict : StrictMono borrow) (value : Q) :
    set.lowerBound borrow value = some (SortedList.lowerBound borrow value set.elements) := by
  rw [lowerBound, candidateBy_eq valid false (descending_below strict.monotone value)]
  congr 2
  funext item
  rw [Bool.eq_iff_iff]
  simp [below]

omit [LinearOrder Q] in
private theorem intoIter_run (ends : List SortedList.End) (valid : Valid set) :
    ∃ iter, IntoIter.run ends ⟨set⟩ = some ((SortedList.drain ends set.elements).1, iter) ∧
      iter.btree.elements = (SortedList.drain ends set.elements).2 := by
  induction ends generalizing set with
  | nil => exact ⟨⟨set⟩, rfl, rfl⟩
  | cons side rest ih =>
    cases side with
    | front =>
      obtain ⟨left, popped, leftValid, _, elements⟩ := popFirst_spec valid
      obtain ⟨iter, ran, remaining⟩ := ih leftValid
      rw [elements] at ran remaining
      refine ⟨iter, ?_, remaining⟩
      simp only [IntoIter.run, IntoIter.next, popped, Option.map_some, bind, Option.bind_some, ran]
      rfl
    | back =>
      obtain ⟨left, popped, leftValid, _, elements⟩ := popLast_spec valid
      obtain ⟨iter, ran, remaining⟩ := ih leftValid
      rw [elements] at ran remaining
      refine ⟨iter, ?_, remaining⟩
      simp only [IntoIter.run, IntoIter.nextBack, popped, Option.map_some, bind, Option.bind_some, ran]
      rfl

omit [FenwickTree F] [LawfulFenwickTree F] [LinearOrder κ] [Keyed α κ] [LinearOrder Q] in
private theorem sieve_retain {σ : Type} (f : α → σ → Bool × σ) (items : List α) (state : σ) :
    sieve (fun item state => ((f item state).1, item, (f item state).2)) items state = SortedList.retain f items state := by
  induction items generalizing state with
  | nil => rfl
  | cons item rest ih => simp only [sieve, SortedList.retain, ih]

end Calls

/-- Every public call on a reachable set does what the list operation does. -/
theorem refines_sorted_list [LawfulFenwickTree F] {set : BTreeSet F α} (reached : Reachable set) : RefinesList set := by
  have valid := reached.valid
  constructor
  case insert =>
    intro value
    obtain ⟨inserted, grown, ran, gained⟩ := insert_spec valid value
    have same := gained.returns valid
    exact ⟨grown, by rw [ran, ← same], by rw [← same]⟩
  case replace =>
    intro value
    obtain ⟨after, ran, _, _, elements⟩ := replace_spec valid value
    exact ⟨after, ran, elements⟩
  case remove =>
    intro Q _ borrow strict value
    obtain ⟨left, ran, _, _, elements⟩ := delete_spec valid strict value
    exact ⟨left, by rw [BTreeSet.remove, ran]; rfl, elements⟩
  case take =>
    intro Q _ borrow strict value
    obtain ⟨left, ran, _, _, elements⟩ := delete_spec valid strict value
    exact ⟨left, by rw [BTreeSet.take, ran]; rfl, elements⟩
  case popFirst =>
    obtain ⟨left, ran, _, _, elements⟩ := popFirst_spec valid
    exact ⟨left, ran, elements⟩
  case popLast =>
    obtain ⟨left, ran, _, _, elements⟩ := popLast_spec valid
    exact ⟨left, ran, elements⟩
  case popIndex =>
    intro idx inside
    have within : idx < set.elements.length := valid.counted ▸ inside
    obtain ⟨left, ran, _, _, elements⟩ := popIndex_spec valid within
    exact ⟨within, left, ran, elements⟩
  case retain =>
    intro σ f state
    obtain ⟨left, ran, _, _, elements⟩ := retainMut_spec (fun item state => ((f item state).1, item, (f item state).2)) valid
      (fun _ _ => rfl) state
    rw [sieve_retain] at ran elements
    exact ⟨left, ran, elements⟩
  case append =>
    intro other fuel beside enough
    obtain ⟨after, drained, ran, _, _, _, _, elements, empty⟩ := append_spec valid beside.valid (beside.valid.counted ▸ enough)
    exact ⟨after, drained, ran, elements, empty⟩
  case splitOff =>
    intro Q _ borrow strict value
    obtain ⟨kept, moved, ran, _, _, _, _, elements⟩ := splitOff_spec valid strict value
    exact ⟨kept, moved, ran, elements⟩
  case contains => exact fun borrow strict value => contains_spec valid strict value
  case lowerBound => exact fun borrow strict value => lowerBound_spec valid strict value
  case first => exact head_flatten valid
  case last => exact getLast_flatten valid
  case len => exact valid.counted
  case intoIter => exact fun ends => intoIter_run ends valid

/-- Three elements in nodes of at most two. -/
theorem refines_sorted_list_two : ∃ set : BTreeSet (List Nat) Nat, Reachable set ∧ set.inner = [[1], [2, 3]] ∧ RefinesList set := by
  have reached : ∃ set : BTreeSet (List Nat) Nat, Reachable set ∧ set.inner = [[1], [2, 3]] :=
    ⟨_, .insert (.insert (.insert (.withMaximumNodeSize (le_refl 2)) 1 rfl) 2 rfl) 3 rfl, rfl⟩
  obtain ⟨set, reached, nodes⟩ := reached
  exact ⟨set, reached, nodes, refines_sorted_list reached⟩

end BTreeSet
end WorkTablesIndex.Indexset
