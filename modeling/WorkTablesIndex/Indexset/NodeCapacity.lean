import WorkTablesIndex.Indexset.Mutations

/-! The number of elements in a node. A full node is cut before it takes a value, so no call makes
a node larger than the capacity; but what is split off gets the default capacity, whatever its
nodes hold. -/

namespace WorkTablesIndex.Indexset
open Slice

variable {F α K V κ : Type} [FenwickTree F] [LinearOrder κ] [Keyed α κ] [Keyed K κ]

namespace BTreeSet
variable {set after : BTreeSet F α}

def Bounded (set : BTreeSet F α) : Prop := ∀ node ∈ set.inner, node.length ≤ set.nodeCapacity

/-- No node has more elements from the comparison on than a set with the default capacity holds in one. -/
def Fits (cmp : α → Bool) (set : BTreeSet F α) : Prop :=
  ∀ node ∈ set.inner, (node.filter fun item => !cmp item).length ≤ defaultInnerSize

private theorem Takes.bounded {node : List α} {value : α} {nodeCapacity : Nat} {inserted : Bool} {middle : List (List α)}
    (takes : Takes nodeCapacity node value inserted middle) (room : 2 ≤ nodeCapacity) (bounded : node.length ≤ nodeCapacity) :
    ∀ other ∈ middle, other.length ≤ nodeCapacity := by
  have one : ∀ (other : List α), (Node.insert other value).2.2.length ≤ other.length + 1 := by
    intro other
    rw [Node.insert_length]
    exact Nat.add_le_add_left (Bool.toNat_le _) _
  have left : (Node.halve node).1.length = node.length / 2 := by
    rw [Node.halve, List.length_take, Nat.min_eq_left (Nat.div_le_self _ _)]
  have right : (Node.halve node).2.length = node.length - node.length / 2 := List.length_drop
  intro other member
  cases takes with
  | spare spare =>
    obtain rfl := List.mem_singleton.mp member
    have grown := one node
    omega
  | left full there below =>
    rcases List.mem_pair.mp member with rfl | rfl
    · have grown := one (Node.halve node).1
      omega
    · omega
  | right full there reached =>
    rcases List.mem_pair.mp member with rfl | rfl
    · omega
    · have grown := one (Node.halve node).2
      omega

private theorem shrink_bounded {before rest : List (List α)} {node : List α} {nodeCapacity : Nat}
    (bounded : ∀ other ∈ before ++ node :: rest, other.length ≤ nodeCapacity) :
    ∀ other ∈ shrink before node rest, other.length ≤ nodeCapacity := by
  intro other member
  apply bounded
  unfold shrink at member
  split at member
  next =>
    rcases List.mem_append.mp member with earlier | later
    · exact List.mem_append_left _ earlier
    · exact List.mem_append_right _ (List.mem_cons_of_mem _ later)
  next => exact member

omit [FenwickTree F] in
private theorem Opened.bounded {before middle rest : List (List α)} {node : List α} {nodeCapacity : Nat}
    (opened : Opened set before node rest) (bounded : ∀ other ∈ set.inner, other.length ≤ nodeCapacity)
    (replaced : ∀ other ∈ middle, other.length ≤ nodeCapacity) :
    ∀ other ∈ before ++ middle ++ rest, other.length ≤ nodeCapacity := by
  rw [opened.nodes] at bounded
  intro other member
  rcases List.mem_append.mp member with early | later
  · rcases List.mem_append.mp early with earlier | here
    · exact bounded other (List.mem_append_left _ earlier)
    · exact replaced other here
  · exact bounded other (List.mem_append_right _ (List.mem_cons_of_mem _ later))

theorem Step.nodeCapacity_eq (step : Step set after) : after.nodeCapacity = set.nodeCapacity := by
  cases step with
  | clear => rfl
  | rewrite inner same => rfl
  | insertAt nodeIdx value ran =>
    obtain ⟨_, _, _, inserted⟩ := insertAt_inv ran
    exact inserted.nodeCapacity
  | deleteAt nodeIdx positionWithinNode ran =>
    obtain ⟨_, _, _, _, deleted⟩ := deleteAt_inv ran
    exact deleted.nodeCapacity
  | splitOffAt nodeIdx positionWithinNode ran =>
    obtain ⟨_, _, _, _, split⟩ := splitOffAt_inv ran
    rw [split.kept]

theorem Step.bounded (step : Step set after) (room : 2 ≤ set.nodeCapacity) (bounded : Bounded set) : Bounded after := by
  have capacity := step.nodeCapacity_eq
  unfold Bounded
  rw [capacity]
  cases step with
  | clear =>
    intro node member
    obtain rfl := List.mem_singleton.mp member
    exact Nat.zero_le _
  | rewrite inner same =>
    intro node member
    obtain ⟨other, stored, length⟩ := List.mem_map.mp (same ▸ List.mem_map_of_mem (f := List.length) member)
    rw [← length]
    exact bounded other stored
  | insertAt nodeIdx value ran =>
    obtain ⟨before, node, rest, inserted⟩ := insertAt_inv ran
    obtain ⟨middle, takes, inner⟩ := inserted.takes
    rw [inner]
    exact inserted.toOpened.bounded bounded (takes.bounded room (bounded node inserted.toOpened.member))
  | deleteAt nodeIdx positionWithinNode ran =>
    obtain ⟨before, low, high, rest, deleted⟩ := deleteAt_inv ran
    rw [deleted.inner]
    apply shrink_bounded
    rw [List.append_cons]
    apply deleted.toOpened.bounded bounded
    intro other member
    obtain rfl := List.mem_singleton.mp member
    have whole := bounded _ deleted.toOpened.member
    simp only [List.length_append, List.length_cons] at whole ⊢
    omega
  | splitOffAt nodeIdx positionWithinNode ran =>
    obtain ⟨before, low, high, rest, split⟩ := splitOffAt_inv ran
    have opened := split.toOpened
    rw [split.kept]
    apply shrink_bounded
    intro other member
    rcases List.mem_append.mp member with earlier | here
    · apply bounded
      rw [opened.nodes]
      exact List.mem_append_left _ earlier
    · obtain rfl := List.mem_singleton.mp here
      have whole := bounded _ opened.member
      rw [List.length_append] at whole
      omega

theorem Steps.bounded (steps : Steps set after) (room : 2 ≤ set.nodeCapacity) (bounded : Bounded set) : Bounded after := by
  have kept : 2 ≤ after.nodeCapacity ∧ Bounded after := by
    induction steps with
    | refl => exact ⟨room, bounded⟩
    | tail _ step ih => exact ⟨step.nodeCapacity_eq ▸ ih.1, step.bounded ih.1 ih.2⟩
  exact kept.2

omit [LinearOrder κ] [Keyed α κ] in
private theorem SplitOff.moved_bounded {cmp : α → Bool} {before rest : List (List α)} {low high : List α} {kept moved : BTreeSet F α}
    (split : SplitOff set before low high rest kept moved) (located : Located cmp set before low high rest) :
    Bounded moved ↔ Fits cmp set := by
  have earlier : ∀ node ∈ before, node.filter (fun item => !cmp item) = [] := by
    intro node member
    apply List.filter_eq_nil_iff.mpr
    intro item inside
    have lower := located.lower item (List.mem_append_left _ (List.mem_flatten_of_mem member inside))
    simp [lower]
  have here : (low ++ high).filter (fun item => !cmp item) = high := by
    rw [List.filter_append, List.filter_eq_nil_iff.mpr, List.filter_eq_self.mpr, List.nil_append]
    · intro item inside
      have upper := located.upper item (List.mem_append_left _ inside)
      simp [upper]
    · intro item inside
      have lower := located.lower item (List.mem_append_right _ inside)
      simp [lower]
  have later : ∀ node ∈ rest, node.filter (fun item => !cmp item) = node := by
    intro node member
    apply List.filter_eq_self.mpr
    intro item inside
    have upper := located.upper item (List.mem_append_right _ (List.mem_flatten_of_mem member inside))
    simp [upper]
  unfold Bounded Fits
  rw [split.moved, located.nodes]
  simp only [List.mem_append, List.mem_cons]
  constructor
  · rintro bounded node (before | rfl | after)
    · rw [earlier node before]
      exact Nat.zero_le _
    · rw [here]
      exact bounded high (Or.inl rfl)
    · rw [later node after]
      exact bounded node (Or.inr after)
  · rintro fits node (rfl | after)
    · have small := fits (low ++ node) (Or.inr (Or.inl rfl))
      rwa [here] at small
    · have small := fits node (Or.inr (Or.inr after))
      rwa [later node after] at small

variable [LawfulFenwickTree F]

/-- Both splitting functions, by the comparison they locate with. -/
private theorem splitOffAt_bounded (valid : Valid set) (onEmpty : Bool) {cmp : α → Bool} (descending : Descending cmp)
    {position : Nat × Nat} (found : locateValueBy onEmpty cmp set = some position) {kept moved : BTreeSet F α}
    (ran : splitOffAt position.1 position.2 set = some (kept, moved)) : Bounded moved ↔ Fits cmp set := by
  obtain ⟨before, low, high, rest, located, _, there⟩ := locateValueBy_spec valid onEmpty descending
  cases found.symm.trans there
  obtain ⟨_, _, cut, split⟩ := splitOffAt_splits located.toOpened low.length
  cases ran.symm.trans cut
  rw [List.take_left, List.drop_left] at split
  exact split.moved_bounded located

theorem splitOff_bounded {Q : Type} [LinearOrder Q] {borrow : κ → Q} (valid : Valid set) (strict : StrictMono borrow) {value : Q}
    {kept moved : BTreeSet F α} (ran : set.splitOff borrow value = some (kept, moved)) :
    Bounded moved ↔ Fits (below borrow value) set := by
  obtain ⟨position, found, split⟩ := Option.bind_eq_some_iff.mp ran
  exact splitOffAt_bounded valid false (descending_below strict.monotone value) found split

theorem popIndex_inside (valid : Valid set) {idx : Nat} {result : α} (ran : set.popIndex idx = some (result, after)) :
    idx < set.len := by
  by_contra outside
  rw [valid.counted] at outside
  simp only [popIndex, locateIth_beyond valid (not_lt.mp outside), deleteAt, List.getElem?_eq_none le_rfl, bind,
    Option.bind_none] at ran
  cases ran

theorem getMutIndex_inside (valid : Valid set) {index : Nat} {ref : RefMut α (BTreeSet F α)}
    (ran : set.getMutIndex index = some ref) : index < set.len := by
  by_contra outside
  rw [valid.counted] at outside
  simp only [getMutIndex, locateIth_beyond valid (not_lt.mp outside), refAt, List.getElem?_eq_none le_rfl, bind,
    Option.bind_none] at ran
  cases ran

theorem Mutates.reachable (call : Mutates set after) (earlier : Reachable set) : Reachable after := by
  cases call with
  | clear => exact earlier.clear
  | insert value ran => exact earlier.insert value ran
  | replace value ran => exact earlier.replace value ran
  | remove borrow strict value ran => exact earlier.remove borrow strict value ran
  | take borrow strict value ran => exact earlier.take borrow strict value ran
  | popFirst ran => exact earlier.popFirst ran
  | popLast ran => exact earlier.popLast ran
  | popIndex idx ran => exact earlier.popIndex idx (popIndex_inside earlier.valid ran) ran
  | retain f state ran => exact earlier.retain f state ran

theorem calls_bounded : (calls 2 Fits : Calls (BTreeSet F α)).Keeps fun set => Reachable set ∧ Bounded set := by
  constructor
  case makes =>
    intro _ given
    obtain ⟨maximumNodeSize, room, rfl⟩ := given
    refine ⟨.withMaximumNodeSize room, ?_⟩
    intro node member
    obtain rfl := List.mem_singleton.mp member
    exact Nat.zero_le _
  case changes =>
    rintro set after ⟨reached, bounded⟩ call
    exact ⟨call.reachable reached, call.steps.bounded reached.valid.room bounded⟩
  case exchanges =>
    rintro set other after drained ⟨reached, bounded⟩ ⟨beside, small⟩ ⟨fuel, ran⟩
    obtain ⟨left, right⟩ := append_steps ran
    exact ⟨⟨reached.append beside fuel ran, left.bounded reached.valid.room bounded⟩,
      reached.appended beside fuel ran, right.bounded beside.valid.room small⟩
  case cuts =>
    rintro set kept moved ⟨reached, bounded⟩ ⟨borrow, strict, value, fits, ran⟩
    exact ⟨⟨reached.splitOff borrow strict value ran, (splitOff_steps ran).1.bounded reached.valid.room bounded⟩,
      reached.latterHalf borrow strict value ran, (splitOff_bounded reached.valid strict ran).mpr fits⟩

end BTreeSet

namespace Holding
variable [LawfulFenwickTree F] {holding after : Holding F K V}

theorem Sound.valid (sound : holding.Sound) : holding.set.Valid := by
  cases holding with
  | map owned => exact sound
  | entry held =>
    cases held with
    | vacant vacant => exact sound.1
    | occupied occupied => exact sound.1

theorem Mutates.reached (call : Mutates holding after) (earlier : Reached holding) : Reached after := by
  cases call with
  | clear => exact earlier.clear
  | insert key value ran => exact earlier.insert key value ran
  | remove borrow strict key ran => exact earlier.remove borrow strict key ran
  | removeEntry borrow strict key ran => exact earlier.removeEntry borrow strict key ran
  | popFirst ran => exact earlier.popFirst ran
  | popLast ran => exact earlier.popLast ran
  | popIndex index ran =>
    obtain ⟨⟨_, _⟩, popped, _⟩ := Option.map_eq_some_iff.mp ran
    exact earlier.popIndex index (BTreeSet.popIndex_inside earlier.sound popped) ran
  | retain f state ran => exact earlier.retain f state ran
  | getMut borrow strict key ran value => exact earlier.getMut borrow strict key ran value
  | getMutIndex index ran value =>
    obtain ⟨_, found, _⟩ := Option.map_eq_some_iff.mp ran
    exact earlier.getMutIndex index (BTreeSet.getMutIndex_inside earlier.sound found) ran value
  | valuesMut map written => exact earlier.valuesMut written
  | entry key ran => exact earlier.entry key ran
  | firstEntry ran => exact earlier.firstEntry ran
  | lastEntry ran => exact earlier.lastEntry ran
  | andModify f ran => exact earlier.andModify f ran
  | borrowed ran value => exact earlier.borrowed ran value
  | occupiedInsert value ran => exact earlier.occupiedInsert value ran
  | dropped entry => exact earlier.dropped
  | intoMut ran value => exact earlier.intoMut ran value
  | occupiedRemove ran => exact earlier.occupiedRemove ran
  | occupiedRemoveEntry ran => exact earlier.occupiedRemoveEntry ran
  | vacantInsert value ran later => exact earlier.vacantInsert value ran later

private theorem splitOff_bounded {Q : Type} [LinearOrder Q] {borrow : κ → Q} {owned kept moved : BTreeMap F K V}
    (valid : owned.set.Valid) (strict : StrictMono borrow) {key : Q} (ran : owned.splitOff borrow key = some (kept, moved)) :
    moved.set.Bounded ↔ BTreeSet.Fits (BTreeMap.keyBelow borrow key) owned.set := by
  obtain ⟨⟨_, _⟩, split, same⟩ := Option.map_eq_some_iff.mp ran
  cases same
  obtain ⟨position, found, split⟩ := Option.bind_eq_some_iff.mp split
  exact BTreeSet.splitOffAt_bounded valid true (BTreeSet.descending_below strict.monotone key) found split

theorem calls_bounded : (calls 2 BTreeSet.Fits : Calls (Holding F K V)).Keeps fun holding =>
    Reached holding ∧ holding.set.Bounded := by
  constructor
  case makes =>
    intro _ given
    obtain ⟨maximumNodeSize, room, rfl⟩ := given
    refine ⟨.withMaximumNodeSize room, ?_⟩
    intro node member
    obtain rfl := List.mem_singleton.mp member
    exact Nat.zero_le _
  case changes =>
    rintro holding after ⟨reached, bounded⟩ call
    exact ⟨call.reached reached, call.steps.bounded reached.sound.valid.room bounded⟩
  case exchanges =>
    rintro first second first' second' ⟨reached, bounded⟩ ⟨beside, small⟩ call
    obtain ⟨left, right⟩ := call.steps
    cases call with
    | append fuel ran =>
      exact ⟨⟨reached.append beside fuel ran, left.bounded reached.sound.valid.room bounded⟩,
        reached.appended beside fuel ran, right.bounded beside.sound.valid.room small⟩
  case cuts =>
    rintro holding kept moved ⟨reached, bounded⟩ call
    obtain ⟨left, _⟩ := call.steps
    cases call with
    | splitOff borrow strict key fits ran =>
      exact ⟨⟨reached.splitOff borrow strict key ran, left.bounded reached.sound.valid.room bounded⟩,
        reached.latterHalf borrow strict key ran, (splitOff_bounded reached.sound strict ran).mpr fits⟩

end Holding

/-- In every run in which every split fits, no node is larger than its collection allows; and a
split that does not fit is where it goes wrong. -/
theorem node_capacity_respected [LawfulFenwickTree F] :
    (∀ set : BTreeSet F α, (BTreeSet.calls 2 BTreeSet.Fits).Reaches set → set.Bounded ∧
      ∀ {Q : Type} [LinearOrder Q] (borrow : κ → Q) (value : Q) (kept moved : BTreeSet F α), StrictMono borrow →
        set.splitOff borrow value = some (kept, moved) →
        kept.Bounded ∧ (moved.Bounded ↔ BTreeSet.Fits (BTreeSet.below borrow value) set)) ∧
    (∀ holding : Holding F K V, (Holding.calls 2 BTreeSet.Fits).Reaches holding → holding.set.Bounded) ∧
    ∀ map : BTreeMap F K V, (Holding.calls 2 BTreeSet.Fits).Reaches (.map map) →
      ∀ {Q : Type} [LinearOrder Q] (borrow : κ → Q) (key : Q) (kept moved : BTreeMap F K V), StrictMono borrow →
        map.splitOff borrow key = some (kept, moved) →
        kept.set.Bounded ∧ (moved.set.Bounded ↔ BTreeSet.Fits (BTreeMap.keyBelow borrow key) map.set) := by
  refine ⟨?_, ?_, ?_⟩
  · intro set reaches
    obtain ⟨reached, bounded⟩ := BTreeSet.calls_bounded.reaches reaches
    refine ⟨bounded, ?_⟩
    intro Q _ borrow value kept moved strict ran
    exact ⟨(BTreeSet.splitOff_steps ran).1.bounded reached.valid.room bounded,
      BTreeSet.splitOff_bounded reached.valid strict ran⟩
  · intro holding reaches
    exact (Holding.calls_bounded.reaches reaches).2
  · intro map reaches Q _ borrow key kept moved strict ran
    obtain ⟨reached, bounded⟩ := Holding.calls_bounded.reaches reaches
    have any : Holding.SplitsOff (fun _ _ => True) (.map map) (.map kept) (.map moved) := .splitOff borrow strict key trivial ran
    exact ⟨any.steps.1.bounded reached.sound.valid.room bounded, Holding.splitOff_bounded reached.sound strict ran⟩

/-- A set of two nodes is cut in the middle, and a map of one node at its start. -/
theorem node_capacity_respected_cut :
    (∃ set : BTreeSet (List Nat) Nat, (BTreeSet.calls 2 BTreeSet.Fits).Reaches set ∧ set.inner = [[3, 5]] ∧
      set.Bounded) ∧
    ∃ map : BTreeMap (List Nat) Nat Nat, (Holding.calls 2 BTreeSet.Fits).Reaches (.map map) ∧ map.set.inner = [[⟨1, 10⟩]] ∧
      map.set.Bounded := by
  obtain ⟨sets, holdings, _⟩ := node_capacity_respected (F := List Nat) (α := Nat) (K := Nat) (V := Nat)
  obtain ⟨set, reachesSet, nodes⟩ : ∃ set : BTreeSet (List Nat) Nat, (BTreeSet.calls 2 BTreeSet.Fits).Reaches set ∧
      set.inner = [[3, 5]] :=
    ⟨_, .moved (.change (.change (.change (.make ⟨2, le_rfl, rfl⟩) (.insert 1 rfl)) (.insert 3 rfl)) (.insert 5 rfl))
      (.splitOff id strictMono_id 2 (by unfold BTreeSet.Fits; decide) rfl), rfl⟩
  obtain ⟨map, reachesMap, pairs⟩ : ∃ map : BTreeMap (List Nat) Nat Nat, (Holding.calls 2 BTreeSet.Fits).Reaches (.map map) ∧
      map.set.inner = [[⟨1, 10⟩]] :=
    ⟨_, .moved (.change (.make ⟨2, le_rfl, rfl⟩) (.insert 1 10 rfl))
      (.splitOff id strictMono_id 0 (by unfold BTreeSet.Fits; decide) rfl), rfl⟩
  exact ⟨⟨set, reachesSet, nodes, (sets set reachesSet).1⟩, map, reachesMap, pairs, holdings _ reachesMap⟩

/-- The numbers below a count, inserted in order into one node that has room for them. -/
private theorem single_node (count : Nat) (small : count ≤ 2000) : ∃ set : BTreeSet (List Nat) Nat, set.Reachable ∧
    set.nodeCapacity = 2000 ∧ set.inner = [List.range count] := by
  induction count with
  | zero => exact ⟨_, .withMaximumNodeSize (by decide : 2 ≤ 2000), rfl, rfl⟩
  | succ count ih =>
    obtain ⟨set, reached, capacity, single⟩ := ih (Nat.le_of_succ_le small)
    obtain ⟨inserted, grown, ran, gained⟩ := BTreeSet.insert_spec reached.valid count
    obtain ⟨before, node, after, stored⟩ := BTreeSet.insertAt_inv ran
    obtain ⟨rfl, rfl, rfl⟩ : before = [] ∧ node = List.range count ∧ after = [] := by
      have nodes := single.symm.trans stored.nodes
      cases before with
      | nil => simpa [eq_comm] using nodes
      | cons _ before => simp at nodes
    obtain ⟨middle, takes, inner⟩ := stored.takes
    have items : set.elements = List.range count := by rw [BTreeSet.elements, single, List.flatten_singleton]
    have absent : SortedList.find id (key count) (List.range count) = none :=
      SortedList.find_absent fun item member => (List.mem_range.mp member).ne
    have elements : grown.elements = List.range (count + 1) := by
      have returned := gained.returns reached.valid
      rw [items, SortedList.insert, absent] at returned
      calc grown.elements = SortedList.store count (List.range count) := congrArg Prod.snd returned
        _ = List.range count ++ [count] := by
          rw [SortedList.store, List.filter_eq_self.mpr, List.filter_eq_nil_iff.mpr]
          · intro item member
            simpa [Keyed.key] using (List.mem_range.mp member).le
          · intro item member
            simpa [Keyed.key] using List.mem_range.mp member
        _ = List.range (count + 1) := List.range_succ.symm
    refine ⟨grown, reached.insert count ran, gained.nodeCapacity.trans capacity, ?_⟩
    cases takes with
    | spare room =>
      rw [BTreeSet.elements, inner, List.nil_append, List.append_nil, List.flatten_singleton] at elements
      rw [inner, elements]
      rfl
    | left full there below =>
      rw [List.length_range, capacity] at full
      omega
    | right full there reached =>
      rw [List.length_range, capacity] at full
      omega

/-- A node of 1025 elements becomes one of a set with the default capacity of 1024. -/
theorem split_off_overfills : ∃ set kept moved : BTreeSet (List Nat) Nat, set.Reachable ∧ set.nodeCapacity = 2000 ∧
    set.inner = [List.range 1025] ∧ set.splitOff id 0 = some (kept, moved) ∧ moved.nodeCapacity = 1024 ∧
    ¬moved.Bounded := by
  obtain ⟨set, reached, capacity, single⟩ := single_node 1025 (by decide)
  obtain ⟨kept, moved, ran, _, _, _, default_, _⟩ := BTreeSet.splitOff_spec reached.valid strictMono_id 0
  refine ⟨set, kept, moved, reached, capacity, single, ran, default_, ?_⟩
  rw [BTreeSet.splitOff_bounded reached.valid strictMono_id ran]
  intro fits
  have small := fits (List.range 1025) (by rw [single]; exact List.mem_singleton_self _)
  rw [List.filter_eq_self.mpr, List.length_range] at small
  · exact absurd small (by decide)
  · intro item _
    simp [BTreeSet.below]

end WorkTablesIndex.Indexset
