import WorkTablesIndex.Indexset.Layouts
import WorkTablesIndex.Library.Lineage

/-! The public calls that change sets and maps, as relations between what they find and what they
leave, and the steps they are made of. -/

namespace WorkTablesIndex.Indexset

variable {F α K V κ : Type} [FenwickTree F] [LinearOrder κ] [Keyed α κ] [Keyed K κ]

namespace BTreeSet

inductive Mutates : BTreeSet F α → BTreeSet F α → Prop where
  | clear (set : BTreeSet F α) : Mutates set set.clear
  | insert {set after : BTreeSet F α} {result} (value : α) (ran : set.insert value = some (result, after)) : Mutates set after
  | replace {set after : BTreeSet F α} {result} (value : α) (ran : set.replace value = some (result, after)) :
      Mutates set after
  | remove {set after : BTreeSet F α} {result} {Q : Type} [LinearOrder Q] (borrow : κ → Q) (strict : StrictMono borrow)
      (value : Q) (ran : set.remove borrow value = some (result, after)) : Mutates set after
  | take {set after : BTreeSet F α} {result} {Q : Type} [LinearOrder Q] (borrow : κ → Q) (strict : StrictMono borrow)
      (value : Q) (ran : set.take borrow value = some (result, after)) : Mutates set after
  | popFirst {set after : BTreeSet F α} {result} (ran : set.popFirst = some (result, after)) : Mutates set after
  | popLast {set after : BTreeSet F α} {result} (ran : set.popLast = some (result, after)) : Mutates set after
  | popIndex {set after : BTreeSet F α} {result} (idx : Nat) (ran : set.popIndex idx = some (result, after)) :
      Mutates set after
  | retain {set after : BTreeSet F α} {σ : Type} {result : σ} (f : α → σ → Bool × σ) (state : σ)
      (ran : set.retain f state = some (result, after)) : Mutates set after

def Appends (set other after drained : BTreeSet F α) : Prop := ∃ fuel, append fuel set other = some (after, drained)

inductive SplitsOff (allowed : (α → Bool) → BTreeSet F α → Prop) : BTreeSet F α → BTreeSet F α → BTreeSet F α → Prop where
  | splitOff {set kept moved : BTreeSet F α} {Q : Type} [LinearOrder Q] (borrow : κ → Q) (strict : StrictMono borrow) (value : Q)
      (fits : allowed (below borrow value) set) (ran : set.splitOff borrow value = some (kept, moved)) :
      SplitsOff allowed set kept moved

def calls (room : Nat) (allowed : (α → Bool) → BTreeSet F α → Prop) : Calls (BTreeSet F α) where
  makes set := ∃ maximumNodeSize, room ≤ maximumNodeSize ∧ set = withMaximumNodeSize maximumNodeSize
  changes := Mutates
  exchanges := Appends
  cuts := SplitsOff allowed

theorem Mutates.steps {set after : BTreeSet F α} (call : Mutates set after) : Steps set after := by
  cases call with
  | clear => exact .single (.clear _)
  | insert value ran => exact insert_steps ran
  | replace value ran => exact replace_steps ran
  | remove borrow strict value ran => exact remove_steps ran
  | take borrow strict value ran => exact take_steps ran
  | popFirst ran => exact popFirst_steps ran
  | popLast ran => exact popLast_steps ran
  | popIndex idx ran => exact popIndex_steps ran
  | retain f state ran => exact retainMut_steps _ ran

theorem calls_built {room : Nat} {allowed : (α → Bool) → BTreeSet F α → Prop} :
    (calls room allowed : Calls (BTreeSet F α)).Keeps Built := by
  constructor
  case makes =>
    intro _ given
    obtain ⟨maximumNodeSize, _, rfl⟩ := given
    exact .withMaximumNodeSize _
  case changes => exact fun _ _ built call => built.steps call.steps
  case exchanges =>
    intro _ _ _ _ first second given
    obtain ⟨fuel, ran⟩ := given
    exact ⟨first.steps (append_steps ran).1, second.steps (append_steps ran).2⟩
  case cuts =>
    intro _ _ _ built given
    obtain ⟨borrow, strict, value, _, ran⟩ := given
    exact ⟨built.steps (splitOff_steps ran).1, (splitOff_steps ran).2 built⟩

end BTreeSet

def Holding.set : Holding F K V → BTreeSet F (Pair K V)
  | .map held => held.set
  | .entry held => held.map.set

inductive Holding.Mutates : Holding F K V → Holding F K V → Prop where
  | clear (map : BTreeMap F K V) : Mutates (.map map) (.map map.clear)
  | insert {map after : BTreeMap F K V} {result} (key : K) (value : V) (ran : map.insert key value = some (result, after)) :
      Mutates (.map map) (.map after)
  | remove {map after : BTreeMap F K V} {result} {Q : Type} [LinearOrder Q] (borrow : κ → Q) (strict : StrictMono borrow)
      (key : Q) (ran : map.remove borrow key = some (result, after)) : Mutates (.map map) (.map after)
  | removeEntry {map after : BTreeMap F K V} {result} {Q : Type} [LinearOrder Q] (borrow : κ → Q)
      (strict : StrictMono borrow) (key : Q) (ran : map.removeEntry borrow key = some (result, after)) :
      Mutates (.map map) (.map after)
  | popFirst {map after : BTreeMap F K V} {result} (ran : map.popFirst = some (result, after)) :
      Mutates (.map map) (.map after)
  | popLast {map after : BTreeMap F K V} {result} (ran : map.popLast = some (result, after)) : Mutates (.map map) (.map after)
  | popIndex {map after : BTreeMap F K V} {result} (index : Nat) (ran : map.popIndex index = some (result, after)) :
      Mutates (.map map) (.map after)
  | retain {map after : BTreeMap F K V} {σ : Type} {result : σ} (f : K → V → σ → Bool × V × σ) (state : σ)
      (ran : map.retain f state = some (result, after)) : Mutates (.map map) (.map after)
  | getMut {map : BTreeMap F K V} {ref} {Q : Type} [LinearOrder Q] (borrow : κ → Q) (strict : StrictMono borrow) (key : Q)
      (ran : map.getMut borrow key = some (some ref)) (value : V) : Mutates (.map map) (.map (ref.write value))
  | getMutIndex {map : BTreeMap F K V} {ref} (index : Nat) (ran : map.getMutIndex index = some ref) (value : V) :
      Mutates (.map map) (.map (ref.write value))
  /-- Whatever is written through the references of `iter_mut`, `values_mut` and `range_mut`. -/
  | valuesMut (map : BTreeMap F K V) (written : Pair K V → V) : Mutates (.map map)
      (.map ⟨{ map.set with inner := map.set.inner.map (List.map fun pair => { pair with value := written pair }) }⟩)
  | entry {map : BTreeMap F K V} {entry} (key : K) (ran : map.entry key = some entry) : Mutates (.map map) (.entry entry)
  | firstEntry {map : BTreeMap F K V} {entry} (ran : map.firstEntry = some entry) :
      Mutates (.map map) (.entry (.occupied entry))
  | lastEntry {map : BTreeMap F K V} {entry} (ran : map.lastEntry = some entry) :
      Mutates (.map map) (.entry (.occupied entry))
  | andModify {entry after : Entry F K V} (f : V → V) (ran : entry.andModify f = some after) :
      Mutates (.entry entry) (.entry after)
  | borrowed {entry : OccupiedEntry F K V} {ref} (ran : entry.getMut = some ref) (value : V) :
      Mutates (.entry (.occupied entry)) (.entry (.occupied (ref.write value)))
  | occupiedInsert {entry after : OccupiedEntry F K V} {result} (value : V) (ran : entry.insert value = some (result, after)) :
      Mutates (.entry (.occupied entry)) (.entry (.occupied after))
  | dropped (entry : Entry F K V) : Mutates (.entry entry) (.map entry.map)
  | intoMut {entry : OccupiedEntry F K V} {ref} (ran : entry.intoMut = some ref) (value : V) :
      Mutates (.entry (.occupied entry)) (.map (ref.write value))
  | occupiedRemove {entry : OccupiedEntry F K V} {result after} (ran : entry.remove = some (result, after)) :
      Mutates (.entry (.occupied entry)) (.map after)
  | occupiedRemoveEntry {entry : OccupiedEntry F K V} {result after} (ran : entry.removeEntry = some (result, after)) :
      Mutates (.entry (.occupied entry)) (.map after)
  | vacantInsert {entry : VacantEntry F K V} {ref} (value : V) (ran : entry.insert value = some ref) (later : V) :
      Mutates (.entry (.vacant entry)) (.map (ref.write later))

/-- Only maps are appended to and cut; an entry has its map to itself. -/
inductive Holding.Appends : Holding F K V → Holding F K V → Holding F K V → Holding F K V → Prop where
  | append {map other after drained : BTreeMap F K V} (fuel : Nat)
      (ran : BTreeMap.append fuel map other = some (after, drained)) :
      Appends (.map map) (.map other) (.map after) (.map drained)

inductive Holding.SplitsOff (allowed : (Pair K V → Bool) → BTreeSet F (Pair K V) → Prop) :
    Holding F K V → Holding F K V → Holding F K V → Prop where
  | splitOff {map kept moved : BTreeMap F K V} {Q : Type} [LinearOrder Q] (borrow : κ → Q) (strict : StrictMono borrow) (key : Q)
      (fits : allowed (BTreeMap.keyBelow borrow key) map.set) (ran : map.splitOff borrow key = some (kept, moved)) :
      SplitsOff allowed (.map map) (.map kept) (.map moved)

def Holding.calls (room : Nat) (allowed : (Pair K V → Bool) → BTreeSet F (Pair K V) → Prop) : Calls (Holding F K V) where
  makes holding := ∃ maximumNodeSize, room ≤ maximumNodeSize ∧ holding = .map (.withMaximumNodeSize maximumNodeSize)
  changes := Mutates
  exchanges := Appends
  cuts := SplitsOff allowed

namespace BTreeMap
variable {map after : BTreeMap F K V}

private theorem deleteCmp_steps {set left : BTreeSet F (Pair K V)} {cmp cmp2 : Pair K V → Bool} {result : Option (Pair K V) × Bool}
    (ran : set.deleteCmp cmp cmp2 = some (result, left)) : BTreeSet.Steps set left := by
  simp only [BTreeSet.deleteCmp, bind] at ran
  obtain ⟨found, _, ran⟩ := Option.bind_eq_some_iff.mp ran
  cases found with
  | exist nodeIdx positionWithinNode =>
    obtain ⟨⟨_, _⟩, deleted, same⟩ := Option.bind_eq_some_iff.mp ran
    cases same
    exact BTreeSet.deleteAt_steps deleted
  | empty nodeIdx =>
    cases ran
    exact .refl

private theorem insert_steps {key : K} {value : V} {result : Option V} (ran : map.insert key value = some (result, after)) :
    BTreeSet.Steps map.set after.set := by
  simp only [insert, bind] at ran
  obtain ⟨found, _, ran⟩ := Option.bind_eq_some_iff.mp ran
  cases found with
  | exist nodeIdx positionWithinNode =>
    obtain ⟨entry, there, same⟩ := Option.bind_eq_some_iff.mp ran
    cases same
    exact BTreeSet.refAt_steps there _
  | empty nodeIdx =>
    obtain ⟨⟨_, _⟩, stored, same⟩ := Option.bind_eq_some_iff.mp ran
    cases same
    exact .single (.insertAt _ _ stored)

private theorem getMutIndex_steps {index : Nat} {ref : RefMut V (BTreeMap F K V)} (ran : map.getMutIndex index = some ref)
    (value : V) : BTreeSet.Steps map.set (ref.write value).set := by
  obtain ⟨entry, there, same⟩ := Option.map_eq_some_iff.mp ran
  cases same
  exact BTreeSet.refAt_steps there _

private theorem getMut_steps {Q : Type} [LinearOrder Q] {borrow : κ → Q} {key : Q} {ref : RefMut V (BTreeMap F K V)}
    (ran : map.getMut borrow key = some (some ref)) (value : V) : BTreeSet.Steps map.set (ref.write value).set := by
  simp only [getMut, bind] at ran
  obtain ⟨⟨nodeIdx, positionWithinNode⟩, _, ran⟩ := Option.bind_eq_some_iff.mp ran
  split at ran
  next entry there =>
    split at ran
    next =>
      cases ran
      exact BTreeSet.refAt_steps there _
    next => cases ran
  next => cases ran

private theorem popIndex_steps {index : Nat} {result : K × V} (ran : map.popIndex index = some (result, after)) :
    BTreeSet.Steps map.set after.set := by
  obtain ⟨⟨_, _⟩, popped, same⟩ := Option.map_eq_some_iff.mp ran
  cases same
  exact BTreeSet.popIndex_steps popped

private theorem entry_map {key : K} {entry : Entry F K V} (ran : map.entry key = some entry) : entry.map = map := by
  simp only [BTreeMap.entry, bind] at ran
  obtain ⟨stored, _, ran⟩ := Option.bind_eq_some_iff.mp ran
  cases stored with
  | true =>
    obtain ⟨_, _, same⟩ := Option.bind_eq_some_iff.mp ran
    cases same
    rfl
  | false =>
    cases ran
    rfl

private theorem occupied_steps {entry : OccupiedEntry F K V} {ref : RefMut V (OccupiedEntry F K V)}
    (ran : entry.getMut = some ref) (value : V) : BTreeSet.Steps entry.map.set (ref.write value).map.set := by
  obtain ⟨_, there, same⟩ := Option.map_eq_some_iff.mp ran
  cases same
  exact getMutIndex_steps there value

private theorem vacant_steps {entry : VacantEntry F K V} {value : V} {ref : RefMut V (BTreeMap F K V)}
    (ran : entry.insert value = some ref) (later : V) : BTreeSet.Steps entry.map.set (ref.write later).set := by
  simp only [VacantEntry.insert, bind] at ran
  obtain ⟨_, _, ran⟩ := Option.bind_eq_some_iff.mp ran
  obtain ⟨⟨_, _⟩, stored, ran⟩ := Option.bind_eq_some_iff.mp ran
  exact (insert_steps stored).trans (getMutIndex_steps ran later)

end BTreeMap

theorem Holding.Mutates.steps {holding after : Holding F K V} (call : Mutates holding after) :
    BTreeSet.Steps holding.set after.set := by
  cases call with
  | clear => exact .single (.clear _)
  | insert key value ran => exact BTreeMap.insert_steps ran
  | remove borrow strict key ran =>
    obtain ⟨⟨_, _⟩, deleted, same⟩ := Option.map_eq_some_iff.mp ran
    cases same
    exact BTreeMap.deleteCmp_steps deleted
  | removeEntry borrow strict key ran =>
    obtain ⟨⟨_, _⟩, deleted, same⟩ := Option.map_eq_some_iff.mp ran
    cases same
    exact BTreeMap.deleteCmp_steps deleted
  | popFirst ran =>
    obtain ⟨⟨_, _⟩, popped, same⟩ := Option.map_eq_some_iff.mp ran
    cases same
    exact BTreeSet.popFirst_steps popped
  | popLast ran =>
    obtain ⟨⟨_, _⟩, popped, same⟩ := Option.map_eq_some_iff.mp ran
    cases same
    exact BTreeSet.popLast_steps popped
  | popIndex index ran => exact BTreeMap.popIndex_steps ran
  | retain f state ran =>
    obtain ⟨⟨_, _⟩, retained, same⟩ := Option.map_eq_some_iff.mp ran
    cases same
    exact BTreeSet.retainMut_steps _ retained
  | getMut borrow strict key ran value => exact BTreeMap.getMut_steps ran value
  | getMutIndex index ran value => exact BTreeMap.getMutIndex_steps ran value
  | valuesMut map written =>
    apply Relation.ReflTransGen.single
    apply BTreeSet.Step.rewrite
    rw [List.map_map]
    apply List.map_congr_left
    intro node _
    exact List.length_map _
  | entry key ran =>
    simp only [Holding.set, BTreeMap.entry_map ran]
    exact .refl
  | firstEntry ran =>
    obtain ⟨_, same⟩ := Option.ite_none_left_eq_some.mp ran
    cases same
    exact .refl
  | lastEntry ran =>
    obtain ⟨_, same⟩ := Option.ite_none_right_eq_some.mp ran
    cases same
    exact .refl
  | @andModify entry after f ran =>
    cases entry with
    | occupied entry =>
      obtain ⟨_, there, same⟩ := Option.map_eq_some_iff.mp ran
      cases same
      exact BTreeMap.occupied_steps there _
    | vacant entry =>
      cases ran
      exact .refl
  | borrowed ran value => exact BTreeMap.occupied_steps ran value
  | occupiedInsert value ran =>
    obtain ⟨_, there, same⟩ := Option.map_eq_some_iff.mp ran
    cases same
    exact BTreeMap.occupied_steps there value
  | dropped entry => exact .refl
  | intoMut ran value => exact BTreeMap.getMutIndex_steps ran value
  | occupiedRemove ran =>
    obtain ⟨⟨_, _⟩, popped, same⟩ := Option.map_eq_some_iff.mp ran
    cases same
    exact BTreeMap.popIndex_steps popped
  | occupiedRemoveEntry ran => exact BTreeMap.popIndex_steps ran
  | vacantInsert value ran later => exact BTreeMap.vacant_steps ran later

theorem Holding.Appends.steps {first second first' second' : Holding F K V} (call : Appends first second first' second') :
    BTreeSet.Steps first.set first'.set ∧ BTreeSet.Steps second.set second'.set := by
  cases call with
  | append fuel ran =>
    obtain ⟨⟨_, _⟩, appended, same⟩ := Option.map_eq_some_iff.mp ran
    cases same
    exact BTreeSet.append_steps appended

theorem Holding.SplitsOff.steps {allowed : (Pair K V → Bool) → BTreeSet F (Pair K V) → Prop} {holding kept moved : Holding F K V}
    (call : SplitsOff allowed holding kept moved) :
    BTreeSet.Steps holding.set kept.set ∧ (holding.set.Built → moved.set.Built) := by
  cases call with
  | splitOff borrow strict key fits ran =>
    obtain ⟨⟨_, _⟩, split, same⟩ := Option.map_eq_some_iff.mp ran
    cases same
    obtain ⟨⟨nodeIdx, positionWithinNode⟩, _, split⟩ := Option.bind_eq_some_iff.mp split
    exact ⟨.single (.splitOffAt _ _ split), fun built => built.latterHalf _ _ split⟩

theorem Holding.calls_built {room : Nat} {allowed : (Pair K V → Bool) → BTreeSet F (Pair K V) → Prop} :
    (Holding.calls room allowed : Calls (Holding F K V)).Keeps fun holding => holding.set.Built := by
  constructor
  case makes =>
    intro _ given
    obtain ⟨maximumNodeSize, _, rfl⟩ := given
    exact .withMaximumNodeSize _
  case changes => exact fun _ _ built call => built.steps call.steps
  case exchanges => exact fun _ _ _ _ first second call => ⟨first.steps call.steps.1, second.steps call.steps.2⟩
  case cuts => exact fun _ _ _ built call => ⟨built.steps call.steps.1, call.steps.2 built⟩

end WorkTablesIndex.Indexset
