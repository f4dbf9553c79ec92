import WorkTablesIndex.Map
import WorkTablesIndex.Reachability

/-! Insertions that should leave a stored entry alone. The set's insertion is a replacement. A
checked insertion into the map looks an equal key up in the node only when the node has room; a full
node is split first, and the insertion that rides on the split replaces. -/

universe u v

namespace WorkTablesIndex
open SortedMap

namespace BTreeSet

variable {α : Type u} {κ : Type v} [LinearOrder κ] [Keyed α κ] {set after : BTreeSet α κ} {value : α}

/-- The only element equal to the value that may be stored is the value itself. -/
def StoredAsIs (set : BTreeSet α κ) (value : α) : Prop := ∀ item, set.layout.Stored item → key item = key value → item = value

private theorem contents_eq_iff (tidy : Tidy set) (later : Tidy after) (gains : set.layout.Gains after.layout value) :
    after.nodes.flatten = set.nodes.flatten ↔ set.layout.Stored value := by
  constructor
  · intro same
    rw [← mem_flatten_nodes, ← same, mem_flatten_nodes]
    exact (gains value).mpr (Or.inl rfl)
  · intro stored
    apply Node.Sorted.ext later.sorted_contents tidy.sorted_contents
    intro item
    rw [mem_flatten_nodes, mem_flatten_nodes, gains item]
    constructor
    · rintro (rfl | ⟨there, _⟩)
      · exact stored
      · exact there
    · intro there
      by_cases same : key item = key value
      · rw [← mem_flatten_nodes] at there stored
        exact Or.inl (tidy.sorted_contents.key_unique there stored same)
      · exact Or.inr ⟨there, same⟩

/-- An insertion that answers that the value was there keeps every stored element exactly when none
of them is equal to the value and another one. -/
theorem insert_keeps_stored_iff {nodeCapacity : Nat} (reachable : Reachable nodeCapacity set) (value : α) (fuel : Nat) :
    ∃ inserted after, insert value (fuel + 1) set = some (inserted, after) ∧
      ((inserted = false → after.nodes.flatten = set.nodes.flatten) ↔ StoredAsIs set value) := by
  obtain ⟨tidy, _⟩ := reachable.tidy
  obtain ⟨old, events, after, effect, left, result⟩ := putInner_effect tidy false value fuel
  obtain ⟨layoutTidy, gains⟩ := effect.tidy tidy.layout
  have held := effect.holds tidy.layout
  have kept := contents_eq_iff tidy ⟨left.valid, layoutTidy⟩ gains
  refine ⟨old.isNone, after, by simp [insert, put, result], ?_⟩
  cases old with
  | none =>
    apply iff_of_true (by simp)
    intro item stored same
    cases (held item).mpr ⟨stored, same⟩
  | some old =>
    obtain ⟨there, same⟩ := (held old).mp rfl
    simp only [Option.isNone_some, forall_const]
    rw [kept]
    constructor
    · intro stored item found equal
      have first := (held item).mpr ⟨found, equal⟩
      exact Option.some.inj (first.symm.trans ((held value).mpr ⟨stored, rfl⟩))
    · intro asIs
      exact asIs old there same ▸ there

/-- The same entry inserted again, in a full node. -/
theorem insert_keeps_stored_again : ∃ set : BTreeSet (Pair Nat Nat) Nat, Reachable 2 set ∧
    set.nodes = [[⟨1, 10⟩, ⟨2, 20⟩]] ∧ ∃ after, insert ⟨1, 10⟩ 1 set = some (false, after) ∧
      after.nodes.flatten = [⟨1, 10⟩, ⟨2, 20⟩] := by
  obtain ⟨set, reachable, nodes, found⟩ : ∃ set : BTreeSet (Pair Nat Nat) Nat, Reachable 2 set ∧
      set.nodes = [[⟨1, 10⟩, ⟨2, 20⟩]] ∧ ∃ after, insert ⟨1, 10⟩ 1 set = some (false, after) :=
    ⟨_, .mutates (.mutates .new (.insert false ⟨1, 10⟩ 1 rfl)) (.insert false ⟨2, 20⟩ 1 rfl), by decide, _, rfl⟩
  obtain ⟨inserted, after, ran, keeps⟩ := insert_keeps_stored_iff reachable ⟨1, 10⟩ 0
  obtain ⟨_, again⟩ := found
  cases ran.symm.trans again
  refine ⟨set, reachable, nodes, after, ran, (keeps.mpr ?_ rfl).trans (by rw [nodes]; rfl)⟩
  intro item stored same
  have member := (mem_flatten_nodes item).mpr stored
  rw [nodes] at member
  simp only [List.flatten_cons, List.flatten_nil, List.append_nil, List.mem_cons, List.not_mem_nil, or_false] at member
  rcases member with rfl | rfl
  · rfl
  · cases same

/-- The entry is overwritten though the answer is that nothing was inserted. -/
def Overwrites (nodeCapacity : Nat) : Prop := ∃ set after : BTreeSet (Pair Nat Nat) Nat,
  Reachable nodeCapacity set ∧ set.nodes.flatten = [⟨1, 10⟩, ⟨2, 20⟩] ∧
    insert ⟨1, 99⟩ 1 set = some (false, after) ∧ after.nodes.flatten = [⟨1, 99⟩, ⟨2, 20⟩]

/-- An equal element with another value is overwritten, in place and with a split alike. -/
theorem insert_overwrites_stored : Overwrites 3 ∧ Overwrites 2 :=
  ⟨⟨_, _, .mutates (.mutates .new (.insert false ⟨1, 10⟩ 1 rfl)) (.insert false ⟨2, 20⟩ 1 rfl), by decide, rfl, by decide⟩,
    _, _, .mutates (.mutates .new (.insert false ⟨1, 10⟩ 1 rfl)) (.insert false ⟨2, 20⟩ 1 rfl), by decide, rfl, by decide⟩

end BTreeSet

namespace BTreeMap
open BTreeSet

variable {K : Type u} {V : Type v} [LinearOrder K] {map after : BTreeMap K V} {key : K} {value : V}

def Absent (map : BTreeMap K V) (key : K) : Prop := ∀ pair, map.layout.Stored pair → pair.key ≠ key

/-- What a checked insertion promises: it succeeds exactly on an absent key, which it adds, and
otherwise keeps every entry and numbers no event. -/
structure NeverOverwrites (map : BTreeMap K V) (key : K) (value : V) (succeeded : Bool) (after : BTreeMap K V) :
    Prop where
  succeeds : succeeded = true ↔ Absent map key
  adds : Absent map key → map.layout.Gains after.layout ⟨key, value⟩
  keeps : ¬ Absent map key → after.nodes.flatten = map.nodes.flatten ∧ after.eventId = map.eventId

/-- A checked insertion never overwrites unless it splits a node that holds the key. -/
private theorem putCheckedInner_iff (tidy : map.Tidy) (emitCdc : Bool) (key : K) (value : V) (fuel : Nat) :
    ∃ result after, putCheckedInner noIdentityAdoption emitCdc ⟨key, value⟩ (fuel + 1) map = some (result, after) ∧
      (NeverOverwrites map key value result.toOption.isSome after ↔ Absent map key ∨ map.HasRoom key) := by
  rcases putCheckedInner_effect tidy emitCdc ⟨key, value⟩ fuel with ⟨old, events, after, effect, _, kept, ran⟩ |
    ⟨entry, node, position, old, linked, inside, room, there, same, ran⟩
  · obtain ⟨_, gains⟩ := effect.tidy tidy.layout
    have held := effect.holds tidy.layout
    refine ⟨_, after, ran, fun checked => Or.inl (checked.succeeds.mp rfl), fun either => ?_⟩
    have absent : Absent map key := by
      rcases either with absent | spacious
      · exact absent
      · intro pair stored same
        cases (kept spacious).symm.trans ((held pair).mpr ⟨stored, same⟩)
    exact ⟨iff_of_true rfl absent, fun _ => gains, fun present => absurd absent present⟩
  · have present : ¬ Absent map key := fun absent => absent old ⟨entry, node, linked, List.mem_of_getElem? there⟩ same
    refine ⟨_, map, ran, iff_of_true ?_ (Or.inr ⟨entry, node, route_eq_some.mpr ⟨linked, inside⟩, room⟩)⟩
    exact ⟨iff_of_false Bool.false_ne_true present, fun absent => absurd absent present, fun _ => ⟨rfl, rfl⟩⟩

/-- Checked insertion, with and without events, never overwrites exactly when the key is absent
or its node has room. -/
theorem checkedInsert_never_overwrites_iff {nodeCapacity : Nat} (reachable : Reachable nodeCapacity map) (key : K)
    (value : V)
    (fuel : Nat) : ∃ outcome after events later, checkedInsert key value (fuel + 1) map = some (outcome, after) ∧
      checkedInsertCdc key value (fuel + 1) map = some (events, later) ∧
      (NeverOverwrites map key value outcome.isSome after ↔ Absent map key ∨ map.HasRoom key) ∧
      (NeverOverwrites map key value events.isSome later ↔ Absent map key ∨ map.HasRoom key) := by
  obtain ⟨tidy, _⟩ := reachable.tidy
  obtain ⟨silent, after, ran, checked⟩ := putCheckedInner_iff tidy false key value fuel
  obtain ⟨recorded, later, emitted, checkedCdc⟩ := putCheckedInner_iff tidy true key value fuel
  refine ⟨silent.toOption.map fun _ => (), after, recorded.toOption.map Prod.snd, later, ?_, ?_, ?_, ?_⟩
  · rw [checkedInsert, putChecked, ran, Option.map_some]
  · rw [checkedInsertCdc, putCdcChecked, emitted, Option.map_some]
  · rw [Option.isSome_map]
    exact checked
  · rw [Option.isSome_map]
    exact checkedCdc

/-- With room for a third entry the stored key is found, and its value stays. -/
theorem checkedInsert_refuses : ∃ map : BTreeMap Nat Nat, Reachable 3 map ∧ map.nodes = [[⟨1, 10⟩, ⟨2, 20⟩]] ∧
    ∃ outcome after, checkedInsert 1 99 1 map = some (outcome, after) ∧
      NeverOverwrites map 1 99 outcome.isSome after := by
  obtain ⟨map, reachable, nodes, routed⟩ : ∃ map : BTreeMap Nat Nat, Reachable 3 map ∧ map.nodes = [[⟨1, 10⟩, ⟨2, 20⟩]] ∧
      (route id map.index.index 1).map (fun entry => (map.heap.cells entry.2).length) = some 2 :=
    ⟨_, .mutates (.mutates .new (.insert false ⟨1, 10⟩ 1 rfl)) (.insert false ⟨2, 20⟩ 1 rfl), by decide, by decide⟩
  obtain ⟨outcome, after, _, _, ran, _, checked, _⟩ := checkedInsert_never_overwrites_iff reachable 1 99 0
  obtain ⟨⟨entry, node⟩, found, count⟩ := Option.map_eq_some_iff.mp routed
  refine ⟨map, reachable, nodes, outcome, after, ran, checked.mpr (Or.inr ⟨entry, node, found, ?_⟩)⟩
  rw [reachable.tidy.2, count]
  decide

/-- In a full node the stored key is not looked up: the insertion succeeds and replaces. -/
theorem checkedInsert_overwrites : ∃ map : BTreeMap Nat Nat, Reachable 2 map ∧ map.nodes = [[⟨1, 10⟩, ⟨2, 20⟩]] ∧
    ∃ after, checkedInsert 1 99 1 map = some (some (), after) ∧ after.nodes = [[⟨1, 99⟩], [⟨2, 20⟩]] ∧
      ¬ NeverOverwrites map 1 99 true after := by
  obtain ⟨map, reachable, nodes, after, ran, replaced⟩ : ∃ map : BTreeMap Nat Nat, Reachable 2 map ∧
      map.nodes = [[⟨1, 10⟩, ⟨2, 20⟩]] ∧ ∃ after, checkedInsert 1 99 1 map = some (some (), after) ∧
        after.nodes = [[⟨1, 99⟩], [⟨2, 20⟩]] :=
    ⟨_, .mutates (.mutates .new (.insert false ⟨1, 10⟩ 1 rfl)) (.insert false ⟨2, 20⟩ 1 rfl), by decide, _, rfl,
      by decide⟩
  refine ⟨map, reachable, nodes, after, ran, replaced, fun checked => ?_⟩
  have stored : map.layout.Stored ⟨1, 10⟩ := (mem_flatten_nodes _).mp (by rw [nodes]; decide)
  exact checked.succeeds.mp rfl _ stored rfl

end BTreeMap
end WorkTablesIndex
