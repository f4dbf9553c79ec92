import WorkTablesIndex.Reachability
import WorkTablesIndex.Replay

/-! Replay of a replacement. The in-place path addresses its insertion to the maximum
the node has after the removal; the two branches that ride on a split address both
events to the maximum before it. -/

universe u v

namespace WorkTablesIndex
open SortedMap PersistedBTreeMap

variable {α : Type u} {κ : Type v} [LinearOrder κ] [Keyed α κ]

namespace Layout
variable {layout : Layout α κ} {node : NodeId} {entry : κ}

private theorem Tidy.name_free (tidy : Tidy layout) (linked : (entry, node) ∈ layout.index) {item : α}
    (present : item ∈ layout.heap.cells node) : ∀ other ∈ layout.topology, other.1 ≠ entry → other.1 ≠ key item := by
  rintro ⟨other, values⟩ member different
  obtain ⟨target, there, _⟩ := mem_mapValues.mp member
  have apart := (tidy.routed entry node linked item present).ne there different
  exact apart

theorem Tidy.replays_in_place (tidy : Tidy layout) (linked : (entry, node) ∈ layout.index) {position : Nat} {old value : α}
    (there : (layout.heap.cells node)[position]? = some old) (same : key old = key value) (eventId : Id) :
    persistAll (assignIds eventId (BTreeSet.replaceEvents (layout.heap.cells node) position old value)) layout.topology =
      some (true, (layout.rewrite node ((layout.heap.cells node).set position value)).topology) := by
  have sorted := tidy.sound.sorted node
  obtain ⟨max, top, named⟩ := Option.map_eq_some_iff.mp (tidy.tight entry node linked)
  have held : layout.topology.get? (key max) = some (layout.heap.cells node) := named ▸ topology_get linked
  have inside := (List.getElem?_eq_some_iff.mp there).1
  rw [tidy.sound.topology_rewrite linked]
  by_cases single : (layout.heap.cells node).length = 1
  · obtain ⟨only, alone⟩ := List.length_eq_one_iff.mp single
    have first : position = 0 := by omega
    subst first
    have atFirst : only = old := by simpa [alone] using there
    have atTop : only = max := by simpa [alone, Node.max] using top
    subst atFirst atTop
    have events : BTreeSet.replaceEvents [only] 0 only value = [.removeNode only, .createNode value] := rfl
    have created : (layout.topology.erase (key only)).insert (key value) [value] = layout.topology.insert entry [value] := by
      rw [← same, erase_insert, named]
    rw [alone, events, List.set_cons_zero, ← created]
    simp only [assignIds, ChangeEventUnassigned.assignId, persistAll, persist, held, Option.isSome_some, Option.map_some,
      Bool.and_self]
  · by_cases last : position + 1 = (layout.heap.cells node).length
    · have previous : (layout.heap.cells node).eraseIdx position = (layout.heap.cells node).dropLast := by
        rw [show position = (layout.heap.cells node).length - 1 by omega, List.eraseIdx_length_sub_one]
      obtain ⟨newMax, seen⟩ : ∃ newMax, (layout.heap.cells node)[(layout.heap.cells node).length - 2]? = some newMax :=
        ⟨_, List.getElem?_eq_getElem (by omega)⟩
      have remaining : Node.max ((layout.heap.cells node).eraseIdx position) = some newMax := by
        rw [previous, Node.max, List.getLast?_dropLast, if_neg (by omega), seen]
      have kept := ((Node.max_eq_some (Node.eraseIdx_sorted sorted position)).mp remaining).1
      have free := tidy.name_free linked ((Node.mem_eraseIdx sorted there newMax).mp kept).1
      have events : BTreeSet.replaceEvents (layout.heap.cells node) position old value =
          [.removeAt max old position, .insertAt newMax value position] := by
        simp only [BTreeSet.replaceEvents, top, if_neg single, if_pos (show position = (layout.heap.cells node).length - 1 by omega),
          Node.getIth, seen, Option.toList_some, List.map_cons, List.map_nil]
      rw [events, ← named]
      exact persist_replace_last sorted held top there same last remaining (named.symm ▸ free) eventId
    · have events : BTreeSet.replaceEvents (layout.heap.cells node) position old value =
          [.removeAt max old position, .insertAt max value position] := by
        simp only [BTreeSet.replaceEvents, top, if_neg single, if_neg (show position ≠ (layout.heap.cells node).length - 1 by omega)]
      rw [events, ← named]
      exact persist_replace_inner sorted held top there same last eventId

/-- Replay of a replacement inside one half, which stands among the persisted nodes
under its maximum: it succeeds exactly when the value does not end the half. -/
private theorem replays_half {nodes after : PersistedBTreeMap α κ} {half : List α} {max old value : α} {index : Nat}
    (sorted : Node.Sorted half) (held : nodes.get? (key max) = some half) (top : Node.max half = some max)
    (there : half[index]? = some old) (same : key old = key value)
    (final : after = nodes.insert (key max) (half.set index value)) (eventId : Id) :
    (persistAll (assignIds eventId [.removeAt max old index, .insertAt max value index]) nodes).map Prod.snd = some after ↔
      index + 1 ≠ half.length := by
  constructor
  · intro replayed last
    obtain ⟨lost, result, gone⟩ := persist_replace_lost sorted held top there same last eventId
    rw [result, Option.map_some, Option.some.injEq] at replayed
    apply gone (key max, half.set index value)
    · rw [show lost = after from replayed, final]
      exact (mem_insert ..).mpr (Or.inl rfl)
    · rfl
  · intro inner
    rw [persist_replace_inner sorted held top there same inner eventId, Option.map_some, final]

/-- A replacement that rides on a split replays unless the value ends its half. -/
theorem Tidy.replays_on_split (tidy : Tidy layout) (linked : (entry, node) ∈ layout.index)
    (many : 2 ≤ (layout.heap.cells node).length) {position : Nat} {old value : α}
    (there : (layout.heap.cells node)[position]? = some old) (same : key old = key value) (eventId : Id) :
    (persistAll (assignIds eventId (Operation.splitEvents (layout.heap.cells node) value)) layout.topology).map Prod.snd =
        some (layout.split node entry (Operation.leftHalf (layout.heap.cells node) value).values
          (Operation.rightHalf (layout.heap.cells node) value).values).topology ↔
      position + 1 ≠ (layout.heap.cells node).length / 2 ∧ position + 1 ≠ (layout.heap.cells node).length := by
  have sorted := tidy.sound.sorted node
  have inside := (List.getElem?_eq_some_iff.mp there).1
  obtain ⟨leftMax, rightMax, left, right, below, named, halves, replayed⟩ := persistAll_split sorted many
    (tidy.tight entry node linked) (topology_get linked) value eventId
  have whole := Node.halve_append (layout.heap.cells node)
  obtain ⟨leftSorted, rightSorted, _⟩ := Node.sorted_append.mp (whole.symm ▸ sorted)
  have leftKey : Node.maxKey (Node.halve (layout.heap.cells node)).1 = some (key leftMax) := by simp [Node.maxKey, left]
  have rightKey : Node.maxKey (Node.halve (layout.heap.cells node)).2 = some entry := by simp [Node.maxKey, right, named]
  have leftLength : (Node.halve (layout.heap.cells node)).1.length = (layout.heap.cells node).length / 2 := by
    simp only [Node.halve, List.length_take]
    omega
  have rightLength : (Node.halve (layout.heap.cells node)).2.length =
      (layout.heap.cells node).length - (layout.heap.cells node).length / 2 := by
    simp only [Node.halve, List.length_drop]
  have leftBound := ((Node.maxKey_eq_some leftSorted).mp leftKey).2
  rw [replayed]
  by_cases early : position < (layout.heap.cells node).length / 2
  · have atLeft : (Node.halve (layout.heap.cells node)).1[position]? = some old := by
      simp only [Node.halve, List.getElem?_take, if_pos early, there]
    have within : key value ≤ key leftMax := same ▸ leftBound old (List.mem_of_getElem? atLeft)
    obtain ⟨_, leftHalf, rightHalf⟩ := halves.resolve_right fun beyond => absurd within (not_le.mpr beyond.1)
    rcases Half.put_cases noIdentityAdoption leftSorted leftMax value with ⟨_, gap, _⟩ | ⟨index, stored, found, equal, put⟩
    · exact absurd same (gap.absent old (List.mem_of_getElem? atLeft))
    · cases leftSorted.position_unique found atLeft (equal.trans same.symm)
      cases found.symm.trans atLeft
      have leftTop := (Node.set_upserted leftSorted atLeft same).maxKey_of_le leftSorted leftKey within
      have held : (cut layout.topology entry (layout.heap.cells node) (key leftMax)).get? (key leftMax) =
          some (Node.halve (layout.heap.cells node)).1 := by
        rw [cut, get?_insert_of_ne below.ne, get?_insert_self]
      have final : (layout.split node entry ((Node.halve (layout.heap.cells node)).1.set position value)
          (Node.halve (layout.heap.cells node)).2).topology =
          (cut layout.topology entry (layout.heap.cells node) (key leftMax)).insert (key leftMax)
            ((Node.halve (layout.heap.cells node)).1.set position value) := by
        rw [tidy.sound.topology_split linked leftTop rightKey, cut, insert_comm below.ne', insert_insert]
      rw [leftHalf, rightHalf, put]
      simp only [Half.untouched, List.append_nil, noIdentityAdoption]
      rw [replays_half leftSorted held left atLeft same final (eventId + 1), leftLength]
      omega
  · obtain ⟨index, rfl⟩ := Nat.exists_eq_add_of_le (not_lt.mp early)
    have atRight : (Node.halve (layout.heap.cells node)).2[index]? = some old := by
      simp only [Node.halve, List.getElem?_drop, there]
    have beyond : key leftMax < key value := by
      obtain ⟨_, _, across⟩ := Node.sorted_append.mp (whole.symm ▸ sorted)
      exact same ▸ across leftMax ((Node.max_eq_some leftSorted).mp left).1 old (List.mem_of_getElem? atRight)
    obtain ⟨_, leftHalf, rightHalf⟩ := halves.resolve_left fun within => absurd beyond (not_lt.mpr within.1)
    rcases Half.put_cases noIdentityAdoption rightSorted rightMax value with ⟨_, gap, _⟩ | ⟨spot, stored, found, equal, put⟩
    · exact absurd same (gap.absent old (List.mem_of_getElem? atRight))
    · cases rightSorted.position_unique found atRight (equal.trans same.symm)
      cases found.symm.trans atRight
      have bound : key value ≤ entry := same ▸ ((Node.maxKey_eq_some rightSorted).mp rightKey).2 old (List.mem_of_getElem? atRight)
      have rightTop := (Node.set_upserted rightSorted atRight same).maxKey_of_le rightSorted rightKey bound
      have held : (cut layout.topology entry (layout.heap.cells node) (key leftMax)).get? (key rightMax) =
          some (Node.halve (layout.heap.cells node)).2 := by
        rw [cut, named, get?_insert_self]
      have final : (layout.split node entry (Node.halve (layout.heap.cells node)).1
          ((Node.halve (layout.heap.cells node)).2.set index value)).topology =
          (cut layout.topology entry (layout.heap.cells node) (key leftMax)).insert (key rightMax)
            ((Node.halve (layout.heap.cells node)).2.set index value) := by
        rw [tidy.sound.topology_split linked leftKey rightTop, cut, named, insert_insert]
      rw [leftHalf, rightHalf, put]
      simp only [Half.untouched, List.nil_append, noIdentityAdoption]
      rw [replays_half rightSorted held right atRight same final (eventId + 1), rightLength]
      omega

end Layout

namespace BTreeMap
variable {K : Type u} {V : Type v} [LinearOrder K] {map : BTreeMap K V} {nodeCapacity : Nat}
open BTreeSet

/-- The node of the key has room, or the key ends neither of the halves it would be cut into. -/
def EndsNoHalf (map : BTreeMap K V) (key : K) : Prop :=
  ∀ entry node position, route id map.index.index key = some (entry, node) →
    Node.trySelect id (map.heap.cells node) key = some position → map.nodeCapacity ≤ (map.heap.cells node).length →
      position + 1 ≠ (map.heap.cells node).length / 2 ∧ position + 1 ≠ (map.heap.cells node).length

private theorem stored_of_containsKey (tidy : Tidy map) {key : K} (found : containsKey key map = true) :
    ∃ item, map.layout.Stored item ∧ item.key = key := by
  by_contra missing
  have held : map.layout.Holds key none := by
    intro item
    simp only [reduceCtorEq, false_iff]
    exact fun both => missing ⟨item, both⟩
  rw [containsKey, BTreeSet.contains, getWith_eq tidy key _ held] at found
  cases found

private theorem endsNoHalf_iff (tidy : Tidy map) {key entry : K} {node : NodeId} (linked : (entry, node) ∈ map.index.index)
    (inside : Between map.index.index entry key) {position : Nat} {item : Pair K V}
    (there : (map.heap.cells node)[position]? = some item) (named : item.key = key) :
    EndsNoHalf map key ↔ (map.nodeCapacity ≤ (map.heap.cells node).length →
      position + 1 ≠ (map.heap.cells node).length / 2 ∧ position + 1 ≠ (map.heap.cells node).length) := by
  have sorted : Node.Sorted (map.heap.cells node) := tidy.valid.sound.sorted node
  have routed := route_eq_some.mpr ⟨linked, inside⟩
  constructor
  · intro endsNoHalf full
    cases selected : Node.trySelect id (map.heap.cells node) key with
    | none => exact absurd named (Node.trySelect_none sorted monotone_id selected item (List.mem_of_getElem? there))
    | some spot =>
      obtain ⟨other, atSpot, same⟩ := Node.trySelect_some selected
      have level : Keyed.key other = Keyed.key item := Eq.trans same named.symm
      cases sorted.position_unique atSpot there level
      exact endsNoHalf entry node _ routed selected full
  · intro condition other target spot reached selected full
    cases routed.symm.trans reached
    obtain ⟨other, atSpot, same⟩ := Node.trySelect_some selected
    have level : Keyed.key other = Keyed.key item := Eq.trans same named.symm
    cases sorted.position_unique atSpot there level
    exact condition full

/-- Replacing the value of a stored key returns, and its events replayed on the nodes before
it give the nodes after it exactly when the key ends no half of a split. -/
theorem replacement_replays_iff (many : 2 ≤ nodeCapacity) (reachable : Reachable nodeCapacity map) {key : K}
    (stored : containsKey key map = true) (value : V) (fuel : Nat) :
    ∃ old cdc after, insertCdc key value (fuel + 1) map = some ((some old, cdc), after) ∧
      ((persistAll cdc map.topology).map Prod.snd = some after.topology ↔ EndsNoHalf map key) := by
  obtain ⟨tidy, capacity⟩ := reachable.tidy
  obtain ⟨item, held, named⟩ := stored_of_containsKey tidy stored
  obtain ⟨old, events, after, effect, left, result⟩ := putInner_effect tidy true ⟨key, value⟩ fuel
  have same : old = some item := (effect.holds tidy.layout item).mpr ⟨held, named⟩
  refine ⟨item.value, (emit true events map).1, after, ?_, ?_⟩
  · simp only [insertCdc, putCdc, result, same, Option.map_some]
  · simp only [BTreeSet.topology, emit, if_true]
    generalize after.layout = final at effect
    cases effect with
    | root empty => cases same
    | inserts oldMax position linked inside room gap max greatest => cases same
    | @replaces entry node position found linked inside room there level =>
      have condition : EndsNoHalf map key :=
        (endsNoHalf_iff tidy linked inside there level).mpr fun full => absurd room (not_lt.mpr full)
      rw [tidy.layout.replays_in_place linked there level]
      exact iff_of_true rfl condition
    | @splits entry node linked inside full upserted filled found =>
      have level : Keyed.key item = Keyed.key (⟨key, value⟩ : Pair K V) := named
      have here := tidy.layout.routed.stored_here linked (level.symm ▸ inside) held
      obtain ⟨position, there⟩ := List.mem_iff_getElem?.mp here
      have condition : EndsNoHalf map key ↔ _ := endsNoHalf_iff tidy linked inside there level
      rw [tidy.layout.replays_on_split linked ((capacity.symm ▸ many).trans full) there level, condition]
      exact ⟨fun both _ => both, fun condition => condition full⟩

private theorem reachable_full : ∃ map : BTreeMap Nat Nat, Reachable 4 map ∧ map.nodeCapacity = 4 ∧
    map.index.index.entries = [(3, 0)] ∧ map.heap.cells 0 = [⟨0, 0⟩, ⟨1, 0⟩, ⟨2, 0⟩, ⟨3, 0⟩] ∧
    (route id map.index.index 0 = some (3, 0) ∧ containsKey 0 map = true) ∧ containsKey 1 map = true ∧
    (insertCdc 1 9 1 map).map (fun result => (result.1.1, (persistAll result.1.2 map.topology).map fun outcome => outcome.2.entries,
      result.2.topology.entries)) = some (some 0, some [(0, [⟨0, 0⟩]), (3, [⟨2, 0⟩, ⟨3, 0⟩])],
        [(1, [⟨0, 0⟩, ⟨1, 9⟩]), (3, [⟨2, 0⟩, ⟨3, 0⟩])]) :=
  ⟨_, .mutates (.mutates (.mutates (.mutates .new (.insert false ⟨0, 0⟩ 1 rfl)) (.insert false ⟨1, 0⟩ 1 rfl))
      (.insert false ⟨2, 0⟩ 1 rfl)) (.insert false ⟨3, 0⟩ 1 rfl), rfl, by decide, by decide, by decide, by decide, rfl⟩

/-- Key 0 stands inside the left half, so its replacement replays. -/
theorem replacement_replays_inside : ∃ map : BTreeMap Nat Nat, Reachable 4 map ∧ map.heap.cells 0 = [⟨0, 0⟩, ⟨1, 0⟩, ⟨2, 0⟩, ⟨3, 0⟩] ∧
    ∃ old cdc after, insertCdc 0 9 1 map = some ((some old, cdc), after) ∧
      (persistAll cdc map.topology).map Prod.snd = some after.topology := by
  obtain ⟨map, reachable, capacity, _, cells, ⟨routed, stored⟩, _⟩ := reachable_full
  obtain ⟨old, cdc, after, ran, exactly⟩ := replacement_replays_iff (by decide) reachable stored 9 0
  refine ⟨map, reachable, cells, old, cdc, after, ran, exactly.mpr ?_⟩
  intro entry node position reached selected _
  cases routed.symm.trans reached
  have first : Node.trySelect id (map.heap.cells 0) 0 = some 0 := by
    rw [cells]
    rfl
  cases first.symm.trans selected
  rw [cells]
  decide

/-- Key 1 ends the left half: the consumer drops its new value, and the key with it. -/
theorem replacement_lost : ∃ map : BTreeMap Nat Nat, Reachable 4 map ∧ containsKey 1 map = true ∧
    ∃ old cdc after, insertCdc 1 9 1 map = some ((some old, cdc), after) ∧
      (persistAll cdc map.topology).map Prod.snd ≠ some after.topology := by
  obtain ⟨map, reachable, _, _, _, _, stored, replayed⟩ := reachable_full
  obtain ⟨⟨⟨result, cdc⟩, after⟩, ran, same⟩ := Option.map_eq_some_iff.mp replayed
  simp only [Prod.mk.injEq] at same
  obtain ⟨rfl, persisted, topology⟩ := same
  refine ⟨map, reachable, stored, 0, cdc, after, ran, fun equal => ?_⟩
  have entries := congrArg (Option.map SortedMap.entries) equal
  rw [Option.map_map, Option.map_some, topology] at entries
  have differ := persisted.symm.trans entries
  revert differ
  decide

end BTreeMap
end WorkTablesIndex
