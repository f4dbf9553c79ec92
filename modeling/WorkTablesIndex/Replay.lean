import WorkTablesIndex.Persisted

/-! Replay of change events by the reference consumer. Fresh insertions and removals
are reproduced exactly on every path. A replacement that rides on a split is not,
when the replaced value is the maximum of its half: the removal re-keys the half
and the insertion still names the old maximum. -/

universe u v

namespace WorkTablesIndex
open SortedMap

variable {α : Type u} {κ : Type v} [LinearOrder κ] [Keyed α κ]

namespace Layout
variable {layout : Layout α κ} {node : NodeId} {old : κ}

omit [Keyed α κ] in
theorem topology_get (linked : (old, node) ∈ layout.index) : layout.topology.get? old = some (layout.heap.cells node) :=
  get?_eq_some.mpr (mem_mapValues.mpr ⟨node, linked, rfl⟩)

private theorem Sound.topology_erase (sound : Sound layout) (linked : (old, node) ∈ layout.index) (heap : Heap α)
    (same : ∀ other, other ≠ node → other < layout.heap.next → heap.cells other = layout.heap.cells other) :
    (layout.index.erase old).mapValues heap.cells = layout.topology.erase old := by
  rw [Layout.topology, ← mapValues_erase]
  apply mapValues_congr
  rintro ⟨entry, other⟩ member
  obtain ⟨different, kept⟩ := (mem_erase ..).mp member
  exact same other (sound.apart linked kept different) (sound.allocated entry other kept)

theorem Sound.topology_refit (sound : Sound layout) (linked : (old, node) ∈ layout.index) (values : List α) (top : κ) :
    (layout.refit node old values top).topology = (layout.topology.erase old).insert top values := by
  have others := sound.topology_erase linked (layout.heap.write node values)
    fun other apart _ => Heap.write_other _ _ apart
  change ((layout.index.erase old).insert top node).mapValues (layout.heap.write node values).cells = _
  rw [mapValues_insert, others, Heap.write_same]

theorem Sound.topology_rewrite (sound : Sound layout) (linked : (old, node) ∈ layout.index) (values : List α) :
    (layout.rewrite node values).topology = layout.topology.insert old values := by
  rw [← refit_eq layout linked rfl, sound.topology_refit linked, erase_insert]

theorem Sound.topology_unlink (sound : Sound layout) (linked : (old, node) ∈ layout.index) :
    (layout.unlink node old).topology = layout.topology.erase old :=
  sound.topology_erase linked _ fun _ apart _ => Heap.write_other _ _ apart

theorem Sound.topology_root (sound : Sound layout) (value : α) :
    (layout.root value).topology = layout.topology.insert (key value) [value] := by
  have others : layout.index.mapValues (layout.heap.alloc [value]).2.cells = layout.topology := by
    apply mapValues_congr
    rintro ⟨entry, other⟩ member
    exact Heap.alloc_other _ _ (sound.allocated entry other member).ne
  change (layout.index.insert (key value) layout.heap.next).mapValues (layout.heap.alloc [value]).2.cells = _
  rw [mapValues_insert, others, Heap.alloc_same]

theorem Sound.topology_split (sound : Sound layout) (linked : (old, node) ∈ layout.index) {left right : List α}
    {leftTop rightTop : κ}
    (leftMax : Node.maxKey left = some leftTop) (rightMax : Node.maxKey right = some rightTop) :
    (layout.split node old left right).topology = ((layout.topology.erase old).insert leftTop left).insert rightTop right := by
  have away : node ≠ layout.heap.next := (sound.allocated old node linked).ne
  have cells : ∀ other, (layout.split node old left right).heap.cells other = _ := split_cells left right
  have others := sound.topology_erase linked (layout.split node old left right).heap fun other apart inside => by
    rw [cells, if_neg inside.ne, if_neg apart]
  have index : (layout.split node old left right).index =
      ((layout.index.erase old).insert leftTop node).insert rightTop layout.heap.next := by
    simp only [Layout.split, leftMax, rightMax, Operation.link]
  rw [Layout.topology, index, mapValues_insert, mapValues_insert, others, cells, cells, if_pos rfl, if_neg away, if_pos rfl]

end Layout

open PersistedBTreeMap

namespace PersistedBTreeMap
variable {nodes : PersistedBTreeMap α κ} {entry : κ} {values : List α}

def cut (nodes : PersistedBTreeMap α κ) (entry : κ) (values : List α) (leftKey : κ) : PersistedBTreeMap α κ :=
  ((nodes.erase entry).insert leftKey (Node.halve values).1).insert entry (Node.halve values).2

/-- The split event itself always replays; what rides on it meets the cut nodes. -/
theorem persistAll_split (sorted : Node.Sorted values) (many : 2 ≤ values.length) (greatest : Node.maxKey values = some entry)
    (held : nodes.get? entry = some values) (value : α) (eventId : Id) :
    ∃ leftMax rightMax, Node.max (Node.halve values).1 = some leftMax ∧ Node.max (Node.halve values).2 = some rightMax ∧
      key leftMax < entry ∧ key rightMax = entry ∧
      ((key value ≤ key leftMax ∧ Operation.leftHalf values value = .put noIdentityAdoption (Node.halve values).1 leftMax value ∧
          Operation.rightHalf values value = .untouched (Node.halve values).2) ∨
        key leftMax < key value ∧ Operation.leftHalf values value = .untouched (Node.halve values).1 ∧
          Operation.rightHalf values value = .put noIdentityAdoption (Node.halve values).2 rightMax value) ∧
      persistAll (assignIds eventId (Operation.splitEvents values value)) nodes =
        persistAll (assignIds (eventId + 1) ((Operation.leftHalf values value).events ++ (Operation.rightHalf values value).events))
          (cut nodes entry values (key leftMax)) := by
  obtain ⟨leftMax, rightMax, left, right, below, halves⟩ := Operation.halves_cases sorted many value
  obtain ⟨max, top, rfl⟩ := Option.map_eq_some_iff.mp greatest
  have half : (Node.halve values).1.length = values.length / 2 := by
    simp only [Node.halve, List.length_take]
    omega
  have same : rightMax = max := by
    have whole := right
    simp only [Node.halve, Node.max, List.getLast?_drop, if_neg (show ¬ values.length ≤ values.length / 2 by omega)] at whole
    exact Option.some.inj (whole.symm.trans top)
  subst same
  refine ⟨leftMax, rightMax, left, right, below, rfl, halves, ?_⟩
  have applied := persist_splitNode held (show values.length / 2 ≤ values.length by omega) right left eventId
  have swapped : ((nodes.erase (key rightMax)).insert (key rightMax) (values.drop (values.length / 2))).insert (key leftMax)
      (values.take (values.length / 2)) = cut nodes (key rightMax) values (key leftMax) := insert_comm below.ne' _ _
  simp only [Operation.splitEvents, top, half, assignIds, ChangeEventUnassigned.assignId, persistAll, applied, swapped,
    Bool.true_and, Option.map_id']

end PersistedBTreeMap

variable {layout after : Layout α κ} {nodeCapacity : Nat} {value : α} {result : Option α} {events : List (ChangeEventUnassigned α)}

omit [LinearOrder κ] in
private theorem key_of_max {values : List α} {max : α} {entry : κ} (top : Node.max values = some max)
    (greatest : Node.maxKey values = some entry) : key max = entry := by
  rw [Node.maxKey, top] at greatest
  exact Option.some.inj greatest

/-- The events of a fresh insertion lead from the nodes before it to the nodes after it. -/
theorem PutEffect.replays_fresh (effect : PutEffect nodeCapacity value layout result events after) (tidy : layout.Tidy)
    (many : 2 ≤ nodeCapacity) (fresh : ∀ item, layout.Stored item → key item ≠ key value) (eventId : Id) :
    persistAll (assignIds eventId events) layout.topology = some (true, after.topology) := by
  cases effect with
  | root empty =>
    rw [tidy.sound.topology_root]
    rfl
  | inserts oldMax position linked inside room gap max greatest =>
    have sorted := tidy.sound.sorted
    have named := key_of_max max (tidy.tight _ _ linked)
    subst named
    have applied := persist_insertAt (Layout.topology_get linked) value gap.inside eventId
    have moved := ((gap.upserted (sorted _)).maxKey_eq (sorted _) (tidy.tight _ _ linked)).symm.trans greatest
    rw [Option.some.inj moved] at applied
    rw [tidy.sound.topology_refit linked]
    simp only [assignIds, ChangeEventUnassigned.assignId, persistAll, applied, Option.map_some, Bool.and_self]
  | replaces position old linked inside room there same =>
    exact absurd same (fresh old ⟨_, _, linked, List.mem_of_getElem? there⟩)
  | @splits entry node linked inside full stored filled found =>
    have sorted := tidy.sound.sorted node
    obtain ⟨leftMax, rightMax, left, right, below, named, halves, replayed⟩ := persistAll_split sorted (many.trans full)
      (tidy.tight entry node linked) (Layout.topology_get linked) value eventId
    have whole := Node.halve_append (layout.heap.cells node)
    obtain ⟨leftSorted, rightSorted, _⟩ := Node.sorted_append.mp (whole.symm ▸ sorted)
    have leftKey : Node.maxKey (Node.halve (layout.heap.cells node)).1 = some (key leftMax) := by simp [Node.maxKey, left]
    have rightKey : Node.maxKey (Node.halve (layout.heap.cells node)).2 = some entry := by simp [Node.maxKey, right, named]
    have absent (item : α) (member : item ∈ (Node.halve (layout.heap.cells node)).1 ++ (Node.halve (layout.heap.cells node)).2) :
        key item ≠ key value := by
      rw [whole] at member
      exact fresh item ⟨entry, node, linked, member⟩
    rw [replayed]
    rcases halves with ⟨within, atLeft, atRight⟩ | ⟨beyond, atLeft, atRight⟩
    · rcases Half.put_cases noIdentityAdoption leftSorted leftMax value with ⟨index, gap, put⟩ | ⟨index, old, there, same, _⟩
      · have held : (cut layout.topology entry (layout.heap.cells node) (key leftMax)).get? (key leftMax) =
            some (Node.halve (layout.heap.cells node)).1 := by
          rw [cut, get?_insert_of_ne below.ne, get?_insert_self]
        have applied := persist_insertAt held value gap.inside (eventId + 1)
        have leftTop := (gap.upserted leftSorted).maxKey_of_le leftSorted leftKey within
        rw [if_neg (not_lt.mpr within), erase_insert] at applied
        rw [atLeft, atRight, put]
        have final := tidy.sound.topology_split linked leftTop rightKey
        simp only [Half.untouched] at final ⊢
        simp only [List.append_nil, assignIds, ChangeEventUnassigned.assignId, persistAll, applied, Option.map_some, Bool.and_self,
          final]
        rw [cut, insert_comm below.ne', insert_insert]
      · exact absurd same (absent old (List.mem_append_left _ (List.mem_of_getElem? there)))
    · rcases Half.put_cases noIdentityAdoption rightSorted rightMax value with ⟨index, gap, put⟩ | ⟨index, old, there, same, _⟩
      · have held : (cut layout.topology entry (layout.heap.cells node) (key leftMax)).get? (key rightMax) =
            some (Node.halve (layout.heap.cells node)).2 := by
          rw [cut, named, get?_insert_self]
        have applied := persist_insertAt held value gap.inside (eventId + 1)
        have rightTop := (gap.upserted rightSorted).maxKey_eq rightSorted rightKey
        rw [atLeft, atRight, put]
        have final := tidy.sound.topology_split linked leftKey rightTop
        simp only [Half.untouched] at final ⊢
        simp only [List.nil_append, assignIds, ChangeEventUnassigned.assignId, persistAll, applied, Option.map_some, Bool.and_self,
          final]
        rw [cut, named, insert_erase, insert_erase_of_ne below.ne, erase_erase]
      · exact absurd same (absent old (List.mem_append_right _ (List.mem_of_getElem? there)))

theorem RemoveEffect.replays {wanted : κ} (effect : RemoveEffect wanted layout result events after) (tidy : layout.Tidy)
    (eventId : Id) :
    persistAll (assignIds eventId events) layout.topology = some (true, after.topology) := by
  cases effect with
  | absent missing => rfl
  | @deletes entry node deleted oldMax position top linked inside many there same max greatest =>
    have sorted := tidy.sound.sorted node
    have named := key_of_max max (tidy.tight entry node linked)
    subst named
    obtain ⟨newMax, remaining, rfl⟩ := Option.map_eq_some_iff.mp greatest
    have within := (List.getElem?_eq_some_iff.mp there).1
    have applied := persist_removeAt (Layout.topology_get linked) deleted within remaining eventId
    have moved : (if key oldMax = key deleted then key newMax else key oldMax) = key newMax := by
      split
      next => rfl
      next different =>
        -- the maximum itself is still there
        obtain ⟨member, bound⟩ := (Node.max_eq_some sorted).mp max
        obtain ⟨newMember, newBound⟩ := (Node.max_eq_some (Node.eraseIdx_sorted sorted position)).mp remaining
        have kept := (Node.mem_eraseIdx sorted there oldMax).mpr ⟨member, different⟩
        exact le_antisymm (newBound oldMax kept) (bound newMax ((Node.mem_eraseIdx sorted there newMax).mp newMember).1)
    rw [moved] at applied
    rw [tidy.sound.topology_refit linked]
    simp only [assignIds, ChangeEventUnassigned.assignId, persistAll, applied, Option.map_some, Bool.and_self]
  | @unlinks entry node deleted linked inside only same =>
    have named : key deleted = entry := by
      have tight := tidy.tight entry node linked
      rw [only] at tight
      exact Option.some.inj tight
    have held : layout.topology.get? (key deleted) = some [deleted] := by
      rw [named, Layout.topology_get linked, only]
    rw [tidy.sound.topology_unlink linked, ← named]
    simp [assignIds, ChangeEventUnassigned.assignId, persistAll, persist, held]

namespace BTreeMap
variable {K : Type u} {V : Type v} [LinearOrder K] {map : BTreeMap K V} {log : List (ChangeEvent (Pair K V))} {nodeCapacity : Nat}
open BTreeSet

/-- The maps reached by complete `insert_cdc` calls of absent keys and `remove_cdc` calls,
with all events returned so far, in the order of the calls. -/
inductive Logged (nodeCapacity : Nat) : BTreeMap K V → List (ChangeEvent (Pair K V)) → Prop where
  | new : Logged nodeCapacity (.withMaximumNodeSize nodeCapacity) []
  | insertCdc {map after log old cdc} (earlier : Logged nodeCapacity map log) (key : K) (value : V) (fuel : Nat)
      (absent : containsKey key map = false) (ran : insertCdc key value fuel map = some ((old, cdc), after)) :
      Logged nodeCapacity after (log ++ cdc)
  | removeCdc {map after log old cdc} (earlier : Logged nodeCapacity map log) (key : K) (fuel : Nat)
      (ran : removeCdc key fuel map = some ((old, cdc), after)) : Logged nodeCapacity after (log ++ cdc)

private structure Follows (nodeCapacity : Nat) (map : BTreeMap K V) (log : List (ChangeEvent (Pair K V))) : Prop where
  tidy : Tidy map
  capacity : map.nodeCapacity = nodeCapacity
  numbered : log.map ChangeEvent.id = List.range map.eventId
  replayed : persistAll log .empty = some (true, map.topology)

private theorem Follows.call (follows : Follows nodeCapacity map log) {after : BTreeMap K V}
    {events : List (ChangeEventUnassigned (Pair K V))} (left : Left map true events after) (tidy : after.layout.Tidy)
    (replays : persistAll (assignIds map.eventId events) map.topology = some (true, after.topology)) :
    Follows nodeCapacity after (log ++ (emit true events map).1) := by
  refine ⟨⟨left.valid, tidy⟩, left.nodeCapacity.trans follows.capacity, ?_, ?_⟩
  · rw [List.map_append, follows.numbered, left.eventId]
    simp only [emit, if_true, assignIds_ids]
    rw [List.range_eq_range', List.range_eq_range', ← List.range'_append_1, Nat.zero_add]
  · rw [persistAll_append log _ _ follows.replayed]
    simpa only [emit, if_true] using replays

theorem absent_of_containsKey (tidy : Tidy map) {key : K} (absent : containsKey key map = false) :
    ∀ item, map.layout.Stored item → item.key ≠ key := by
  intro item stored same
  have held : map.layout.Holds key (some item) := by
    intro other
    constructor
    · intro equal
      cases equal
      exact ⟨stored, same⟩
    · intro both
      obtain ⟨⟨entry, node, linked, present⟩, equal⟩ := both
      have level : Keyed.key other = Keyed.key item := equal.trans same.symm
      have inside := tidy.layout.routed entry node linked other present
      rw [level] at inside
      have here := tidy.layout.routed.stored_here linked inside stored
      exact congrArg some ((tidy.valid.sound.sorted node).key_unique here present level.symm)
  rw [containsKey, BTreeSet.contains, getWith_eq tidy key _ held] at absent
  cases absent

private theorem Logged.follows (many : 2 ≤ nodeCapacity) (logged : Logged nodeCapacity map log) : Follows nodeCapacity map log := by
  induction logged with
  | new => exact ⟨tidy_new nodeCapacity, rfl, rfl, rfl⟩
  | insertCdc earlier key value fuel absent ran follows =>
    cases fuel with
    | zero => cases ran
    | succ fuel =>
      obtain ⟨old, events, final, effect, left, result⟩ := putInner_effect follows.tidy true ⟨key, value⟩ fuel
      simp only [BTreeMap.insertCdc, putCdc, result, Option.map_some, Option.some.injEq, Prod.mk.injEq] at ran
      obtain ⟨⟨_, rfl⟩, rfl⟩ := ran
      exact follows.call left (effect.tidy follows.tidy.layout).1 (effect.replays_fresh follows.tidy.layout
        (follows.capacity.symm ▸ many) (absent_of_containsKey follows.tidy absent) _)
  | removeCdc earlier key fuel ran follows =>
    cases fuel with
    | zero => cases ran
    | succ fuel =>
      obtain ⟨deleted, events, final, effect, left, result⟩ := removeInner_effect follows.tidy true key fuel
      simp only [BTreeMap.removeCdc, BTreeSet.removeCdc, result, Option.map_some, Option.some.injEq, Prod.mk.injEq] at ran
      obtain ⟨⟨_, rfl⟩, rfl⟩ := ran
      exact follows.call left (effect.tidy follows.tidy.layout).1 (effect.replays follows.tidy.layout _)

/-- Whatever fresh insertions and removals came before: the calls return, their events are
numbered in order without a gap, and replaying them all rebuilds exactly the nodes of the
map, without a panic and without a dropped event. -/
theorem fresh_events_replay (many : 2 ≤ nodeCapacity) (logged : Logged nodeCapacity map log) :
    log.map ChangeEvent.id = List.range map.eventId ∧ persistAll log .empty = some (true, map.topology) ∧
      (∀ key value fuel, ∃ result, insertCdc key value (fuel + 1) map = some result) ∧
      ∀ key fuel, ∃ result, removeCdc key (fuel + 1) map = some result := by
  have follows := logged.follows many
  refine ⟨follows.numbered, follows.replayed, fun key value fuel => ?_, fun key fuel => ?_⟩
  · obtain ⟨_, _, _, _, _, result⟩ := putInner_effect follows.tidy true ⟨key, value⟩ fuel
    exact ⟨_, by rw [insertCdc, putCdc, result, Option.map_some]⟩
  · obtain ⟨_, _, _, _, _, result⟩ := removeInner_effect follows.tidy true key fuel
    exact ⟨_, by rw [removeCdc, BTreeSet.removeCdc, result, Option.map_some]⟩

/-- Growth past the maximum, a split and the removal of a maximum. -/
theorem fresh_events_replay_split : ∃ (map : BTreeMap Nat Nat) (log : List (ChangeEvent (Pair Nat Nat))), Logged 2 map log ∧
    map.nodes = [[⟨10, 1⟩], [⟨20, 2⟩]] ∧ log.length = 5 ∧ persistAll log .empty = some (true, map.topology) := by
  obtain ⟨map, log, logged, nodes, length⟩ : ∃ (map : BTreeMap Nat Nat) (log : List (ChangeEvent (Pair Nat Nat))), Logged 2 map log ∧
      map.nodes = [[⟨10, 1⟩], [⟨20, 2⟩]] ∧ log.length = 5 :=
    ⟨_, _, .removeCdc (.insertCdc (.insertCdc (.insertCdc .new 10 1 1 rfl rfl) 20 2 1 rfl rfl) 30 3 1 rfl rfl) 30 1 rfl,
      by decide, by decide⟩
  exact ⟨map, log, logged, nodes, length, (fresh_events_replay (by decide) logged).2.1⟩

end BTreeMap

end WorkTablesIndex
