import WorkTablesIndex.EventClaims
import WorkTablesIndex.EventIds
import WorkTablesIndex.PresentNodes

/-! Replay of the events of concurrent calls. Each section numbers its events while it
holds its locks, so a log in the order of the numbers lists the changes in the order in
which they were made, whoever made them and whether or not the calls have returned. -/

universe u v

namespace WorkTablesIndex
open SortedMap PersistedBTreeMap

variable {α : Type u} {κ : Type v} [LinearOrder κ] [Keyed α κ]

private theorem persistAll_put {nodes : PersistedBTreeMap α κ} {half : List α} {max : α} (sorted : Node.Sorted half)
    (held : nodes.get? (key max) = some half) (top : Node.max half = some max) (value : α)
    (inner : ∀ index old, half[index]? = some old → key old = key value → index + 1 ≠ half.length) (eventId : Id) :
    ∃ newTop, Node.maxKey (Half.put noIdentityAdoption half max value).values = some newTop ∧
      persistAll (assignIds eventId (Half.put noIdentityAdoption half max value).events) nodes =
        some (true, (nodes.erase (key max)).insert newTop (Half.put noIdentityAdoption half max value).values) := by
  have greatest : Node.maxKey half = some (key max) := by simp [Node.maxKey, top]
  rcases Half.put_cases noIdentityAdoption sorted max value with ⟨index, gap, put⟩ | ⟨index, old, there, same, put⟩
  · have applied := persist_insertAt held value gap.inside eventId
    rw [put]
    refine ⟨_, (gap.upserted sorted).maxKey_eq sorted greatest, ?_⟩
    simp only [assignIds, ChangeEventUnassigned.assignId, persistAll, applied, Option.map_some, Bool.and_self]
  · have bound : key value ≤ key max := same ▸ ((Node.max_eq_some sorted).mp top).2 old (List.mem_of_getElem? there)
    have applied := persist_replace_inner sorted held top there same (inner index old there same) eventId
    rw [put]
    refine ⟨key max, (Node.set_upserted sorted there same).maxKey_of_le sorted greatest bound, ?_⟩
    rw [erase_insert]
    exact applied

namespace Layout
variable {layout : Layout α κ} {node : NodeId} {old : κ} {value : α}

theorem Routed.replays_root (empty : ∀ entry, entry ∉ layout.index) (sound : Sound layout) (value : α) (eventId : Id) :
    persistAll (assignIds eventId [.createNode value]) layout.present = some (true, (layout.root value).present) := by
  rw [Routed.present_root empty sound]
  rfl

theorem Routed.replays_insert (routed : Routed layout) (sound : Sound layout) (linked : (old, node) ∈ layout.index)
    (inside : Between layout.index old (key value)) {position : Nat} (gap : Node.Gap (layout.heap.cells node) value position)
    {oldMax : α} (max : Node.max (layout.heap.cells node) = some oldMax) (eventId : Id) :
    persistAll (assignIds eventId [.insertAt oldMax value position]) layout.present =
      some (true, (layout.rewrite node ((layout.heap.cells node).insertIdx position value)).present) := by
  have sorted := sound.sorted node
  have greatest : Node.maxKey (layout.heap.cells node) = some (key oldMax) := by simp [Node.maxKey, max]
  have stored := gap.upserted sorted
  have filled := List.ne_nil_of_mem ((stored.mem value).mpr (Or.inl rfl))
  have applied := persist_insertAt (routed.present_get sound ⟨old, linked⟩ greatest) value gap.inside eventId
  rw [routed.present_rewrite sound ⟨old, linked⟩ (routed.upsert sound linked inside stored) (sound.rewrite stored.sorted filled)
    greatest (stored.maxKey_eq sorted greatest)]
  simp only [assignIds, ChangeEventUnassigned.assignId, persistAll, applied, Option.map_some, Bool.and_self]

/-- A replacement in place: with every repair made, the nodes are the consumer's. -/
theorem Routed.replays_replace (routed : Routed layout) (sound : Sound layout) (linked : (old, node) ∈ layout.index)
    {position : Nat} {stored : α} (there : (layout.heap.cells node)[position]? = some stored) (same : key stored = key value)
    (eventId : Id) :
    persistAll (assignIds eventId (BTreeSet.replaceEvents (layout.heap.cells node) position stored value)) layout.present =
      some (true, (layout.rewrite node ((layout.heap.cells node).set position value)).present) := by
  obtain ⟨tidy, heap, links⟩ := routed.settled sound
  obtain ⟨entry, member⟩ := (links node).mpr ⟨old, linked⟩
  have greatest : Node.maxKey (layout.heap.cells node) = some entry := heap ▸ tidy.tight entry node member
  have sorted := sound.sorted node
  have replaced := Node.set_upserted sorted there same
  have filled := List.ne_nil_of_mem ((replaced.mem value).mpr (Or.inl rfl))
  have inside := same ▸ routed old node linked stored (List.mem_of_getElem? there)
  have bound : key value ≤ entry := same ▸ ((Node.maxKey_eq_some sorted).mp greatest).2 stored (List.mem_of_getElem? there)
  have applied := tidy.replays_in_place member (heap ▸ there) same eventId
  rw [heap, tidy.sound.topology_rewrite member] at applied
  rw [routed.present_rewrite sound ⟨old, linked⟩ (routed.upsert sound linked inside replaced)
    (sound.rewrite replaced.sorted filled) greatest (replaced.maxKey_of_le sorted greatest bound), erase_insert]
  exact applied

theorem Routed.replays_delete (routed : Routed layout) (sound : Sound layout) (linked : (old, node) ∈ layout.index)
    {position : Nat} {deleted : α} (there : (layout.heap.cells node)[position]? = some deleted)
    (many : 1 < (layout.heap.cells node).length) {oldMax : α} (max : Node.max (layout.heap.cells node) = some oldMax)
    (eventId : Id) : persistAll (assignIds eventId [.removeAt oldMax deleted position]) layout.present =
      some (true, (layout.rewrite node ((layout.heap.cells node).eraseIdx position)).present) := by
  have sorted := sound.sorted node
  have greatest : Node.maxKey (layout.heap.cells node) = some (key oldMax) := by simp [Node.maxKey, max]
  have removed := Node.eraseIdx_removed sorted there
  have filled := BTreeSet.eraseIdx_ne_nil many position
  obtain ⟨newTop, moved⟩ := Node.maxKey_isSome (κ := κ) filled
  obtain ⟨newMax, remaining, rfl⟩ := Option.map_eq_some_iff.mp moved
  have within := (List.getElem?_eq_some_iff.mp there).1
  have applied := persist_removeAt (routed.present_get sound ⟨old, linked⟩ greatest) deleted within remaining eventId
  have top : (if key oldMax = key deleted then key newMax else key oldMax) = key newMax := by
    split
    next => rfl
    next different =>
      -- the maximum itself is still there
      obtain ⟨member, bound⟩ := (Node.max_eq_some sorted).mp max
      obtain ⟨newMember, newBound⟩ := (Node.max_eq_some (Node.eraseIdx_sorted sorted position)).mp remaining
      have kept := (Node.mem_eraseIdx sorted there oldMax).mpr ⟨member, different⟩
      exact le_antisymm (newBound oldMax kept) (bound newMax ((Node.mem_eraseIdx sorted there newMax).mp newMember).1)
  rw [top] at applied
  rw [routed.present_rewrite sound ⟨old, linked⟩ (routed.shrink sound linked removed) (sound.rewrite removed.sorted filled)
    greatest moved]
  simp only [assignIds, ChangeEventUnassigned.assignId, persistAll, applied, Option.map_some, Bool.and_self]

theorem Routed.replays_unlink (routed : Routed layout) (sound : Sound layout) (linked : (old, node) ∈ layout.index)
    {deleted : α} (only : layout.heap.cells node = [deleted]) (eventId : Id) :
    persistAll (assignIds eventId [.removeNode deleted]) layout.present = some (true, (layout.unlink node old).present) := by
  have greatest : Node.maxKey (layout.heap.cells node) = some (key deleted) := by rw [only]; rfl
  have held := routed.present_get sound ⟨old, linked⟩ greatest
  rw [routed.present_unlink sound linked greatest]
  simp [assignIds, ChangeEventUnassigned.assignId, persistAll, persist, held]

/-- No value equal to this one ends a half of the node. -/
def EndsNoHalf (values : List α) (value : α) : Prop :=
  ∀ position item, values[position]? = some item → key item = key value →
    position + 1 ≠ values.length / 2 ∧ position + 1 ≠ values.length

theorem Routed.replays_split (routed : Routed layout) (sound : Sound layout) (linked : (old, node) ∈ layout.index)
    (inside : Between layout.index old (key value)) (many : 2 ≤ (layout.heap.cells node).length)
    (inner : EndsNoHalf (κ := κ) (layout.heap.cells node) value)
    (stored : Node.Upserted (layout.heap.cells node) value
      ((Operation.leftHalf (layout.heap.cells node) value).values ++ (Operation.rightHalf (layout.heap.cells node) value).values))
    (eventId : Id) :
    persistAll (assignIds eventId (Operation.splitEvents (layout.heap.cells node) value)) layout.present =
      some (true, (layout.split node old (Operation.leftHalf (layout.heap.cells node) value).values
        (Operation.rightHalf (layout.heap.cells node) value).values).present) := by
  have sorted := sound.sorted node
  have filled : layout.heap.cells node ≠ [] := List.ne_nil_of_length_pos (by omega)
  obtain ⟨top, greatest⟩ := Node.maxKey_isSome (κ := κ) filled
  obtain ⟨leftMax, rightMax, left, right, below, named, halves, replayed⟩ := persistAll_split sorted many greatest
    (routed.present_get sound ⟨old, linked⟩ greatest) value eventId
  have whole := Node.halve_append (layout.heap.cells node)
  obtain ⟨leftSorted, rightSorted, _⟩ := Node.sorted_append.mp (whole.symm ▸ sorted)
  have leftKey : Node.maxKey (Node.halve (layout.heap.cells node)).1 = some (key leftMax) := by simp [Node.maxKey, left]
  have rightKey : Node.maxKey (Node.halve (layout.heap.cells node)).2 = some top := by simp [Node.maxKey, right, named]
  have leftLength : (Node.halve (layout.heap.cells node)).1.length = (layout.heap.cells node).length / 2 := by
    simp only [Node.halve, List.length_take]
    omega
  rw [replayed]
  rcases halves with ⟨within, atLeft, atRight⟩ | ⟨beyond, atLeft, atRight⟩
  · have held : (cut layout.present top (layout.heap.cells node) (key leftMax)).get? (key leftMax) =
        some (Node.halve (layout.heap.cells node)).1 := by
      rw [cut, get?_insert_of_ne below.ne, get?_insert_self]
    have position : ∀ index item, (Node.halve (layout.heap.cells node)).1[index]? = some item → key item = key value →
        index + 1 ≠ (Node.halve (layout.heap.cells node)).1.length := by
      intro index item there same
      rw [leftLength]
      have early : index < (layout.heap.cells node).length / 2 := leftLength ▸ (List.getElem?_eq_some_iff.mp there).1
      simp only [Node.halve, List.getElem?_take, if_pos early] at there
      exact (inner index item there same).1
    obtain ⟨newTop, leftTop, put⟩ := persistAll_put leftSorted held left value position (eventId + 1)
    rw [← atLeft] at leftTop put
    rw [atRight] at stored ⊢
    simp only [Half.untouched, List.append_nil] at stored ⊢
    have kept : newTop = key leftMax := by
      have upserted := (Half.put_spec leftSorted leftMax value).1.maxKey_of_le leftSorted leftKey within
      rw [← atLeft, leftTop] at upserted
      exact Option.some.inj upserted
    subst kept
    rw [put, routed.present_split sound linked inside stored greatest leftTop rightKey, erase_insert, cut,
      insert_comm below.ne', insert_insert]
  · have held : (cut layout.present top (layout.heap.cells node) (key leftMax)).get? (key rightMax) =
        some (Node.halve (layout.heap.cells node)).2 := by
      rw [cut, named, get?_insert_self]
    have position : ∀ index item, (Node.halve (layout.heap.cells node)).2[index]? = some item → key item = key value →
        index + 1 ≠ (Node.halve (layout.heap.cells node)).2.length := by
      intro index item there same last
      simp only [Node.halve, List.getElem?_drop, List.length_drop] at there last
      exact (inner _ item there same).2 (by omega)
    obtain ⟨newTop, rightTop, put⟩ := persistAll_put rightSorted held right value position (eventId + 1)
    rw [← atRight] at rightTop put
    rw [atLeft] at stored ⊢
    simp only [Half.untouched, List.nil_append] at stored ⊢
    rw [put, routed.present_split sound linked inside stored greatest leftKey rightTop, cut, named, insert_erase,
      insert_erase_of_ne below.ne, erase_erase]

theorem Routed.closed_interval (routed : Routed layout) (sound : Sound layout) (linked : (old, node) ∈ layout.index) :
    Closed {wanted | Between layout.index old wanted} layout.present := by
  intro top inside values found item member
  obtain ⟨target, ⟨entry, there⟩, rfl, greatest⟩ := (routed.mem_present sound).mp (get?_eq_some.mp found)
  obtain ⟨⟨last, lastIn, rfl⟩, _⟩ := (Node.maxKey_eq_some (sound.sorted target)).mp greatest
  cases (routed entry target there last lastIn).unique there linked inside
  exact routed old node linked item member

theorem Routed.closed_keys (routed : Routed layout) (sound : Sound layout) (linked : (old, node) ∈ layout.index) :
    Closed {wanted | ∃ item ∈ layout.heap.cells node, key item = wanted} layout.present := by
  intro top inside values found item member
  obtain ⟨held, heldIn, named⟩ := inside
  obtain ⟨target, ⟨entry, there⟩, rfl, greatest⟩ := (routed.mem_present sound).mp (get?_eq_some.mp found)
  obtain ⟨⟨last, lastIn, same⟩, _⟩ := (Node.maxKey_eq_some (sound.sorted target)).mp greatest
  cases routed.partitioned.once _ there _ linked last lastIn held heldIn (same.trans named.symm)
  exact ⟨item, member, rfl⟩

/-- No claimed key belongs to a node outside the list. -/
def Away (layout : Layout α κ) (mutated : List NodeId) (places : Set κ) : Prop :=
  ∀ entry node, (entry, node) ∈ layout.index → node ∉ mutated → ∀ wanted, Between layout.index entry wanted → wanted ∉ places

omit [Keyed α κ] in
theorem away_interval (linked : (old, node) ∈ layout.index) {mutated : List NodeId} (member : node ∈ mutated) :
    Away layout mutated {wanted | Between layout.index old wanted} := by
  intro entry other there apart wanted inside claimed
  cases inside.unique there linked claimed
  exact apart member

theorem Routed.away_keys (routed : Routed layout) (linked : (old, node) ∈ layout.index) {mutated : List NodeId}
    (member : node ∈ mutated) : Away layout mutated {wanted | ∃ item ∈ layout.heap.cells node, key item = wanted} := by
  intro entry other there apart wanted inside claimed
  obtain ⟨item, held, rfl⟩ := claimed
  cases inside.unique there linked (routed old node linked item held)
  exact apart member

end Layout

def Phase.Recording : Phase α κ → Prop
  | .put _ _ emitCdc | .root _ _ emitCdc | .commitSplit _ _ _ _ emitCdc _ | .remove _ emitCdc | .unlink _ emitCdc => emitCdc = true
  | .commitMax .. | .repair .. => True
  | .removeRange .. => False

/-- A split that finds its node finds two values to cut apart and its value routed there, and
replaces no value that ends a half. -/
def Phase.SplitsWell (set : BTreeSet α κ) : Phase α κ → Prop
  | .commitSplit node old value _ _ _ => (old, node) ∈ set.index.index →
      Between set.index.index old (key value) ∧ 2 ≤ (set.heap.cells node).length ∧
        Layout.EndsNoHalf (κ := κ) (set.heap.cells node) value
  | _ => True

/-- The keys a section may touch on the consumer's side while it draws its numbers. -/
structure Critical.Claims (set : BTreeSet α κ) (entered : Critical α κ) (places : Set κ) : Prop where
  within : ∀ event ∈ entered.events, event.Within places
  closed : Closed places set.layout.present
  away : set.layout.Away entered.mutated places
  /-- Without the topology's write lock they all belong to a node the section has locked, and
  without its read lock they are all stored there. -/
  held : entered.place ≠ .write → ∀ wanted ∈ places, ∃ entry, ∃ node ∈ entered.mutated, (entry, node) ∈ set.index.index ∧
    Between set.index.index entry wanted ∧ (entered.place = .nodeOnly → ∃ item ∈ entered.set.heap.cells node, key item = wanted)

structure Critical.Replays (set : BTreeSet α κ) (entered : Critical α κ) : Prop where
  replays : entered.events.foldlM consume set.layout.present = some entered.set.layout.present
  steady : entered.place ≠ .write → entered.set.index.index = set.index.index
  frame : ∀ node, node ∉ entered.mutated → set.layout.Links node →
    entered.set.layout.Links node ∧ entered.set.heap.cells node = set.heap.cells node
  claims : entered.events ≠ [] → ∃ places, entered.Claims set places

namespace Critical.Replays
variable {set after : BTreeSet α κ} {place : Place} {carried : List (ChangeEvent α)} {exit : Exit α κ}

private theorem quiet (unchanged : after.layout = set.layout) : Replays set (.quiet place after carried exit) where
  replays := congrArg (fun layout : Layout α κ => some layout.present) unchanged.symm
  steady _ := congrArg Layout.index unchanged
  frame node _ linked := ⟨unchanged.symm ▸ linked, congrArg (fun layout => layout.heap.cells node) unchanged⟩
  claims impossible := absurd rfl impossible

private theorem rekeys (valid : set.Valid) (routed : set.layout.Routed) {node : NodeId} {old new : κ}
    (linked : (old, node) ∈ set.index.index) (greatest : Node.maxKey (set.heap.cells node) = some new)
    (rekeyed : after.layout = set.layout.rekey node old new) : Replays set (.quiet .write after carried exit) where
  replays := congrArg some ((congrArg Layout.present rekeyed).trans (routed.present_rekey valid.sound linked greatest)).symm
  steady impossible := absurd rfl impossible
  frame other _ present := by
    have still := (routed.rekey_links valid.sound linked greatest other).mpr present
    exact ⟨rekeyed.symm ▸ still, congrArg (fun layout => layout.heap.cells other) rekeyed⟩
  claims impossible := absurd rfl impossible

private theorem rewrites {node : NodeId} {old : κ} {values : List α} {cdc : List (ChangeEvent α)} {noted : List (Record α κ)}
    {places : Set κ} (linked : (old, node) ∈ set.index.index) (rewritten : after.layout = set.layout.rewrite node values)
    (replays : persistAll cdc set.layout.present = some (true, (set.layout.rewrite node values).present))
    (within : ∀ event ∈ cdc.map ChangeEvent.unassign, event.Within places) (closed : Closed places set.layout.present)
    (away : set.layout.Away [node] places) (inside : ∀ wanted ∈ places, Between set.index.index old wanted)
    (held : place = .nodeOnly → ∀ wanted ∈ places, ∃ item ∈ values, key item = wanted) :
    Replays set ⟨after, place, [node], cdc.map ChangeEvent.unassign, carried, noted, exit⟩ := by
  have cells (other : NodeId) : after.heap.cells other = (set.layout.rewrite node values).heap.cells other :=
    congrArg (fun layout => layout.heap.cells other) rewritten
  refine ⟨?_, fun _ => congrArg Layout.index rewritten, fun other apart present => ⟨rewritten.symm ▸ present, ?_⟩,
    fun _ => ⟨places, within, closed, away, fun _ wanted claimed =>
      ⟨old, node, List.mem_singleton_self node, linked, inside wanted claimed, fun only => ?_⟩⟩⟩
  · rw [show after.layout = _ from rewritten]
    exact (persistAll_consume ..).mp replays
  · rw [cells]
    exact Heap.write_other _ _ fun same => apart (List.mem_singleton.mpr same)
  · obtain ⟨item, member, named⟩ := held only wanted claimed
    refine ⟨item, ?_, named⟩
    rw [cells]
    exact (Heap.write_same ..).symm ▸ member

end Critical.Replays

private theorem put_within {half : List α} (sorted : Node.Sorted half) {max value : α} {places : Set κ} (atMax : key max ∈ places)
    (atValue : key value ∈ places) : ∀ event ∈ (Half.put noIdentityAdoption half max value).events, event.Within places := by
  intro event member
  rcases Half.put_cases noIdentityAdoption sorted max value with ⟨index, _, put⟩ | ⟨index, old, _, _, put⟩
  · rw [put] at member
    cases List.mem_singleton.mp member
    exact ⟨atMax, atValue⟩
  · rw [put] at member
    rcases List.mem_cons.mp member with rfl | member
    · exact atMax
    · cases List.mem_singleton.mp member
      exact ⟨atMax, atValue⟩

private theorem splitEvents_within {values : List α} (sorted : Node.Sorted values) (many : 2 ≤ values.length) {value : α}
    {places : Set κ} (stored : ∀ item ∈ values, key item ∈ places) (atValue : key value ∈ places) :
    ∀ event ∈ Operation.splitEvents values value, event.Within places := by
  have whole := Node.halve_append values
  obtain ⟨leftSorted, rightSorted, _⟩ := Node.sorted_append.mp (whole.symm ▸ sorted)
  have fromLeft {item : α} (member : item ∈ (Node.halve values).1) : key item ∈ places :=
    stored item (whole ▸ List.mem_append_left _ member)
  have fromRight {item : α} (member : item ∈ (Node.halve values).2) : key item ∈ places :=
    stored item (whole ▸ List.mem_append_right _ member)
  obtain ⟨leftMax, rightMax, left, right, _, halves⟩ := Operation.halves_cases sorted many value
  have atLeft := fromLeft ((Node.max_eq_some leftSorted).mp left).1
  have atRight := fromRight ((Node.max_eq_some rightSorted).mp right).1
  intro event member
  simp only [Operation.splitEvents] at member
  split at member
  next => cases member
  next max top =>
    rcases List.mem_cons.mp member with rfl | member
    · exact stored max ((Node.max_eq_some sorted).mp top).1
    · rcases halves with ⟨_, kept, moved⟩ | ⟨_, kept, moved⟩
      · rw [kept, moved] at member
        simp only [Half.untouched, List.append_nil] at member
        exact put_within leftSorted atLeft atValue event member
      · rw [kept, moved] at member
        simp only [Half.untouched, List.nil_append] at member
        exact put_within rightSorted atRight atValue event member

private theorem replaceEvents_within {values : List α} (sorted : Node.Sorted values) {position : Nat} {old value : α}
    (there : values[position]? = some old) (same : key old = key value) :
    ∀ event ∈ BTreeSet.replaceEvents values position old value, event.Within {wanted : κ | ∃ item ∈ values, key item = wanted} := by
  have atValue : ∃ item ∈ values, key item = key value := ⟨old, List.mem_of_getElem? there, same⟩
  intro event member
  simp only [BTreeSet.replaceEvents] at member
  split at member
  next => cases member
  next max top =>
    have atMax : ∃ item ∈ values, key item = key max := ⟨max, ((Node.max_eq_some sorted).mp top).1, rfl⟩
    split at member
    next =>
      rcases List.mem_cons.mp member with rfl | member
      · exact atMax
      · cases List.mem_singleton.mp member
        exact atValue
    next =>
      split at member
      next =>
        rcases List.mem_cons.mp member with rfl | member
        · exact atMax
        · obtain ⟨newMax, previous, rfl⟩ := List.mem_map.mp member
          have newIn := List.mem_of_getElem? (Option.mem_toList.mp previous)
          exact ⟨⟨newMax, newIn, rfl⟩, atValue⟩
      next =>
        rcases List.mem_cons.mp member with rfl | member
        · exact atMax
        · cases List.mem_singleton.mp member
          exact ⟨atMax, atValue⟩

namespace BTreeSet
variable {set : BTreeSet α κ} {call : CallId}

omit [Keyed α κ] in
theorem routedNode_eq {wanted entry : κ} {node : NodeId} (linked : (entry, node) ∈ set.index.index)
    (inside : Between set.index.index entry wanted) : set.routedNode wanted = [node] := by
  simp [routedNode, route_eq_some.mpr ⟨linked, inside⟩]

private theorem put_replays (valid : set.Valid) (routed : set.layout.Routed) (value : α) (checked : Bool) :
    (set.critical call (.put value checked true)).Replays set := by
  rcases putNode_cases valid true value with ⟨_, result⟩ | ⟨entry, node, linked, inside, found⟩
  · simp only [critical, result]
    exact .quiet rfl
  · generalize result : putNode true value set = outcome at found
    have sorted : Node.Sorted (set.heap.cells node) := valid.sound.sorted node
    have closed := routed.closed_interval valid.sound linked
    have away : set.layout.Away [node] _ := Layout.away_interval linked (List.mem_singleton_self node)
    have within {oldMax : α} (max : Node.max (set.heap.cells node) = some oldMax) (position : Nat) :
        ∀ event ∈ (insertAt true value node oldMax position set).1.map ChangeEvent.unassign,
          event.Within {wanted | Between set.index.index entry wanted} := by
      intro event member
      cases List.mem_singleton.mp member
      exact ⟨routed entry node linked oldMax ((Node.max_eq_some sorted).mp max).1, inside⟩
    cases found with
    | full full =>
      simp only [critical, result]
      exact .quiet rfl
    | inner oldMax position room gap max same =>
      simp only [critical, result, routedNode_eq linked inside]
      exact .rewrites linked (insertAt_layout ..) (routed.replays_insert valid.sound linked inside gap max set.eventId)
        (within max position) closed away (fun _ claimed => claimed) fun impossible => by cases impossible
    | grows oldMax position room gap max moved =>
      simp only [critical, result]
      exact .rewrites linked (insertAt_layout ..) (routed.replays_insert valid.sound linked inside gap max set.eventId)
        (within max position) closed away (fun _ claimed => claimed) fun impossible => by cases impossible
    | occupied position old room there same =>
      cases checked with
      | true =>
        simp only [critical, result, if_true]
        exact .quiet rfl
      | false =>
        have numbered : (replaceNode noIdentityAdoption true value node position set).1.2 =
            assignIds set.eventId (replaceEvents (set.heap.cells node) position old value) := by
          rw [replaceNode_eq noIdentityAdoption true value there]
          rfl
        have stored := Node.set_upserted sorted there same
        simp only [critical, result, Bool.false_eq_true, if_false]
        refine .rewrites linked (replaceNode_layout true value there) ?_ ?_ (routed.closed_keys valid.sound linked)
          (routed.away_keys linked (List.mem_singleton_self node)) (fun wanted held => ?_) fun _ wanted held => ?_
        · rw [numbered]
          exact routed.replays_replace valid.sound linked there same set.eventId
        · rw [numbered, unassign_assignIds]
          exact replaceEvents_within sorted there same
        · obtain ⟨item, member, rfl⟩ := held
          exact routed entry node linked item member
        · obtain ⟨item, member, rfl⟩ := held
          by_cases equal : key item = key value
          · exact ⟨value, (stored.mem value).mpr (Or.inl rfl), equal.symm⟩
          · exact ⟨item, (stored.mem item).mpr (Or.inr ⟨member, equal⟩), rfl⟩

private theorem root_replays (valid : set.Valid) (value : α) (checked : Bool) :
    (set.critical call (.root value checked true)).Replays set := by
  rcases createRoot_cases valid true value with ⟨empty, after, result, _, layout, _⟩ | ⟨_, result⟩
  · have unrouted : set.layout.Routed := fun entry node member => absurd member (empty _)
    simp only [critical, result]
    refine ⟨?_, fun impossible => absurd rfl impossible, fun node _ present => ?_, fun _ => ⟨Set.univ, ?_, ?_, ?_, ?_⟩⟩
    · rw [show after.layout = _ from layout]
      exact (persistAll_consume ..).mp (Layout.Routed.replays_root empty valid.sound value set.eventId)
    · obtain ⟨entry, member⟩ := present
      exact absurd member (empty _)
    · intro event member
      cases List.mem_singleton.mp member
      trivial
    · exact fun _ _ _ _ _ _ => trivial
    · exact fun entry node member => absurd member (empty _)
    · exact fun impossible => absurd rfl impossible
  · simp only [critical, result]
    exact .quiet (valid_unused valid).2

private theorem commitSplit_replays (valid : set.Valid) (routed : set.layout.Routed) (node : NodeId) (old : κ) (value : α)
    (checked : Bool) (cdc : List (ChangeEvent α)) (well : (Phase.commitSplit node old value checked true cdc).SplitsWell set) :
    (set.critical call (.commitSplit node old value checked true cdc)).Replays set := by
  by_cases linked : (old, node) ∈ set.index.index
  · obtain ⟨inside, many, inner⟩ := well linked
    obtain ⟨after, result, afterValid, layout, _, _, stored, filled, _⟩ := commitOperation_split_some valid true value linked
    obtain ⟨_, _, replaced, _⟩ := Layout.split_replaced routed linked inside stored filled
    have sorted : Node.Sorted (set.heap.cells node) := valid.sound.sorted node
    simp only [critical, result]
    refine ⟨?_, fun impossible => absurd rfl impossible, fun other apart present => ?_,
      fun _ => ⟨{wanted | Between set.index.index old wanted}, ?_, routed.closed_interval valid.sound linked,
        Layout.away_interval linked List.mem_cons_self, fun impossible => absurd rfl impossible⟩⟩
    · rw [show after.layout = _ from layout]
      exact (persistAll_consume ..).mp (routed.replays_split valid.sound linked inside many inner stored set.eventId)
    · obtain ⟨entry, member⟩ := present
      have different : entry ≠ old := fun same => apart (value_unique (same ▸ member) linked ▸ List.mem_cons_self)
      constructor
      · rw [show after.layout = _ from layout]
        exact ⟨entry, (replaced.entries _).mpr (Or.inr ⟨different, member⟩)⟩
      · rw [show after.heap.cells other = (set.layout.split node old _ _).heap.cells other from
          congrArg (fun layout => layout.heap.cells other) layout, Layout.split_cells,
          if_neg (valid.sound.allocated entry other member).ne, if_neg (valid.sound.apart linked member different)]
        rfl
    · rw [show (emit true (Operation.splitEvents (set.heap.cells node) value) set).1 = assignIds set.eventId _ from rfl,
        unassign_assignIds]
      exact splitEvents_within sorted many (routed old node linked) inside
  · have result := commitOperation_split_none set true node old value (Or.inl fun found => linked (get?_eq_some.mp found))
    simp only [critical, result]
    exact .quiet (valid_unused valid).2

private theorem commitMax_replays (valid : set.Valid) (routed : set.layout.Routed) (node : NodeId) (old : κ) (emitCdc : Bool)
    (cdc : List (ChangeEvent α)) : (set.critical call (.commitMax node old emitCdc cdc)).Replays set := by
  by_cases linked : (old, node) ∈ set.index.index
  · obtain ⟨new, greatest⟩ := Node.maxKey_isSome (κ := κ) (valid.sound.filled old node linked)
    obtain ⟨after, result, _, layout, _⟩ := commitOperation_updateMax_some valid emitCdc linked greatest
    simp only [critical, result, List.map_nil]
    exact .rekeys valid routed linked greatest layout
  · have result := commitOperation_updateMax_none set emitCdc node old (Or.inl fun found => linked (get?_eq_some.mp found))
    simp only [critical, result]
    exact .quiet (valid_unused_rekey valid).2

private theorem repair_replays (valid : set.Valid) (routed : set.layout.Routed) (node : NodeId) (old : κ) (deleted : α)
    (cdc : List (ChangeEvent α)) : (set.critical call (.repair node old deleted cdc)).Replays set := by
  by_cases linked : (old, node) ∈ set.index.index
  · obtain ⟨new, greatest⟩ := Node.maxKey_isSome (κ := κ) (valid.sound.filled old node linked)
    obtain ⟨after, result, _, layout, _⟩ := commitOperation_updateMax_some valid false linked greatest
    simp only [critical, result]
    exact .rekeys valid routed linked greatest layout
  · have result := commitOperation_updateMax_none set false node old (Or.inl fun found => linked (get?_eq_some.mp found))
    simp only [critical, result]
    exact .quiet (valid_unused_rekey valid).2

private theorem remove_replays (valid : set.Valid) (routed : set.layout.Routed) (wanted : κ) :
    (set.critical call (.remove wanted true)).Replays set := by
  rcases removeNode_cases valid true wanted with ⟨_, result⟩ | ⟨entry, node, linked, inside, found⟩
  · simp only [critical, result]
    exact .quiet rfl
  · generalize result : removeNode id true wanted set = outcome at found
    have sorted : Node.Sorted (set.heap.cells node) := valid.sound.sorted node
    have closed := routed.closed_interval valid.sound linked
    have away : set.layout.Away [node] _ := Layout.away_interval linked (List.mem_singleton_self node)
    have within {oldMax : α} (max : Node.max (set.heap.cells node) = some oldMax) (deleted : α) (position : Nat) :
        ∀ event ∈ (deleteAt true deleted node oldMax position set).1.map ChangeEvent.unassign,
          event.Within {wanted | Between set.index.index entry wanted} := by
      intro event member
      cases List.mem_singleton.mp member
      exact routed entry node linked oldMax ((Node.max_eq_some sorted).mp max).1
    cases found with
    | absent missing =>
      simp only [critical, result]
      exact .quiet rfl
    | singleton single =>
      simp only [critical, result]
      exact .quiet rfl
    | inner deleted oldMax position many there same max kept =>
      simp only [critical, result, routedNode_eq linked inside]
      exact .rewrites linked (deleteAt_layout ..) (routed.replays_delete valid.sound linked there many max set.eventId)
        (within max deleted position) closed away (fun _ claimed => claimed) fun impossible => by cases impossible
    | shrinks deleted oldMax position many there same max moved =>
      simp only [critical, result]
      exact .rewrites linked (deleteAt_layout ..) (routed.replays_delete valid.sound linked there many max set.eventId)
        (within max deleted position) closed away (fun _ claimed => claimed) fun impossible => by cases impossible

private theorem unlink_replays (valid : set.Valid) (routed : set.layout.Routed) (wanted : κ) :
    (set.critical call (.unlink wanted true)).Replays set := by
  rcases unlinkNode_cases valid true wanted with ⟨_, result⟩ | ⟨_, _, _, _, _, result⟩ |
    ⟨entry, node, deleted, after, linked, inside, only, same, result, _, layout, _⟩
  · simp only [critical, result]
    exact .quiet (valid_unused valid).2
  · simp only [critical, result]
    exact .quiet (valid_unused valid).2
  · subst same
    simp only [critical, result, routedNode_eq linked inside]
    refine ⟨?_, fun impossible => absurd rfl impossible, fun other apart present => ?_,
      fun _ => ⟨{wanted | Between set.index.index entry wanted}, ?_, routed.closed_interval valid.sound linked,
        Layout.away_interval linked List.mem_cons_self, fun impossible => absurd rfl impossible⟩⟩
    · rw [show after.layout = _ from layout]
      exact (persistAll_consume ..).mp (routed.replays_unlink valid.sound linked only set.eventId)
    · obtain ⟨named, member⟩ := present
      have different : named ≠ entry := fun same => apart (value_unique (same ▸ member) linked ▸ List.mem_cons_self)
      constructor
      · rw [show after.layout = _ from layout]
        exact ⟨named, (mem_erase ..).mpr ⟨different, member⟩⟩
      · rw [show after.heap.cells other = (set.layout.unlink node entry).heap.cells other from
          congrArg (fun layout => layout.heap.cells other) layout]
        exact Heap.write_other _ _ (valid.sound.apart linked member different)
    · intro event member
      cases List.mem_singleton.mp member
      exact inside

/-- Every section of a call that asked for events tells the consumer what it did. -/
theorem critical_replays (valid : set.Valid) (routed : set.layout.Routed) {phase : Phase α κ} (recording : phase.Recording)
    (well : phase.SplitsWell set) : (set.critical call phase).Replays set := by
  cases phase with
  | put value checked emitCdc =>
    cases recording
    exact put_replays valid routed value checked
  | root value checked emitCdc =>
    cases recording
    exact root_replays valid value checked
  | commitSplit node old value checked emitCdc cdc =>
    cases recording
    exact commitSplit_replays valid routed node old value checked cdc well
  | commitMax node old emitCdc cdc => exact commitMax_replays valid routed node old emitCdc cdc
  | remove wanted emitCdc =>
    cases recording
    exact remove_replays valid routed wanted
  | unlink wanted emitCdc =>
    cases recording
    exact unlink_replays valid routed wanted
  | repair node old deleted cdc => exact repair_replays valid routed node old deleted cdc
  | removeRange start last => exact recording.elim

end BTreeSet
end WorkTablesIndex
