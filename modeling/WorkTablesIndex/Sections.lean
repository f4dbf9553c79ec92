import WorkTablesIndex.Layout

/-! What each critical section does to a valid set: the change of layout it
performs, if any, and that the routes still publish the index. -/

universe u v w

namespace WorkTablesIndex
open SortedMap

variable {α : Type u} {κ : Type v} {Q : Type w} [LinearOrder κ]

theorem Publishes.publishedRoute_eq [LinearOrder Q] {index : NodeIndex κ} {routes : PublishedNodeIndex κ}
    {keys : SortedMap NodeId κ} (publishes : Publishes index routes keys) {borrow : κ → Q} (monotone : Monotone borrow)
    (value : Q) (borrowOrderMatches : Bool) :
    (publishedRoute borrow routes value borrowOrderMatches).map Prod.snd =
      (WorkTablesIndex.route borrow index value).map Prod.snd := by
  have first : firstPublishedForBorrowedBound borrow routes (.included value) borrowOrderMatches =
      routes.routes.find? fun entry => (Bound.included value).admits borrow entry.1 := by
    cases borrowOrderMatches with
    | false => rfl
    | true =>
      simp only [firstPublishedForBorrowedBound, if_true]
      exact PublishedNodeIndex.firstForBound_eq borrow monotone publishes.wellFormed _
  have last := PublishedNodeIndex.lastKeyValue_eq publishes.wellFormed
  have fallback : publishedRoute borrow routes value borrowOrderMatches =
      (routes.routes.find? fun entry => (Bound.included value).admits borrow entry.1).or routes.routes.getLast? := by
    simp only [publishedRoute, first, last]
    cases final : routes.routes.getLast? with
    | some entry => cases routes.routes.find? fun entry => (Bound.included value).admits borrow entry.1 <;> rfl
    | none =>
      have empty := List.getLast?_eq_none_iff.mp final
      rw [PublishedNodeIndex.firstKeyValue_eq publishes.wellFormed, empty]
      rfl
  rw [fallback]
  change _ = ((index.entries.find? fun entry => (Bound.included value).admits borrow entry.1).or index.entries.getLast?).map Prod.snd
  have agrees := publishes.agrees
  generalize index.entries = entries at agrees
  generalize routes.routes = published at agrees
  cases agrees with
  | exact => rfl
  | stale init canonical stale node =>
    -- only the last route may differ, and both of its uses return its node
    simp only [List.find?_append, List.getLast?_append, List.getLast?_singleton, Option.some_or]
    cases init.find? fun entry => (Bound.included value).admits borrow entry.1 with
    | some entry => rfl
    | none =>
      simp only [Option.none_or, List.find?_cons, List.find?_nil]
      cases (Bound.included value).admits borrow stale <;> cases (Bound.included value).admits borrow canonical <;> rfl

theorem route_eq_some {index : NodeIndex κ} {wanted entry : κ} {node : NodeId} :
    route id index wanted = some (entry, node) ↔ (entry, node) ∈ index ∧ Between index entry wanted :=
  ceiling?_eq_some

theorem route_eq_none {index : NodeIndex κ} {wanted : κ} : route id index wanted = none ↔ ∀ entry, entry ∉ index :=
  ceiling?_eq_none

namespace BTreeSet
variable {set : BTreeSet α κ}

@[simp] theorem emit_index (emitCdc : Bool) (events : List (ChangeEventUnassigned α)) (set : BTreeSet α κ) :
    (emit emitCdc events set).2.index = set.index := by
  cases emitCdc <;> rfl

@[simp] theorem emit_heap (emitCdc : Bool) (events : List (ChangeEventUnassigned α)) (set : BTreeSet α κ) :
    (emit emitCdc events set).2.heap = set.heap := by
  cases emitCdc <;> rfl

@[simp] theorem emit_nodeCapacity (emitCdc : Bool) (events : List (ChangeEventUnassigned α)) (set : BTreeSet α κ) :
    (emit emitCdc events set).2.nodeCapacity = set.nodeCapacity := by
  cases emitCdc <;> rfl

@[simp] theorem emit_borrowOrderMatches (emitCdc : Bool) (events : List (ChangeEventUnassigned α)) (set : BTreeSet α κ) :
    (emit emitCdc events set).2.borrowOrderMatches = set.borrowOrderMatches := by
  cases emitCdc <;> rfl

@[simp] theorem emit_layout (emitCdc : Bool) (events : List (ChangeEventUnassigned α)) (set : BTreeSet α κ) :
    (emit emitCdc events set).2.layout = set.layout := by
  cases emitCdc <;> rfl

variable [Keyed α κ]

/-- What holds of the set whenever no thread is inside a section. -/
structure Valid (set : BTreeSet α κ) : Prop where
  publishes : Publishes set.index.index set.index.published set.index.publishedKeys
  sound : set.layout.Sound

theorem Valid.emit (valid : Valid set) (emitCdc : Bool) (events : List (ChangeEventUnassigned α)) :
    Valid (set.emit emitCdc events).2 := by
  refine ⟨?_, ?_⟩
  · rw [emit_index]
    exact valid.publishes
  · rw [emit_layout]
    exact valid.sound

theorem valid_new (nodeCapacity : Nat) : Valid (withMaximumNodeSize nodeCapacity : BTreeSet α κ) := by
  refine ⟨publishes_new, ?_, ?_, ?_, ?_⟩
  · exact fun _ _ _ member => (not_mem_empty _ member).elim
  · exact fun _ _ member => (not_mem_empty _ member).elim
  · exact fun _ => List.Pairwise.nil
  · exact fun _ _ member => (not_mem_empty _ member).elim

omit [Keyed α κ] in
theorem consistent_write (publishes : Publishes set.index.index set.index.published set.index.publishedKeys) :
    set.index.write.Consistent ∧ set.index.write.publish = true :=
  ⟨⟨publishes, fun _ => rfl, fun impossible => absurd impossible (by simp [Topology.write]),
    fun _ impossible => absurd impossible (by simp [Topology.write])⟩, rfl⟩

omit [Keyed α κ] in
theorem consistent_writeRekey (publishes : Publishes set.index.index set.index.published set.index.publishedKeys) :
    set.index.writeRekey.Consistent ∧ set.index.writeRekey.publish = false ∧ set.index.writeRekey.dirty = false :=
  ⟨⟨publishes, fun _ => rfl, fun _ => rfl, fun impossible => absurd impossible (by simp [Topology.writeRekey])⟩, rfl, rfl⟩

theorem valid_drop (set : BTreeSet α κ) {guard : TopologyWriteGuard κ} (consistent : guard.Consistent) {heap : Heap α}
    (sound : Layout.Sound ⟨guard.index, heap⟩) :
    Valid { set with index := guard.drop, heap } ∧
      ({ set with index := guard.drop, heap } : BTreeSet α κ).layout = ⟨guard.index, heap⟩ := by
  obtain ⟨publishes, same⟩ := consistent.drop
  have layout : ({ set with index := guard.drop, heap } : BTreeSet α κ).layout = ⟨guard.index, heap⟩ := by
    simp only [BTreeSet.layout, same]
  exact ⟨⟨publishes, layout ▸ sound⟩, layout⟩

/-- A guard that is dropped unused changes nothing but the generation. -/
theorem valid_unused (valid : Valid set) :
    Valid { set with index := set.index.write.drop } ∧
      ({ set with index := set.index.write.drop } : BTreeSet α κ).layout = set.layout :=
  valid_drop set (consistent_write valid.publishes).1 valid.sound

theorem valid_unused_rekey (valid : Valid set) :
    Valid { set with index := set.index.writeRekey.drop } ∧
      ({ set with index := set.index.writeRekey.drop } : BTreeSet α κ).layout = set.layout :=
  valid_drop set (consistent_writeRekey valid.publishes).1 valid.sound

theorem Valid.rewrite (valid : Valid set) (node : NodeId) {values : List α} (sorted : Node.Sorted values)
    (filled : values ≠ []) : Valid { set with heap := set.heap.write node values } :=
  ⟨valid.publishes, valid.sound.rewrite sorted filled⟩

def insertAt (emitCdc : Bool) (value : α) (node : NodeId) (oldMax : α) (position : Nat) (set : BTreeSet α κ) :
    List (ChangeEvent α) × BTreeSet α κ :=
  emit emitCdc [.insertAt oldMax value position]
    { set with heap := set.heap.write node ((set.heap.cells node).insertIdx position value) }

inductive PutCase (emitCdc : Bool) (value : α) (set : BTreeSet α κ) (entry : κ) (node : NodeId) :
    PutStep α κ × BTreeSet α κ → Prop where
  | full (full : set.nodeCapacity ≤ (set.heap.cells node).length) :
      PutCase emitCdc value set entry node (.scheduled (.split node entry value) [], set)
  | inner (oldMax : α) (position : Nat) (room : (set.heap.cells node).length < set.nodeCapacity)
      (gap : Node.Gap (set.heap.cells node) value position) (max : Node.max (set.heap.cells node) = some oldMax)
      (same : Node.maxKey ((set.heap.cells node).insertIdx position value) = Node.maxKey (set.heap.cells node)) :
      PutCase emitCdc value set entry node
        (.stored (insertAt emitCdc value node oldMax position set).1, (insertAt emitCdc value node oldMax position set).2)
  | grows (oldMax : α) (position : Nat) (room : (set.heap.cells node).length < set.nodeCapacity)
      (gap : Node.Gap (set.heap.cells node) value position) (max : Node.max (set.heap.cells node) = some oldMax)
      (moved : Node.maxKey ((set.heap.cells node).insertIdx position value) ≠ Node.maxKey (set.heap.cells node)) :
      PutCase emitCdc value set entry node (.scheduled (.updateMax node entry) (insertAt emitCdc value node oldMax position set).1,
        (insertAt emitCdc value node oldMax position set).2)
  | occupied (position : Nat) (old : α) (room : (set.heap.cells node).length < set.nodeCapacity)
      (there : (set.heap.cells node)[position]? = some old) (same : key old = key value) :
      PutCase emitCdc value set entry node (.occupied node position, set)

theorem putNode_cases (valid : Valid set) (emitCdc : Bool) (value : α) :
    ((∀ entry, entry ∉ set.index.index) ∧ putNode emitCdc value set = (.vacant, set)) ∨
    ∃ entry node, (entry, node) ∈ set.index.index ∧ Between set.index.index entry (key value) ∧
      PutCase emitCdc value set entry node (putNode emitCdc value set) := by
  cases routed : route id set.index.index (key value) with
  | none => exact Or.inl ⟨route_eq_none.mp routed, by simp [putNode, routed]⟩
  | some target =>
    obtain ⟨entry, node⟩ := target
    obtain ⟨linked, inside⟩ := route_eq_some.mp routed
    refine Or.inr ⟨entry, node, linked, inside, ?_⟩
    have sorted : Node.Sorted (set.heap.cells node) := valid.sound.sorted node
    by_cases full : set.nodeCapacity ≤ (set.heap.cells node).length
    · have result : putNode emitCdc value set = (.scheduled (.split node entry value) [], set) := by
        simp [putNode, routed, Node.needToSplit, full]
      rw [result]
      exact .full full
    · have room := not_le.mp full
      obtain ⟨oldMax, max⟩ : ∃ oldMax, Node.max (set.heap.cells node) = some oldMax := by
        cases seen : Node.max (set.heap.cells node) with
        | none => exact absurd (Node.max_eq_none.mp seen) (valid.sound.filled entry node linked)
        | some oldMax => exact ⟨oldMax, rfl⟩
      rcases Node.insert_cases sorted value with ⟨position, inserted, gap⟩ | ⟨position, old, kept, there, same⟩
      · by_cases same : Node.maxKey ((set.heap.cells node).insertIdx position value) = Node.maxKey (set.heap.cells node)
        · have unchanged := same
          simp only [Node.maxKey, max] at unchanged
          have result : putNode emitCdc value set = (.stored (insertAt emitCdc value node oldMax position set).1,
              (insertAt emitCdc value node oldMax position set).2) := by
            simp only [putNode, routed, Node.needToSplit, decide_eq_true_eq, full, if_false, inserted, if_true, max, unchanged]
            rfl
          rw [result]
          exact .inner oldMax position room gap max same
        · have changed := same
          simp only [Node.maxKey, max] at changed
          have result : putNode emitCdc value set =
              (.scheduled (.updateMax node entry) (insertAt emitCdc value node oldMax position set).1,
                (insertAt emitCdc value node oldMax position set).2) := by
            simp only [putNode, routed, Node.needToSplit, decide_eq_true_eq, full, if_false, inserted, if_true, max, changed]
            rfl
          rw [result]
          exact .grows oldMax position room gap max same
      · have result : putNode emitCdc value set = (.occupied node position, set) := by
          simp [putNode, routed, Node.needToSplit, full, kept]
        rw [result]
        exact .occupied position old room there same

omit [Keyed α κ] in
@[simp] theorem insertAt_layout (emitCdc : Bool) (value : α) (node : NodeId) (oldMax : α) (position : Nat) (set : BTreeSet α κ) :
    (insertAt emitCdc value node oldMax position set).2.layout =
      set.layout.rewrite node ((set.heap.cells node).insertIdx position value) := by
  rw [insertAt, emit_layout]
  rfl

theorem Valid.insertAt (valid : Valid set) (emitCdc : Bool) {value : α} {node : NodeId} (oldMax : α) {position : Nat}
    (gap : Node.Gap (set.heap.cells node) value position) : Valid (insertAt emitCdc value node oldMax position set).2 :=
  (valid.rewrite node (gap.sorted (valid.sound.sorted node))
    (List.ne_nil_of_mem ((gap.mem value).mpr (Or.inl rfl)))).emit _ _

omit [Keyed α κ] in
theorem replaceNode_eq (adopt : α → α → α) (emitCdc : Bool) (value : α) {node : NodeId} {position : Nat} {old : α}
    (there : (set.heap.cells node)[position]? = some old) :
    replaceNode adopt emitCdc value node position set =
      (let cdc := emit emitCdc (replaceEvents (set.heap.cells node) position old (adopt old value)) set
      ((some old, cdc.1), { cdc.2 with heap := set.heap.write node ((set.heap.cells node).set position (adopt old value)) })) := by
  simp only [replaceNode, Node.getIth, there, Node.replace, emit_heap]

omit [Keyed α κ] in
theorem replaceNode_layout (emitCdc : Bool) (value : α) {node : NodeId} {position : Nat} {old : α}
    (there : (set.heap.cells node)[position]? = some old) :
    (replaceNode noIdentityAdoption emitCdc value node position set).2.layout =
      set.layout.rewrite node ((set.heap.cells node).set position value) := by
  rw [replaceNode_eq noIdentityAdoption emitCdc value there]
  simp only [BTreeSet.layout, emit_index]
  rfl

theorem Valid.replaceNode (valid : Valid set) (emitCdc : Bool) {value : α} {node : NodeId} {position : Nat} {old : α}
    (there : (set.heap.cells node)[position]? = some old) (same : key old = key value) :
    Valid (BTreeSet.replaceNode noIdentityAdoption emitCdc value node position set).2 := by
  have stored := Node.set_upserted (valid.sound.sorted node) there same
  refine ⟨?_, ?_⟩
  · rw [replaceNode_eq noIdentityAdoption emitCdc value there]
    simp only [emit_index]
    exact valid.publishes
  · rw [replaceNode_layout emitCdc value there]
    exact valid.sound.rewrite stored.sorted (List.ne_nil_of_mem ((stored.mem value).mpr (Or.inl rfl)))

theorem createRoot_cases (valid : Valid set) (emitCdc : Bool) (value : α) :
    ((∀ entry, entry ∉ set.index.index) ∧
      ∃ after, createRoot emitCdc value set = (some (emit emitCdc [.createNode value] set).1, after) ∧
      Valid after ∧ after.layout = set.layout.root value ∧ after.nodeCapacity = set.nodeCapacity ∧
      after.eventId = (emit emitCdc [.createNode value] set).2.eventId) ∨
    ((∃ entry, entry ∈ set.index.index) ∧ createRoot emitCdc value set = (none, { set with index := set.index.write.drop })) := by
  obtain ⟨consistent, publishing⟩ := consistent_write valid.publishes
  cases entries : set.index.index.entries with
  | nil =>
    have empty : ∀ entry, entry ∉ set.index.index := by
      intro entry member
      rw [mem_def, entries] at member
      cases member
    obtain ⟨_, index, _, inserted, _⟩ := TopologyWriteGuard.insert_spec consistent publishing (key value) set.heap.next
      fun other => empty _
    have first : (Node.insert [] value).2.2 = [value] := rfl
    have guardEmpty : set.index.write.index.entries.isEmpty = true := by
      change set.index.index.entries.isEmpty = true
      rw [entries]
      rfl
    have result : createRoot emitCdc value set = (some (emit emitCdc [.createNode value] set).1,
        { (emit emitCdc [.createNode value] set).2 with
          index := (set.index.write.insert (key value) set.heap.next).2.drop
          heap := (set.heap.alloc [value]).2 }) := by
      simp only [createRoot, guardEmpty, if_true, emit_heap]
      rfl
    have changed : (⟨(set.index.write.insert (key value) set.heap.next).2.index, (set.heap.alloc [value]).2⟩ : Layout α κ) =
        set.layout.root value := by
      rw [index]
      rfl
    obtain ⟨after, layout⟩ := valid_drop (emit emitCdc [.createNode value] set).2 inserted
      (changed ▸ valid.sound.root empty value)
    refine Or.inl ⟨empty, _, result, after, layout.trans changed, emit_nodeCapacity .., rfl⟩
  | cons entry rest =>
    have filled : set.index.write.index.entries.isEmpty = false := by
      change set.index.index.entries.isEmpty = false
      rw [entries]
      rfl
    refine Or.inr ⟨⟨entry, by rw [mem_def, entries]; exact List.mem_cons_self⟩, ?_⟩
    simp [createRoot, filled]

omit [Keyed α κ] in
@[simp] theorem emit_nil (emitCdc : Bool) (set : BTreeSet α κ) : emit emitCdc [] set = ([], set) := by
  cases emitCdc <;> rfl

omit [Keyed α κ] in
private theorem emit_congr (emitCdc : Bool) (events : List (ChangeEventUnassigned α)) (first second : BTreeSet α κ)
    (same : first.eventId = second.eventId) :
    (emit emitCdc (if emitCdc then events else []) first).1 = (emit emitCdc events second).1 ∧
      (emit emitCdc (if emitCdc then events else []) first).2.eventId = (emit emitCdc events second).2.eventId := by
  cases emitCdc <;> simp [emit, same]

theorem commitOperation_split_none (set : BTreeSet α κ) (emitCdc : Bool) (node : NodeId) (old : κ) (value : α)
    (failed : set.index.index.get? old ≠ some node ∨ set.heap.cells node = []) :
    commitOperation noIdentityAdoption emitCdc (.split node old value) set = (none, { set with index := set.index.write.drop }) := by
  have none : Operation.commitSplit noIdentityAdoption set.index.write set.heap node old value = none :=
    Operation.commitSplit_none noIdentityAdoption value failed
  simp only [commitOperation, Operation.commit, none, Option.map_none]

theorem commitOperation_split_some (valid : Valid set) (emitCdc : Bool) {node : NodeId} {old : κ} (value : α)
    (linked : (old, node) ∈ set.index.index) :
    let left := Operation.leftHalf (set.heap.cells node) value
    let right := Operation.rightHalf (set.heap.cells node) value
    let cdc := emit emitCdc (Operation.splitEvents (set.heap.cells node) value) set
    ∃ after, commitOperation noIdentityAdoption emitCdc (.split node old value) set =
        (some (left.oldValue.or right.oldValue, cdc.1), after) ∧
      Valid after ∧ after.layout = set.layout.split node old left.values right.values ∧
      after.nodeCapacity = set.nodeCapacity ∧ after.eventId = cdc.2.eventId ∧
      Node.Upserted (set.heap.cells node) value (left.values ++ right.values) ∧ right.values ≠ [] ∧
      Half.Found (set.heap.cells node) (key value) (left.oldValue.or right.oldValue) := by
  intro left right cdc
  obtain ⟨consistent, publishing⟩ := consistent_write valid.publishes
  have nonempty : set.heap.cells node ≠ [] := valid.sound.filled old node linked
  have sorted : Node.Sorted (set.heap.cells node) := valid.sound.sorted node
  have fresh : ∀ other, (other, set.heap.next) ∉ set.index.write.index := valid.sound.allocated.fresh
  obtain ⟨guard, result, guardValid, index, stored, filled, found⟩ :=
    Operation.commitSplit_spec consistent publishing value (get?_eq_some.mpr linked) nonempty sorted fresh
  obtain ⟨leftSorted, rightSorted, _⟩ := Node.sorted_append.mp stored.sorted
  have sound := valid.sound.split linked leftSorted rightSorted filled
  have changed : (⟨guard.index, ((set.heap.write node left.values).alloc right.values).2⟩ : Layout α κ) =
      set.layout.split node old left.values right.values := by
    rw [index]
    rfl
  obtain ⟨after, layout⟩ := valid_drop set guardValid (changed ▸ sound)
  have events := emit_congr emitCdc (Operation.splitEvents (set.heap.cells node) value)
    { set with index := guard.drop, heap := ((set.heap.write node left.values).alloc right.values).2 } set rfl
  refine ⟨_, ?_, after.emit emitCdc _, ?_, emit_nodeCapacity .., events.2, stored, filled, found⟩
  · simp only [commitOperation, Operation.commit, result, Option.map_some]
    rw [← events.1]
  · rw [emit_layout]
    exact layout.trans changed

theorem commitOperation_updateMax_none (set : BTreeSet α κ) (emitCdc : Bool) (node : NodeId) (old : κ)
    (failed : set.index.index.get? old ≠ some node ∨ set.heap.cells node = []) :
    commitOperation noIdentityAdoption emitCdc (.updateMax node old) set =
      (none, { set with index := set.index.writeRekey.drop }) := by
  have none : Operation.commitUpdateMax set.index.writeRekey set.heap node old = none :=
    Operation.commitUpdateMax_none set.index.writeRekey set.heap node old failed
  simp only [commitOperation, Operation.commit, none, Option.map_none]

/-- A boundary repair that finds its entry, whichever way the boundary moves. -/
theorem commitOperation_updateMax_some (valid : Valid set) (emitCdc : Bool) {node : NodeId} {old new : κ}
    (linked : (old, node) ∈ set.index.index) (greatest : Node.maxKey (set.heap.cells node) = some new) :
    ∃ after, commitOperation noIdentityAdoption emitCdc (.updateMax node old) set = (some (none, []), after) ∧
      Valid after ∧ after.layout = set.layout.rekey node old new ∧ after.nodeCapacity = set.nodeCapacity ∧
      after.eventId = set.eventId := by
  obtain ⟨consistent, optOut, clean⟩ := consistent_writeRekey valid.publishes
  have result : Operation.commitUpdateMax set.index.writeRekey set.heap node old =
      some (Operation.rekey set.index.writeRekey node old new) :=
    Operation.commitUpdateMax_some (get?_eq_some.mpr linked) greatest
  obtain ⟨guardValid, index⟩ := Operation.rekey_guard consistent optOut clean (get?_eq_some.mpr linked) new
  have changed : (⟨(Operation.rekey set.index.writeRekey node old new).index, set.heap⟩ : Layout α κ) =
      set.layout.rekey node old new := by
    rw [index]
    rfl
  obtain ⟨after, layout⟩ := valid_drop set guardValid (changed ▸ valid.sound.rekey linked new)
  refine ⟨_, ?_, after, layout.trans changed, rfl, rfl⟩
  simp only [commitOperation, Operation.commit, result, Option.map_some, emit_nil]

def deleteAt (emitCdc : Bool) (deleted : α) (node : NodeId) (oldMax : α) (position : Nat) (set : BTreeSet α κ) :
    List (ChangeEvent α) × BTreeSet α κ :=
  emit emitCdc [.removeAt oldMax deleted position]
    { set with heap := set.heap.write node ((set.heap.cells node).eraseIdx position) }

inductive RemoveCase (emitCdc : Bool) (wanted : κ) (set : BTreeSet α κ) (entry : κ) (node : NodeId) :
    RemoveStep α κ × BTreeSet α κ → Prop where
  | absent (missing : ∀ item ∈ set.heap.cells node, key item ≠ wanted) :
      RemoveCase emitCdc wanted set entry node (.absent, set)
  | singleton (single : (set.heap.cells node).length ≤ 1) :
      RemoveCase emitCdc wanted set entry node (.singleton, set)
  | inner (deleted oldMax : α) (position : Nat) (many : 1 < (set.heap.cells node).length)
      (there : (set.heap.cells node)[position]? = some deleted) (same : key deleted = wanted)
      (max : Node.max (set.heap.cells node) = some oldMax)
      (kept : Node.maxKey ((set.heap.cells node).eraseIdx position) = Node.maxKey (set.heap.cells node)) :
      RemoveCase emitCdc wanted set entry node
        (.removed deleted (deleteAt emitCdc deleted node oldMax position set).1,
          (deleteAt emitCdc deleted node oldMax position set).2)
  | shrinks (deleted oldMax : α) (position : Nat) (many : 1 < (set.heap.cells node).length)
      (there : (set.heap.cells node)[position]? = some deleted) (same : key deleted = wanted)
      (max : Node.max (set.heap.cells node) = some oldMax)
      (moved : Node.maxKey ((set.heap.cells node).eraseIdx position) ≠ Node.maxKey (set.heap.cells node)) :
      RemoveCase emitCdc wanted set entry node
        (.repair deleted (deleteAt emitCdc deleted node oldMax position set).1 node entry,
          (deleteAt emitCdc deleted node oldMax position set).2)

theorem removeNode_cases (valid : Valid set) (emitCdc : Bool) (wanted : κ) :
    ((∀ entry, entry ∉ set.index.index) ∧ removeNode id emitCdc wanted set = (.absent, set)) ∨
    ∃ entry node, (entry, node) ∈ set.index.index ∧ Between set.index.index entry wanted ∧
      RemoveCase emitCdc wanted set entry node (removeNode id emitCdc wanted set) := by
  cases routed : route id set.index.index wanted with
  | none => exact Or.inl ⟨route_eq_none.mp routed, by simp [removeNode, routed]⟩
  | some target =>
    obtain ⟨entry, node⟩ := target
    obtain ⟨linked, inside⟩ := route_eq_some.mp routed
    refine Or.inr ⟨entry, node, linked, inside, ?_⟩
    have sorted : Node.Sorted (set.heap.cells node) := valid.sound.sorted node
    obtain ⟨oldMax, max⟩ : ∃ oldMax, Node.max (set.heap.cells node) = some oldMax := by
      cases seen : Node.max (set.heap.cells node) with
      | none => exact absurd (Node.max_eq_none.mp seen) (valid.sound.filled entry node linked)
      | some oldMax => exact ⟨oldMax, rfl⟩
    by_cases single : (set.heap.cells node).length ≤ 1
    · by_cases held : Node.contains id (set.heap.cells node) wanted = true
      · have result : removeNode id emitCdc wanted set = (.singleton, set) := by simp [removeNode, routed, single, held]
        rw [result]
        exact .singleton single
      · have result : removeNode id emitCdc wanted set = (.absent, set) := by simp [removeNode, routed, single, held]
        rw [result]
        refine .absent fun item member same => held ?_
        exact (Node.contains_iff sorted monotone_id wanted).mpr ⟨item, member, same⟩
    · have many := not_le.mp single
      rcases Node.delete_cases sorted monotone_id wanted with ⟨deleted, position, result, there, same⟩ | ⟨result, missing⟩
      · by_cases kept : Node.maxKey ((set.heap.cells node).eraseIdx position) = Node.maxKey (set.heap.cells node)
        · have unchanged := kept.symm
          simp only [Node.maxKey, max] at unchanged
          have result : removeNode id emitCdc wanted set =
              (.removed deleted (deleteAt emitCdc deleted node oldMax position set).1,
                (deleteAt emitCdc deleted node oldMax position set).2) := by
            simp only [removeNode, routed, single, if_false, result, max, unchanged, if_true]
            rfl
          rw [result]
          exact .inner deleted oldMax position many there same max kept
        · have changed := Ne.symm kept
          simp only [Node.maxKey, max, ne_eq] at changed
          have result : removeNode id emitCdc wanted set =
              (.repair deleted (deleteAt emitCdc deleted node oldMax position set).1 node entry,
                (deleteAt emitCdc deleted node oldMax position set).2) := by
            simp only [removeNode, routed, single, if_false, result, max, changed]
            rfl
          rw [result]
          exact .shrinks deleted oldMax position many there same max kept
      · have result : removeNode id emitCdc wanted set = (.absent, set) := by simp [removeNode, routed, single, result]
        rw [result]
        exact .absent missing

omit [Keyed α κ] in
@[simp] theorem deleteAt_layout (emitCdc : Bool) (deleted : α) (node : NodeId) (oldMax : α) (position : Nat) (set : BTreeSet α κ) :
    (deleteAt emitCdc deleted node oldMax position set).2.layout =
      set.layout.rewrite node ((set.heap.cells node).eraseIdx position) := by
  rw [deleteAt, emit_layout]
  rfl

omit [LinearOrder κ] [Keyed α κ] in
theorem eraseIdx_ne_nil {values : List α} (many : 1 < values.length) (position : Nat) : values.eraseIdx position ≠ [] := by
  intro empty
  have length := congrArg List.length empty
  rw [List.length_eraseIdx, List.length_nil] at length
  split at length <;> omega

theorem Valid.deleteAt (valid : Valid set) (emitCdc : Bool) (deleted : α) (node : NodeId) (oldMax : α) (position : Nat)
    (many : 1 < (set.heap.cells node).length) : Valid (deleteAt emitCdc deleted node oldMax position set).2 :=
  (valid.rewrite node (Node.eraseIdx_sorted (valid.sound.sorted node) position) (eraseIdx_ne_nil many position)).emit _ _

/-- The unlink section, which routes again under the write lock. -/
theorem unlinkNode_cases (valid : Valid set) (emitCdc : Bool) (wanted : κ) :
    ((∀ item, set.layout.Routed → set.layout.Stored item → key item ≠ wanted) ∧
      unlinkNode id emitCdc wanted set = (.absent, { set with index := set.index.write.drop })) ∨
    (∃ entry node, (entry, node) ∈ set.index.index ∧ Between set.index.index entry wanted ∧
      1 < (set.heap.cells node).length ∧ unlinkNode id emitCdc wanted set = (.retry, { set with index := set.index.write.drop })) ∨
    ∃ entry node deleted after, (entry, node) ∈ set.index.index ∧ Between set.index.index entry wanted ∧
      set.heap.cells node = [deleted] ∧ key deleted = wanted ∧
      unlinkNode id emitCdc wanted set = (.removed deleted (emit emitCdc [.removeNode deleted] set).1, after) ∧
      Valid after ∧ after.layout = set.layout.unlink node entry ∧ after.nodeCapacity = set.nodeCapacity ∧
      after.eventId = (emit emitCdc [.removeNode deleted] set).2.eventId := by
  cases routed : route id set.index.index wanted with
  | none =>
    have empty := route_eq_none.mp routed
    refine Or.inl ⟨fun item _ stored => ?_, ?_⟩
    · obtain ⟨entry, node, member, _⟩ := stored
      exact absurd member (empty _)
    · have same : route id set.index.write.index wanted = none := routed
      simp [unlinkNode, same]
  | some target =>
    obtain ⟨entry, node⟩ := target
    obtain ⟨linked, inside⟩ := route_eq_some.mp routed
    have again : route id set.index.write.index wanted = some (entry, node) := routed
    have sorted : Node.Sorted (set.heap.cells node) := valid.sound.sorted node
    by_cases many : 1 < (set.heap.cells node).length
    · exact Or.inr (Or.inl ⟨entry, node, linked, inside, many, by simp [unlinkNode, again, many]⟩)
    · rcases Node.delete_cases sorted monotone_id wanted with ⟨deleted, position, result, there, same⟩ | ⟨result, missing⟩
      · have only : set.heap.cells node = [deleted] := by
          have inside := (List.getElem?_eq_some_iff.mp there).1
          obtain ⟨value, single⟩ := List.length_eq_one_iff.mp (show (set.heap.cells node).length = 1 by omega)
          have := List.mem_of_getElem? there
          rw [single] at this ⊢
          rw [List.mem_singleton.mp this]
        have emptied : (set.heap.cells node).eraseIdx position = [] := by
          have inside := (List.getElem?_eq_some_iff.mp there).1
          apply List.eq_nil_of_length_eq_zero
          rw [List.length_eraseIdx]
          split <;> omega
        obtain ⟨consistent, publishing⟩ := consistent_write valid.publishes
        obtain ⟨_, index, _, removed, _⟩ := TopologyWriteGuard.remove_spec consistent publishing entry
        have changed : (⟨(set.index.write.remove entry).2.index, set.heap.write node []⟩ : Layout α κ) =
            set.layout.unlink node entry := by
          rw [index]
          rfl
        obtain ⟨after, layout⟩ := valid_drop set removed (changed ▸ valid.sound.unlink linked)
        have result : unlinkNode id emitCdc wanted set = (.removed deleted (emit emitCdc [.removeNode deleted] set).1,
            { (emit emitCdc [.removeNode deleted] set).2 with
              index := (set.index.write.remove entry).2.drop, heap := set.heap.write node [] }) := by
          simp only [unlinkNode, again, many, if_false, result, emptied]
          cases emitCdc <;> rfl
        refine Or.inr (Or.inr ⟨entry, node, deleted, _, linked, inside, only, same, result, ?_, ?_, emit_nodeCapacity .., rfl⟩)
        · exact ⟨after.publishes, layout ▸ after.sound⟩
        · exact layout.trans changed
      · refine Or.inl ⟨fun item order stored same => ?_, by simp [unlinkNode, again, many, result]⟩
        exact missing item (order.stored_here linked (same ▸ inside) stored) same

end BTreeSet
end WorkTablesIndex
