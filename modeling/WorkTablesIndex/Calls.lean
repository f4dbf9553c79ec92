import WorkTablesIndex.Boundaries

/-! Complete calls, one at a time. A call that meets no interference passes through
its sections once; its effect on the layout is one of a few, and every key is
again the maximum of its node when the call returns. -/

universe u v w

namespace WorkTablesIndex
open SortedMap

variable {α : Type u} {κ : Type v} {Q : Type w} [LinearOrder κ] [Keyed α κ]

namespace Layout
variable {layout : Layout α κ} {node : NodeId} {old : κ}

/-- What holds between complete calls: every value is where its key routes to, and
every key is the maximum of its node. -/
structure Tidy (layout : Layout α κ) : Prop where
  sound : Sound layout
  routed : Routed layout
  tight : ∀ entry node, (entry, node) ∈ layout.index → Node.maxKey (layout.heap.cells node) = some entry

theorem Tidy.le (tidy : Tidy layout) (linked : (old, node) ∈ layout.index) {value : α} (present : value ∈ layout.heap.cells node) :
    key value ≤ old :=
  ((Node.maxKey_eq_some (tidy.sound.sorted node)).mp (tidy.tight old node linked)).2 value present

theorem Tidy.lt (tidy : Tidy layout) (linked : (old, node) ∈ layout.index) {value : α} (present : value ∈ layout.heap.cells node)
    {earlier : κ × NodeId} (member : earlier ∈ layout.index) (before : earlier.1 < old) : earlier.1 < key value :=
  (tidy.routed old node linked value present).above earlier member before

theorem Tracks.tight {before after : Layout α κ} (tracks : Tracks before after none)
    (tight : ∀ entry node, (entry, node) ∈ before.index → Node.maxKey (before.heap.cells node) = some entry) :
    ∀ entry node, (entry, node) ∈ after.index → Node.maxKey (after.heap.cells node) = some entry := by
  intro entry node member
  rcases tracks entry node member with here | waived | ⟨kept, same⟩
  · exact here
  · cases waived
  · exact same.trans (tight entry node kept)

omit [Keyed α κ] in
theorem rekey_self (layout : Layout α κ) (linked : (old, node) ∈ layout.index) : layout.rekey node old old = layout := by
  simp only [Layout.rekey, erase_insert_self linked]

/-- A node rewritten within its interval and linked under its new maximum. -/
def refit (layout : Layout α κ) (node : NodeId) (old : κ) (values : List α) (top : κ) : Layout α κ :=
  (layout.rewrite node values).rekey node old top

theorem Tidy.refit (tidy : Tidy layout) (linked : (old, node) ∈ layout.index) {values : List α} (sorted : Node.Sorted values)
    (inside : ∀ value ∈ values, Between layout.index old (key value)) {top : κ} (greatest : Node.maxKey values = some top) :
    Tidy (layout.refit node old values top) := by
  have sound : Sound (layout.rewrite node values) := tidy.sound.rewrite sorted (Node.ne_nil_of_maxKey greatest)
  have written : Node.maxKey ((layout.rewrite node values).heap.cells node) = some top := by
    simpa [Layout.rewrite] using greatest
  refine ⟨sound.rekey linked top, (tidy.routed.rewrite tidy.sound linked inside).rekey sound linked written, ?_⟩
  intro entry other member
  rcases mem_rekey member with ⟨rfl, rfl⟩ | ⟨different, kept⟩
  · exact written
  · have apart := tidy.sound.apart linked kept different
    simpa [Layout.refit, Layout.rekey, Layout.rewrite, Heap.write_other _ _ apart] using tidy.tight entry other kept

theorem Tidy.root (tidy : Tidy layout) (empty : ∀ entry, entry ∉ layout.index) (value : α) : Tidy (layout.root value) :=
  ⟨tidy.sound.root empty value, .root empty value, (root_tracks empty value).tight tidy.tight⟩

theorem Tidy.unlink (tidy : Tidy layout) (linked : (old, node) ∈ layout.index) : Tidy (layout.unlink node old) :=
  ⟨tidy.sound.unlink linked, tidy.routed.unlink tidy.sound linked, (unlink_tracks tidy.sound linked).tight tidy.tight⟩

theorem Tidy.split (tidy : Tidy layout) (linked : (old, node) ∈ layout.index) {value : α}
    (inside : Between layout.index old (key value)) {left right : List α}
    (stored : Node.Upserted (layout.heap.cells node) value (left ++ right)) (filled : right ≠ []) :
    Tidy (layout.split node old left right) := by
  obtain ⟨leftSorted, rightSorted, _⟩ := Node.sorted_append.mp stored.sorted
  exact ⟨tidy.sound.split linked leftSorted rightSorted filled, tidy.routed.split tidy.sound linked inside stored filled,
    (split_tracks tidy.sound linked left right).tight tidy.tight⟩

omit [Keyed α κ] in
theorem refit_eq (layout : Layout α κ) (linked : (old, node) ∈ layout.index) {values : List α} {top : κ} (same : top = old) :
    layout.refit node old values top = layout.rewrite node values := by
  subst same
  exact rekey_self (layout.rewrite node values) linked

end Layout

/-- What a complete insertion does, with the value it returns and the events it would emit. -/
inductive PutEffect (nodeCapacity : Nat) (value : α) (layout : Layout α κ) :
    Option α → List (ChangeEventUnassigned α) → Layout α κ → Prop where
  | root (empty : ∀ entry, entry ∉ layout.index) :
      PutEffect nodeCapacity value layout none [.createNode value] (layout.root value)
  | inserts {entry node} (oldMax : α) (position : Nat) {top} (linked : (entry, node) ∈ layout.index)
      (inside : Between layout.index entry (key value)) (room : (layout.heap.cells node).length < nodeCapacity)
      (gap : Node.Gap (layout.heap.cells node) value position) (max : Node.max (layout.heap.cells node) = some oldMax)
      (greatest : Node.maxKey ((layout.heap.cells node).insertIdx position value) = some top) :
      PutEffect nodeCapacity value layout none [.insertAt oldMax value position]
        (layout.refit node entry ((layout.heap.cells node).insertIdx position value) top)
  | replaces {entry node} (position : Nat) (old : α) (linked : (entry, node) ∈ layout.index)
      (inside : Between layout.index entry (key value)) (room : (layout.heap.cells node).length < nodeCapacity)
      (there : (layout.heap.cells node)[position]? = some old) (same : key old = key value) :
      PutEffect nodeCapacity value layout (some old) (BTreeSet.replaceEvents (layout.heap.cells node) position old value)
        (layout.rewrite node ((layout.heap.cells node).set position value))
  | splits {entry node} (linked : (entry, node) ∈ layout.index) (inside : Between layout.index entry (key value))
      (full : nodeCapacity ≤ (layout.heap.cells node).length)
      (stored : Node.Upserted (layout.heap.cells node) value
        ((Operation.leftHalf (layout.heap.cells node) value).values ++ (Operation.rightHalf (layout.heap.cells node) value).values))
      (filled : (Operation.rightHalf (layout.heap.cells node) value).values ≠ [])
      (found : Half.Found (layout.heap.cells node) (key value)
        ((Operation.leftHalf (layout.heap.cells node) value).oldValue.or
          (Operation.rightHalf (layout.heap.cells node) value).oldValue)) :
      PutEffect nodeCapacity value layout
        ((Operation.leftHalf (layout.heap.cells node) value).oldValue.or
          (Operation.rightHalf (layout.heap.cells node) value).oldValue)
        (Operation.splitEvents (layout.heap.cells node) value)
        (layout.split node entry (Operation.leftHalf (layout.heap.cells node) value).values
          (Operation.rightHalf (layout.heap.cells node) value).values)

inductive RemoveEffect (wanted : κ) (layout : Layout α κ) :
    Option α → List (ChangeEventUnassigned α) → Layout α κ → Prop where
  | absent (missing : ∀ item, layout.Stored item → key item ≠ wanted) : RemoveEffect wanted layout none [] layout
  | deletes {entry node} (deleted oldMax : α) (position : Nat) {top} (linked : (entry, node) ∈ layout.index)
      (inside : Between layout.index entry wanted) (many : 1 < (layout.heap.cells node).length)
      (there : (layout.heap.cells node)[position]? = some deleted) (same : key deleted = wanted)
      (max : Node.max (layout.heap.cells node) = some oldMax)
      (greatest : Node.maxKey ((layout.heap.cells node).eraseIdx position) = some top) :
      RemoveEffect wanted layout (some deleted) [.removeAt oldMax deleted position]
        (layout.refit node entry ((layout.heap.cells node).eraseIdx position) top)
  | unlinks {entry node} (deleted : α) (linked : (entry, node) ∈ layout.index) (inside : Between layout.index entry wanted)
      (only : layout.heap.cells node = [deleted]) (same : key deleted = wanted) :
      RemoveEffect wanted layout (some deleted) [.removeNode deleted] (layout.unlink node entry)

namespace Layout
variable {layout after : Layout α κ} {node : NodeId} {old : κ}

theorem Tidy.replaced (tidy : Tidy layout) (linked : (old, node) ∈ layout.index) {position : Nat} {stored value : α}
    (there : (layout.heap.cells node)[position]? = some stored) (same : key stored = key value) :
    layout.rewrite node ((layout.heap.cells node).set position value) =
      layout.refit node old ((layout.heap.cells node).set position value) old ∧
    Node.maxKey ((layout.heap.cells node).set position value) = some old := by
  have upserted := Node.set_upserted (tidy.sound.sorted node) there same
  have bound := tidy.le linked (List.mem_of_getElem? there)
  exact ⟨(refit_eq layout linked rfl).symm,
    upserted.maxKey_of_le (tidy.sound.sorted node) (tidy.tight old node linked) (same ▸ bound)⟩

private theorem Tidy.upserts (tidy : Tidy layout) (linked : (old, node) ∈ layout.index) {value : α} {values : List α} {top : κ}
    (inside : Between layout.index old (key value)) (stored : Node.Upserted (layout.heap.cells node) value values)
    (greatest : Node.maxKey values = some top) :
    Tidy (layout.refit node old values top) ∧ Gains layout (layout.refit node old values top) value := by
  have belongs : ∀ item ∈ values, Between layout.index old (key item) := by
    intro item member
    rcases (stored.mem item).mp member with rfl | ⟨there, _⟩
    · exact inside
    · exact tidy.routed old node linked item there
  have routed := tidy.routed.rewrite tidy.sound linked belongs
  have sound : Sound (layout.rewrite node values) :=
    tidy.sound.rewrite stored.sorted (List.ne_nil_of_mem ((stored.mem value).mpr (Or.inl rfl)))
  refine ⟨tidy.refit linked stored.sorted belongs greatest, fun item => ?_⟩
  rw [← rewrite_gains tidy.routed tidy.sound linked inside stored item]
  exact rekey_stored routed sound linked (by simpa [Layout.rewrite] using greatest) item

private theorem Tidy.removes (tidy : Tidy layout) (linked : (old, node) ∈ layout.index) {gone : κ} {values : List α} {top : κ}
    (inside : Between layout.index old gone) (removed : Node.Removed (layout.heap.cells node) gone values)
    (greatest : Node.maxKey values = some top) :
    Tidy (layout.refit node old values top) ∧ Loses layout (layout.refit node old values top) gone := by
  have belongs : ∀ item ∈ values, Between layout.index old (key item) :=
    fun item member => tidy.routed old node linked item ((removed.mem item).mp member).1
  have routed := tidy.routed.rewrite tidy.sound linked belongs
  have sound : Sound (layout.rewrite node values) := tidy.sound.rewrite removed.sorted (Node.ne_nil_of_maxKey greatest)
  refine ⟨tidy.refit linked removed.sorted belongs greatest, fun item => ?_⟩
  rw [← rewrite_loses tidy.routed tidy.sound linked inside removed item]
  exact rekey_stored routed sound linked (by simpa [Layout.rewrite] using greatest) item

def Holds (layout : Layout α κ) (wanted : κ) (result : Option α) : Prop :=
  ∀ item, result = some item ↔ layout.Stored item ∧ key item = wanted

theorem Routed.holds (routed : Routed layout) (linked : (old, node) ∈ layout.index) {wanted : κ}
    (inside : Between layout.index old wanted) {result : Option α} (found : Half.Found (layout.heap.cells node) wanted result) :
    Holds layout wanted result := by
  intro item
  rw [found item]
  constructor
  · exact fun both => ⟨⟨old, node, linked, both.1⟩, both.2⟩
  · exact fun both => ⟨routed.stored_here linked (both.2 ▸ inside) both.1, both.2⟩

theorem Tidy.found (tidy : Tidy layout) (position : Nat) {item : α} (there : (layout.heap.cells node)[position]? = some item) :
    Half.Found (layout.heap.cells node) (key item) (some item) := by
  intro other
  constructor
  · intro same
    cases same
    exact ⟨List.mem_of_getElem? there, rfl⟩
  · exact fun both => congrArg some ((tidy.sound.sorted node).key_unique (List.mem_of_getElem? there) both.1 both.2.symm)

end Layout

theorem PutEffect.tidy {layout after : Layout α κ} {nodeCapacity : Nat} {value : α} {result : Option α}
    {events : List (ChangeEventUnassigned α)} (effect : PutEffect nodeCapacity value layout result events after)
    (tidy : layout.Tidy) : after.Tidy ∧ layout.Gains after value := by
  cases effect with
  | root empty => exact ⟨tidy.root empty value, Layout.root_gains empty value⟩
  | inserts oldMax position linked inside room gap max greatest =>
    exact tidy.upserts linked inside (gap.upserted (tidy.sound.sorted _)) greatest
  | replaces position stored linked inside room there same =>
    obtain ⟨refitted, greatest⟩ := tidy.replaced linked there same
    rw [refitted]
    exact tidy.upserts linked inside (Node.set_upserted (tidy.sound.sorted _) there same) greatest
  | splits linked inside full stored filled found =>
    exact ⟨tidy.split linked inside stored filled, Layout.split_gains tidy.routed tidy.sound linked inside stored filled⟩

theorem PutEffect.holds {layout after : Layout α κ} {nodeCapacity : Nat} {value : α} {result : Option α}
    {events : List (ChangeEventUnassigned α)} (effect : PutEffect nodeCapacity value layout result events after)
    (tidy : layout.Tidy) : layout.Holds (key value) result := by
  cases effect with
  | root empty =>
    intro item
    simp only [reduceCtorEq, false_iff, not_and]
    intro stored
    obtain ⟨entry, node, member, _⟩ := stored
    exact absurd member (empty _)
  | inserts oldMax position linked inside room gap max greatest =>
    apply tidy.routed.holds linked inside
    intro item
    simp only [reduceCtorEq, false_iff]
    exact fun both => gap.absent item both.1 both.2
  | replaces position stored linked inside room there same =>
    exact tidy.routed.holds linked inside (same ▸ tidy.found _ there)
  | splits linked inside full stored filled found => exact tidy.routed.holds linked inside found

theorem RemoveEffect.tidy {layout after : Layout α κ} {wanted : κ} {result : Option α} {events : List (ChangeEventUnassigned α)}
    (effect : RemoveEffect wanted layout result events after) (tidy : layout.Tidy) : after.Tidy ∧ layout.Loses after wanted := by
  cases effect with
  | absent missing => exact ⟨tidy, fun item => ⟨fun stored => ⟨stored, missing item stored⟩, And.left⟩⟩
  | deletes deleted oldMax position linked inside many there same max greatest =>
    subst same
    exact tidy.removes linked inside (Node.eraseIdx_removed (tidy.sound.sorted _) there) greatest
  | unlinks deleted linked inside only same =>
    subst same
    refine ⟨tidy.unlink linked, Layout.unlink_loses tidy.routed tidy.sound linked inside ⟨List.Pairwise.nil, fun item => ?_⟩⟩
    simp only [only, List.not_mem_nil, List.mem_singleton, false_iff, not_and, not_not]
    exact fun same => congrArg key same

theorem RemoveEffect.holds {layout after : Layout α κ} {wanted : κ} {result : Option α} {events : List (ChangeEventUnassigned α)}
    (effect : RemoveEffect wanted layout result events after) (tidy : layout.Tidy) : layout.Holds wanted result := by
  cases effect with
  | absent missing =>
    intro item
    simp only [reduceCtorEq, false_iff, not_and]
    exact missing item
  | deletes deleted oldMax position linked inside many there same max greatest =>
    exact tidy.routed.holds linked inside (same ▸ tidy.found _ there)
  | unlinks deleted linked inside only same =>
    exact tidy.routed.holds linked inside (same ▸ tidy.found 0 (by simp [only]))

namespace BTreeSet
variable {set : BTreeSet α κ}

structure Tidy (set : BTreeSet α κ) : Prop where
  valid : set.Valid
  layout : set.layout.Tidy

theorem tidy_new (nodeCapacity : Nat) : Tidy (withMaximumNodeSize nodeCapacity : BTreeSet α κ) :=
  ⟨valid_new nodeCapacity, (valid_new nodeCapacity).sound, fun _ _ member => (not_mem_empty _ member).elim,
    fun _ _ member => (not_mem_empty _ member).elim⟩

structure Left (set : BTreeSet α κ) (emitCdc : Bool) (events : List (ChangeEventUnassigned α)) (after : BTreeSet α κ) : Prop where
  valid : after.Valid
  nodeCapacity : after.nodeCapacity = set.nodeCapacity
  eventId : after.eventId = (emit emitCdc events set).2.eventId

omit [Keyed α κ] in
private theorem insertAt_events (emitCdc : Bool) (value : α) (node : NodeId) (oldMax : α) (position : Nat) (set : BTreeSet α κ) :
    (insertAt emitCdc value node oldMax position set).1 = (emit emitCdc [.insertAt oldMax value position] set).1 := by
  cases emitCdc <;> rfl

omit [Keyed α κ] in
private theorem deleteAt_events (emitCdc : Bool) (deleted : α) (node : NodeId) (oldMax : α) (position : Nat) (set : BTreeSet α κ) :
    (deleteAt emitCdc deleted node oldMax position set).1 = (emit emitCdc [.removeAt oldMax deleted position] set).1 := by
  cases emitCdc <;> rfl

private theorem left_insertAt (valid : Valid set) (emitCdc : Bool) {value : α} {node : NodeId} (oldMax : α) {position : Nat}
    (gap : Node.Gap (set.heap.cells node) value position) :
    Left set emitCdc [.insertAt oldMax value position] (insertAt emitCdc value node oldMax position set).2 :=
  ⟨valid.insertAt emitCdc oldMax gap, emit_nodeCapacity .., by cases emitCdc <;> rfl⟩

private theorem left_deleteAt (valid : Valid set) (emitCdc : Bool) (deleted : α) {node : NodeId} (oldMax : α) (position : Nat)
    (many : 1 < (set.heap.cells node).length) :
    Left set emitCdc [.removeAt oldMax deleted position] (deleteAt emitCdc deleted node oldMax position set).2 :=
  ⟨valid.deleteAt emitCdc deleted node oldMax position many, emit_nodeCapacity .., by cases emitCdc <;> rfl⟩

/-- The in-node path that moves the maximum, with the repair that follows it. -/
private theorem refit_commit {changed : BTreeSet α κ} {emitCdc : Bool} (events : List (ChangeEventUnassigned α))
    (left : Left set emitCdc events changed) {node : NodeId} {entry top : κ} {values : List α}
    (linked : (entry, node) ∈ set.index.index) (rewritten : changed.layout = set.layout.rewrite node values)
    (greatest : Node.maxKey values = some top) (emits : Bool) :
    ∃ after, commitOperation noIdentityAdoption emits (.updateMax node entry) changed = (some (none, []), after) ∧
      after.layout = set.layout.refit node entry values top ∧ Left set emitCdc events after := by
  have linked' : (entry, node) ∈ changed.layout.index := rewritten ▸ linked
  have greatest' : Node.maxKey (changed.layout.heap.cells node) = some top := by
    rw [rewritten]
    simpa [Layout.rewrite] using greatest
  obtain ⟨after, result, afterValid, layout, capacity, eventId⟩ :=
    commitOperation_updateMax_some left.valid emits linked' greatest'
  refine ⟨after, result, ?_, afterValid, capacity.trans left.nodeCapacity, eventId.trans left.eventId⟩
  rw [layout, rewritten]
  rfl

def HasRoom (set : BTreeSet α κ) (wanted : κ) : Prop :=
  ∃ entry node, route id set.index.index wanted = some (entry, node) ∧ (set.heap.cells node).length < set.nodeCapacity

/-- A complete checked insertion: it stores the value, replacing an equal one only in a full
node, or returns the position of an equal one in a node with room and leaves everything as it was. -/
theorem putCheckedInner_effect (tidy : Tidy set) (emitCdc : Bool) (value : α) (fuel : Nat) :
    (∃ old events after, PutEffect set.nodeCapacity value set.layout old events after.layout ∧ Left set emitCdc events after ∧
      (set.HasRoom (key value) → old = none) ∧
      putCheckedInner noIdentityAdoption emitCdc value (fuel + 1) set = some (.ok (old, (emit emitCdc events set).1), after)) ∨
    ∃ entry node position old, (entry, node) ∈ set.index.index ∧ Between set.index.index entry (key value) ∧
      (set.heap.cells node).length < set.nodeCapacity ∧ (set.heap.cells node)[position]? = some old ∧ key old = key value ∧
      putCheckedInner noIdentityAdoption emitCdc value (fuel + 1) set = some (.error (node, position), set) := by
  have valid := tidy.valid
  rcases putNode_cases valid emitCdc value with ⟨empty, result⟩ | ⟨entry, node, linked, inside, found⟩
  · rcases createRoot_cases valid emitCdc value with ⟨_, after, created, afterValid, layout, capacity, eventId⟩ | ⟨filled, _⟩
    · refine Or.inl ⟨none, [.createNode value], after, layout ▸ .root empty, ⟨afterValid, capacity, eventId⟩, fun _ => rfl, ?_⟩
      simp only [putCheckedInner, result, created]
    · obtain ⟨entry, member⟩ := filled
      exact absurd member (empty entry)
  · generalize result : putNode emitCdc value set = outcome at found
    cases found with
    | full full =>
      obtain ⟨after, committed, afterValid, layout, capacity, eventId, stored, filled, held⟩ :=
        commitOperation_split_some valid emitCdc value linked
      refine Or.inl ⟨(Operation.leftHalf (set.heap.cells node) value).oldValue.or
        (Operation.rightHalf (set.heap.cells node) value).oldValue, _, after, ?_, ⟨afterValid, capacity, eventId⟩,
        fun spacious => ?_, ?_⟩
      · rw [layout]
        exact .splits linked inside full stored filled held
      · obtain ⟨other, target, routed, room⟩ := spacious
        cases routed.symm.trans (route_eq_some.mpr ⟨linked, inside⟩)
        exact absurd room (not_lt.mpr full)
      · simp only [putCheckedInner, result, committed, List.nil_append]
    | inner oldMax position room gap max same =>
      have greatest := same.trans (tidy.layout.tight entry node linked)
      refine Or.inl ⟨none, [.insertAt oldMax value position], (insertAt emitCdc value node oldMax position set).2, ?_,
        left_insertAt valid emitCdc oldMax gap, fun _ => rfl, ?_⟩
      · rw [insertAt_layout, ← Layout.refit_eq set.layout linked rfl]
        exact .inserts oldMax position linked inside room gap max greatest
      · simp only [putCheckedInner, result, insertAt_events]
    | grows oldMax position room gap max moved =>
      have filled : (set.heap.cells node).insertIdx position value ≠ [] :=
        List.ne_nil_of_mem ((gap.mem value).mpr (Or.inl rfl))
      obtain ⟨top, greatest⟩ := Node.maxKey_isSome (κ := κ) filled
      obtain ⟨after, committed, layout, left⟩ := refit_commit [.insertAt oldMax value position]
        (left_insertAt valid emitCdc oldMax gap) linked (insertAt_layout ..) greatest emitCdc
      refine Or.inl ⟨none, [.insertAt oldMax value position], after,
        layout ▸ .inserts oldMax position linked inside room gap max greatest, left, fun _ => rfl, ?_⟩
      simp only [putCheckedInner, result, committed, List.append_nil, insertAt_events]
    | occupied position old room there same =>
      refine Or.inr ⟨entry, node, position, old, linked, inside, room, there, same, ?_⟩
      simp only [putCheckedInner, result]

theorem putInner_effect (tidy : Tidy set) (emitCdc : Bool) (value : α) (fuel : Nat) :
    ∃ old events after, PutEffect set.nodeCapacity value set.layout old events after.layout ∧ Left set emitCdc events after ∧
      putInner noIdentityAdoption emitCdc value (fuel + 1) set = some ((old, (emit emitCdc events set).1), after) := by
  rcases putCheckedInner_effect tidy emitCdc value fuel with ⟨old, events, after, effect, left, _, result⟩ |
    ⟨entry, node, position, old, linked, inside, room, there, same, result⟩
  · exact ⟨old, events, after, effect, left, by simp only [putInner, result]⟩
  · have replaced := replaceNode_eq noIdentityAdoption emitCdc value there
    refine ⟨some old, replaceEvents (set.heap.cells node) position old value,
      (replaceNode noIdentityAdoption emitCdc value node position set).2, ?_,
      ⟨tidy.valid.replaceNode emitCdc there same, ?_, ?_⟩, ?_⟩
    · rw [replaceNode_layout emitCdc value there]
      exact .replaces position old linked inside room there same
    · rw [replaced]
      exact emit_nodeCapacity ..
    · rw [replaced]
      rfl
    · simp only [putInner, result]
      rw [replaced]
      rfl

theorem removeInner_effect (tidy : Tidy set) (emitCdc : Bool) (wanted : κ) (fuel : Nat) :
    ∃ deleted events after, RemoveEffect wanted set.layout deleted events after.layout ∧ Left set emitCdc events after ∧
      removeInner id emitCdc wanted (fuel + 1) set = some ((deleted, (emit emitCdc events set).1), after) := by
  have valid := tidy.valid
  have unchanged : Left set emitCdc [] set := ⟨valid, rfl, by rw [emit_nil]⟩
  rcases removeNode_cases valid emitCdc wanted with ⟨empty, result⟩ | ⟨entry, node, linked, inside, found⟩
  · refine ⟨none, [], set, .absent ?_, unchanged, by simp only [removeInner, result, emit_nil]⟩
    intro item stored
    obtain ⟨entry, node, member, _⟩ := stored
    exact absurd member (empty _)
  · generalize result : removeNode id emitCdc wanted set = outcome at found
    cases found with
    | absent missing =>
      refine ⟨none, [], set, .absent ?_, unchanged, by simp only [removeInner, result, emit_nil]⟩
      intro item stored same
      exact missing item (tidy.layout.routed.stored_here linked (same ▸ inside) stored) same
    | singleton single =>
      obtain ⟨unusedValid, sameLayout⟩ := valid_unused valid
      rcases unlinkNode_cases valid emitCdc wanted with ⟨missing, unlinked⟩ | ⟨other, target, member, within, many, _⟩ |
        ⟨other, target, deleted, after, member, within, only, same, unlinked, afterValid, layout, capacity, eventId⟩
      · refine ⟨none, [], _, sameLayout.symm ▸ .absent fun item => missing item tidy.layout.routed,
          ⟨unusedValid, rfl, by rw [emit_nil]⟩, ?_⟩
        simp only [removeInner, result, unlinked, emit_nil]
      · -- the same route, so still a single value
        cases within.unique member linked inside
        exact absurd many (not_lt.mpr single)
      · refine ⟨some deleted, _, after, layout ▸ .unlinks deleted member within only same, ⟨afterValid, capacity, eventId⟩, ?_⟩
        simp only [removeInner, result, unlinked]
    | inner deleted oldMax position many there same max kept =>
      have greatest := kept.trans (tidy.layout.tight entry node linked)
      refine ⟨some deleted, [.removeAt oldMax deleted position], (deleteAt emitCdc deleted node oldMax position set).2, ?_,
        left_deleteAt valid emitCdc deleted oldMax position many, ?_⟩
      · rw [deleteAt_layout, ← Layout.refit_eq set.layout linked rfl]
        exact .deletes deleted oldMax position linked inside many there same max greatest
      · simp only [removeInner, result, deleteAt_events]
    | shrinks deleted oldMax position many there same max moved =>
      obtain ⟨top, greatest⟩ := Node.maxKey_isSome (κ := κ) (eraseIdx_ne_nil many position)
      obtain ⟨after, committed, layout, left⟩ := refit_commit [.removeAt oldMax deleted position]
        (left_deleteAt valid emitCdc deleted oldMax position many) linked (deleteAt_layout ..)
        greatest false
      refine ⟨some deleted, [.removeAt oldMax deleted position], after,
        layout ▸ .deletes deleted oldMax position linked inside many there same max greatest, left, ?_⟩
      simp only [removeInner, result, committed, deleteAt_events]

end BTreeSet
end WorkTablesIndex
