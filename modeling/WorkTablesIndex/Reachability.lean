import WorkTablesIndex.Refinement

/-! The sets that complete calls reach, and what no complete call does: it never moves
a stored key into a node that already existed. Splits move keys to new nodes, and
every other change keeps a key where it is. -/

universe u v

namespace WorkTablesIndex
open Relation SortedMap

variable {α : Type u} {κ : Type v} [LinearOrder κ] [Keyed α κ]

namespace Layout
variable {before after layout : Layout α κ} {node : NodeId} {entry : κ}

theorem Trim.tidy (trim : Trim before after) (tidy : Tidy before) : Tidy after := by
  refine ⟨trim.sound tidy.sound, ?_, (trim.tracks tidy.sound).tight tidy.tight⟩
  cases trim with
  | erase entry =>
    intro other node member value present
    have between := tidy.routed other node ((mem_erase ..).mp member).2 value present
    exact ⟨fun earlier there => between.above earlier ((mem_erase ..).mp there).2,
      fun later there => between.within later ((mem_erase ..).mp there).2⟩
  | drain node values unlinked fewer =>
    intro other target member value present
    have here : target ≠ node := fun same => unlinked other (same ▸ member)
    apply tidy.routed other target member value
    simpa [Layout.rewrite, Heap.write_other _ _ here] using present
  | shrink entry node values linked fewer filled same =>
    exact tidy.routed.rewrite tidy.sound linked fun value member => tidy.routed entry node linked value (fewer.subset member)
  | cut entry new node values linked fewer greatest =>
    exact (tidy.refit linked ((tidy.sound.sorted node).sublist fewer)
      (fun value member => tidy.routed entry node linked value (fewer.subset member)) greatest).routed

theorem trims_tidy (trims : ReflTransGen Trim before after) (tidy : Tidy before) : Tidy after := by
  induction trims with
  | refl => exact tidy
  | tail _ trim ih => exact trim.tidy ih

structure Fewer (before after : Layout α κ) : Prop where
  next : after.heap.next = before.heap.next
  cells : ∀ node, after.heap.cells node ⊆ before.heap.cells node

omit [Keyed α κ] in
theorem rewrite_fewer {values : List α} (subset : values ⊆ layout.heap.cells node) :
    Fewer layout (layout.rewrite node values) := by
  refine ⟨rfl, fun other item member => ?_⟩
  by_cases here : other = node
  · subst here
    exact subset (by simpa [Layout.rewrite] using member)
  · simpa [Layout.rewrite, Heap.write_other _ _ here] using member

theorem Trim.fewer (trim : Trim before after) : Fewer before after := by
  cases trim with
  | erase entry => exact ⟨rfl, fun _ _ member => member⟩
  | drain node values unlinked fewer => exact rewrite_fewer fewer.subset
  | shrink entry node values linked fewer filled same => exact rewrite_fewer fewer.subset
  | cut entry new node values linked fewer greatest => exact ⟨rfl, (rewrite_fewer fewer.subset).cells⟩

theorem trims_fewer (trims : ReflTransGen Trim before after) : Fewer before after := by
  induction trims with
  | refl => exact ⟨rfl, fun _ _ member => member⟩
  | tail _ trim ih => exact ⟨trim.fewer.next.trans ih.next, fun node _ member => ih.cells node (trim.fewer.cells node member)⟩

/-- A key that was stored before is in an old node only if it was there before. -/
structure Stays (before after : Layout α κ) : Prop where
  next : before.heap.next ≤ after.heap.next
  keys : ∀ node < before.heap.next, ∀ item ∈ after.heap.cells node, (∃ stored, Stored before stored ∧ key stored = key item) →
    ∃ stored ∈ before.heap.cells node, key stored = key item

theorem Fewer.stays (fewer : Fewer before after) : Stays before after :=
  ⟨fewer.next.ge, fun node _ item member _ => ⟨item, fewer.cells node member, rfl⟩⟩

/-- One old node takes a value that routes to it; the others keep their values. -/
theorem Routed.stays (routed : Routed before) (linked : (entry, node) ∈ before.index) {value : α}
    (inside : Between before.index entry (key value)) {values all : List α}
    (stored : Node.Upserted (before.heap.cells node) value all) (subset : values ⊆ all) (next : before.heap.next ≤ after.heap.next)
    (here : after.heap.cells node = values)
    (others : ∀ other < before.heap.next, other ≠ node → after.heap.cells other = before.heap.cells other) : Stays before after := by
  refine ⟨next, fun other old item member earlier => ?_⟩
  by_cases same : other = node
  · subst same
    rw [here] at member
    rcases (stored.mem item).mp (subset member) with rfl | ⟨there, _⟩
    · obtain ⟨held, present, level⟩ := earlier
      exact ⟨held, routed.stored_here linked (level.symm ▸ inside) present, level⟩
    · exact ⟨item, there, rfl⟩
  · rw [others other old same] at member
    exact ⟨item, member, rfl⟩

end Layout

theorem PutEffect.stays {layout after : Layout α κ} {nodeCapacity : Nat} {value : α} {result : Option α}
    {events : List (ChangeEventUnassigned α)} (effect : PutEffect nodeCapacity value layout result events after)
    (tidy : layout.Tidy) : layout.Stays after := by
  cases effect with
  | root empty =>
    refine ⟨Nat.le_succ _, fun node old item member _ => ⟨item, ?_, rfl⟩⟩
    simpa [Layout.root, Heap.alloc_other _ _ old.ne] using member
  | inserts oldMax position linked inside room gap max greatest =>
    exact tidy.routed.stays linked inside (gap.upserted (tidy.sound.sorted _)) (List.Subset.refl _) le_rfl (Heap.write_same ..)
      fun other _ apart => Heap.write_other _ _ apart
  | replaces position stored linked inside room there same =>
    exact tidy.routed.stays linked inside (Node.set_upserted (tidy.sound.sorted _) there same) (List.Subset.refl _) le_rfl
      (Heap.write_same ..) fun other _ apart => Heap.write_other _ _ apart
  | @splits entry node linked inside full stored filled found =>
    have away : node ≠ layout.heap.next := (tidy.sound.allocated entry node linked).ne
    refine tidy.routed.stays linked inside stored (List.subset_append_left _ _) (Nat.le_succ _) ?_ fun other old apart => ?_
    · rw [Layout.split_cells, if_neg away, if_pos rfl]
    · rw [Layout.split_cells, if_neg old.ne, if_neg apart]

theorem RemoveEffect.stays {layout after : Layout α κ} {wanted : κ} {result : Option α} {events : List (ChangeEventUnassigned α)}
    (effect : RemoveEffect wanted layout result events after) : layout.Stays after := by
  apply Layout.Fewer.stays
  cases effect with
  | absent missing => exact ⟨rfl, fun _ _ member => member⟩
  | deletes deleted oldMax position linked inside many there same max greatest =>
    exact ⟨rfl, (Layout.rewrite_fewer (List.eraseIdx_subset ..)).cells⟩
  | unlinks deleted linked inside only same => exact ⟨rfl, (Layout.rewrite_fewer (List.nil_subset _)).cells⟩

namespace BTreeSet
variable {set after : BTreeSet α κ} {nodeCapacity : Nat}

theorem Tidy.removeRange (tidy : Tidy set) (start last : Bound κ) :
    Tidy (removeRange id start last set) ∧ set.layout.Stays (removeRange id start last set).layout := by
  obtain ⟨valid, trims⟩ := removeRange_trims tidy.valid id start last
  exact ⟨⟨valid, Layout.trims_tidy trims tidy.layout⟩, (Layout.trims_fewer trims).stays⟩

/-- A complete mutating call: insertion, removal, with or without events, and range removal. -/
inductive Mutates (set : BTreeSet α κ) : BTreeSet α κ → Prop where
  | insert {after result} (emitCdc : Bool) (value : α) (fuel : Nat)
      (ran : putInner noIdentityAdoption emitCdc value fuel set = some (result, after)) : Mutates set after
  | checkedInsert {after result} (emitCdc : Bool) (value : α) (fuel : Nat)
      (ran : putCheckedInner noIdentityAdoption emitCdc value fuel set = some (result, after)) : Mutates set after
  | remove {after result} (emitCdc : Bool) (wanted : κ) (fuel : Nat)
      (ran : removeInner id emitCdc wanted fuel set = some (result, after)) : Mutates set after
  | removeRange (start last : Bound κ) : Mutates set (removeRange id start last set)

inductive Reachable (nodeCapacity : Nat) : BTreeSet α κ → Prop where
  | new : Reachable nodeCapacity (.withMaximumNodeSize nodeCapacity)
  | mutates {set after : BTreeSet α κ} (earlier : Reachable nodeCapacity set)
      (call : Mutates set after) : Reachable nodeCapacity after
  | attachNodes {set after : BTreeSet α κ} (earlier : Reachable nodeCapacity set) (nodes : List (List α))
      (attachable : Attachable set.layout nodes) (ran : set.attachNodes nodes = some after) : Reachable nodeCapacity after

theorem Mutates.tidy (call : Mutates set after) (tidy : Tidy set) :
    Tidy after ∧ set.layout.Stays after.layout ∧ after.nodeCapacity = set.nodeCapacity := by
  cases call with
  | insert emitCdc value fuel ran =>
    cases fuel with
    | zero => cases ran
    | succ fuel =>
      obtain ⟨_, _, _, effect, left, result⟩ := putInner_effect tidy emitCdc value fuel
      cases ran.symm.trans result
      exact ⟨⟨left.valid, (effect.tidy tidy.layout).1⟩, effect.stays tidy.layout, left.nodeCapacity⟩
  | checkedInsert emitCdc value fuel ran =>
    cases fuel with
    | zero => cases ran
    | succ fuel =>
      rcases putCheckedInner_effect tidy emitCdc value fuel with ⟨_, _, _, effect, left, _, result⟩ |
        ⟨_, _, _, _, _, _, _, _, _, result⟩
      · cases ran.symm.trans result
        exact ⟨⟨left.valid, (effect.tidy tidy.layout).1⟩, effect.stays tidy.layout, left.nodeCapacity⟩
      · cases ran.symm.trans result
        exact ⟨tidy, Layout.Fewer.stays ⟨rfl, fun _ _ member => member⟩, rfl⟩
  | remove emitCdc wanted fuel ran =>
    cases fuel with
    | zero => cases ran
    | succ fuel =>
      obtain ⟨_, _, _, effect, left, result⟩ := removeInner_effect tidy emitCdc wanted fuel
      cases ran.symm.trans result
      exact ⟨⟨left.valid, (effect.tidy tidy.layout).1⟩, effect.stays, left.nodeCapacity⟩
  | removeRange start last =>
    obtain ⟨afterTidy, stays⟩ := tidy.removeRange start last
    exact ⟨afterTidy, stays, removeRange_nodeCapacity id start last set⟩

theorem Reachable.tidy (reachable : Reachable nodeCapacity set) : Tidy set ∧ set.nodeCapacity = nodeCapacity := by
  induction reachable with
  | new => exact ⟨tidy_new nodeCapacity, rfl⟩
  | mutates earlier call ih =>
    obtain ⟨tidy, _, capacity⟩ := call.tidy ih.1
    exact ⟨tidy, capacity.trans ih.2⟩
  | attachNodes earlier nodes attachable ran ih =>
    obtain ⟨_, result, tidy, capacity, _⟩ := attachNodes_spec ih.1 attachable
    cases ran.symm.trans result
    exact ⟨tidy, capacity.trans ih.2⟩

end BTreeSet
end WorkTablesIndex
