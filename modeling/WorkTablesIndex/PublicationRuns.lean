import Mathlib.Logic.Relation
import WorkTablesIndex.OperationLaws

/-! Whole runs of structural writers. A writer takes a guard, performs any of the
operations its callers perform, and drops it; between guards, and while one is
open, node contents may change. The publication invariant holds after every
drop, and no assertion of the guard can fail on the way. -/

universe u v

namespace WorkTablesIndex
open Relation SortedMap

variable {α : Type u} {κ : Type v} [LinearOrder κ] [Keyed α κ]

inductive Opens (topology : Topology κ) : TopologyWriteGuard κ → Prop where
  | write : Opens topology topology.write
  | tryWrite (contended : Bool) (guard : TopologyWriteGuard κ) (taken : topology.tryWrite contended = some guard) :
      Opens topology guard
  | writeRekey : Opens topology topology.writeRekey

/-- An open guard, the nodes it may link, and whether its last route is repaired. -/
structure Session (α : Type u) (κ : Type v) [LinearOrder κ] where
  guard : TopologyWriteGuard κ
  heap : Heap α
  repaired : Bool

/-- One operation on an open guard, under the conditions its callers establish:
structural edits come from publishing guards, and a re-key is the first
mutation of a guard that opted out. -/
inductive Session.Step : Session α κ → Session α κ → Prop where
  | insert {guard heap repaired} (key : κ) (node : NodeId) (publishing : guard.publish = true) (allocated : node < heap.next)
      (unlinked : ∀ other, (other, node) ∉ guard.index) :
      Step ⟨guard, heap, repaired⟩ ⟨(guard.insert key node).2, heap, true⟩
  | remove {guard heap repaired} (key : κ) (publishing : guard.publish = true) :
      Step ⟨guard, heap, repaired⟩ ⟨(guard.remove key).2, heap, repaired⟩
  | repair {guard heap repaired} (publishing : guard.publish = true) :
      Step ⟨guard, heap, repaired⟩ ⟨guard.repairLastRouteBeforeInsert, heap, true⟩
  | insertAfterRepair {guard heap} (key : κ) (node : NodeId) (publishing : guard.publish = true) (allocated : node < heap.next)
      (unlinked : ∀ other, (other, node) ∉ guard.index) :
      Step ⟨guard, heap, true⟩ ⟨(guard.insertAfterLastRouteRepair key node).2, heap, true⟩
  | enablePublication {guard heap repaired} (clean : guard.enablePublicationAsserts) :
      Step ⟨guard, heap, repaired⟩ ⟨guard.enablePublication, heap, repaired⟩
  | rekeyLast {guard heap repaired} (oldKey newKey : κ) (node : NodeId) (optOut : guard.publish = false)
      (clean : guard.dirty = false) (linked : guard.index.get? oldKey = some node)
      (allowed : guard.canRekeyLastNodeWithoutPublication node newKey = true) :
      Step ⟨guard, heap, repaired⟩ ⟨guard.rekeyLastNode oldKey newKey node, heap, repaired⟩
  | commitSplit {guard heap repaired committed} (adopt : α → α → α) (emitCdc : Bool) (oldNode : NodeId) (oldMax : κ) (value : α)
      (publishing : guard.publish = true)
      (success : (Operation.split oldNode oldMax value).commit adopt emitCdc guard heap = some committed) :
      Step ⟨guard, heap, repaired⟩ ⟨committed.guard, committed.heap, true⟩
  | commitUpdateMax {guard heap repaired committed} (adopt : α → α → α) (emitCdc : Bool) (node : NodeId) (oldMax : κ)
      (optOut : guard.publish = false) (clean : guard.dirty = false)
      (success : (Operation.updateMax node oldMax).commit adopt emitCdc guard heap = some committed) :
      Step ⟨guard, heap, repaired⟩ ⟨committed.guard, committed.heap, repaired⟩
  | store {guard heap repaired} (changed : Heap α) (grown : heap.next ≤ changed.next) :
      Step ⟨guard, heap, repaired⟩ ⟨guard, changed, repaired⟩

inductive StructurallyReachable : Topology κ → Heap α → Prop where
  | new : StructurallyReachable Topology.new Heap.empty
  | store {topology heap} (before : StructurallyReachable topology heap) (changed : Heap α) (grown : heap.next ≤ changed.next) :
      StructurallyReachable topology changed
  | session {topology heap guard last} (before : StructurallyReachable topology heap) (opened : Opens topology guard)
      (steps : ReflTransGen Session.Step ⟨guard, heap, false⟩ last) :
      StructurallyReachable last.guard.drop last.heap

namespace Session

structure Valid (session : Session α κ) : Prop where
  consistent : session.guard.Consistent
  repaired : session.repaired = true → session.guard.publish = true ∧ session.guard.Exact
  allocated : Allocated session.guard.index session.heap

private theorem valid_commitSplit {guard : TopologyWriteGuard κ} {heap : Heap α} {repaired : Bool}
    (valid : Valid ⟨guard, heap, repaired⟩) {committed : Committed α κ} {adopt : α → α → α} {oldNode : NodeId} {oldMax : κ}
    {value : α} (publishing : guard.publish = true)
    (success : Operation.commitSplit adopt guard heap oldNode oldMax value = some committed) :
    Valid ⟨committed.guard, committed.heap, true⟩ := by
  have allocated : Allocated guard.index heap := valid.allocated
  have linked : guard.index.get? oldMax = some oldNode := by
    by_contra unlinked
    simp [Operation.commitSplit_none adopt value (Or.inl unlinked)] at success
  have filled : heap.cells oldNode ≠ [] := by
    intro drained
    simp [Operation.commitSplit_none adopt value (Or.inr drained)] at success
  obtain ⟨_, max, _, _, result⟩ := Operation.commitSplit_some adopt guard value linked filled
  rw [success] at result
  cases result
  obtain ⟨consistent, exact_, publish, index⟩ := Operation.split_guard valid.consistent publishing linked allocated.fresh
    (Node.halve (heap.cells oldNode)).1 (Operation.moveRight adopt _ (Node.halve (heap.cells oldNode)).2 max value).2
  refine ⟨consistent, fun _ => ⟨publish, exact_⟩, ?_⟩
  have inside : oldNode < heap.next := allocated _ _ (get?_eq_some.mp linked)
  rw [index]
  have leftAllocated : Allocated (Operation.link (guard.index.erase oldMax) oldNode
      (Node.maxKey (Node.halve (heap.cells oldNode)).1)) heap := by
    cases Node.maxKey (Node.halve (heap.cells oldNode)).1 with
    | none => exact allocated.erase oldMax
    | some greatest => exact (allocated.erase oldMax).insert greatest inside
  exact (leftAllocated.mono (by simp)).insert _ (by simp)

private theorem valid_commitUpdateMax {guard after : TopologyWriteGuard κ} {heap : Heap α} {repaired : Bool}
    (valid : Valid ⟨guard, heap, repaired⟩) {node : NodeId} {oldMax : κ} (optOut : guard.publish = false)
    (clean : guard.dirty = false) (success : Operation.commitUpdateMax guard heap node oldMax = some after) :
    Valid ⟨after, heap, repaired⟩ := by
  have linked : guard.index.get? oldMax = some node := by
    by_contra unlinked
    simp [Operation.commitUpdateMax_none guard heap node oldMax (Or.inl unlinked)] at success
  have filled : heap.cells node ≠ [] := by
    intro drained
    simp [Operation.commitUpdateMax_none guard heap node oldMax (Or.inr drained)] at success
  obtain ⟨newMax, greatest⟩ := Node.maxKey_isSome (κ := κ) filled
  rw [Operation.commitUpdateMax_some linked greatest] at success
  cases success
  obtain ⟨consistent, index⟩ := Operation.rekey_guard valid.consistent optOut clean linked newMax
  refine ⟨consistent, fun repaired => ?_, ?_⟩
  · exact absurd (optOut.symm.trans (valid.repaired repaired).1) (by simp)
  · rw [index]
    exact (valid.allocated.erase oldMax).insert newMax (valid.allocated _ _ (get?_eq_some.mp linked))

theorem Step.valid {before after : Session α κ} (step : Step before after) (valid : Valid before) : Valid after := by
  cases step with
  | insert key node publishing allocated unlinked =>
    obtain ⟨_, index, publish, consistent, exact_⟩ :=
      TopologyWriteGuard.insert_spec valid.consistent publishing key node unlinked
    exact ⟨consistent, fun _ => ⟨publish, exact_⟩, index ▸ valid.allocated.insert key allocated⟩
  | remove key publishing =>
    obtain ⟨_, index, publish, consistent, exact_⟩ := TopologyWriteGuard.remove_spec valid.consistent publishing key
    exact ⟨consistent, fun repaired => ⟨publish, exact_ (valid.repaired repaired).2⟩, index ▸ valid.allocated.erase key⟩
  | repair publishing =>
    obtain ⟨consistent, exact_, index, publish⟩ :=
      TopologyWriteGuard.repairLastRouteBeforeInsert_spec valid.consistent publishing
    exact ⟨consistent, fun _ => ⟨publish, exact_⟩, index ▸ valid.allocated⟩
  | insertAfterRepair key node publishing allocated unlinked =>
    obtain ⟨_, index, publish, consistent, exact_⟩ := TopologyWriteGuard.insertAfterLastRouteRepair_spec valid.consistent
      (valid.repaired rfl).2 publishing key node unlinked
    exact ⟨consistent, fun _ => ⟨publish, exact_⟩, index ▸ valid.allocated.insert key allocated⟩
  | enablePublication clean =>
    obtain ⟨index, publish, consistent, exact_⟩ := TopologyWriteGuard.enablePublication_spec valid.consistent clean
    exact ⟨consistent, fun repaired => ⟨publish, exact_ (valid.repaired repaired).2⟩, index ▸ valid.allocated⟩
  | rekeyLast oldKey newKey node optOut clean linked allowed =>
    obtain ⟨_, index, consistent⟩ := TopologyWriteGuard.rekeyLastNode_spec valid.consistent optOut clean linked allowed
    refine ⟨consistent, fun repaired => absurd (optOut.symm.trans (valid.repaired repaired).1) (by simp), ?_⟩
    rw [index]
    exact (valid.allocated.erase oldKey).insert newKey (valid.allocated _ _ (get?_eq_some.mp linked))
  | commitSplit adopt emitCdc oldNode oldMax value publishing success =>
    obtain ⟨committed, done, rfl⟩ := Option.map_eq_some_iff.mp success
    have valid := valid_commitSplit valid publishing done
    exact ⟨valid.consistent, valid.repaired, valid.allocated⟩
  | commitUpdateMax adopt emitCdc node oldMax optOut clean success =>
    obtain ⟨guard, done, rfl⟩ := Option.map_eq_some_iff.mp success
    exact valid_commitUpdateMax valid optOut clean done
  | store changed grown => exact ⟨valid.consistent, valid.repaired, valid.allocated.mono grown⟩

theorem steps_valid {before after : Session α κ} (steps : ReflTransGen Step before after) (valid : Valid before) :
    Valid after := by
  induction steps with
  | refl => exact valid
  | tail _ step ih => exact step.valid ih

end Session

omit [Keyed α κ] in
theorem Publishes.opened {topology : Topology κ}
    (publishes : Publishes topology.index topology.published topology.publishedKeys) {guard : TopologyWriteGuard κ}
    (opened : Opens topology guard) : guard.Consistent ∧ guard.index = topology.index := by
  cases opened with
  | write => exact ⟨⟨publishes, fun _ => rfl, fun impossible => absurd impossible (by simp [Topology.write]),
      fun _ impossible => absurd impossible (by simp [Topology.write])⟩, rfl⟩
  | tryWrite contended guard taken =>
    unfold Topology.tryWrite at taken
    split at taken
    · cases taken
    · cases taken
      exact ⟨⟨publishes, fun _ => rfl, fun impossible => absurd impossible (by simp),
        fun _ impossible => absurd impossible (by simp)⟩, rfl⟩
  | writeRekey => exact ⟨⟨publishes, fun _ => rfl, fun _ => rfl,
      fun impossible => absurd impossible (by simp [Topology.writeRekey])⟩, rfl⟩

theorem StructurallyReachable.publishes {topology : Topology κ} {heap : Heap α} (reachable : StructurallyReachable topology heap) :
    Publishes topology.index topology.published topology.publishedKeys ∧ Allocated topology.index heap := by
  induction reachable with
  | new => exact ⟨publishes_new, fun key node member => (not_mem_empty _ member).elim⟩
  | store before changed grown ih => exact ⟨ih.1, ih.2.mono grown⟩
  | session before opened steps ih =>
    obtain ⟨consistent, same⟩ := ih.1.opened opened
    have valid := Session.steps_valid steps ⟨consistent, fun impossible => absurd impossible (by simp), same ▸ ih.2⟩
    obtain ⟨publishes, index⟩ := valid.consistent.drop
    exact ⟨publishes, index ▸ valid.allocated⟩

/-- The published routes against the canonical index: the same nodes in the same
order, each once; one identity for each route; and one key in common for every
node but the last. -/
structure PublicationInvariant (topology : Topology κ) : Prop where
  nodes : topology.published.routes.map Prod.snd = topology.index.entries.map Prod.snd
  once : (topology.published.routes.map Prod.snd).Nodup
  identities : ∀ node route, topology.publishedKeys.get? node = some route ↔ (route, node) ∈ topology.published.routes
  keys : ∀ position canonical route, position + 1 < topology.index.entries.length →
    topology.index.entries[position]? = some canonical → topology.published.routes[position]? = some route →
    route.1 = canonical.1
  ascending : (topology.published.routes.map Prod.fst).Pairwise (· < ·)

omit [Keyed α κ] in
theorem Publishes.invariant {topology : Topology κ}
    (publishes : Publishes topology.index topology.published topology.publishedKeys) : PublicationInvariant topology := by
  refine ⟨publishes.agrees.nodes, ?_, fun node route => get?_eq_some.trans (publishes.keys node route), ?_,
    List.pairwise_map.mpr publishes.wellFormed.ascending⟩
  · rw [publishes.agrees.nodes]
    exact publishes.once.nodup
  · intro position canonical route early atCanonical atRoute
    have length : topology.published.routes.length = topology.index.entries.length := by
      simpa using congrArg List.length publishes.agrees.nodes
    have inside := congrArg (fun entries => entries[position]?) publishes.agrees.dropLast
    simp only [List.getElem?_dropLast, length] at inside
    rw [if_pos (by omega), if_pos (by omega), atCanonical, atRoute] at inside
    cases inside
    rfl

/-- After every drop the publication invariant holds, and while a guard is open
no assertion of `Drop` or of `rekey_last_node` can fail. -/
theorem publication_invariant {topology : Topology κ} {heap : Heap α} (reachable : StructurallyReachable topology heap) :
    PublicationInvariant topology ∧
    ∀ guard, Opens topology guard → ∀ session, ReflTransGen Session.Step ⟨guard, heap, false⟩ session →
      (session.guard.publish = true → session.guard.dirty = true → ∃ routes, session.guard.DropAsserts routes) ∧
      ∀ oldKey newKey node, session.guard.publish = false → session.guard.dirty = false →
        session.guard.index.get? oldKey = some node →
        session.guard.canRekeyLastNodeWithoutPublication node newKey = true →
        session.guard.RekeyAsserts oldKey newKey node := by
  obtain ⟨publishes, allocated⟩ := reachable.publishes
  refine ⟨publishes.invariant, ?_⟩
  intro guard opened session steps
  obtain ⟨consistent, same⟩ := publishes.opened opened
  have valid := Session.steps_valid steps ⟨consistent, fun impossible => absurd impossible (by simp), same ▸ allocated⟩
  refine ⟨valid.consistent.dropAsserts, ?_⟩
  intro oldKey newKey node optOut clean linked allowed
  exact (TopologyWriteGuard.rekeyLastNode_spec valid.consistent optOut clean linked allowed).1

/-- A first node under 10, then re-keyed to 20 behind the back of its route. -/
private def grownLast : TopologyWriteGuard Nat :=
  ((Topology.new : Topology Nat).write.insert 10 0).2.drop.writeRekey.rekeyLastNode 10 20 0

private theorem grownLast_reachable : StructurallyReachable grownLast.drop (⟨fun _ => [20], 1⟩ : Heap Nat) := by
  have inserted : Session.Step ⟨(Topology.new : Topology Nat).write, (⟨fun _ => [20], 1⟩ : Heap Nat), false⟩
      ⟨((Topology.new : Topology Nat).write.insert 10 0).2, ⟨fun _ => [20], 1⟩, true⟩ :=
    .insert 10 0 rfl Nat.one_pos (fun _ member => not_mem_empty _ member)
  have rekeyed : Session.Step
      ⟨((Topology.new : Topology Nat).write.insert 10 0).2.drop.writeRekey, (⟨fun _ => [20], 1⟩ : Heap Nat), false⟩
      ⟨grownLast, ⟨fun _ => [20], 1⟩, false⟩ :=
    .rekeyLast 10 20 0 rfl rfl (by decide) (by decide)
  exact .session (.session (.store .new _ (Nat.zero_le _)) .write (.single inserted)) .writeRekey (.single rekeyed)

theorem publication_invariant_grown_last : grownLast.drop.index.entries = [(20, 0)] ∧
    grownLast.drop.published.routes = [(10, 0)] ∧ PublicationInvariant grownLast.drop :=
  ⟨by decide, by decide, (publication_invariant grownLast_reachable).1⟩

end WorkTablesIndex
