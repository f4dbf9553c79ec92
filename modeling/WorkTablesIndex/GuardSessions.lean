import WorkTablesIndex.PointRead
import WorkTablesIndex.Boundaries

/-! The sections of the calls as guard sessions. A section leaves the topology alone, or
opens one guard, performs structural operations on it and drops it; so readers that
load the generation twice notice every section that moved a route. -/

universe u v

namespace WorkTablesIndex
open Relation SortedMap

variable {α : Type u} {κ : Type v} [LinearOrder κ] [Keyed α κ]

/-- A section changes nodes only, or is one session of a guard. -/
inductive Sessions (set : BTreeSet α κ) : BTreeSet α κ → Prop where
  | nodes {after : BTreeSet α κ} (same : after.index = set.index) (grown : set.heap.next ≤ after.heap.next) : Sessions set after
  | guard {after : BTreeSet α κ} {guard : TopologyWriteGuard κ} {session : Session α κ} (opened : Opens set.index guard)
      (steps : ReflTransGen Session.Step ⟨guard, set.heap, false⟩ session) (index : after.index = session.guard.drop)
      (heap : after.heap = session.heap) : Sessions set after

theorem Sessions.store {set middle after : BTreeSet α κ} (sessions : Sessions set middle) (same : after.index = middle.index)
    (grown : middle.heap.next ≤ after.heap.next) : Sessions set after := by
  cases sessions with
  | nodes earlier before => exact .nodes (same.trans earlier) (before.trans grown)
  | guard opened steps index heap =>
    exact .guard opened (steps.tail (.store after.heap (heap ▸ grown))) (same.trans index) rfl

namespace Structure

omit [Keyed α κ] in
theorem Evolves.trans {before middle after : Topology κ} (first : Evolves before middle) (second : Evolves middle after) :
    Evolves before after := by
  refine ⟨first.generation.trans second.generation, fun same even => ?_⟩
  have halfway : middle.generation = before.generation :=
    le_antisymm (same ▸ second.generation) first.generation
  rw [second.root (same.trans halfway.symm) (halfway ▸ even), first.root halfway even]

variable {topology : Topology κ} {guard : TopologyWriteGuard κ} {heap : Heap α}

private theorem Valid.steps {before after : Session α κ} (steps : ReflTransGen Session.Step before after)
    (valid : (held before.guard before.repaired).Valid before.heap) :
    (held after.guard after.repaired).Valid after.heap ∧ Evolves before.guard.topology after.guard.topology := by
  induction steps with
  | refl => exact ⟨valid, .refl _⟩
  | tail _ step ih =>
    obtain ⟨valid, evolves⟩ := ih
    obtain ⟨later, next⟩ := valid.operates step
    exact ⟨later, evolves.trans next⟩

/-- Readers notice a whole session, from the lock being free to its being free again. -/
theorem Valid.session {session : Session α κ} (valid : (unlocked topology).Valid heap) (opened : Opens topology guard)
    (steps : ReflTransGen Session.Step ⟨guard, heap, false⟩ session) :
    (unlocked session.guard.drop).Valid session.heap ∧ Evolves topology session.guard.drop := by
  have locked : (Structure.locked topology).Valid heap := valid
  obtain ⟨open_, first⟩ := locked.opens opened
  obtain ⟨operated, second⟩ := Valid.steps steps open_
  obtain ⟨swapped, third⟩ := operated.swaps
  obtain ⟨finished, last⟩ := swapped.finishes
  exact ⟨finished, first.trans (second.trans (third.trans last))⟩

end Structure

theorem Sessions.evolves {set after : BTreeSet α κ} (sessions : Sessions set after)
    (valid : (Structure.unlocked set.index).Valid set.heap) :
    (Structure.unlocked after.index).Valid after.heap ∧ Structure.Evolves set.index after.index := by
  cases sessions with
  | nodes same grown =>
    obtain ⟨published, allocated, even⟩ := valid
    rw [same]
    exact ⟨⟨published, allocated.mono grown, even⟩, .refl _⟩
  | guard opened steps index heap =>
    rw [index, heap]
    exact valid.session opened steps

namespace BTreeSet
variable {set : BTreeSet α κ}

omit [Keyed α κ] in
private theorem sessions_emit (set : BTreeSet α κ) (emitCdc : Bool) (events : List (ChangeEventUnassigned α)) (heap : Heap α)
    (grown : set.heap.next ≤ heap.next) : (emit emitCdc events { set with heap }).2.index = set.index ∧
      set.heap.next ≤ (emit emitCdc events { set with heap }).2.heap.next := by
  rw [emit_index, emit_heap]
  exact ⟨rfl, grown⟩

theorem putNode_sessions (emitCdc : Bool) (value : α) (set : BTreeSet α κ) : Sessions set (putNode emitCdc value set).2 := by
  simp only [putNode]
  split
  next => exact .nodes rfl le_rfl
  next routingKey node _ =>
    split
    next => exact .nodes rfl le_rfl
    next =>
      split
      next =>
        obtain ⟨index, heap⟩ := sessions_emit set emitCdc
          ((Node.max (set.heap.cells node)).toList.map fun oldMax => .insertAt oldMax value (Node.insert (set.heap.cells node) value).2.1)
          (set.heap.write node (Node.insert (set.heap.cells node) value).2.2) le_rfl
        split <;> exact .nodes index heap
      next => exact .nodes rfl le_rfl

omit [Keyed α κ] in
theorem replaceNode_same (adopt : α → α → α) (emitCdc : Bool) (value : α) (node : NodeId) (position : Nat)
    (set : BTreeSet α κ) : (replaceNode adopt emitCdc value node position set).2.index = set.index ∧
      (replaceNode adopt emitCdc value node position set).2.heap.next = set.heap.next := by
  simp only [replaceNode]
  split
  next => exact ⟨rfl, rfl⟩
  next => exact ⟨emit_index .., by simp [Heap.write]⟩

theorem createRoot_sessions (emitCdc : Bool) (value : α) (set : BTreeSet α κ) :
    Sessions set (createRoot emitCdc value set).2 := by
  simp only [createRoot]
  split
  next empty =>
    have unlinked : ∀ other, (other, set.heap.next) ∉ set.index.write.index := by
      intro other member
      rw [mem_def, List.isEmpty_iff.mp empty] at member
      cases member
    refine .guard .write (.tail (.tail .refl (.store (set.heap.alloc [value]).2 (Nat.le_succ _)))
      (.insert (key value) set.heap.next rfl (Nat.lt_succ_self _) unlinked)) ?_ ?_
    · rw [emit_heap]
      rfl
    · rw [emit_heap]
      rfl
  next => exact .guard .write .refl rfl rfl

theorem commitOperation_sessions (adopt : α → α → α) (emitCdc : Bool) (operation : Operation α κ) (set : BTreeSet α κ) :
    Sessions set (commitOperation adopt emitCdc operation set).2 := by
  cases operation with
  | split node oldMax value =>
    simp only [commitOperation]
    split
    next => exact .guard .write .refl rfl rfl
    next committed success =>
      exact .guard .write (.tail .refl (.commitSplit adopt emitCdc node oldMax value rfl success)) (emit_index ..) (emit_heap ..)
  | updateMax node oldMax =>
    simp only [commitOperation]
    split
    next => exact .guard .writeRekey .refl rfl rfl
    next committed success =>
      exact .guard .writeRekey (.tail .refl (.commitUpdateMax adopt emitCdc node oldMax rfl rfl success)) (emit_index ..)
        (emit_heap ..)

theorem removeNode_sessions (emitCdc : Bool) (wanted : κ) (set : BTreeSet α κ) :
    Sessions set (removeNode id emitCdc wanted set).2 := by
  simp only [removeNode]
  split
  next => exact .nodes rfl le_rfl
  next routingKey node _ =>
    split
    next =>
      split <;> exact .nodes rfl le_rfl
    next =>
      split
      next => exact .nodes rfl le_rfl
      next deleted index rest _ =>
        obtain ⟨same, grown⟩ := sessions_emit set emitCdc
          ((Node.max (set.heap.cells node)).toList.map fun oldMax => .removeAt oldMax deleted index)
          (set.heap.write node rest) le_rfl
        split <;> exact .nodes same grown

theorem unlinkNode_sessions (emitCdc : Bool) (wanted : κ) (set : BTreeSet α κ) :
    Sessions set (unlinkNode id emitCdc wanted set).2 := by
  simp only [unlinkNode]
  split
  next => exact .guard .write .refl rfl rfl
  next routingKey node _ =>
    split
    next => exact .guard .write .refl rfl rfl
    next =>
      split
      next => exact .guard .write .refl rfl rfl
      next deleted index rest _ =>
        refine .guard .write (.tail (.tail .refl (.remove routingKey rfl)) (.store (set.heap.write node rest) le_rfl)) ?_ ?_
        · cases emitCdc <;> rfl
        · cases emitCdc <;> rfl

end BTreeSet

/-- Every section of an insertion or a removal changes nodes only or is one session. -/
theorem Machine.step_sessions {before after : Machine α κ} {action : Action α κ}
    (pointwise : ∀ thread call start last, before.threads thread ≠ some (call, .removeRange start last))
    (taken : before.step action = some after) : Sessions before.set after.set := by
  cases action with
  | invoke thread request =>
    simp only [step] at taken
    split at taken
    next => cases taken
    next =>
      cases taken
      exact .nodes rfl le_rfl
  | advance thread =>
    simp only [step] at taken
    split at taken
    next => cases taken
    next call phase running =>
      cases taken
      cases phase with
      | put value checked emitCdc =>
        have put := BTreeSet.putNode_sessions emitCdc value before.set
        simp only [advance]
        split <;> rename_i result <;> rw [result] at put
        · exact put
        · exact put
        · rename_i node position set
          split
          next => exact put
          next =>
            obtain ⟨index, heap⟩ := BTreeSet.replaceNode_same noIdentityAdoption emitCdc value node position set
            exact put.store index heap.ge
        · exact put
        · exact put
      | root value checked emitCdc =>
        have root := BTreeSet.createRoot_sessions emitCdc value before.set
        simp only [advance]
        split <;> rename_i result <;> rw [result] at root <;> exact root
      | commitSplit node oldMax value checked emitCdc cdc =>
        have commit := BTreeSet.commitOperation_sessions noIdentityAdoption emitCdc (.split node oldMax value) before.set
        simp only [advance]
        split <;> rename_i result <;> rw [result] at commit <;> exact commit
      | commitMax node oldMax emitCdc cdc =>
        have commit := BTreeSet.commitOperation_sessions noIdentityAdoption emitCdc (.updateMax node oldMax) before.set
        simp only [advance]
        split <;> rename_i result <;> rw [result] at commit <;> exact commit
      | remove wanted emitCdc =>
        have remove := BTreeSet.removeNode_sessions emitCdc wanted before.set
        simp only [advance]
        split <;> rename_i result <;> rw [result] at remove <;> exact remove
      | unlink wanted emitCdc =>
        have unlink := BTreeSet.unlinkNode_sessions emitCdc wanted before.set
        simp only [advance]
        split <;> rename_i result <;> rw [result] at unlink <;> exact unlink
      | repair node oldMax deleted cdc => exact BTreeSet.commitOperation_sessions _ _ _ before.set
      | removeRange start last => exact absurd running (pointwise thread call start last)

end WorkTablesIndex
