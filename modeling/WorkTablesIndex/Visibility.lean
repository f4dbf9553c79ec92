import WorkTablesIndex.PublicationRuns

/-! What readers see of an open guard. Point reads load the generation and the route root
without a lock; the operations of a guard never touch the root, and raise the
generation only when the guard starts to publish. -/

universe u v

namespace WorkTablesIndex

variable {α : Type u} {κ : Type v} [LinearOrder κ]

namespace TopologyWriteGuard
variable {guard middle after : TopologyWriteGuard κ}

/-- The root and the generation, which readers load without a lock, are as before. -/
structure Unseen (guard after : TopologyWriteGuard κ) : Prop where
  published : after.topology.published = guard.topology.published
  generation : after.topology.generation = guard.topology.generation
  publish : after.publish = guard.publish

theorem Unseen.refl (guard : TopologyWriteGuard κ) : Unseen guard guard := ⟨rfl, rfl, rfl⟩

theorem Unseen.trans (first : Unseen guard middle) (second : Unseen middle after) : Unseen guard after :=
  ⟨second.published.trans first.published, second.generation.trans first.generation, second.publish.trans first.publish⟩

theorem rebuildPublication_unseen (guard : TopologyWriteGuard κ) : Unseen guard guard.rebuildPublication := ⟨rfl, rfl, rfl⟩

theorem repairLastRouteBeforeInsert_unseen (guard : TopologyWriteGuard κ) : Unseen guard guard.repairLastRouteBeforeInsert := by
  simp only [repairLastRouteBeforeInsert]
  repeat' split
  all_goals exact ⟨rfl, rfl, rfl⟩

theorem publishRoute_unseen (guard : TopologyWriteGuard κ) (key : κ) (node : NodeId) :
    Unseen guard (guard.publishRoute key node) := by
  simp only [publishRoute]
  repeat' split
  all_goals exact ⟨rfl, rfl, rfl⟩

theorem retractRoute_unseen (guard : TopologyWriteGuard κ) (node : NodeId) : Unseen guard (guard.retractRoute node).2 := by
  simp only [retractRoute]
  split
  all_goals exact ⟨rfl, rfl, rfl⟩

theorem insertAfterLastRouteRepair_unseen (guard : TopologyWriteGuard κ) (key : κ) (node : NodeId) :
    Unseen guard (guard.insertAfterLastRouteRepair key node).2 := by
  have linked : Unseen guard
      ({ guard.setIndex (guard.index.insert key node) with dirty := true } : TopologyWriteGuard κ).ensurePublicationSnapshot :=
    ⟨rfl, rfl, rfl⟩
  simp only [insertAfterLastRouteRepair]
  split
  next =>
    cases guard.index.get? key with
    | none => exact linked.trans (publishRoute_unseen _ key node)
    | some replaced =>
      have retracted := linked.trans (retractRoute_unseen _ replaced)
      simp only
      split
      next later same =>
        rw [same] at retracted
        exact retracted.trans (publishRoute_unseen _ key node)
      next later same =>
        rw [same] at retracted
        exact retracted.trans (rebuildPublication_unseen _)
  next => exact ⟨rfl, rfl, rfl⟩

theorem insert_unseen (guard : TopologyWriteGuard κ) (key : κ) (node : NodeId) : Unseen guard (guard.insert key node).2 :=
  (repairLastRouteBeforeInsert_unseen guard).trans (insertAfterLastRouteRepair_unseen _ key node)

theorem remove_unseen (guard : TopologyWriteGuard κ) (key : κ) : Unseen guard (guard.remove key).2 := by
  simp only [remove]
  split
  next => exact .refl guard
  next removed _ =>
    split
    next =>
      have unlinked : Unseen guard
          ({ guard.setIndex (guard.index.erase key) with dirty := true } : TopologyWriteGuard κ).ensurePublicationSnapshot :=
        ⟨rfl, rfl, rfl⟩
      have retracted := unlinked.trans (retractRoute_unseen _ removed)
      split
      next later same =>
        rw [same] at retracted
        exact retracted
      next later same =>
        rw [same] at retracted
        exact retracted.trans (rebuildPublication_unseen _)
    next => exact ⟨rfl, rfl, rfl⟩

/-- A guard operation leaves the root alone; it may raise the generation once, when the
guard starts to publish. -/
structure Operates (guard after : TopologyWriteGuard κ) : Prop where
  published : after.topology.published = guard.topology.published
  generation : after.publish = guard.publish ∧ after.topology.generation = guard.topology.generation ∨
    guard.publish = false ∧ after.publish = true ∧ after.topology.generation = guard.topology.generation + 1

theorem Unseen.operates (unseen : Unseen guard after) : Operates guard after :=
  ⟨unseen.published, Or.inl ⟨unseen.publish, unseen.generation⟩⟩

theorem enablePublication_operates (guard : TopologyWriteGuard κ) : Operates guard guard.enablePublication := by
  simp only [enablePublication]
  split
  next => exact (Unseen.refl guard).operates
  next optOut => exact ⟨rfl, Or.inr ⟨Bool.eq_false_iff.mpr optOut, rfl, rfl⟩⟩

theorem Operates.trans_unseen (first : Operates guard middle) (second : Unseen middle after) : Operates guard after := by
  refine ⟨second.published.trans first.published, ?_⟩
  rw [second.publish, second.generation]
  exact first.generation

end TopologyWriteGuard

section Operations
variable [Keyed α κ] {guard after : TopologyWriteGuard κ} {heap : Heap α}
open TopologyWriteGuard

private theorem commitSplit_unseen {adopt : α → α → α} {oldNode : NodeId} {oldMax : κ} {value : α} {committed : Committed α κ}
    (success : Operation.commitSplit adopt guard heap oldNode oldMax value = some committed) : Unseen guard committed.guard := by
  have left : ∀ values : List α, Unseen guard (Operation.linkLeft (guard.remove oldMax).2 oldNode values) := by
    intro values
    simp only [Operation.linkLeft]
    split
    next => exact remove_unseen guard oldMax
    next max _ => exact (remove_unseen guard oldMax).trans (insert_unseen _ (key max) oldNode)
  simp only [Operation.commitSplit] at success
  split at success
  next =>
    split at success
    next => cases success
    next =>
      split at success
      next =>
        cases success
        exact left _
      next =>
        cases success
        exact (left _).trans (insert_unseen _ _ _)
  next => cases success

private theorem commitUpdateMax_operates {node : NodeId} {oldMax : κ}
    (success : Operation.commitUpdateMax guard heap node oldMax = some after) : Operates guard after := by
  simp only [Operation.commitUpdateMax] at success
  split at success
  next =>
    split at success
    next => cases success
    next newMax _ =>
      split at success
      next =>
        split at success
        next =>
          cases success
          exact Unseen.operates ⟨rfl, rfl, rfl⟩
        next =>
          cases success
          exact (enablePublication_operates guard).trans_unseen ((remove_unseen _ oldMax).trans (insert_unseen _ (key newMax) node))
      next =>
        cases success
        exact (Unseen.refl guard).operates
  next => cases success

theorem Session.Step.operates {before later : Session α κ} (step : Session.Step before later) :
    Operates before.guard later.guard := by
  cases step with
  | insert key node _ _ _ => exact (insert_unseen _ key node).operates
  | remove key _ => exact (remove_unseen _ key).operates
  | repair _ => exact (repairLastRouteBeforeInsert_unseen _).operates
  | insertAfterRepair key node _ _ _ => exact (insertAfterLastRouteRepair_unseen _ key node).operates
  | enablePublication _ => exact enablePublication_operates _
  | rekeyLast oldKey newKey node _ _ _ _ => exact Unseen.operates ⟨rfl, rfl, rfl⟩
  | commitSplit adopt emitCdc oldNode oldMax value _ success =>
    obtain ⟨committed, done, rfl⟩ := Option.map_eq_some_iff.mp success
    exact (commitSplit_unseen done).operates
  | commitUpdateMax adopt emitCdc node oldMax _ _ success =>
    obtain ⟨guard, done, rfl⟩ := Option.map_eq_some_iff.mp success
    exact commitUpdateMax_operates done
  | store changed _ => exact (Unseen.refl _).operates

end Operations
end WorkTablesIndex
