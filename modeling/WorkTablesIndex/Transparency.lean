import WorkTablesIndex.Concurrent

/-! Capturing change events is an observation. A call that captures runs the sections of one that
does not, with the event counter and the events beside them; whatever the schedule, the set, the
other calls and every result come out the same. -/

universe u v

namespace WorkTablesIndex

variable {α : Type u} {κ : Type v}

def PutStep.silent : PutStep α κ → PutStep α κ
  | .vacant => .vacant
  | .stored _ => .stored []
  | .occupied node position => .occupied node position
  | .scheduled operation _ => .scheduled operation []

def RemoveStep.silent : RemoveStep α κ → RemoveStep α κ
  | .absent => .absent
  | .singleton => .singleton
  | .removed deleted _ => .removed deleted []
  | .repair deleted _ node oldMax => .repair deleted [] node oldMax

def UnlinkStep.silent : UnlinkStep α → UnlinkStep α
  | .absent => .absent
  | .retry => .retry
  | .removed deleted _ => .removed deleted []

def Request.silent : Request α κ → Request α κ
  | .insert value checked _ => .insert value checked false
  | .remove wanted _ => .remove wanted false
  | .removeRange start last => .removeRange start last

def Phase.silent : Phase α κ → Phase α κ
  | .put value checked _ => .put value checked false
  | .root value checked _ => .root value checked false
  | .commitSplit node oldMax value checked _ _ => .commitSplit node oldMax value checked false []
  | .commitMax node oldMax _ _ => .commitMax node oldMax false []
  | .remove wanted _ => .remove wanted false
  | .unlink wanted _ => .unlink wanted false
  | .repair node oldMax deleted _ => .repair node oldMax deleted []
  | .removeRange start last => .removeRange start last

/-- The record without its events. That a split was captured is itself one of them. -/
def Record.silent : Record α κ → Option (Record α κ)
  | .invoked call request => some (.invoked call request.silent)
  | .stored call value => some (.stored call value)
  | .erased call value => some (.erased call value)
  | .split .. => none
  | .returned call result _ => some (.returned call result [])
  | .rejected call => some (.rejected call)

def Action.silent : Action α κ → Action α κ
  | .invoke thread request => .invoke thread request.silent
  | .advance thread => .advance thread

variable [LinearOrder κ]

def BTreeSet.silent (set : BTreeSet α κ) : BTreeSet α κ := { set with eventId := 0 }

def Machine.silent (machine : Machine α κ) : Machine α κ where
  set := machine.set.silent
  threads thread := (machine.threads thread).map fun (call, phase) => (call, phase.silent)
  calls := machine.calls
  history := machine.history.filterMap Record.silent

namespace BTreeSet
variable [Keyed α κ]

theorem putNode_uncaptured (emitCdc : Bool) (value : α) (set : BTreeSet α κ) :
    putNode false value set.silent = Prod.map PutStep.silent silent (putNode emitCdc value set) := by
  obtain ⟨index, heap, nodeCapacity, borrowOrderMatches, eventId⟩ := set
  change putNode false value ⟨index, heap, nodeCapacity, borrowOrderMatches, 0⟩ = _
  simp only [putNode]
  cases route id index.index (key value) with
  | none => rfl
  | some entry =>
    dsimp only
    split_ifs <;> cases emitCdc <;> rfl

theorem createRoot_uncaptured (emitCdc : Bool) (value : α) (set : BTreeSet α κ) :
    createRoot false value set.silent = Prod.map (Option.map fun _ => []) silent (createRoot emitCdc value set) := by
  obtain ⟨index, heap, nodeCapacity, borrowOrderMatches, eventId⟩ := set
  change createRoot false value ⟨index, heap, nodeCapacity, borrowOrderMatches, 0⟩ = _
  simp only [createRoot]
  split_ifs <;> cases emitCdc <;> rfl

def uncaptured (answer : Option (Option α × List (ChangeEvent α))) : Option (Option α × List (ChangeEvent α)) :=
  answer.map fun committed => (committed.1, [])

theorem commitOperation_uncaptured (emitCdc : Bool) (operation : Operation α κ) (set : BTreeSet α κ) :
    commitOperation noIdentityAdoption false operation set.silent =
      Prod.map uncaptured silent (commitOperation noIdentityAdoption emitCdc operation set) := by
  obtain ⟨index, heap, nodeCapacity, borrowOrderMatches, eventId⟩ := set
  cases operation with
  | split oldNode oldMax value =>
    simp only [commitOperation, Operation.commit, silent]
    cases Operation.commitSplit noIdentityAdoption index.write heap oldNode oldMax value with
    | none => rfl
    | some committed => cases emitCdc <;> rfl
  | updateMax node oldMax =>
    simp only [commitOperation, Operation.commit, silent]
    cases Operation.commitUpdateMax index.writeRekey heap node oldMax with
    | none => rfl
    | some guard => cases emitCdc <;> rfl

omit [Keyed α κ] in
theorem replaceNode_uncaptured (emitCdc : Bool) (value : α) (node : NodeId) (position : Nat) (set : BTreeSet α κ) :
    replaceNode noIdentityAdoption false value node position set.silent =
      Prod.map (fun replaced => (replaced.1, [])) silent
        (replaceNode noIdentityAdoption emitCdc value node position set) := by
  obtain ⟨index, heap, nodeCapacity, borrowOrderMatches, eventId⟩ := set
  simp only [replaceNode, silent]
  cases Node.getIth (heap.cells node) position with
  | none => rfl
  | some oldValue => cases emitCdc <;> rfl

theorem removeNode_uncaptured (emitCdc : Bool) (wanted : κ) (set : BTreeSet α κ) :
    removeNode id false wanted set.silent = Prod.map RemoveStep.silent silent (removeNode id emitCdc wanted set) := by
  obtain ⟨index, heap, nodeCapacity, borrowOrderMatches, eventId⟩ := set
  change removeNode id false wanted ⟨index, heap, nodeCapacity, borrowOrderMatches, 0⟩ = _
  simp only [removeNode]
  cases route id index.index wanted with
  | none => rfl
  | some entry =>
    dsimp only
    cases Node.delete id (heap.cells entry.2) wanted with
    | none => split_ifs <;> rfl
    | some deletion =>
      dsimp only
      split_ifs <;> cases emitCdc <;> rfl

theorem unlinkNode_uncaptured (emitCdc : Bool) (wanted : κ) (set : BTreeSet α κ) :
    unlinkNode id false wanted set.silent = Prod.map UnlinkStep.silent silent (unlinkNode id emitCdc wanted set) := by
  obtain ⟨index, heap, nodeCapacity, borrowOrderMatches, eventId⟩ := set
  change unlinkNode id false wanted ⟨index, heap, nodeCapacity, borrowOrderMatches, 0⟩ = _
  simp only [unlinkNode]
  cases route id index.write.index wanted with
  | none => rfl
  | some entry =>
    dsimp only
    cases Node.delete id (heap.cells entry.2) wanted with
    | none => split_ifs <;> rfl
    | some deletion =>
      dsimp only
      split_ifs <;> cases emitCdc <;> rfl

theorem removeRange_uncaptured (start last : Bound κ) (set : BTreeSet α κ) :
    removeRange id start last set.silent = (removeRange id start last set).silent := by
  obtain ⟨index, heap, nodeCapacity, borrowOrderMatches, eventId⟩ := set
  change removeRange id start last ⟨index, heap, nodeCapacity, borrowOrderMatches, 0⟩ = _
  simp only [removeRange]
  cases firstForBorrowedBound id index.write.index start with
  | none => rfl
  | some front =>
    dsimp only
    cases last with
    | unbounded =>
      dsimp only
      cases index.write.index.last? with
      | none => rfl
      | some back =>
        dsimp only
        split_ifs <;> rfl
    | included value =>
      dsimp only
      cases nodeForBorrowedEnd id index.write.index value borrowOrderMatches with
      | none => rfl
      | some back =>
        dsimp only
        split_ifs <;> rfl
    | excluded value =>
      dsimp only
      cases nodeForBorrowedEnd id index.write.index value borrowOrderMatches with
      | none => rfl
      | some back =>
        dsimp only
        split_ifs <;> rfl

end BTreeSet

namespace Machine
omit [LinearOrder κ] in
/-- Records of a captured split leave no trace. -/
private theorem silent_splitRecords (call : CallId) (population : Nat) (cdc : List (ChangeEvent α)) :
    (splitRecords call population cdc : List (Record α κ)).filterMap Record.silent = [] := by
  induction cdc with
  | nil => rfl
  | cons event rest ih => cases event <;> exact ih

private theorem move_silent (machine : Machine α κ) (thread : ThreadId) (next : Option (CallId × Phase α κ))
    (set : BTreeSet α κ) (records : List (Record α κ)) :
    machine.silent.move thread (next.map fun (call, phase) => (call, phase.silent)) set.silent
        (records.filterMap Record.silent) = (machine.move thread next set records).silent := by
  simp only [silent, move, List.filterMap_append, mk.injEq, true_and, and_true]
  funext other
  rcases eq_or_ne other thread with rfl | apart
  · simp
  · simp [Function.update_of_ne apart]

private theorem goto_silent (machine : Machine α κ) (thread : ThreadId) (call : CallId) (phase : Phase α κ)
    (set : BTreeSet α κ) (records : List (Record α κ)) :
    machine.silent.goto thread call phase.silent set.silent (records.filterMap Record.silent) =
      (machine.goto thread call phase set records).silent :=
  move_silent machine thread (some (call, phase)) set records

private theorem exit_silent (machine : Machine α κ) (thread : ThreadId) (set : BTreeSet α κ)
    (records : List (Record α κ)) :
    machine.silent.exit thread set.silent (records.filterMap Record.silent) = (machine.exit thread set records).silent :=
  move_silent machine thread none set records

variable [Keyed α κ]

theorem advance_silent (machine : Machine α κ) (thread : ThreadId) (call : CallId) (phase : Phase α κ) :
    machine.silent.advance thread call phase.silent = (machine.advance thread call phase).silent := by
  have here : machine.silent.set = machine.set.silent := rfl
  cases phase with
  | put value checked emitCdc =>
    simp only [advance, Phase.silent, here, BTreeSet.putNode_uncaptured emitCdc]
    rcases BTreeSet.putNode emitCdc value machine.set with ⟨step, set⟩
    cases step with
    | vacant => exact goto_silent machine thread call (.root value checked emitCdc) set []
    | stored cdc => exact exit_silent machine thread set [.returned call none cdc, .stored call value]
    | occupied node position =>
      simp only [Prod.map, PutStep.silent, BTreeSet.replaceNode_uncaptured emitCdc]
      cases checked with
      | true => exact exit_silent machine thread set [.rejected call]
      | false =>
        rcases BTreeSet.replaceNode noIdentityAdoption emitCdc value node position set with ⟨result, set⟩
        exact exit_silent machine thread set [.returned call result.1 result.2, .stored call value]
    | scheduled operation cdc =>
      cases operation with
      | split node oldMax value =>
        exact goto_silent machine thread call (.commitSplit node oldMax value checked emitCdc cdc) set []
      | updateMax node oldMax =>
        exact goto_silent machine thread call (.commitMax node oldMax emitCdc cdc) set [.stored call value]
  | root value checked emitCdc =>
    simp only [advance, Phase.silent, here, BTreeSet.createRoot_uncaptured emitCdc]
    rcases BTreeSet.createRoot emitCdc value machine.set with ⟨created, set⟩
    cases created with
    | some cdc => exact exit_silent machine thread set [.returned call none cdc, .stored call value]
    | none => exact goto_silent machine thread call (.put value checked emitCdc) set []
  | commitSplit node oldMax value checked emitCdc cdc =>
    simp only [advance, Phase.silent, here, BTreeSet.commitOperation_uncaptured emitCdc]
    rcases BTreeSet.commitOperation noIdentityAdoption emitCdc (.split node oldMax value) machine.set with ⟨answer, set⟩
    cases answer with
    | some committed =>
      have moved := exit_silent machine thread set (.returned call committed.1 (cdc ++ committed.2) :: .stored call value ::
        splitRecords call (machine.set.heap.cells node).length committed.2)
      simp only [List.filterMap_cons, Record.silent, silent_splitRecords] at moved
      exact moved
    | none => exact goto_silent machine thread call (.put value checked emitCdc) set []
  | commitMax node oldMax emitCdc cdc =>
    simp only [advance, Phase.silent, here, BTreeSet.commitOperation_uncaptured emitCdc]
    rcases BTreeSet.commitOperation noIdentityAdoption emitCdc (.updateMax node oldMax) machine.set with ⟨answer, set⟩
    cases answer with
    | some committed => exact exit_silent machine thread set [.returned call committed.1 (cdc ++ committed.2)]
    | none => exact exit_silent machine thread set [.returned call none cdc]
  | remove wanted emitCdc =>
    simp only [advance, Phase.silent, here, BTreeSet.removeNode_uncaptured emitCdc]
    rcases BTreeSet.removeNode id emitCdc wanted machine.set with ⟨step, set⟩
    cases step with
    | absent => exact exit_silent machine thread set [.returned call none []]
    | singleton => exact goto_silent machine thread call (.unlink wanted emitCdc) set []
    | removed deleted cdc => exact exit_silent machine thread set [.returned call (some deleted) cdc, .erased call deleted]
    | repair deleted cdc node oldMax =>
      exact goto_silent machine thread call (.repair node oldMax deleted cdc) set [.erased call deleted]
  | unlink wanted emitCdc =>
    simp only [advance, Phase.silent, here, BTreeSet.unlinkNode_uncaptured emitCdc]
    rcases BTreeSet.unlinkNode id emitCdc wanted machine.set with ⟨step, set⟩
    cases step with
    | absent => exact exit_silent machine thread set [.returned call none []]
    | retry => exact goto_silent machine thread call (.remove wanted emitCdc) set []
    | removed deleted cdc => exact exit_silent machine thread set [.returned call (some deleted) cdc, .erased call deleted]
  | repair node oldMax deleted cdc =>
    simp only [advance, Phase.silent, here, BTreeSet.commitOperation_uncaptured false]
    exact exit_silent machine thread
      (BTreeSet.commitOperation noIdentityAdoption false (.updateMax node oldMax) machine.set).2
      [.returned call (some deleted) cdc]
  | removeRange start last =>
    simp only [advance, Phase.silent, here, BTreeSet.removeRange_uncaptured]
    exact exit_silent machine thread (BTreeSet.removeRange id start last machine.set) [.returned call none []]

theorem step_silent (machine : Machine α κ) (action : Action α κ) :
    machine.silent.step action.silent = (machine.step action).map silent := by
  cases action with
  | invoke thread request =>
    have waiting : machine.silent.threads thread = (machine.threads thread).map fun (call, phase) => (call, phase.silent) := rfl
    have begun : request.silent.phase = (request.phase : Phase α κ).silent := by cases request <;> rfl
    simp only [step, Action.silent, waiting]
    cases machine.threads thread with
    | some busy => rfl
    | none =>
      have moved := goto_silent machine thread machine.calls request.phase machine.set [.invoked machine.calls request]
      rw [← begun] at moved
      exact congrArg (fun moved : Machine α κ => some { moved with calls := machine.calls + 1 }) moved
  | advance thread =>
    have waiting : machine.silent.threads thread = (machine.threads thread).map fun (call, phase) => (call, phase.silent) := rfl
    simp only [step, Action.silent, waiting]
    cases machine.threads thread with
    | none => rfl
    | some busy => exact congrArg some (advance_silent machine thread busy.1 busy.2)

/-- Whatever is captured, and by whichever calls, a schedule runs as it does when nothing is: it can
take the same steps, and leaves the same index, nodes, threads and results. -/
theorem capture_transparent (machine : Machine α κ) (schedule : List (Action α κ)) :
    machine.silent.run (schedule.map Action.silent) = (machine.run schedule).map silent := by
  induction schedule generalizing machine with
  | nil => rfl
  | cons action rest ih =>
    change (machine.silent.step action.silent).bind _ = Option.map silent ((machine.step action).bind _)
    rw [step_silent]
    cases machine.step action with
    | none => rfl
    | some after => exact ih after

end Machine
end WorkTablesIndex
