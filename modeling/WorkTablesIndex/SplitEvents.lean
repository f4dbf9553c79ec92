import WorkTablesIndex.Boundaries

/-! Split events under concurrency. A node is full when its split is scheduled, and
the commit asks no more of it than one value. Removals in between can leave it
with a single one, and then the event cuts it at position zero. -/

universe u v

namespace WorkTablesIndex
open SortedMap

variable {α : Type u} {κ : Type v} [LinearOrder κ] [Keyed α κ]

omit [LinearOrder κ] [Keyed α κ] in
private theorem splitRecords_assignIds (call : CallId) (population eventId : Nat) (events : List (ChangeEventUnassigned α)) :
    splitRecords (κ := κ) call population (assignIds eventId events) = events.filterMap fun
      | .splitNode _ splitIndex => some (.split call splitIndex population)
      | _ => none := by
  induction events generalizing eventId with
  | nil => rfl
  | cons event rest ih =>
    have tail := ih (eventId + 1)
    simp only [splitRecords] at tail ⊢
    cases event <;> simp [assignIds, ChangeEventUnassigned.assignId, tail]

private theorem Half.put_unsplit (values : List α) (max value : α) (maxValue : α) (splitIndex : Nat) :
    .splitNode maxValue splitIndex ∉ (Half.put noIdentityAdoption values max value).events := by
  simp only [Half.put]
  split <;> simp

private theorem halves_unsplit (values : List α) (value maxValue : α) (splitIndex : Nat) :
    .splitNode maxValue splitIndex ∉ (Operation.leftHalf values value).events ++ (Operation.rightHalf values value).events := by
  rw [List.mem_append, not_or]
  constructor
  · simp only [Operation.leftHalf, Operation.keepLeft]
    split
    next => simp [Half.untouched]
    next max _ =>
      split
      next => exact Half.put_unsplit _ max value maxValue splitIndex
      next => simp [Half.untouched]
  · simp only [Operation.rightHalf]
    split
    next => simp [Half.untouched]
    next max _ =>
      simp only [Operation.moveRight]
      split
      next => simp [Half.untouched]
      next => exact Half.put_unsplit _ max value maxValue splitIndex

/-- A commit records one split, at half the node. -/
private theorem splitRecords_commit {values : List α} (filled : values ≠ []) (call : CallId) (value : α) (set : BTreeSet α κ) :
    splitRecords (κ := κ) call values.length (BTreeSet.emit true (Operation.splitEvents values value) set).1 =
      [.split call (values.length / 2) values.length] := by
  obtain ⟨max, greatest⟩ : ∃ max, Node.max values = some max := by
    cases found : Node.max values with
    | none => exact absurd (Node.max_eq_none.mp found) filled
    | some max => exact ⟨max, rfl⟩
  have silent : ((Operation.leftHalf values value).events ++ (Operation.rightHalf values value).events).filterMap (fun
      | .splitNode _ splitIndex => some (Record.split (α := α) (κ := κ) call splitIndex values.length)
      | _ => none) = [] := by
    rw [List.filterMap_eq_nil_iff]
    intro event member
    cases event with
    | splitNode maxValue splitIndex => exact absurd member (halves_unsplit values value maxValue splitIndex)
    | _ => rfl
  have half : (Node.halve values).1.length = values.length / 2 := by
    simp only [Node.halve, List.length_take]
    omega
  simp only [BTreeSet.emit, if_true, splitRecords_assignIds, Operation.splitEvents, greatest, half, List.filterMap_cons, silent]

namespace Machine
variable {machine before after : Machine α κ} {action : Action α κ} {nodeCapacity : Nat}

/-- Every split event leaves something on both sides of the cut. -/
def SplitsProperly (machine : Machine α κ) : Prop :=
  ∀ call splitIndex population, .split call splitIndex population ∈ machine.history → 0 < splitIndex ∧ splitIndex < population

/-- A split with events that finds its entry also finds two values to cut apart. -/
def Populated (machine : Machine α κ) : Action α κ → Prop
  | .invoke .. => True
  | .advance thread => ∀ call node old value checked cdc,
      machine.threads thread = some (call, .commitSplit node old value checked true cdc) →
        (old, node) ∈ machine.set.index.index → 2 ≤ (machine.set.heap.cells node).length

private theorem section_splits {set after : BTreeSet α κ} {call : CallId} {phase : Phase α κ} {next : Option (Phase α κ)}
    {records : List (Record α κ)} (valid : set.Valid) (runs : Section set call phase after next records)
    {owner splitIndex population : Nat} (member : .split owner splitIndex population ∈ records) :
    ∃ node old value checked cdc, phase = .commitSplit node old value checked true cdc ∧ (old, node) ∈ set.index.index ∧
      population = (set.heap.cells node).length ∧ splitIndex = (set.heap.cells node).length / 2 := by
  cases runs with
  | splits linked afterValid stored filled divided committed events =>
    rename_i node old value checked emitCdc cdc _ _ _
    have present : Record.split owner splitIndex population ∈
        splitRecords (κ := κ) call (set.heap.cells node).length committed := by simpa using member
    cases emitCdc with
    | false =>
      rw [events] at present
      simp [BTreeSet.emit, splitRecords] at present
    | true =>
      have filled : set.heap.cells node ≠ [] := valid.sound.filled old node linked
      rw [events, splitRecords_commit filled] at present
      obtain ⟨rfl, rfl, rfl⟩ := Record.split.inj (List.mem_singleton.mp present)
      exact ⟨node, old, value, checked, cdc, rfl, linked, rfl, rfl⟩
  | _ => simp at member

private theorem SplitsProperly.step (sound : Sound before) (proper : SplitsProperly before) (allowed : Populated before action)
    (taken : before.step action = some after) : SplitsProperly after := by
  intro owner splitIndex population member
  rcases step_cases sound.valid taken with ⟨thread, request, _, _, rfl⟩ | ⟨thread, call, phase, rfl, running, moves⟩
  · exact proper owner splitIndex population (by simpa [move] using member)
  · obtain ⟨set, next, records, runs, rfl⟩ := moves
    rcases List.mem_append.mp member with new | earlier
    · obtain ⟨node, old, value, checked, cdc, rfl, linked, rfl, rfl⟩ := section_splits sound.valid runs new
      have many := allowed call node old value checked cdc running linked
      omega
    · exact proper owner splitIndex population earlier

/-- The step that breaks the condition emits the bad event. -/
private theorem splits_improperly (sound : Sound before) (taken : before.step action = some after)
    (broken : ¬ Populated before action) : ¬ SplitsProperly after := by
  intro proper
  apply broken
  cases action with
  | invoke thread request => trivial
  | advance thread =>
    intro call node old value checked cdc running linked
    simp only [Machine.step, running, Option.some.injEq] at taken
    obtain ⟨_, result, _⟩ := BTreeSet.commitOperation_split_some sound.valid true value linked
    have filled : before.set.heap.cells node ≠ [] := sound.valid.sound.filled old node linked
    have recorded : Record.split call ((before.set.heap.cells node).length / 2)
        (before.set.heap.cells node).length ∈ after.history := by
      rw [← taken]
      simp only [advance, result, move, splitRecords_commit filled]
      simp
    have positive := (proper _ _ _ recorded).1
    omega

/-- The split events of a run are well formed exactly when each of its split commits
finds two values in its node. -/
theorem splits_properly_iff_populated (reached : Reached Any nodeCapacity machine) :
    SplitsProperly machine ↔ Reached Populated nodeCapacity machine := by
  constructor
  · intro proper
    induction reached with
    | start => exact .start
    | step earlier action _ taken ih =>
      -- a bad event would still be in the history
      obtain ⟨records, grown⟩ := step_history taken
      have before := ih fun call splitIndex population member => proper call splitIndex population (by simp [grown, member])
      refine before.step action ?_ taken
      by_contra broken
      exact splits_improperly earlier.sound taken broken proper
  · intro permitted
    clear reached
    induction permitted with
    | start => exact fun _ _ _ member => absurd member List.not_mem_nil
    | step earlier action allowed taken ih => exact ih.step earlier.sound allowed taken

/-- A writer schedules a split of the full node `[10, 20]`; before it commits, 10 is removed. -/
def drainedSplit : List (Action Nat Nat) :=
  [.invoke 0 (.insert 20 false true), .advance 0, .advance 0, .invoke 0 (.insert 10 false true), .advance 0,
    .invoke 0 (.insert 15 false true), .advance 0, .invoke 1 (.remove 10 true), .advance 1, .advance 0]

/-- Without the removal the same split cuts the node in the middle. -/
theorem splits_properly_iff_populated_undrained : ∃ machine, (start 2).run (drainedSplit.take 7 ++ [.advance 0]) = some machine ∧
    .split 2 1 2 ∈ machine.history ∧ Reached Populated 2 machine := by
  obtain ⟨machine, ran, recorded, checked⟩ : ∃ machine, (start 2).run (drainedSplit.take 7 ++ [.advance 0]) = some machine ∧
      .split 2 1 2 ∈ machine.history ∧ (machine.history.all fun
        | .split _ splitIndex population => decide (0 < splitIndex ∧ splitIndex < population)
        | _ => true) = true := ⟨_, rfl, by decide, by decide⟩
  have proper : SplitsProperly machine := fun call splitIndex population member => by
    simpa using List.all_eq_true.mp checked _ member
  exact ⟨machine, ran, recorded, (splits_properly_iff_populated (Reached.start.run ran)).mp proper⟩

/-- The commit cuts the one remaining value off at position zero. -/
theorem splits_improperly_drained : ∃ machine, (start 2).run drainedSplit = some machine ∧ machine.Quiescent ∧
    .split 2 0 1 ∈ machine.history ∧ ¬ SplitsProperly machine := by
  obtain ⟨machine, ran, quiescent, recorded⟩ : ∃ machine, (start 2).run drainedSplit = some machine ∧ machine.Quiescent ∧
      .split 2 0 1 ∈ machine.history := ⟨_, rfl, fun | 0 => rfl | 1 => rfl | _ + 2 => rfl, by decide⟩
  exact ⟨machine, ran, quiescent, recorded, fun proper => absurd (proper 2 0 1 recorded).1 (lt_irrefl 0)⟩

end Machine
end WorkTablesIndex
