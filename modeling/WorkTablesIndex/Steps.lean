import WorkTablesIndex.Concurrent

/-! Everything one section of one thread can do, stated once. Each invariant of the
machine is then a case analysis over these few forms. -/

universe u v

namespace WorkTablesIndex
open Relation SortedMap

variable {α : Type u} {κ : Type v}

/-- The boundary repair a phase still owes. -/
def Phase.repairs : Phase α κ → Option (NodeId × κ)
  | .commitMax node old .. => some (node, old)
  | .repair node old .. => some (node, old)
  | _ => none

variable [LinearOrder κ] [Keyed α κ]

/-- The section of a phase: from the set before it to the set after it, the phase
that follows while the call goes on, and the records it leaves. -/
inductive Section (set : BTreeSet α κ) (call : CallId) :
    Phase α κ → BTreeSet α κ → Option (Phase α κ) → List (Record α κ) → Prop where
  /-- Nothing but the generation changed, and the call tries another section. -/
  | again {phase next after} (valid : after.Valid) (unchanged : after.layout = set.layout)
      (retries : (∃ value checked emitCdc, phase = .put value checked emitCdc ∧ next = .root value checked emitCdc) ∨
        (∃ value checked emitCdc, phase = .root value checked emitCdc ∧ next = .put value checked emitCdc) ∨
        (∃ node old value checked emitCdc cdc, phase = .commitSplit node old value checked emitCdc cdc ∧
          next = .put value checked emitCdc) ∨
        (∃ wanted emitCdc, phase = .remove wanted emitCdc ∧ next = .unlink wanted emitCdc) ∨
        ∃ wanted emitCdc, phase = .unlink wanted emitCdc ∧ next = .remove wanted emitCdc) :
      Section set call phase after (some next) []
  | rejected {value emitCdc} : Section set call (.put value true emitCdc) set none [.rejected call]
  | missed {phase after} (valid : after.Valid) (unchanged : after.layout = set.layout)
      (removal : ∃ wanted emitCdc, (phase = .remove wanted emitCdc ∨ phase = .unlink wanted emitCdc) ∧
        (set.layout.Routed → ∀ item, set.layout.Stored item → key item ≠ wanted)) :
      Section set call phase after none [.returned call none []]
  | schedules {value checked emitCdc entry node} (linked : (entry, node) ∈ set.index.index)
      (inside : Between set.index.index entry (key value)) :
      Section set call (.put value checked emitCdc) set (some (.commitSplit node entry value checked emitCdc [])) []
  | stores {value checked emitCdc entry node values result cdc after} (linked : (entry, node) ∈ set.index.index)
      (inside : Between set.index.index entry (key value)) (valid : after.Valid)
      (stored : Node.Upserted (set.heap.cells node) value values)
      (same : Node.maxKey values = Node.maxKey (set.heap.cells node)) (rewritten : after.layout = set.layout.rewrite node values) :
      Section set call (.put value checked emitCdc) after none [.returned call result cdc, .stored call value]
  | grows {value checked emitCdc entry node values cdc after} (linked : (entry, node) ∈ set.index.index)
      (inside : Between set.index.index entry (key value)) (valid : after.Valid)
      (stored : Node.Upserted (set.heap.cells node) value values) (rewritten : after.layout = set.layout.rewrite node values) :
      Section set call (.put value checked emitCdc) after (some (.commitMax node entry emitCdc cdc))
        [.stored call value]
  | roots {value checked emitCdc cdc after} (empty : ∀ entry, entry ∉ set.index.index) (valid : after.Valid)
      (rooted : after.layout = set.layout.root value) :
      Section set call (.root value checked emitCdc) after none [.returned call none cdc, .stored call value]
  | splits {node old value checked emitCdc cdc after left right oldValue} (linked : (old, node) ∈ set.index.index)
      (valid : after.Valid) (stored : Node.Upserted (set.heap.cells node) value (left ++ right)) (filled : right ≠ [])
      (divided : after.layout = set.layout.split node old left right)
      (committed : List (ChangeEvent α))
      (events : committed = (BTreeSet.emit emitCdc (Operation.splitEvents (set.heap.cells node) value) set).1) :
      Section set call (.commitSplit node old value checked emitCdc cdc) after none
        (.returned call oldValue (cdc ++ committed) :: .stored call value ::
          splitRecords call (set.heap.cells node).length committed)
  | rekeys {phase node old new result cdc after} (owed : phase.repairs = some (node, old))
      (linked : (old, node) ∈ set.index.index) (greatest : Node.maxKey (set.heap.cells node) = some new)
      (valid : after.Valid) (rekeyed : after.layout = set.layout.rekey node old new) :
      Section set call phase after none [.returned call result cdc]
  | waives {phase node old result cdc after} (owed : phase.repairs = some (node, old))
      (unlinked : (old, node) ∉ set.index.index) (valid : after.Valid) (unchanged : after.layout = set.layout) :
      Section set call phase after none [.returned call result cdc]
  | deletes {emitCdc entry node deleted values cdc after} (linked : (entry, node) ∈ set.index.index)
      (inside : Between set.index.index entry (key deleted)) (valid : after.Valid)
      (removed : Node.Removed (set.heap.cells node) (key deleted) values) (present : deleted ∈ set.heap.cells node)
      (same : Node.maxKey values = Node.maxKey (set.heap.cells node)) (rewritten : after.layout = set.layout.rewrite node values) :
      Section set call (.remove (key deleted) emitCdc) after none [.returned call (some deleted) cdc, .erased call deleted]
  | shrinks {emitCdc entry node deleted values cdc after} (linked : (entry, node) ∈ set.index.index)
      (inside : Between set.index.index entry (key deleted)) (valid : after.Valid)
      (removed : Node.Removed (set.heap.cells node) (key deleted) values) (present : deleted ∈ set.heap.cells node)
      (rewritten : after.layout = set.layout.rewrite node values) :
      Section set call (.remove (key deleted) emitCdc) after (some (.repair node entry deleted cdc))
        [.erased call deleted]
  | unlinks {emitCdc entry node deleted cdc after} (linked : (entry, node) ∈ set.index.index)
      (inside : Between set.index.index entry (key deleted)) (valid : after.Valid)
      (removed : Node.Removed (set.heap.cells node) (key deleted) []) (present : deleted ∈ set.heap.cells node)
      (unlinked : after.layout = set.layout.unlink node entry) :
      Section set call (.unlink (key deleted) emitCdc) after none [.returned call (some deleted) cdc, .erased call deleted]
  | sweeps {start last after} (valid : after.Valid) (trims : ReflTransGen Layout.Trim set.layout after.layout) :
      Section set call (.removeRange start last) after none [.returned call none []]

theorem section_pointwise {set after : BTreeSet α κ} {call : CallId} {phase : Phase α κ} {next : Option (Phase α κ)}
    {records : List (Record α κ)} (runs : Section set call phase after next records) (start last : Bound κ) :
    next ≠ some (.removeRange start last) := by
  cases runs with
  | again _ _ retries =>
    rcases retries with ⟨_, _, _, _, rfl⟩ | ⟨_, _, _, _, rfl⟩ | ⟨_, _, _, _, _, _, _, rfl⟩ | ⟨_, _, _, rfl⟩ | ⟨_, _, _, rfl⟩ <;> simp
  | _ => simp

namespace Machine
variable {machine : Machine α κ} {thread : ThreadId} {call : CallId}

def Moves (machine : Machine α κ) (thread : ThreadId) (call : CallId) (phase : Phase α κ) (after : Machine α κ) : Prop :=
  ∃ set next records, Section machine.set call phase set next records ∧
    after = machine.move thread (next.map fun phase => (call, phase)) set records

private theorem put_moves (valid : machine.set.Valid) (value : α) (checked emitCdc : Bool) :
    Moves machine thread call (.put value checked emitCdc) (machine.advance thread call (.put value checked emitCdc)) := by
  rcases BTreeSet.putNode_cases valid emitCdc value with ⟨_, result⟩ | ⟨entry, node, linked, inside, found⟩
  · simp only [advance, result]
    exact ⟨_, some (.root value checked emitCdc), [], .again valid rfl (Or.inl ⟨_, _, _, rfl, rfl⟩), rfl⟩
  · generalize result : BTreeSet.putNode emitCdc value machine.set = outcome at found
    have sorted : Node.Sorted (machine.set.heap.cells node) := valid.sound.sorted node
    cases found with
    | full full =>
      simp only [advance, result]
      exact ⟨_, some (.commitSplit node entry value checked emitCdc []), [], .schedules linked inside, rfl⟩
    | inner oldMax position room gap max same =>
      simp only [advance, result]
      exact ⟨_, none, _, .stores linked inside (valid.insertAt emitCdc oldMax gap) (gap.upserted sorted) same
        (BTreeSet.insertAt_layout ..), rfl⟩
    | grows oldMax position room gap max moved =>
      simp only [advance, result]
      exact ⟨_, some (.commitMax node entry emitCdc _), _, .grows linked inside (valid.insertAt emitCdc oldMax gap)
        (gap.upserted sorted) (BTreeSet.insertAt_layout ..), rfl⟩
    | occupied position old room there same =>
      cases checked with
      | true =>
        simp only [advance, result, if_true]
        exact ⟨_, none, _, .rejected, rfl⟩
      | false =>
        have stored := Node.set_upserted sorted there same
        obtain ⟨greatest, top⟩ := Node.maxKey_isSome (κ := κ) (valid.sound.filled entry node linked)
        have bound := ((Node.maxKey_eq_some sorted).mp top).2 old (List.mem_of_getElem? there)
        have kept := (stored.maxKey_of_le sorted top (same ▸ bound)).trans top.symm
        simp only [advance, result, Bool.false_eq_true, if_false]
        exact ⟨_, none, _, .stores linked inside (valid.replaceNode emitCdc there same) stored kept
          (BTreeSet.replaceNode_layout emitCdc value there), rfl⟩

private theorem root_moves (valid : machine.set.Valid) (value : α) (checked emitCdc : Bool) :
    Moves machine thread call (.root value checked emitCdc) (machine.advance thread call (.root value checked emitCdc)) := by
  rcases BTreeSet.createRoot_cases valid emitCdc value with ⟨empty, after, result, afterValid, layout, _, _⟩ | ⟨_, result⟩
  · simp only [advance, result]
    exact ⟨after, none, _, .roots empty afterValid layout, rfl⟩
  · obtain ⟨unusedValid, unchanged⟩ := BTreeSet.valid_unused valid
    simp only [advance, result]
    exact ⟨_, some (.put value checked emitCdc), [], .again unusedValid unchanged (Or.inr (Or.inl ⟨_, _, _, rfl, rfl⟩)), rfl⟩

private theorem commitSplit_moves (valid : machine.set.Valid) (node : NodeId) (old : κ) (value : α) (checked emitCdc : Bool)
    (cdc : List (ChangeEvent α)) : Moves machine thread call (.commitSplit node old value checked emitCdc cdc)
      (machine.advance thread call (.commitSplit node old value checked emitCdc cdc)) := by
  by_cases linked : (old, node) ∈ machine.set.index.index
  · obtain ⟨after, result, afterValid, layout, _, _, stored, filled, _⟩ :=
      BTreeSet.commitOperation_split_some valid emitCdc value linked
    simp only [advance, result]
    exact ⟨after, none, _, .splits linked afterValid stored filled layout _ rfl, rfl⟩
  · have result := BTreeSet.commitOperation_split_none machine.set emitCdc node old value
      (Or.inl fun found => linked (get?_eq_some.mp found))
    obtain ⟨unusedValid, unchanged⟩ := BTreeSet.valid_unused valid
    simp only [advance, result]
    exact ⟨_, some (.put value checked emitCdc), [], .again unusedValid unchanged
      (Or.inr (Or.inr (Or.inl ⟨_, _, _, _, _, _, rfl, rfl⟩))), rfl⟩

private theorem commitMax_moves (valid : machine.set.Valid) (node : NodeId) (old : κ) (emitCdc : Bool)
    (cdc : List (ChangeEvent α)) : Moves machine thread call (.commitMax node old emitCdc cdc)
      (machine.advance thread call (.commitMax node old emitCdc cdc)) := by
  by_cases linked : (old, node) ∈ machine.set.index.index
  · obtain ⟨new, greatest⟩ := Node.maxKey_isSome (κ := κ) (valid.sound.filled old node linked)
    obtain ⟨after, result, afterValid, layout, _, _⟩ := BTreeSet.commitOperation_updateMax_some valid emitCdc linked greatest
    simp only [advance, result]
    exact ⟨after, none, _, .rekeys rfl linked greatest afterValid layout, rfl⟩
  · have result := BTreeSet.commitOperation_updateMax_none machine.set emitCdc node old
      (Or.inl fun found => linked (get?_eq_some.mp found))
    obtain ⟨unusedValid, unchanged⟩ := BTreeSet.valid_unused_rekey valid
    simp only [advance, result]
    exact ⟨_, none, _, .waives rfl linked unusedValid unchanged, rfl⟩

private theorem repair_moves (valid : machine.set.Valid) (node : NodeId) (old : κ) (deleted : α)
    (cdc : List (ChangeEvent α)) : Moves machine thread call (.repair node old deleted cdc)
      (machine.advance thread call (.repair node old deleted cdc)) := by
  by_cases linked : (old, node) ∈ machine.set.index.index
  · obtain ⟨new, greatest⟩ := Node.maxKey_isSome (κ := κ) (valid.sound.filled old node linked)
    obtain ⟨after, result, afterValid, layout, _, _⟩ := BTreeSet.commitOperation_updateMax_some valid false linked greatest
    simp only [advance, result]
    exact ⟨after, none, _, .rekeys rfl linked greatest afterValid layout, rfl⟩
  · have result := BTreeSet.commitOperation_updateMax_none machine.set false node old
      (Or.inl fun found => linked (get?_eq_some.mp found))
    obtain ⟨unusedValid, unchanged⟩ := BTreeSet.valid_unused_rekey valid
    simp only [advance, result]
    exact ⟨_, none, _, .waives rfl linked unusedValid unchanged, rfl⟩

private theorem remove_moves (valid : machine.set.Valid) (wanted : κ) (emitCdc : Bool) :
    Moves machine thread call (.remove wanted emitCdc) (machine.advance thread call (.remove wanted emitCdc)) := by
  rcases BTreeSet.removeNode_cases valid emitCdc wanted with ⟨empty, result⟩ | ⟨entry, node, linked, inside, found⟩
  · simp only [advance, result]
    refine ⟨_, none, _, .missed valid rfl ⟨wanted, emitCdc, Or.inl rfl, ?_⟩, rfl⟩
    intro _ item stored
    obtain ⟨other, _, member, _⟩ := stored
    exact absurd member (empty _)
  · generalize result : BTreeSet.removeNode id emitCdc wanted machine.set = outcome at found
    have sorted : Node.Sorted (machine.set.heap.cells node) := valid.sound.sorted node
    cases found with
    | absent missing =>
      simp only [advance, result]
      refine ⟨_, none, _, .missed valid rfl ⟨wanted, emitCdc, Or.inl rfl, ?_⟩, rfl⟩
      intro routed item stored same
      exact missing item (routed.stored_here linked (same ▸ inside) stored) same
    | singleton single =>
      simp only [advance, result]
      exact ⟨_, some (.unlink wanted emitCdc), [], .again valid rfl
        (Or.inr (Or.inr (Or.inr (Or.inl ⟨_, _, rfl, rfl⟩)))), rfl⟩
    | inner deleted oldMax position many there same max kept =>
      subst same
      simp only [advance, result]
      exact ⟨_, none, _, .deletes linked inside (valid.deleteAt emitCdc deleted node oldMax position many)
        (Node.eraseIdx_removed sorted there) (List.mem_of_getElem? there) kept (BTreeSet.deleteAt_layout ..), rfl⟩
    | shrinks deleted oldMax position many there same max moved =>
      subst same
      simp only [advance, result]
      exact ⟨_, some (.repair node entry deleted _), _, .shrinks linked inside
        (valid.deleteAt emitCdc deleted node oldMax position many) (Node.eraseIdx_removed sorted there)
        (List.mem_of_getElem? there) (BTreeSet.deleteAt_layout ..), rfl⟩

private theorem unlink_moves (valid : machine.set.Valid) (wanted : κ) (emitCdc : Bool) :
    Moves machine thread call (.unlink wanted emitCdc) (machine.advance thread call (.unlink wanted emitCdc)) := by
  obtain ⟨unusedValid, unchanged⟩ := BTreeSet.valid_unused valid
  rcases BTreeSet.unlinkNode_cases valid emitCdc wanted with ⟨missing, result⟩ | ⟨entry, node, _, _, _, result⟩ |
    ⟨entry, node, deleted, after, linked, inside, only, same, result, afterValid, layout, _, _⟩
  · simp only [advance, result]
    refine ⟨_, none, _, .missed unusedValid unchanged ⟨wanted, emitCdc, Or.inr rfl, ?_⟩, rfl⟩
    exact fun routed item stored => missing item routed stored
  · simp only [advance, result]
    exact ⟨_, some (.remove wanted emitCdc), [], .again unusedValid unchanged
      (Or.inr (Or.inr (Or.inr (Or.inr ⟨_, _, rfl, rfl⟩)))), rfl⟩
  · subst same
    have removed : Node.Removed (machine.set.heap.cells node) (key deleted) [] := by
      refine ⟨List.Pairwise.nil, fun item => ?_⟩
      simp only [only, List.not_mem_nil, List.mem_singleton, false_iff, not_and, not_not]
      exact fun same => congrArg key same
    simp only [advance, result]
    exact ⟨after, none, _, .unlinks linked inside afterValid removed (by simp [only]) layout, rfl⟩

/-- One section of one thread is one of the listed forms. -/
theorem advance_moves (valid : machine.set.Valid) (phase : Phase α κ) :
    Moves machine thread call phase (machine.advance thread call phase) := by
  cases phase with
  | put value checked emitCdc => exact put_moves valid value checked emitCdc
  | root value checked emitCdc => exact root_moves valid value checked emitCdc
  | commitSplit node old value checked emitCdc cdc => exact commitSplit_moves valid node old value checked emitCdc cdc
  | commitMax node old emitCdc cdc => exact commitMax_moves valid node old emitCdc cdc
  | remove wanted emitCdc => exact remove_moves valid wanted emitCdc
  | unlink wanted emitCdc => exact unlink_moves valid wanted emitCdc
  | repair node old deleted cdc => exact repair_moves valid node old deleted cdc
  | removeRange start last =>
    obtain ⟨afterValid, trims⟩ := BTreeSet.removeRange_trims valid id start last
    exact ⟨_, none, _, .sweeps afterValid trims, rfl⟩

theorem step_cases {before after : Machine α κ} (valid : before.set.Valid) {action : Action α κ}
    (taken : before.step action = some after) :
    (∃ thread request, action = .invoke thread request ∧ before.threads thread = none ∧
      after = { before.goto thread before.calls request.phase before.set [.invoked before.calls request] with
        calls := before.calls + 1 }) ∨
    ∃ thread call phase, action = .advance thread ∧ before.threads thread = some (call, phase) ∧
      Moves before thread call phase after := by
  cases action with
  | invoke thread request =>
    simp only [step] at taken
    split at taken
    next => cases taken
    next idle =>
      cases taken
      exact Or.inl ⟨thread, request, rfl, idle, rfl⟩
  | advance thread =>
    simp only [step] at taken
    split at taken
    next => cases taken
    next call phase running =>
      cases taken
      exact Or.inr ⟨thread, call, phase, rfl, running, advance_moves valid phase⟩

end Machine
end WorkTablesIndex
