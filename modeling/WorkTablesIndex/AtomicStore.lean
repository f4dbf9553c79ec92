import WorkTablesIndex.Calls
import WorkTablesIndex.Library.Linearizability
import WorkTablesIndex.Partition

/-! The concurrent set as one sequential object: a map from keys to values. Every section of
an insertion or a removal performs its request on the map, or lets it wait, or only
answers what an earlier section performed. -/

universe u v w

namespace WorkTablesIndex
open Relation SortedMap

inductive StoreRequest (α : Type u) (κ : Type v) (Q : Type w) where
  | insert (value : α) (checked : Bool)
  | remove (wanted : κ)
  | find (wanted : Q)

/-- The value found under the key beforehand, or the refusal of a checked insertion. -/
inductive StoreAnswer (α : Type u) where
  | found (value : Option α)
  | rejected

/-- Calls of writers and of readers, each kind with its own numbers. -/
abbrev AnyCall := CallId ⊕ CallId

variable {α : Type u} {κ : Type v} {Q : Type w}

def Record.event : Record α κ → Option (CallEvent AnyCall (StoreRequest α κ Q) (StoreAnswer α))
  | .invoked call (.insert value checked _) => some (.invoke (.inl call) (.insert value checked))
  | .invoked call (.remove wanted _) => some (.invoke (.inl call) (.remove wanted))
  | .returned call result _ => some (.respond (.inl call) (.found result))
  | .rejected call => some (.respond (.inl call) .rejected)
  | _ => none

/-- The events of records, which come latest first, in chronological order. -/
def events (records : List (Record α κ)) : List (CallEvent AnyCall (StoreRequest α κ Q) (StoreAnswer α)) :=
  (records.filterMap Record.event).reverse

def Phase.request : Phase α κ → Option (StoreRequest α κ Q)
  | .put value checked _ | .root value checked _ | .commitSplit _ _ value checked _ _ => some (.insert value checked)
  | .remove wanted _ | .unlink wanted _ => some (.remove wanted)
  | _ => none

def Phase.outcome : Phase α κ → Option (StoreAnswer α)
  | .commitMax .. => some (.found none)
  | .repair _ _ deleted _ => some (.found (some deleted))
  | _ => none

variable [LinearOrder κ] [Keyed α κ]

inductive Performs (borrow : κ → Q) (contents : κ → Option α) :
    StoreRequest α κ Q → StoreAnswer α → (κ → Option α) → Prop where
  | insert (value : α) (checked : Bool) (allowed : checked = true → contents (key value) = none) :
      Performs borrow contents (.insert value checked) (.found (contents (key value)))
        (Function.update contents (key value) (some value))
  | rejects (value : α) (present : contents (key value) ≠ none) :
      Performs borrow contents (.insert value true) .rejected contents
  | remove (wanted : κ) : Performs borrow contents (.remove wanted) (.found (contents wanted)) (Function.update contents wanted none)
  | find (wanted : Q) (found : Option α)
      (truth : ∀ item, found = some item ↔ contents (key item) = some item ∧ borrow (key item) = wanted) :
      Performs borrow contents (.find wanted) (.found found) contents

def mapObject (borrow : κ → Q) : SequentialObject (κ → Option α) (StoreRequest α κ Q) (StoreAnswer α) :=
  ⟨fun _ => none, Performs borrow⟩

def contents (history : List (Record α κ)) : κ → Option α := fun wanted => latest wanted history

namespace Layout
variable {layout : Layout α κ}

theorem holds_none {wanted : κ} (missing : ∀ item, layout.Stored item → key item ≠ wanted) : layout.Holds wanted none := by
  intro item
  simp only [reduceCtorEq, false_iff, not_and]
  exact missing item

theorem holds_none_of_empty (empty : ∀ entry, entry ∉ layout.index) (wanted : κ) : layout.Holds wanted none := by
  apply holds_none
  intro item stored
  obtain ⟨entry, node, member, _⟩ := stored
  exact absurd member (empty _)

theorem Routed.holds_none (routed : Routed layout) {entry : κ} {node : NodeId} (linked : (entry, node) ∈ layout.index) {value : α}
    (inside : Between layout.index entry (key value)) {position : Nat} (gap : Node.Gap (layout.heap.cells node) value position) :
    layout.Holds (key value) none := by
  apply routed.holds linked inside
  intro item
  simp only [reduceCtorEq, false_iff]
  exact fun both => gap.absent item both.1 both.2

/-- The value at a position of the node its key routes to is the one the layout holds. -/
theorem Routed.holds_at (routed : Routed layout) (sound : Sound layout) {entry : κ} {node : NodeId}
    (linked : (entry, node) ∈ layout.index) {position : Nat} {item : α} (there : (layout.heap.cells node)[position]? = some item) :
    layout.Holds (key item) (some item) := by
  have present : item ∈ layout.heap.cells node := List.mem_of_getElem? there
  apply routed.holds linked (routed entry node linked item present)
  intro other
  constructor
  · intro same
    cases same
    exact ⟨present, rfl⟩
  · exact fun both => congrArg some ((sound.sorted node).key_unique present both.1 both.2.symm)

end Layout

section Contents
variable {history : List (Record α κ)} {layout : Layout α κ} {call : CallId} {value : α}

theorem contents_stored (call : CallId) (value : α) (history : List (Record α κ)) :
    contents (.stored call value :: history) = Function.update (contents history) (key value) (some value) := by
  funext wanted
  by_cases same : key value = wanted
  · subst same
    simp [contents, latest]
  · simp [contents, latest, same, Function.update_of_ne (Ne.symm same)]

theorem contents_erased (call : CallId) (value : α) (history : List (Record α κ)) :
    contents (.erased call value :: history) = Function.update (contents history) (key value) none := by
  funext wanted
  by_cases same : key value = wanted
  · subst same
    simp [contents, latest]
  · simp [contents, latest, same, Function.update_of_ne (Ne.symm same)]

theorem Recounts.contents_eq (recounts : Recounts history layout) {wanted : κ} {result : Option α} (holds : layout.Holds wanted result) :
    contents history wanted = result := by
  cases result with
  | none =>
    apply Option.eq_none_iff_forall_ne_some.mpr
    intro item found
    have same : key item = wanted := latest_key found
    cases (holds item).mpr ⟨(recounts item).mpr (same ▸ found), same⟩
  | some item =>
    obtain ⟨stored, same⟩ := (holds item).mp rfl
    exact same ▸ (recounts item).mp stored

omit [Keyed α κ] [LinearOrder κ] in
theorem events_append (records history : List (Record α κ)) : events (Q := Q) (records ++ history) = events history ++ events records := by
  simp [events]

omit [Keyed α κ] [LinearOrder κ] in
theorem events_split (population : Nat) (cdc : List (ChangeEvent α)) (value : α) (result : Option α) (all : List (ChangeEvent α)) :
    events (Q := Q) (.returned call result all :: .stored call value :: splitRecords (κ := κ) call population cdc) =
      [.respond (.inl call) (.found result)] := by
  have silent : (splitRecords (κ := κ) call population cdc).filterMap (Record.event (Q := Q)) = [] := by
    rw [List.filterMap_eq_nil_iff]
    intro record member
    obtain ⟨event, _, found⟩ := List.mem_filterMap.mp member
    cases event <;> cases found
    rfl
  simp only [events, List.filterMap_cons, Record.event, silent]
  rfl

end Contents

inductive Commits (borrow : κ → Q) (call : CallId) (phase : Phase α κ) (history : List (Record α κ)) :
    Option (Phase α κ) → List (Record α κ) → Prop where
  /-- The request waits for another section. -/
  | waits {later} (request : StoreRequest α κ Q) (asks : phase.request = some request) (still : later.request = some request) :
      Commits borrow call phase history (some later) []
  /-- The request is performed, and the call goes on to repair a boundary. -/
  | performs {later records} (request : StoreRequest α κ Q) (answer : StoreAnswer α) (asks : phase.request = some request)
      (owes : later.outcome = some answer)
      (performed : Performs borrow (contents history) request answer (contents (records ++ history)))
      (silent : events (Q := Q) records = []) : Commits borrow call phase history (some later) records
  /-- The request is performed and answered. -/
  | answers {records} (request : StoreRequest α κ Q) (answer : StoreAnswer α) (asks : phase.request = some request)
      (performed : Performs borrow (contents history) request answer (contents (records ++ history)))
      (answered : events (Q := Q) records = [.respond (.inl call) answer]) : Commits borrow call phase history none records
  /-- The request was performed before. -/
  | returns {records} (answer : StoreAnswer α) (owed : phase.outcome = some answer)
      (same : contents (records ++ history) = contents history)
      (answered : events (Q := Q) records = [.respond (.inl call) answer]) : Commits borrow call phase history none records

/-- A checked insertion that is about to split finds no equal key in the node. -/
def Phase.Unoccupied (set : BTreeSet α κ) : Phase α κ → Prop
  | .commitSplit node old value true _ _ => (old, node) ∈ set.index.index → ∀ item ∈ set.heap.cells node, key item ≠ key value
  | _ => True

/-- A split that finds its node still has its value routed there. -/
def Phase.OnTarget (set : BTreeSet α κ) : Phase α κ → Prop
  | .commitSplit node old value _ _ _ => (old, node) ∈ set.index.index → Between set.index.index old (key value)
  | _ => True

namespace Machine
variable {borrow : κ → Q} {machine : Machine α κ} {thread : ThreadId} {call : CallId}

def Fulfils (borrow : κ → Q) (machine : Machine α κ) (thread : ThreadId) (call : CallId) (phase : Phase α κ) (after : Machine α κ) : Prop :=
  ∃ set next records, Commits borrow call phase machine.history next records ∧
    after = machine.move thread (next.map fun phase => (call, phase)) set records

private theorem insert_answers {value : α} {result : Option α} {history records : List (Record α κ)} {layout : Layout α κ}
    {phase : Phase α κ} {checked : Bool}
    (recounts : Recounts history layout) (asks : phase.request (Q := Q) = some (.insert value checked))
    (holds : layout.Holds (key value) result) (unoccupied : checked = true → result = none)
    (stores : contents (records ++ history) = Function.update (contents history) (key value) (some value))
    (answered : events (Q := Q) records = [.respond (.inl call) (.found result)]) :
    Commits borrow call phase history none records := by
  have before := recounts.contents_eq holds
  refine .answers (.insert value checked) (.found result) asks ?_ answered
  rw [stores, ← before]
  exact .insert value checked fun checks => before.trans (unoccupied checks)

private theorem put_fulfils (valid : machine.set.Valid) (routed : machine.set.layout.Routed)
    (recounts : Recounts machine.history machine.set.layout) (value : α) (checked emitCdc : Bool) :
    Fulfils borrow machine thread call (.put value checked emitCdc) (machine.advance thread call (.put value checked emitCdc)) := by
  rcases BTreeSet.putNode_cases valid emitCdc value with ⟨_, result⟩ | ⟨entry, node, linked, inside, found⟩
  · simp only [advance, result]
    exact ⟨_, some (.root value checked emitCdc), [], .waits _ rfl rfl, rfl⟩
  · generalize result : BTreeSet.putNode emitCdc value machine.set = outcome at found
    cases found with
    | full full =>
      simp only [advance, result]
      exact ⟨_, some (.commitSplit node entry value checked emitCdc []), [], .waits _ rfl rfl, rfl⟩
    | inner oldMax position room gap max same =>
      simp only [advance, result]
      exact ⟨_, none, _, insert_answers recounts rfl (routed.holds_none linked inside gap) (fun _ => rfl) (contents_stored call value _) rfl, rfl⟩
    | grows oldMax position room gap max moved =>
      simp only [advance, result]
      have before := recounts.contents_eq (routed.holds_none linked inside gap)
      refine ⟨_, some (.commitMax node entry emitCdc _), _, .performs (.insert value checked) (.found none) rfl rfl ?_ rfl, rfl⟩
      rw [← before]
      apply (contents_stored call value machine.history).symm ▸ Performs.insert value checked fun _ => before
    | occupied position old room there same =>
      have held : machine.set.layout.Holds (key value) (some old) := same ▸ routed.holds_at valid.sound linked there
      cases checked with
      | true =>
        simp only [advance, result, if_true]
        refine ⟨_, none, _, .answers (.insert value true) .rejected rfl (.rejects value ?_) rfl, rfl⟩
        rw [recounts.contents_eq held]
        exact Option.some_ne_none old
      | false =>
        have answer : (BTreeSet.replaceNode noIdentityAdoption emitCdc value node position machine.set).1.1 = some old := by
          rw [BTreeSet.replaceNode_eq noIdentityAdoption emitCdc value there]
        simp only [advance, result, Bool.false_eq_true, if_false]
        refine ⟨_, none, _, insert_answers recounts rfl held (fun impossible => by cases impossible)
          (contents_stored call value _) ?_, rfl⟩
        rw [answer]
        rfl

private theorem root_fulfils (valid : machine.set.Valid) (recounts : Recounts machine.history machine.set.layout)
    (value : α) (checked emitCdc : Bool) :
    Fulfils borrow machine thread call (.root value checked emitCdc) (machine.advance thread call (.root value checked emitCdc)) := by
  rcases BTreeSet.createRoot_cases valid emitCdc value with ⟨empty, after, result, _⟩ | ⟨_, result⟩
  · simp only [advance, result]
    exact ⟨after, none, _, insert_answers recounts rfl (Layout.holds_none_of_empty empty _) (fun _ => rfl) (contents_stored call value _) rfl, rfl⟩
  · simp only [advance, result]
    exact ⟨_, some (.put value checked emitCdc), [], .waits _ rfl rfl, rfl⟩

private theorem commitSplit_fulfils (valid : machine.set.Valid) (routed : machine.set.layout.Routed)
    (recounts : Recounts machine.history machine.set.layout) (node : NodeId) (old : κ) (value : α) (checked emitCdc : Bool)
    (cdc : List (ChangeEvent α)) (aimed : (Phase.commitSplit node old value checked emitCdc cdc).OnTarget machine.set)
    (unoccupied : (Phase.commitSplit node old value checked emitCdc cdc).Unoccupied machine.set) :
    Fulfils borrow machine thread call (.commitSplit node old value checked emitCdc cdc)
      (machine.advance thread call (.commitSplit node old value checked emitCdc cdc)) := by
  by_cases linked : (old, node) ∈ machine.set.index.index
  · obtain ⟨after, result, _, _, _, _, _, _, found⟩ := BTreeSet.commitOperation_split_some valid emitCdc value linked
    simp only [advance, result]
    have held := routed.holds linked (aimed linked) found
    refine ⟨after, none, _, insert_answers recounts rfl held (fun checks => ?_) ?_ (events_split ..), rfl⟩
    · subst checks
      apply Option.eq_none_iff_forall_ne_some.mpr
      intro item same
      obtain ⟨there, equal⟩ := (found item).mp same
      exact unoccupied linked item there equal
    · rw [List.cons_append, List.cons_append]
      have split : contents (splitRecords call (machine.set.heap.cells node).length
          (BTreeSet.emit emitCdc (Operation.splitEvents (machine.set.heap.cells node) value) machine.set).1 ++ machine.history) =
          contents machine.history := funext fun wanted => latest_splitRecords _ _
      rw [← split]
      exact contents_stored call value _
  · have result := BTreeSet.commitOperation_split_none machine.set emitCdc node old value
      (Or.inl fun found => linked (get?_eq_some.mp found))
    simp only [advance, result]
    exact ⟨_, some (.put value checked emitCdc), [], .waits _ rfl rfl, rfl⟩

private theorem commitMax_fulfils (valid : machine.set.Valid) (node : NodeId) (old : κ) (emitCdc : Bool)
    (cdc : List (ChangeEvent α)) : Fulfils borrow machine thread call (.commitMax node old emitCdc cdc)
      (machine.advance thread call (.commitMax node old emitCdc cdc)) := by
  by_cases linked : (old, node) ∈ machine.set.index.index
  · obtain ⟨new, greatest⟩ := Node.maxKey_isSome (κ := κ) (valid.sound.filled old node linked)
    obtain ⟨after, result, _⟩ := BTreeSet.commitOperation_updateMax_some valid emitCdc linked greatest
    simp only [advance, result]
    exact ⟨after, none, _, .returns (.found none) rfl rfl rfl, rfl⟩
  · have result := BTreeSet.commitOperation_updateMax_none machine.set emitCdc node old
      (Or.inl fun found => linked (get?_eq_some.mp found))
    simp only [advance, result]
    exact ⟨_, none, _, .returns (.found none) rfl rfl rfl, rfl⟩

private theorem remove_answers {deleted : α} {history : List (Record α κ)} {layout : Layout α κ} {phase : Phase α κ}
    (recounts : Recounts history layout) (asks : phase.request (Q := Q) = some (.remove (key deleted)))
    (holds : layout.Holds (key deleted) (some deleted)) (cdc : List (ChangeEvent α)) :
    Commits borrow call phase history none [.returned call (some deleted) cdc, .erased call deleted] := by
  have before := recounts.contents_eq holds
  refine .answers (.remove (key deleted)) (.found (some deleted)) asks ?_ rfl
  rw [← before]
  exact (contents_erased call deleted history).symm ▸ Performs.remove (key deleted)

private theorem miss_answers {wanted : κ} {history : List (Record α κ)} {layout : Layout α κ} {phase : Phase α κ}
    (recounts : Recounts history layout) (asks : phase.request (Q := Q) = some (.remove wanted))
    (absent : layout.Holds wanted none) : Commits borrow call phase history none [.returned call none []] := by
  have before := recounts.contents_eq absent
  refine .answers (.remove wanted) (.found none) asks ?_ rfl
  have same : Function.update (contents history) wanted none = contents history := by
    rw [← before, Function.update_eq_self]
  have performed : Performs borrow (contents history) (.remove wanted) _ _ := .remove wanted
  rw [before, same] at performed
  exact performed

private theorem remove_fulfils (valid : machine.set.Valid) (routed : machine.set.layout.Routed)
    (recounts : Recounts machine.history machine.set.layout) (wanted : κ) (emitCdc : Bool) :
    Fulfils borrow machine thread call (.remove wanted emitCdc) (machine.advance thread call (.remove wanted emitCdc)) := by
  rcases BTreeSet.removeNode_cases valid emitCdc wanted with ⟨empty, result⟩ | ⟨entry, node, linked, inside, found⟩
  · simp only [advance, result]
    exact ⟨_, none, _, miss_answers recounts rfl (Layout.holds_none_of_empty empty wanted), rfl⟩
  · generalize result : BTreeSet.removeNode id emitCdc wanted machine.set = outcome at found
    cases found with
    | absent missing =>
      simp only [advance, result]
      refine ⟨_, none, _, miss_answers recounts rfl (Layout.holds_none ?_), rfl⟩
      intro item stored same
      exact missing item (routed.stored_here linked (same ▸ inside) stored) same
    | singleton single =>
      simp only [advance, result]
      exact ⟨_, some (.unlink wanted emitCdc), [], .waits _ rfl rfl, rfl⟩
    | inner deleted oldMax position many there same max kept =>
      subst same
      simp only [advance, result]
      exact ⟨_, none, _, remove_answers recounts rfl (routed.holds_at valid.sound linked there) _, rfl⟩
    | shrinks deleted oldMax position many there same max moved =>
      subst same
      simp only [advance, result]
      have before := recounts.contents_eq (routed.holds_at valid.sound linked there)
      refine ⟨_, some (.repair node entry deleted _), _,
        .performs (.remove (key deleted)) (.found (some deleted)) rfl rfl ?_ rfl, rfl⟩
      rw [← before]
      exact (contents_erased call deleted machine.history).symm ▸ Performs.remove (key deleted)

private theorem unlink_fulfils (valid : machine.set.Valid) (routed : machine.set.layout.Routed)
    (recounts : Recounts machine.history machine.set.layout) (wanted : κ) (emitCdc : Bool) :
    Fulfils borrow machine thread call (.unlink wanted emitCdc) (machine.advance thread call (.unlink wanted emitCdc)) := by
  rcases BTreeSet.unlinkNode_cases valid emitCdc wanted with ⟨missing, result⟩ | ⟨_, _, _, _, _, result⟩ |
    ⟨entry, node, deleted, after, linked, inside, only, same, result, _⟩
  · simp only [advance, result]
    exact ⟨_, none, _, miss_answers recounts rfl (Layout.holds_none fun item => missing item routed), rfl⟩
  · simp only [advance, result]
    exact ⟨_, some (.remove wanted emitCdc), [], .waits _ rfl rfl, rfl⟩
  · subst same
    simp only [advance, result]
    have there : (machine.set.layout.heap.cells node)[0]? = some deleted := congrArg (·[0]?) only
    exact ⟨after, none, _, remove_answers recounts rfl (routed.holds_at valid.sound linked there) _, rfl⟩

private theorem repair_fulfils (node : NodeId) (old : κ) (deleted : α) (cdc : List (ChangeEvent α)) :
    Fulfils borrow machine thread call (.repair node old deleted cdc) (machine.advance thread call (.repair node old deleted cdc)) :=
  ⟨_, none, _, .returns (.found (some deleted)) rfl rfl rfl, rfl⟩

/-- Every section of an insertion or a removal performs its request, lets it wait, or answers. -/
theorem advance_fulfils (valid : machine.set.Valid) (routed : machine.set.layout.Routed)
    (recounts : Recounts machine.history machine.set.layout) (phase : Phase α κ) (pointwise : ∀ start last, phase ≠ .removeRange start last)
    (onTarget : phase.OnTarget machine.set) (unoccupied : phase.Unoccupied machine.set) :
    Fulfils borrow machine thread call phase (machine.advance thread call phase) := by
  cases phase with
  | put value checked emitCdc => exact put_fulfils valid routed recounts value checked emitCdc
  | root value checked emitCdc => exact root_fulfils valid recounts value checked emitCdc
  | commitSplit node old value checked emitCdc cdc =>
    exact commitSplit_fulfils valid routed recounts node old value checked emitCdc cdc onTarget unoccupied
  | commitMax node old emitCdc cdc => exact commitMax_fulfils valid node old emitCdc cdc
  | remove wanted emitCdc => exact remove_fulfils valid routed recounts wanted emitCdc
  | unlink wanted emitCdc => exact unlink_fulfils valid routed recounts wanted emitCdc
  | repair node old deleted cdc => exact repair_fulfils node old deleted cdc
  | removeRange start last => exact absurd rfl (pointwise start last)

end Machine
end WorkTablesIndex
