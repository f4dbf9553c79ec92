import Mathlib.Data.List.Nodup
import WorkTablesIndex.DrawingLaws

/-! Event numbers over whole runs. A call emits in one section only, and that section
keeps other changes away from its node until its last number is drawn. Hence the numbers
of returned events leave no gap, ascend within each call, and follow the order in which
calls mutated a node. -/

universe u v

namespace WorkTablesIndex

variable {α : Type u} {κ : Type v}

def Exit.Idle : Exit α κ → Prop
  | .again _ | .rejected => True
  | _ => False

def Phase.Mute : Phase α κ → Prop
  | .put _ _ emitCdc | .root _ _ emitCdc | .remove _ emitCdc | .unlink _ emitCdc => emitCdc = false
  | .commitSplit _ _ _ _ emitCdc cdc | .commitMax _ _ emitCdc cdc => emitCdc = false ∧ cdc = []
  | .repair _ _ _ cdc => cdc = []
  | .removeRange .. => True

def Exit.Mute : Exit α κ → Prop
  | .again next => next.Mute
  | .grown _ _ emitCdc => emitCdc = false
  | _ => True

def Request.emitsCdc : Request α κ → Bool
  | .insert _ _ emitCdc => emitCdc
  | .remove _ emitCdc => emitCdc
  | .removeRange .. => false

theorem Request.mute {request : Request α κ} (silent : request.emitsCdc = false) : request.phase.Mute := by
  cases request with
  | insert value checked emitCdc => exact silent
  | remove wanted emitCdc => exact silent
  | removeRange first last => trivial

theorem Request.phase_live (request : Request α κ) : request.phase.repairs = none ∧ request.phase.cdc = [] := by
  cases request <;> exact ⟨rfl, rfl⟩

theorem Phase.Mute.cdc {phase : Phase α κ} (mute : phase.Mute) : phase.cdc = [] := by
  cases phase with
  | commitSplit node oldMax value checked emitCdc cdc => exact mute.2
  | commitMax node oldMax emitCdc cdc => exact mute.2
  | repair node oldMax deleted cdc => exact mute
  | _ => rfl

theorem Exit.Mute.next {exit : Exit α κ} (mute : exit.Mute) {phase : Phase α κ} (follows : exit.next [] = some phase) :
    phase.Mute := by
  cases exit with
  | again next => cases follows; exact mute
  | grown node oldMax emitCdc => cases follows; exact ⟨mute, rfl⟩
  | shrunk node oldMax deleted => cases follows; exact rfl
  | returned result => cases follows
  | rejected => cases follows

def Record.Inner : Record α κ → Prop
  | .stored .. | .erased .. | .split .. => True
  | _ => False

def returns (history : List (Record α κ)) : List (CallId × List (ChangeEvent α)) :=
  history.filterMap fun
    | .returned call _ cdc => some (call, cdc)
    | _ => none

theorem returns_append (first second : List (Record α κ)) : returns (first ++ second) = returns first ++ returns second :=
  List.filterMap_append

theorem returns_inner {records : List (Record α κ)} (inner : ∀ record ∈ records, record.Inner) : returns records = [] := by
  apply List.filterMap_eq_nil_iff.mpr
  intro record member
  have kind := inner record member
  cases record with
  | returned call result cdc => exact kind.elim
  | _ => rfl

theorem invoked_inner {records : List (Record α κ)} (inner : ∀ record ∈ records, record.Inner) (call : CallId)
    (request : Request α κ) : .invoked call request ∉ records := fun member => inner _ member

theorem splitRecords_inner (call : CallId) (population : Nat) (cdc : List (ChangeEvent α)) :
    ∀ record ∈ (splitRecords call population cdc : List (Record α κ)), record.Inner := by
  intro record member
  obtain ⟨event, -, made⟩ := List.mem_filterMap.mp member
  cases event with
  | splitNode eventId maxValue splitIndex => cases made; trivial
  | _ => cases made

variable [LinearOrder κ] [Keyed α κ]

/-- What one section can do, as far as numbers are concerned. -/
structure Critical.Shape (phase : Phase α κ) (entered : Critical α κ) : Prop where
  /-- A section after which the call starts over has neither changed nor emitted anything. -/
  idle : entered.exit.Idle → entered.mutated = [] ∧ entered.events = [] ∧ entered.carried = []
  again : ∀ next, entered.exit = .again next → next.repairs = none ∧ next.cdc = []
  /-- A boundary repair neither changes a node nor emits. -/
  late : phase.repairs ≠ none → entered.mutated = [] ∧ entered.events = [] ∧ ¬entered.exit.Idle
  carried : (phase.repairs = none → phase.cdc = []) → entered.carried = phase.cdc
  mute : phase.Mute → entered.events = [] ∧ entered.exit.Mute
  noted : ∀ record ∈ entered.noted, record.Inner

namespace Critical.Shape
variable {phase : Phase α κ} {set : BTreeSet α κ} {place : Place}

omit [Keyed α κ] in
private theorem retries (live : phase.repairs = none) {next : Phase α κ} (fresh : next.repairs = none ∧ next.cdc = [])
    (silent : phase.Mute → next.Mute) : Shape phase (.quiet place set [] (.again next)) where
  idle _ := ⟨rfl, rfl, rfl⟩
  again other same := by cases same; exact fresh
  late impossible := absurd live impossible
  carried empty := (empty live).symm
  mute mute := ⟨rfl, silent mute⟩
  noted _ member := by cases member

omit [Keyed α κ] in
private theorem ends (live : phase.repairs = none) {exit : Exit α κ} (stops : ∀ cdc, exit.next cdc = none) :
    Shape phase (.quiet place set [] exit) where
  idle _ := ⟨rfl, rfl, rfl⟩
  again next same := by
    cases same
    cases stops []
  late impossible := absurd live impossible
  carried empty := (empty live).symm
  mute _ := by
    refine ⟨rfl, ?_⟩
    cases exit with
    | returned result => trivial
    | rejected => trivial
    | _ => cases stops []
  noted _ member := by cases member

omit [Keyed α κ] in
private theorem settles {result : Option α} :
    Shape phase (.quiet place set phase.cdc (.returned result)) where
  idle impossible := impossible.elim
  again next same := by cases same
  late _ := ⟨rfl, rfl, id⟩
  carried _ := rfl
  mute _ := ⟨rfl, trivial⟩
  noted _ member := by cases member

omit [Keyed α κ] in
private theorem emits (live : phase.repairs = none) {emitCdc : Bool} {before after : Id} {cdc : List (ChangeEvent α)}
    (numbered : Numbered emitCdc before after cdc) {mutated : List NodeId} {noted : List (Record α κ)} {exit : Exit α κ}
    (done : ¬exit.Idle) (inner : ∀ record ∈ noted, record.Inner) (silent : phase.Mute → emitCdc = false ∧ exit.Mute) :
    Shape phase ⟨set, place, mutated, cdc.map ChangeEvent.unassign, phase.cdc, noted, exit⟩ where
  idle impossible := absurd impossible done
  again next same := by
    cases same
    exact absurd trivial done
  late impossible := absurd live impossible
  carried _ := rfl
  mute mute := by
    obtain ⟨quiet, exits⟩ := silent mute
    exact ⟨by simp only [numbered.mute quiet, List.map_nil], exits⟩
  noted := inner

end Critical.Shape

namespace BTreeSet
open Critical.Shape

omit [LinearOrder κ] [Keyed α κ] in
private theorem single {record : Record α κ} (inner : record.Inner) : ∀ other ∈ [record], other.Inner := by
  intro other member
  rw [List.mem_singleton.mp member]
  exact inner

theorem commitOperation_silent {emitCdc : Bool} {node : NodeId} {oldMax : κ} {set after : BTreeSet α κ}
    {outcome : Option α × List (ChangeEvent α)}
    (committed : commitOperation noIdentityAdoption emitCdc (.updateMax node oldMax) set = (some outcome, after)) :
    outcome.2 = [] := by
  simp only [commitOperation, Operation.commit] at committed
  split at committed
  next => cases committed
  next changed found =>
    obtain ⟨guard, -, rfl⟩ := Option.map_eq_some_iff.mp found
    simp only [emit_nil, Prod.mk.injEq, Option.some.injEq] at committed
    rw [← committed.1]

theorem critical_shape (call : CallId) (set : BTreeSet α κ) (phase : Phase α κ) : (set.critical call phase).Shape phase := by
  cases phase with
  | put value checked emitCdc =>
    have numbered := putNode_numbered emitCdc value set
    rcases result : putNode emitCdc value set with ⟨step, after⟩
    rw [result] at numbered
    simp only [critical, result]
    cases step with
    | vacant => exact retries rfl ⟨rfl, rfl⟩ id
    | stored cdc => exact emits rfl numbered id (single trivial) fun mute => ⟨mute, trivial⟩
    | occupied node position =>
      cases checked with
      | true => exact ends rfl fun _ => rfl
      | false =>
        have replaced := replaceNode_numbered emitCdc value node position after
        exact emits rfl replaced id (single trivial) fun mute => ⟨mute, trivial⟩
    | scheduled operation cdc =>
      cases operation with
      | split node oldMax item =>
        obtain ⟨rfl, rfl⟩ := putNode_split result
        exact retries rfl ⟨rfl, rfl⟩ fun mute => ⟨mute, rfl⟩
      | updateMax node oldMax => exact emits rfl numbered id (single trivial) fun mute => ⟨mute, mute⟩
  | root value checked emitCdc =>
    have numbered := createRoot_numbered emitCdc value set
    rcases result : createRoot emitCdc value set with ⟨created, after⟩
    rw [result] at numbered
    simp only [critical, result]
    cases created with
    | none => exact retries rfl ⟨rfl, rfl⟩ id
    | some cdc => exact emits rfl numbered id (single trivial) fun mute => ⟨mute, trivial⟩
  | commitSplit node oldMax value checked emitCdc cdc =>
    have numbered := commitOperation_numbered emitCdc (.split node oldMax value) set
    rcases result : commitOperation noIdentityAdoption emitCdc (.split node oldMax value) set with ⟨committed, after⟩
    rw [result] at numbered
    simp only [critical, result]
    cases committed with
    | none => exact retries rfl ⟨rfl, rfl⟩ And.left
    | some outcome =>
      have inner := splitRecords_inner (κ := κ) call (set.heap.cells node).length outcome.2
      exact emits rfl numbered id (by simpa [Record.Inner] using inner) fun mute => ⟨mute.1, trivial⟩
  | commitMax node oldMax emitCdc cdc =>
    rcases result : commitOperation noIdentityAdoption emitCdc (.updateMax node oldMax) set with ⟨committed, after⟩
    simp only [critical, result]
    cases committed with
    | none => exact settles
    | some outcome =>
      simp only [commitOperation_silent result, List.map_nil]
      exact settles
  | remove wanted emitCdc =>
    have numbered := removeNode_numbered emitCdc wanted set
    rcases result : removeNode id emitCdc wanted set with ⟨step, after⟩
    rw [result] at numbered
    simp only [critical, result]
    cases step with
    | absent => exact ends rfl fun _ => rfl
    | singleton => exact retries rfl ⟨rfl, rfl⟩ id
    | removed deleted cdc => exact emits rfl numbered id (single trivial) fun mute => ⟨mute, trivial⟩
    | repair deleted cdc node oldMax => exact emits rfl numbered id (single trivial) fun mute => ⟨mute, trivial⟩
  | unlink wanted emitCdc =>
    have numbered := unlinkNode_numbered emitCdc wanted set
    rcases result : unlinkNode id emitCdc wanted set with ⟨step, after⟩
    rw [result] at numbered
    simp only [critical, result]
    cases step with
    | absent => exact ends rfl fun _ => rfl
    | retry => exact retries rfl ⟨rfl, rfl⟩ id
    | removed deleted cdc => exact emits rfl numbered id (single trivial) fun mute => ⟨mute, trivial⟩
  | repair node oldMax deleted cdc => exact settles
  | removeRange first last => exact emits rfl (.nil false set.eventId) id (fun _ member => by cases member) fun _ => ⟨rfl, trivial⟩

end BTreeSet

namespace Standing

def cdc : Standing α κ → List (ChangeEvent α)
  | .outside phase => phase.cdc
  | .inside _ drawn _ => drawn

def Early : Standing α κ → Prop
  | .outside phase => phase.repairs = none ∧ phase.cdc = []
  | .inside pending drawn exit => exit.Idle ∧ pending = [] ∧ drawn = [] ∧
    ∀ next, exit = .again next → next.repairs = none ∧ next.cdc = []

def Late : Standing α κ → Prop
  | .outside phase => phase.repairs ≠ none
  | .inside _ _ exit => ¬exit.Idle

def Done : Standing α κ → Prop
  | .outside phase => phase.repairs ≠ none
  | .inside pending _ exit => pending = [] ∧ ¬exit.Idle

def Mute : Standing α κ → Prop
  | .outside phase => phase.Mute
  | .inside pending drawn exit => pending = [] ∧ drawn = [] ∧ exit.Mute

end Standing

namespace CdcMachine
variable {machine before after : CdcMachine α κ} {thread : ThreadId} {call : CallId} {standing : Standing α κ}

/-- What holds of a call that has not ended. -/
structure Running (machine : CdcMachine α κ) (call : CallId) (standing : Standing α κ) : Prop where
  known : call < machine.calls
  unreturned : ∀ cdc, (call, cdc) ∉ returns machine.history
  ids : standing.cdc.map ChangeEvent.id = machine.draws.idxsOf call
  stage : (standing.Early ∧ ∀ node, (call, node) ∉ machine.log) ∨ standing.Late
  guarded : ∀ event pending drawn exit, standing = .inside (event :: pending) drawn exit → ∃ hold ∈ machine.holds,
    hold.call = call ∧ (hold.place = .write ∨ ∀ node, (call, node) ∈ machine.log → node ∈ hold.nodes)

/-- A call that mutated a node before another one has smaller numbers, and draws no more. -/
def Precedes (machine : CdcMachine α κ) (earlier later : CallId × NodeId) : Prop :=
  earlier.2 = later.2 → earlier.1 ≠ later.1 →
    (∀ first ∈ machine.draws.idxsOf earlier.1, ∀ second ∈ machine.draws.idxsOf later.1, first < second) ∧
    ∀ thread standing, machine.threads thread = some (earlier.1, standing) → standing.Done

structure Counted (machine : CdcMachine α κ) : Prop where
  counter : machine.set.eventId = machine.draws.length
  running : ∀ thread call standing, machine.threads thread = some (call, standing) → Running machine call standing
  alone : ∀ first second call left right, machine.threads first = some (call, left) →
    machine.threads second = some (call, right) → first = second
  returned : ∀ entry ∈ returns machine.history, entry.1 < machine.calls ∧
    entry.2.map ChangeEvent.id = machine.draws.idxsOf entry.1
  once : (returns machine.history).Pairwise fun first second => first.1 ≠ second.1
  drawn : ∀ call ∈ machine.draws, (∃ thread standing, machine.threads thread = some (call, standing)) ∨
    ∃ cdc, (call, cdc) ∈ returns machine.history
  logged : ∀ entry ∈ machine.log, entry.1 < machine.calls
  ordered : machine.log.Pairwise (Precedes machine)
  invoked : ∀ call request, .invoked call request ∈ machine.history → call < machine.calls
  mute : ∀ call request, .invoked call request ∈ machine.history → request.emitsCdc = false → call ∉ machine.draws ∧
    ∀ thread standing, machine.threads thread = some (call, standing) → standing.Mute

omit [Keyed α κ] in
theorem counted_start (nodeCapacity : Nat) : Counted (start nodeCapacity : CdcMachine α κ) where
  counter := rfl
  running _ _ _ impossible := by cases impossible
  alone _ _ _ _ _ impossible := by cases impossible
  returned _ member := by cases member
  once := .nil
  drawn _ member := by cases member
  logged _ member := by cases member
  ordered := .nil
  invoked _ _ member := by cases member
  mute _ _ member := by cases member

omit [Keyed α κ] in
private theorem Running.keep (running : Running before call standing) (calls : before.calls ≤ after.calls)
    (unreturned : ∀ cdc, (call, cdc) ∈ returns after.history → (call, cdc) ∈ returns before.history)
    (ids : after.draws.idxsOf call = before.draws.idxsOf call)
    (log : ∀ node, (call, node) ∈ after.log → (call, node) ∈ before.log)
    (holds : ∀ hold ∈ before.holds, hold.call = call → hold ∈ after.holds) : Running after call standing where
  known := running.known.trans_le calls
  unreturned cdc member := running.unreturned cdc (unreturned cdc member)
  ids := running.ids.trans ids.symm
  stage := running.stage.imp_left fun early => ⟨early.1, fun node member => early.2 node (log node member)⟩
  guarded event pending drawn exit same := by
    obtain ⟨hold, member, own, keeps⟩ := running.guarded event pending drawn exit same
    exact ⟨hold, holds hold member own, own, keeps.imp_right fun covers node there => covers node (log node there)⟩

omit [Keyed α κ] in
private theorem Counted.unseen (counted : Counted machine) : machine.draws.idxsOf machine.calls = [] := by
  apply List.idxsOf_eq_nil_iff.mpr
  intro call member
  rcases counted.drawn call member with ⟨thread, standing, running⟩ | ⟨cdc, returned⟩
  · have known := (counted.running thread call standing running).known
    simpa using known.ne
  · have known := (counted.returned _ returned).1
    simpa using known.ne

omit [Keyed α κ] in
private theorem idxsOf_draw (draws : List CallId) (call other : CallId) :
    (draws ++ [call]).idxsOf other = draws.idxsOf other ++ if call = other then [draws.length] else [] := by
  rw [List.idxsOf_append]
  by_cases same : call = other
  · simp [same]
  · simp [same]

omit [LinearOrder κ] [Keyed α κ] in
theorem threads_update {threads : ThreadId → Option (CallId × Standing α κ)} {next : Option (CallId × Standing α κ)}
    {other : ThreadId} (running : Function.update threads thread next other = some (call, standing)) :
    (other = thread ∧ next = some (call, standing)) ∨ (other ≠ thread ∧ threads other = some (call, standing)) := by
  by_cases here : other = thread
  · subst here
    exact Or.inl ⟨rfl, by simpa using running⟩
  · exact Or.inr ⟨here, by simpa [Function.update_of_ne here] using running⟩

omit [LinearOrder κ] [Keyed α κ] in
private theorem alone_update {threads : ThreadId → Option (CallId × Standing α κ)} {next : Option (CallId × Standing α κ)}
    (alone : ∀ first second call left right, threads first = some (call, left) → threads second = some (call, right) →
      first = second)
    (own : ∀ call standing, next = some (call, standing) → ∀ other current, threads other = some (call, current) →
      other = thread)
    (first second : ThreadId) (call : CallId) (left right : Standing α κ)
    (one : Function.update threads thread next first = some (call, left))
    (two : Function.update threads thread next second = some (call, right)) : first = second := by
  rcases threads_update one with ⟨rfl, moved⟩ | ⟨apart, there⟩
  · rcases threads_update two with ⟨rfl, -⟩ | ⟨-, there⟩
    · rfl
    · exact (own call left moved second right there).symm
  · rcases threads_update two with ⟨rfl, moved⟩ | ⟨-, other⟩
    · exact own call right moved first left there
    · exact alone first second call left right there other

omit [Keyed α κ] in
private theorem Counted.invoke (counted : Counted machine) (idle : machine.threads thread = none) (request : Request α κ) :
    Counted { machine with
      threads := Function.update machine.threads thread (some (machine.calls, .outside request.phase))
      history := .invoked machine.calls request :: machine.history
      calls := machine.calls + 1 } where
  counter := counted.counter
  running other call standing running := by
    rcases threads_update running with ⟨rfl, same⟩ | ⟨-, there⟩
    · simp only [Option.some.injEq, Prod.mk.injEq] at same
      obtain ⟨rfl, rfl⟩ := same
      obtain ⟨live, empty⟩ := request.phase_live
      refine ⟨Nat.lt_succ_self _, fun cdc member => ?_, ?_, Or.inl ⟨⟨live, empty⟩, fun node member => ?_⟩, ?_⟩
      · exact absurd (counted.returned _ member).1 (lt_irrefl _)
      · simp only [Standing.cdc, empty, List.map_nil, counted.unseen]
      · exact absurd (counted.logged _ member) (lt_irrefl _)
      · intro event pending drawn exit impossible
        cases impossible
    · exact (counted.running other call standing there).keep (Nat.le_succ _) (fun _ => id) rfl (fun _ => id) fun _ member _ => member
  alone := by
    apply alone_update counted.alone
    intro call standing same other current there
    simp only [Option.some.injEq, Prod.mk.injEq] at same
    obtain ⟨rfl, -⟩ := same
    exact absurd (counted.running other _ current there).known (lt_irrefl _)
  returned entry member := ⟨(counted.returned entry member).1.trans (Nat.lt_succ_self _), (counted.returned entry member).2⟩
  once := counted.once
  drawn call member := by
    apply (counted.drawn call member).imp_left
    intro unreturned
    obtain ⟨other, standing, running⟩ := unreturned
    refine ⟨other, standing, ?_⟩
    have apart : other ≠ thread := fun same => by simp [same, idle] at running
    simpa [Function.update_of_ne apart] using running
  logged entry member := (counted.logged entry member).trans (Nat.lt_succ_self _)
  ordered := by
    apply counted.ordered.imp_of_mem
    intro earlier later member _ precedes same apart
    obtain ⟨below, done⟩ := precedes same apart
    refine ⟨below, fun other standing running => ?_⟩
    rcases threads_update running with ⟨-, own⟩ | ⟨-, there⟩
    · simp only [Option.some.injEq, Prod.mk.injEq] at own
      exact absurd own.1.symm (counted.logged earlier member).ne
    · exact done other standing there
  invoked call other member := by
    rcases List.mem_cons.mp member with same | member
    · cases same
      exact Nat.lt_succ_self _
    · exact (counted.invoked call other member).trans (Nat.lt_succ_self _)
  mute call other member silent := by
    rcases List.mem_cons.mp member with same | member
    · cases same
      refine ⟨fun drawn => ?_, fun other standing running => ?_⟩
      · rcases counted.drawn _ drawn with ⟨thread, standing, running⟩ | ⟨cdc, returned⟩
        · exact absurd (counted.running _ _ _ running).known (lt_irrefl _)
        · exact absurd (counted.returned _ returned).1 (lt_irrefl _)
      · rcases threads_update running with ⟨-, own⟩ | ⟨-, there⟩
        · simp only [Option.some.injEq, Prod.mk.injEq, true_and] at own
          exact own ▸ Request.mute silent
        · exact absurd (counted.running _ _ _ there).known (lt_irrefl _)
    · obtain ⟨undrawn, mute⟩ := counted.mute call other member silent
      refine ⟨undrawn, fun other standing running => ?_⟩
      rcases threads_update running with ⟨-, own⟩ | ⟨-, there⟩
      · simp only [Option.some.injEq, Prod.mk.injEq] at own
        exact absurd own.1.symm (counted.invoked call _ member).ne
      · exact mute other standing there

theorem admits_apart {hold : Hold} {place : Place} {mutated : List NodeId} (admitted : hold.admits place mutated = true) :
    hold.place ≠ .write ∧ ∀ node ∈ mutated, node ∉ hold.nodes := by
  obtain ⟨caller, held, nodes⟩ := hold
  cases held with
  | write => cases admitted
  | nodeOnly => exact ⟨nofun, fun node member => by simpa using List.all_eq_true.mp admitted node member⟩
  | readAndNode =>
    cases place with
    | write => cases admitted
    | _ => exact ⟨nofun, fun node member => by simpa using List.all_eq_true.mp admitted node member⟩

omit [Keyed α κ] in
/-- No section that still draws has mutated a node that another section may enter. -/
private theorem Running.done (running : Running machine call standing) {place : Place} {mutated : List NodeId} {node : NodeId}
    (admitted : ∀ hold ∈ machine.holds, hold.admits place mutated = true) (there : node ∈ mutated)
    (logged : (call, node) ∈ machine.log) : standing.Done := by
  rcases running.stage with ⟨-, unlogged⟩ | late
  · exact absurd logged (unlogged node)
  · cases standing with
    | outside phase => exact late
    | inside pending drawn exit =>
      cases pending with
      | nil => exact ⟨rfl, late⟩
      | cons event rest =>
        obtain ⟨hold, member, -, keeps⟩ := running.guarded event rest drawn exit rfl
        obtain ⟨shared, free⟩ := admits_apart (admitted hold member)
        rcases keeps with exclusive | covers
        · exact absurd exclusive shared
        · exact absurd (covers node logged) (free node there)

omit [Keyed α κ] in
/-- Only a call that has not drawn yet may still change a node. -/
private theorem Running.carried {phase : Phase α κ} (running : Running machine call (.outside phase)) :
    phase.repairs = none → phase.cdc = [] ∧ ∀ node, (call, node) ∉ machine.log := by
  intro live
  rcases running.stage with ⟨early, unlogged⟩ | late
  · exact ⟨early.2, unlogged⟩
  · exact absurd live late

omit [Keyed α κ] in
/-- The section takes its locks, so no other section on its nodes has numbers left to draw. -/
private theorem Counted.enter (counted : Counted machine) {phase : Phase α κ} {entered : Critical α κ}
    (shape : entered.Shape phase) (standing : machine.threads thread = some (call, .outside phase))
    (admitted : ∀ hold ∈ machine.holds, hold.admits entered.place entered.mutated = true) :
    Counted (machine.enter thread call entered) := by
  have own := counted.running thread call _ standing
  have carried : entered.carried = phase.cdc := shape.carried fun live => (own.carried live).1
  have apart : ∀ other caller current, other ≠ thread → machine.threads other = some (caller, current) → caller ≠ call :=
    fun other caller current different there same => different (counted.alone other thread call current _ (same ▸ there) standing)
  have returns_enter : returns (entered.noted ++ machine.history) = returns machine.history := by
    rw [returns_append, returns_inner shape.noted, List.nil_append]
  have invoked_enter : ∀ caller request, .invoked caller request ∈ entered.noted ++ machine.history →
      .invoked caller request ∈ machine.history := fun caller request member =>
    (List.mem_append.mp member).resolve_left (invoked_inner shape.noted caller request)
  have logged_enter : ∀ entry ∈ machine.log ++ entered.mutated.map (call, ·),
      entry ∈ machine.log ∨ entry.1 = call ∧ entry.2 ∈ entered.mutated := by
    intro entry member
    apply (List.mem_append.mp member).imp_right
    intro fresh
    obtain ⟨node, there, rfl⟩ := List.mem_map.mp fresh
    exact ⟨rfl, there⟩
  refine ⟨counted.counter, fun other caller current running => ?_, ?_, ?_, ?_, ?_, ?_, ?_, ?_, ?_⟩
  · rcases threads_update running with ⟨rfl, same⟩ | ⟨different, there⟩
    · cases same
      refine ⟨own.known, ?_, ?_, ?_, ?_⟩
      · simpa only [CdcMachine.enter, returns_enter] using own.unreturned
      · simpa only [Standing.cdc, carried, CdcMachine.enter] using own.ids
      · by_cases idle : entered.exit.Idle
        · obtain ⟨unchanged, silent, empty⟩ := shape.idle idle
          have live : phase.repairs = none := by
            by_contra owing
            exact (shape.late owing).2.2 idle
          refine Or.inl ⟨⟨idle, silent, empty, shape.again⟩, fun node member => ?_⟩
          simp only [CdcMachine.enter, unchanged, List.map_nil, List.append_nil] at member
          exact (own.carried live).2 node member
        · exact Or.inr idle
      · intro event pending drawn exit same
        refine ⟨_, List.mem_cons_self, rfl, Or.inr fun node member => ?_⟩
        rcases logged_enter _ member with old | ⟨-, fresh⟩
        · have live : phase.repairs = none := by
            by_contra owing
            have silent := (shape.late owing).2.1
            simp only [Standing.inside.injEq] at same
            rw [silent] at same
            cases same.1
          exact absurd old ((own.carried live).2 node)
        · exact fresh
    · have different := apart other caller current different there
      refine (counted.running other caller current there).keep le_rfl ?_ rfl (fun node member => ?_) fun hold member _ => ?_
      · simp only [CdcMachine.enter, returns_enter]
        exact fun _ => id
      · exact (logged_enter _ member).resolve_right fun fresh => different fresh.1
      · exact List.mem_cons_of_mem _ member
  · apply alone_update counted.alone
    intro caller current same other held there
    cases same
    exact counted.alone other thread call held _ there standing
  · simpa only [CdcMachine.enter, returns_enter] using counted.returned
  · simpa only [CdcMachine.enter, returns_enter] using counted.once
  · intro caller member
    simp only [CdcMachine.enter, returns_enter]
    apply (counted.drawn caller member).imp_left
    intro unreturned
    obtain ⟨other, current, there⟩ := unreturned
    by_cases here : other = thread
    · subst here
      rw [standing] at there
      cases there
      exact ⟨other, _, Function.update_self ..⟩
    · exact ⟨other, current, by simpa [Function.update_of_ne here] using there⟩
  · intro entry member
    rcases logged_enter entry member with old | ⟨same, -⟩
    · exact counted.logged entry old
    · exact same ▸ own.known
  · refine List.pairwise_append.mpr ⟨?_, ?_, fun earlier old later fresh same different => ?_⟩
    · apply counted.ordered.imp_of_mem
      intro earlier later member _ precedes same different
      obtain ⟨below, done⟩ := precedes same different
      refine ⟨below, fun other current running => ?_⟩
      rcases threads_update running with ⟨rfl, moved⟩ | ⟨-, there⟩
      · simp only [Option.some.injEq, Prod.mk.injEq] at moved
        obtain ⟨mine, rfl⟩ := moved
        have owing : phase.repairs ≠ none := fun live => (own.carried live).2 earlier.2 (mine ▸ member)
        exact ⟨(shape.late owing).2.1, (shape.late owing).2.2⟩
      · exact done other current there
    · exact List.pairwise_map.mpr (List.pairwise_of_forall fun _ _ _ different => absurd rfl different)
    · obtain ⟨node, there, rfl⟩ := List.mem_map.mp fresh
      have live : phase.repairs = none := by
        by_contra owing
        rw [(shape.late owing).1] at there
        cases there
      have undrawn : machine.draws.idxsOf call = [] := by
        rw [← own.ids]
        simp only [Standing.cdc, (own.carried live).1, List.map_nil]
      refine ⟨fun first _ second drawn => ?_, fun other current running => ?_⟩
      · simp only [CdcMachine.enter, undrawn] at drawn
        cases drawn
      · rcases threads_update running with ⟨rfl, moved⟩ | ⟨-, held⟩
        · cases moved
          exact absurd rfl different
        · have logged : (earlier.1, node) ∈ machine.log := by
            rw [show node = earlier.2 from same.symm]
            exact old
          exact (counted.running other _ current held).done admitted there logged
  · exact fun caller request member => counted.invoked caller request (invoked_enter caller request member)
  · intro caller request member silent
    obtain ⟨undrawn, mute⟩ := counted.mute caller request (invoked_enter caller request member) silent
    refine ⟨undrawn, fun other current running => ?_⟩
    rcases threads_update running with ⟨rfl, moved⟩ | ⟨-, there⟩
    · cases moved
      have quiet : phase.Mute := mute other _ standing
      exact ⟨(shape.mute quiet).1, carried.trans quiet.cdc, (shape.mute quiet).2⟩
    · exact mute other current there

omit [Keyed α κ] in
/-- One number, to a call that no later mutation of its nodes has overtaken. -/
private theorem Counted.draw (counted : Counted machine) {event : ChangeEventUnassigned α} {pending : List (ChangeEventUnassigned α)}
    {drawn : List (ChangeEvent α)} {exit : Exit α κ}
    (standing : machine.threads thread = some (call, .inside (event :: pending) drawn exit)) :
    Counted (machine.draw thread call event pending drawn exit) := by
  have own := counted.running thread call _ standing
  have late : ¬exit.Idle := by
    rcases own.stage with ⟨early, -⟩ | late
    · cases early.2.1
    · exact late
  have others : ∀ caller, caller ≠ call → (machine.draws ++ [call]).idxsOf caller = machine.draws.idxsOf caller := by
    intro caller different
    rw [idxsOf_draw, if_neg (Ne.symm different), List.append_nil]
  have mine : (machine.draws ++ [call]).idxsOf call = machine.draws.idxsOf call ++ [machine.draws.length] := by
    rw [idxsOf_draw, if_pos rfl]
  refine ⟨?_, fun other caller current running => ?_, ?_, ?_, counted.once, ?_, counted.logged, ?_, counted.invoked, ?_⟩
  · simp [CdcMachine.draw, counted.counter]
  · rcases threads_update running with ⟨rfl, moved⟩ | ⟨different, there⟩
    · cases moved
      refine ⟨own.known, own.unreturned, ?_, Or.inr late, fun _ _ _ _ _ => own.guarded event pending drawn exit rfl⟩
      have ids : drawn.map ChangeEvent.id = machine.draws.idxsOf call := own.ids
      simp [Standing.cdc, CdcMachine.draw, mine, ids, counted.counter]
    · have apart : caller ≠ call := fun same => different (counted.alone other thread call current _ (same ▸ there) standing)
      exact (counted.running other caller current there).keep le_rfl (fun _ => id) (others caller apart) (fun _ => id)
        fun _ member _ => member
  · apply alone_update counted.alone
    intro caller current same other held there
    cases same
    exact counted.alone other thread call held _ there standing
  · intro entry member
    obtain ⟨known, ids⟩ := counted.returned entry member
    have different : entry.1 ≠ call := by
      intro same
      exact own.unreturned entry.2 (same ▸ member)
    exact ⟨known, ids.trans (others entry.1 different).symm⟩
  · intro caller member
    rcases List.mem_append.mp member with old | new
    · apply (counted.drawn caller old).imp_left
      intro unreturned
      obtain ⟨other, current, there⟩ := unreturned
      by_cases here : other = thread
      · subst here
        rw [standing] at there
        cases there
        exact ⟨other, _, Function.update_self ..⟩
      · exact ⟨other, current, by simpa [CdcMachine.draw, Function.update_of_ne here] using there⟩
    · rw [List.mem_singleton.mp new]
      exact Or.inl ⟨thread, _, Function.update_self ..⟩
  · apply counted.ordered.imp
    intro earlier later precedes same different
    obtain ⟨below, done⟩ := precedes same different
    have first : earlier.1 ≠ call := by
      intro here
      have held : machine.threads thread = some (earlier.1, .inside (event :: pending) drawn exit) := here ▸ standing
      cases (done thread _ held).1
    refine ⟨fun left leftIn right rightIn => ?_, fun other current running => ?_⟩
    · simp only [CdcMachine.draw, others earlier.1 first] at leftIn
      by_cases second : later.1 = call
      · simp only [CdcMachine.draw, second, mine, List.mem_append, List.mem_singleton] at rightIn
        rcases rightIn with old | new
        · exact below left leftIn right (second ▸ old)
        · simpa [new] using List.lt_add_of_mem_idxsOf left leftIn
      · simp only [CdcMachine.draw, others later.1 second] at rightIn
        exact below left leftIn right rightIn
    · rcases threads_update running with ⟨-, moved⟩ | ⟨-, there⟩
      · cases moved
        exact absurd rfl first
      · exact done other current there
  · intro caller request member silent
    obtain ⟨undrawn, mute⟩ := counted.mute caller request member silent
    have different : caller ≠ call := by
      intro same
      have held : machine.threads thread = some (caller, .inside (event :: pending) drawn exit) := same ▸ standing
      cases (mute thread _ held).1
    refine ⟨fun there => ?_, fun other current running => ?_⟩
    · rcases List.mem_append.mp there with old | new
      · exact undrawn old
      · exact different (List.mem_singleton.mp new)
    · rcases threads_update running with ⟨-, moved⟩ | ⟨-, there⟩
      · cases moved
        exact absurd rfl different
      · exact mute other current there

omit [LinearOrder κ] [Keyed α κ] in
private theorem next_cases (call : CallId) {drawn : List (ChangeEvent α)} {exit : Exit α κ} {phase : Phase α κ}
    (follows : exit.next drawn = some phase) :
    returns (exit.records call drawn) = [] ∧
      (exit = .again phase ∨ (¬exit.Idle ∧ phase.repairs ≠ none ∧ phase.cdc = drawn)) := by
  cases exit with
  | again next => cases follows; exact ⟨rfl, Or.inl rfl⟩
  | grown node oldMax emitCdc => cases follows; exact ⟨rfl, Or.inr ⟨id, Option.some_ne_none _, rfl⟩⟩
  | shrunk node oldMax deleted => cases follows; exact ⟨rfl, Or.inr ⟨id, Option.some_ne_none _, rfl⟩⟩
  | returned result => cases follows
  | rejected => cases follows

omit [Keyed α κ] in
private theorem Running.leaves {drawn : List (ChangeEvent α)} {exit : Exit α κ}
    (own : Running machine call (.inside [] drawn exit)) {phase : Phase α κ} (follows : exit.next drawn = some phase) :
    Running (machine.leave thread call drawn exit) call (.outside phase) := by
  obtain ⟨silent, kind⟩ := next_cases call follows
  have unreturned : ∀ cdc, (call, cdc) ∉ returns (machine.leave thread call drawn exit).history := by
    simpa only [CdcMachine.leave, returns_append, silent, List.nil_append] using own.unreturned
  rcases kind with rfl | ⟨busy, owing, same⟩
  · rcases own.stage with ⟨early, unlogged⟩ | late
    · obtain ⟨-, -, rfl, fresh⟩ := early
      obtain ⟨live, empty⟩ := fresh phase rfl
      refine ⟨own.known, unreturned, ?_, Or.inl ⟨⟨live, empty⟩, unlogged⟩, fun _ _ _ _ impossible => by cases impossible⟩
      simpa only [Standing.cdc, empty, CdcMachine.leave] using own.ids
    · exact absurd trivial late
  · refine ⟨own.known, unreturned, ?_, Or.inr owing, fun _ _ _ _ impossible => by cases impossible⟩
    simpa only [Standing.cdc, same, CdcMachine.leave] using own.ids

omit [Keyed α κ] in
private theorem Counted.leave (counted : Counted machine) {drawn : List (ChangeEvent α)} {exit : Exit α κ}
    (standing : machine.threads thread = some (call, .inside [] drawn exit)) : Counted (machine.leave thread call drawn exit) := by
  have own := counted.running thread call _ standing
  have apart : ∀ other caller current, other ≠ thread → machine.threads other = some (caller, current) → caller ≠ call :=
    fun other caller current different there same => different (counted.alone other thread call current _ (same ▸ there) standing)
  have returns_leave : ∀ entry, entry ∈ returns (exit.records call drawn ++ machine.history) →
      entry = (call, drawn) ∨ entry ∈ returns machine.history := by
    intro entry member
    rw [returns_append] at member
    apply (List.mem_append.mp member).imp_left
    intro fresh
    cases exit with
    | returned result => exact List.mem_singleton.mp fresh
    | _ => cases fresh
  have invoked_leave : ∀ caller request, .invoked caller request ∈ exit.records call drawn ++ machine.history →
      .invoked caller request ∈ machine.history := by
    intro caller request member
    apply (List.mem_append.mp member).resolve_left
    intro fresh
    cases exit <;> simp [Exit.records] at fresh
  refine ⟨counted.counter, fun other caller current running => ?_, ?_, fun entry member => ?_, ?_, fun caller member => ?_,
    counted.logged, ?_, fun caller request member => counted.invoked caller request (invoked_leave caller request member), ?_⟩
  · rcases threads_update running with ⟨rfl, moved⟩ | ⟨different, there⟩
    · obtain ⟨phase, follows, same⟩ := Option.map_eq_some_iff.mp moved
      cases same
      exact own.leaves follows
    · have different := apart other caller current different there
      refine (counted.running other caller current there).keep le_rfl (fun cdc member => ?_) rfl (fun _ => id)
        fun hold member mine => ?_
      · apply (returns_leave _ member).resolve_left
        intro same
        cases same
        exact different rfl
      · exact List.mem_filter.mpr ⟨member, by simpa [mine] using different⟩
  · apply alone_update counted.alone
    intro caller current moved other held there
    obtain ⟨phase, -, same⟩ := Option.map_eq_some_iff.mp moved
    cases same
    exact counted.alone other thread call held _ there standing
  · rcases returns_leave entry member with rfl | old
    · exact ⟨own.known, own.ids⟩
    · exact counted.returned entry old
  · simp only [CdcMachine.leave, returns_append]
    cases exit with
    | returned result =>
      refine List.pairwise_cons.mpr ⟨fun entry member same => ?_, counted.once⟩
      rw [show call = entry.1 from same] at own
      exact own.unreturned entry.2 member
    | _ => exact counted.once
  · simp only [CdcMachine.leave, returns_append, List.mem_append]
    rcases counted.drawn caller member with ⟨other, current, there⟩ | ⟨cdc, returned⟩
    · by_cases here : other = thread
      · subst here
        rw [standing] at there
        cases there
        cases follows : exit.next drawn with
        | some phase => exact Or.inl ⟨other, .outside phase, by simp⟩
        | none =>
          cases exit with
          | returned result => exact Or.inr ⟨drawn, Or.inl (List.mem_singleton.mpr rfl)⟩
          | rejected =>
            have early := own.stage.resolve_right fun late => late trivial
            have undrawn : machine.draws.idxsOf call = [] := by
              rw [← own.ids]
              simp only [Standing.cdc, early.1.2.2.1, List.map_nil]
            exact absurd (List.idxsOf_eq_nil_iff.mp undrawn call member) (by simp)
          | _ => cases follows
      · exact Or.inl ⟨other, current, by simpa [Function.update_of_ne here] using there⟩
    · exact Or.inr ⟨cdc, Or.inr returned⟩
  · apply counted.ordered.imp
    intro earlier later precedes same different
    obtain ⟨below, done⟩ := precedes same different
    refine ⟨below, fun other current running => ?_⟩
    rcases threads_update running with ⟨rfl, moved⟩ | ⟨-, there⟩
    · obtain ⟨phase, follows, same⟩ := Option.map_eq_some_iff.mp moved
      simp only [Prod.mk.injEq] at same
      obtain ⟨here, rfl⟩ := same
      have held : machine.threads other = some (earlier.1, .inside [] drawn exit) := here ▸ standing
      rcases (next_cases call follows).2 with rfl | ⟨-, owing, -⟩
      · exact absurd trivial (done other _ held).2
      · exact owing
    · exact done other current there
  · intro caller request member silent
    obtain ⟨undrawn, mute⟩ := counted.mute caller request (invoked_leave caller request member) silent
    refine ⟨undrawn, fun other current running => ?_⟩
    rcases threads_update running with ⟨rfl, moved⟩ | ⟨-, there⟩
    · obtain ⟨phase, follows, same⟩ := Option.map_eq_some_iff.mp moved
      cases same
      obtain ⟨-, rfl, exits⟩ : Standing.Mute (.inside [] drawn exit) := mute other _ standing
      exact exits.next follows
    · exact mute other current there

theorem Reached.counted {nodeCapacity : Nat} (reached : Reached nodeCapacity machine) : Counted machine := by
  induction reached with
  | start => exact counted_start nodeCapacity
  | step earlier action taken ih =>
    cases action with
    | invoke thread request =>
      simp only [CdcMachine.step] at taken
      split at taken
      next => cases taken
      next idle => cases taken; exact ih.invoke idle request
    | enter thread =>
      simp only [CdcMachine.step] at taken
      split at taken
      next call phase standing =>
        split at taken
        next admitted => cases taken; exact ih.enter (BTreeSet.critical_shape _ _ phase) standing (List.all_eq_true.mp admitted)
        next => cases taken
      next => cases taken
    | draw thread =>
      simp only [CdcMachine.step] at taken
      split at taken
      next standing => cases taken; exact ih.draw standing
      next => cases taken
    | leave thread =>
      simp only [CdcMachine.step] at taken
      split at taken
      next standing => cases taken; exact ih.leave standing
      next => cases taken

omit [Keyed α κ] in
private theorem Counted.ids_once (counted : Counted machine) :
    (((returns machine.history).flatMap Prod.snd).map ChangeEvent.id).Nodup := by
  rw [List.map_flatMap]
  refine List.nodup_flatMap.mpr ⟨fun entry member => ?_, ?_⟩
  · rw [(counted.returned entry member).2]
    exact List.nodup_idxsOf
  · apply counted.once.imp_of_mem
    intro first second one two different
    simp only [Function.onFun, (counted.returned first one).2, (counted.returned second two).2]
    intro position here there
    obtain ⟨_, left⟩ := List.mem_idxsOf_iff_exists_getElem_pos.mp here
    obtain ⟨_, right⟩ := List.mem_idxsOf_iff_exists_getElem_pos.mp there
    exact different ((beq_iff_eq.mp left).symm.trans (beq_iff_eq.mp right))

omit [Keyed α κ] in
private theorem Counted.ids_all (counted : Counted machine) (quiescent : machine.Quiescent) (position : Nat) :
    position ∈ ((returns machine.history).flatMap Prod.snd).map ChangeEvent.id ↔ position < machine.set.eventId := by
  rw [List.map_flatMap, List.mem_flatMap, counted.counter]
  constructor
  · intro given
    obtain ⟨entry, member, there⟩ := given
    rw [(counted.returned entry member).2] at there
    exact List.lt_add_of_mem_idxsOf position there
  · intro inside
    rcases counted.drawn _ (List.getElem_mem inside) with ⟨thread, standing, running⟩ | ⟨cdc, returned⟩
    · rw [quiescent thread] at running
      cases running
    · refine ⟨_, returned, ?_⟩
      rw [(counted.returned _ returned).2]
      exact List.mem_idxsOf_getElem inside

/-- Once all calls have returned, the numbers of the returned events are exactly those below
the counter, each once. They ascend within a call and along the mutations of a node, and a
call without change capture returns none. -/
theorem event_ids_gapless {nodeCapacity : Nat} (reached : Reached nodeCapacity machine) (quiescent : machine.Quiescent) :
    (((returns machine.history).flatMap Prod.snd).map ChangeEvent.id).Perm (List.range machine.set.eventId) ∧
    (∀ entry ∈ returns machine.history, (entry.2.map ChangeEvent.id).Pairwise (· < ·)) ∧
    (machine.log.Pairwise fun earlier later => earlier.2 = later.2 → earlier.1 ≠ later.1 →
      ∀ first ∈ returns machine.history, first.1 = earlier.1 → ∀ second ∈ returns machine.history, second.1 = later.1 →
        ∀ event ∈ first.2, ∀ other ∈ second.2, event.id < other.id) ∧
    ∀ call request, .invoked call request ∈ machine.history → request.emitsCdc = false →
      ∀ cdc, (call, cdc) ∈ returns machine.history → cdc = [] := by
  have counted := reached.counted
  refine ⟨?_, fun entry member => ?_, ?_, fun call request invoked silent cdc returned => ?_⟩
  · apply (List.perm_ext_iff_of_nodup counted.ids_once List.nodup_range).mpr
    intro position
    rw [counted.ids_all quiescent, List.mem_range]
  · rw [(counted.returned entry member).2]
    exact List.pairwise_idxsOf
  · apply counted.ordered.imp
    intro earlier later precedes same different first one mine second two yours event here other there
    have left : event.id ∈ machine.draws.idxsOf earlier.1 := by
      rw [← mine, ← (counted.returned first one).2]
      exact List.mem_map_of_mem here
    have right : other.id ∈ machine.draws.idxsOf later.1 := by
      rw [← yours, ← (counted.returned second two).2]
      exact List.mem_map_of_mem there
    exact (precedes same different).1 _ left _ right
  · have undrawn : machine.draws.idxsOf call = [] := by
      apply List.idxsOf_eq_nil_iff.mpr
      intro drawn member
      have different : drawn ≠ call := fun same => (counted.mute call request invoked silent).1 (same ▸ member)
      simpa using different
    have ids := (counted.returned _ returned).2
    rw [undrawn] at ids
    exact List.map_eq_nil_iff.mp ids

/-- A replacement of 10 and a removal of 20, in two nodes, draw their numbers alternately. -/
def alternatingDraws : List (CdcAction Nat Nat) :=
  [.invoke 0 (.insert 10 false true), .enter 0, .leave 0, .enter 0, .draw 0, .leave 0,
    .invoke 0 (.insert 20 false true), .enter 0, .draw 0, .leave 0, .enter 0, .leave 0,
    .invoke 0 (.insert 30 true true), .enter 0, .leave 0, .enter 0, .draw 0, .draw 0, .leave 0,
    .invoke 0 (.insert 10 false true), .enter 0, .draw 0, .invoke 1 (.remove 20 true), .enter 1, .draw 1, .draw 0,
      .leave 0, .leave 1]

theorem event_ids_gapless_alternating : ∃ machine : CdcMachine Nat Nat,
    (start 2).run alternatingDraws = some machine ∧ machine.Quiescent ∧
    (returns machine.history).map (fun entry => (entry.1, entry.2.map ChangeEvent.id)) =
      [(4, [5]), (3, [4, 6]), (2, [2, 3]), (1, [1]), (0, [0])] ∧
    machine.log = [(0, 0), (1, 0), (2, 0), (2, 1), (3, 0), (4, 1)] ∧
    (((returns machine.history).flatMap Prod.snd).map ChangeEvent.id).Perm (List.range 7) := by
  obtain ⟨machine, ran, quiescent, ids, log, counter⟩ : ∃ machine : CdcMachine Nat Nat,
      (start 2).run alternatingDraws = some machine ∧ machine.Quiescent ∧
      (returns machine.history).map (fun entry => (entry.1, entry.2.map ChangeEvent.id)) =
        [(4, [5]), (3, [4, 6]), (2, [2, 3]), (1, [1]), (0, [0])] ∧
      machine.log = [(0, 0), (1, 0), (2, 0), (2, 1), (3, 0), (4, 1)] ∧ machine.set.eventId = 7 :=
    ⟨_, rfl, fun | 0 => rfl | 1 => rfl | _ + 2 => rfl, by decide, by decide, by decide⟩
  exact ⟨machine, ran, quiescent, ids, log, counter ▸ (event_ids_gapless (Reached.start.runs ran) quiescent).1⟩

end CdcMachine
end WorkTablesIndex
