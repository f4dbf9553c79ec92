import WorkTablesIndex.Steps

/-! Event numbers are drawn one at a time from a counter that all threads share. A
section first changes its node and then draws, while it still holds a lock that keeps
every other change away from that node; sections on other nodes draw in between. -/

universe u v

namespace WorkTablesIndex

variable {α : Type u} {κ : Type v}

/-- Where a section draws its numbers: under the topology's read lock and the node lock,
under the node lock alone, or under the topology's write lock. -/
inductive Place where
  | readAndNode
  | nodeOnly
  | write
  deriving DecidableEq

inductive Exit (α : Type u) (κ : Type v) where
  | again (next : Phase α κ)
  | grown (node : NodeId) (oldMax : κ) (emitCdc : Bool)
  | shrunk (node : NodeId) (oldMax : κ) (deleted : α)
  | returned (result : Option α)
  | rejected

structure Critical (α : Type u) (κ : Type v) [LinearOrder κ] where
  set : BTreeSet α κ
  place : Place
  mutated : List NodeId
  events : List (ChangeEventUnassigned α)
  carried : List (ChangeEvent α)
  noted : List (Record α κ)
  exit : Exit α κ

structure Hold where
  call : CallId
  place : Place
  nodes : List NodeId

/-- A thread between two sections, or inside one with some events not yet numbered. -/
inductive Standing (α : Type u) (κ : Type v) where
  | outside (phase : Phase α κ)
  | inside (pending : List (ChangeEventUnassigned α)) (drawn : List (ChangeEvent α)) (exit : Exit α κ)

/-- The log lists, oldest first, which call mutated which node, and the draws whose
number was which. -/
structure CdcMachine (α : Type u) (κ : Type v) [LinearOrder κ] where
  set : BTreeSet α κ
  threads : ThreadId → Option (CallId × Standing α κ)
  calls : CallId
  history : List (Record α κ)
  holds : List Hold
  log : List (CallId × NodeId)
  draws : List CallId

inductive CdcAction (α : Type u) (κ : Type v) where
  | invoke (thread : ThreadId) (request : Request α κ)
  | enter (thread : ThreadId)
  | draw (thread : ThreadId)
  | leave (thread : ThreadId)

def ChangeEvent.unassign : ChangeEvent α → ChangeEventUnassigned α
  | .insertAt _ maxValue value index => .insertAt maxValue value index
  | .removeAt _ maxValue value index => .removeAt maxValue value index
  | .createNode _ maxValue => .createNode maxValue
  | .removeNode _ maxValue => .removeNode maxValue
  | .splitNode _ maxValue splitIndex => .splitNode maxValue splitIndex

@[simp] theorem ChangeEvent.unassign_assignId (eventId : Id) (event : ChangeEventUnassigned α) :
    (event.assignId eventId).unassign = event := by
  cases event <;> rfl

@[simp] theorem unassign_assignIds (eventId : Id) (events : List (ChangeEventUnassigned α)) :
    (assignIds eventId events).map ChangeEvent.unassign = events := by
  induction events generalizing eventId with
  | nil => rfl
  | cons event rest ih => simp [assignIds, ih]

/-- A section that is under way keeps out every section that needs its locks. -/
def Hold.admits (hold : Hold) (place : Place) (mutated : List NodeId) : Bool :=
  match hold.place, place with
  | .write, _ => false
  | .readAndNode, .write => false
  | _, _ => mutated.all fun node => node ∉ hold.nodes

def Heap.allocated (before after : Heap α) : List NodeId := List.range' before.next (after.next - before.next)

def Phase.cdc : Phase α κ → List (ChangeEvent α)
  | .commitSplit _ _ _ _ _ cdc => cdc
  | .commitMax _ _ _ cdc => cdc
  | .repair _ _ _ cdc => cdc
  | _ => []

namespace Exit

def next (cdc : List (ChangeEvent α)) : Exit α κ → Option (Phase α κ)
  | .again phase => some phase
  | .grown node oldMax emitCdc => some (.commitMax node oldMax emitCdc cdc)
  | .shrunk node oldMax deleted => some (.repair node oldMax deleted cdc)
  | .returned _ | .rejected => none

def records (call : CallId) (cdc : List (ChangeEvent α)) : Exit α κ → List (Record α κ)
  | .returned result => [.returned call result cdc]
  | .rejected => [.rejected call]
  | _ => []

end Exit

variable [LinearOrder κ]

/-- A section that changes no node and emits nothing. The node lock it takes for reading
is left out, which only admits more interleavings. -/
def Critical.quiet (place : Place) (set : BTreeSet α κ) (carried : List (ChangeEvent α)) (exit : Exit α κ) : Critical α κ :=
  ⟨set, place, [], [], carried, [], exit⟩

variable [Keyed α κ]

namespace BTreeSet

def routedNode (wanted : κ) (set : BTreeSet α κ) : List NodeId := ((route id set.index.index wanted).map Prod.snd).toList

def rangeNodes (start last : Bound κ) (set : BTreeSet α κ) : List NodeId :=
  let index := set.index.index
  let backEntry := match last with
    | .included value | .excluded value => nodeForBorrowedEnd id index value set.borrowOrderMatches
    | .unbounded => index.last?
  match firstForBorrowedBound id index start, backEntry with
  | some (frontKey, _), some (backKey, _) =>
    (index.entries.filter fun entry => decide (frontKey ≤ entry.1 ∧ entry.1 ≤ backKey)).map Prod.snd
  | _, _ => []

def critical (call : CallId) (set : BTreeSet α κ) : Phase α κ → Critical α κ
  | .put value checked emitCdc =>
    match putNode emitCdc value set with
    | (.vacant, after) => .quiet .readAndNode after [] (.again (.root value checked emitCdc))
    | (.stored cdc, after) => ⟨after, .readAndNode, set.routedNode (key value), cdc.map ChangeEvent.unassign, [],
        [.stored call value], .returned none⟩
    | (.occupied node position, after) =>
      if checked then .quiet .readAndNode after [] .rejected
      else
        -- the read lock is released with `put_checked_inner`, the node lock is not
        let (result, after) := replaceNode noIdentityAdoption emitCdc value node position after
        ⟨after, .nodeOnly, [node], result.2.map ChangeEvent.unassign, [], [.stored call value], .returned result.1⟩
    | (.scheduled (.split node oldMax value) cdc, after) =>
      .quiet .readAndNode after [] (.again (.commitSplit node oldMax value checked emitCdc cdc))
    | (.scheduled (.updateMax node oldMax) cdc, after) => ⟨after, .readAndNode, [node], cdc.map ChangeEvent.unassign, [],
        [.stored call value], .grown node oldMax emitCdc⟩
  | .root value checked emitCdc =>
    match createRoot emitCdc value set with
    | (some cdc, after) => ⟨after, .write, set.heap.allocated after.heap, cdc.map ChangeEvent.unassign, [],
        [.stored call value], .returned none⟩
    | (none, after) => .quiet .write after [] (.again (.put value checked emitCdc))
  | .commitSplit node oldMax value checked emitCdc cdc =>
    match commitOperation noIdentityAdoption emitCdc (.split node oldMax value) set with
    | (some (oldValue, committed), after) => ⟨after, .write, node :: set.heap.allocated after.heap,
        committed.map ChangeEvent.unassign, cdc,
        .stored call value :: splitRecords call (set.heap.cells node).length committed, .returned oldValue⟩
    | (none, after) => .quiet .write after [] (.again (.put value checked emitCdc))
  | .commitMax node oldMax emitCdc cdc =>
    match commitOperation noIdentityAdoption emitCdc (.updateMax node oldMax) set with
    | (some (oldValue, committed), after) => ⟨after, .write, [], committed.map ChangeEvent.unassign, cdc, [],
        .returned oldValue⟩
    | (none, after) => .quiet .write after cdc (.returned none)
  | .remove wanted emitCdc =>
    match removeNode id emitCdc wanted set with
    | (.absent, after) => .quiet .readAndNode after [] (.returned none)
    | (.singleton, after) => .quiet .readAndNode after [] (.again (.unlink wanted emitCdc))
    | (.removed deleted cdc, after) => ⟨after, .readAndNode, set.routedNode wanted, cdc.map ChangeEvent.unassign, [],
        [.erased call deleted], .returned (some deleted)⟩
    | (.repair deleted cdc node oldMax, after) => ⟨after, .readAndNode, [node], cdc.map ChangeEvent.unassign, [],
        [.erased call deleted], .shrunk node oldMax deleted⟩
  | .unlink wanted emitCdc =>
    match unlinkNode id emitCdc wanted set with
    | (.absent, after) => .quiet .write after [] (.returned none)
    | (.retry, after) => .quiet .write after [] (.again (.remove wanted emitCdc))
    | (.removed deleted cdc, after) => ⟨after, .write, set.routedNode wanted, cdc.map ChangeEvent.unassign, [],
        [.erased call deleted], .returned (some deleted)⟩
  | .repair node oldMax deleted cdc =>
    .quiet .write (commitOperation noIdentityAdoption false (.updateMax node oldMax) set).2 cdc (.returned (some deleted))
  | .removeRange start last => ⟨removeRange id start last set, .write, set.rangeNodes start last, [], [], [], .returned none⟩

end BTreeSet

namespace CdcMachine

def start (nodeCapacity : Nat) : CdcMachine α κ := ⟨.withMaximumNodeSize nodeCapacity, fun _ => none, 0, [], [], [], []⟩

/-- The change is made at once; its events are numbered one by one from here on. -/
def enter (machine : CdcMachine α κ) (thread : ThreadId) (call : CallId) (entered : Critical α κ) : CdcMachine α κ :=
  { machine with
    set := { entered.set with eventId := machine.set.eventId }
    threads := Function.update machine.threads thread (some (call, .inside entered.events entered.carried entered.exit))
    history := entered.noted ++ machine.history
    holds := ⟨call, entered.place, entered.mutated⟩ :: machine.holds
    log := machine.log ++ entered.mutated.map (call, ·) }

def draw (machine : CdcMachine α κ) (thread : ThreadId) (call : CallId) (event : ChangeEventUnassigned α)
    (pending : List (ChangeEventUnassigned α)) (drawn : List (ChangeEvent α)) (exit : Exit α κ) : CdcMachine α κ :=
  { machine with
    set := { machine.set with eventId := machine.set.eventId + 1 }
    threads := Function.update machine.threads thread
      (some (call, .inside pending (drawn ++ [event.assignId machine.set.eventId]) exit))
    draws := machine.draws ++ [call] }

def leave (machine : CdcMachine α κ) (thread : ThreadId) (call : CallId) (drawn : List (ChangeEvent α)) (exit : Exit α κ) :
    CdcMachine α κ :=
  { machine with
    threads := Function.update machine.threads thread ((exit.next drawn).map fun phase => (call, .outside phase))
    history := exit.records call drawn ++ machine.history
    holds := machine.holds.filter fun hold => hold.call ≠ call }

def step (machine : CdcMachine α κ) : CdcAction α κ → Option (CdcMachine α κ)
  | .invoke thread request =>
    match machine.threads thread with
    | some _ => none
    | none => some { machine with
        threads := Function.update machine.threads thread (some (machine.calls, .outside request.phase))
        history := .invoked machine.calls request :: machine.history
        calls := machine.calls + 1 }
  | .enter thread =>
    match machine.threads thread with
    | some (call, .outside phase) =>
      let entered := machine.set.critical call phase
      if machine.holds.all fun hold => hold.admits entered.place entered.mutated then some (machine.enter thread call entered)
      else none
    | _ => none
  | .draw thread =>
    match machine.threads thread with
    | some (call, .inside (event :: pending) drawn exit) => some (machine.draw thread call event pending drawn exit)
    | _ => none
  | .leave thread =>
    match machine.threads thread with
    | some (call, .inside [] drawn exit) => some (machine.leave thread call drawn exit)
    | _ => none

inductive Reached (nodeCapacity : Nat) : CdcMachine α κ → Prop where
  | start : Reached nodeCapacity (start nodeCapacity)
  | step {before after : CdcMachine α κ} (earlier : Reached nodeCapacity before) (action : CdcAction α κ)
      (taken : before.step action = some after) : Reached nodeCapacity after

def run (machine : CdcMachine α κ) : List (CdcAction α κ) → Option (CdcMachine α κ)
  | [] => some machine
  | action :: rest => (machine.step action).bind fun after => after.run rest

def Quiescent (machine : CdcMachine α κ) : Prop := ∀ thread, machine.threads thread = none

end CdcMachine
end WorkTablesIndex
