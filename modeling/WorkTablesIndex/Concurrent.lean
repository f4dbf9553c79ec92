import WorkTablesIndex.RangeRemoval

/-! Any number of threads over one set. A step of the machine is one critical
section of one thread; between its sections a thread holds no lock and keeps
what it has decided so far in its phase. A ghost history records invocations,
the sections in which calls take effect, and returns. -/

universe u v

namespace WorkTablesIndex

abbrev ThreadId := Nat
abbrev CallId := Nat

inductive Request (α : Type u) (κ : Type v) where
  | insert (value : α) (checked emitCdc : Bool)
  | remove (wanted : κ) (emitCdc : Bool)
  | removeRange (start last : Bound κ)
  deriving DecidableEq

/-- Where a call stands: the section it runs next, with the values it carries. -/
inductive Phase (α : Type u) (κ : Type v) where
  | put (value : α) (checked emitCdc : Bool)
  | root (value : α) (checked emitCdc : Bool)
  | commitSplit (node : NodeId) (oldMax : κ) (value : α) (checked emitCdc : Bool) (cdc : List (ChangeEvent α))
  | commitMax (node : NodeId) (oldMax : κ) (emitCdc : Bool) (cdc : List (ChangeEvent α))
  | remove (wanted : κ) (emitCdc : Bool)
  | unlink (wanted : κ) (emitCdc : Bool)
  | repair (node : NodeId) (oldMax : κ) (deleted : α) (cdc : List (ChangeEvent α))
  | removeRange (start last : Bound κ)
  deriving DecidableEq

/-- The history, latest record first. -/
inductive Record (α : Type u) (κ : Type v) where
  | invoked (call : CallId) (request : Request α κ)
  | stored (call : CallId) (value : α)
  | erased (call : CallId) (value : α)
  | split (call : CallId) (splitIndex population : Nat)
  | returned (call : CallId) (result : Option α) (cdc : List (ChangeEvent α))
  | rejected (call : CallId)
  deriving DecidableEq

structure Machine (α : Type u) (κ : Type v) [LinearOrder κ] where
  set : BTreeSet α κ
  threads : ThreadId → Option (CallId × Phase α κ)
  calls : CallId
  history : List (Record α κ)

inductive Action (α : Type u) (κ : Type v) where
  | invoke (thread : ThreadId) (request : Request α κ)
  | advance (thread : ThreadId)

variable {α : Type u} {κ : Type v}

def Request.phase : Request α κ → Phase α κ
  | .insert value checked emitCdc => .put value checked emitCdc
  | .remove wanted emitCdc => .remove wanted emitCdc
  | .removeRange start last => .removeRange start last

def Phase.pending : Phase α κ → Option (Operation α κ)
  | .commitSplit node oldMax value .. => some (.split node oldMax value)
  | .commitMax node oldMax .. => some (.updateMax node oldMax)
  | .repair node oldMax .. => some (.updateMax node oldMax)
  | _ => none

/-- The split events of a commit, with the population of the node they name. -/
def splitRecords (call : CallId) (population : Nat) (cdc : List (ChangeEvent α)) : List (Record α κ) :=
  cdc.filterMap fun
    | .splitNode _ _ splitIndex => some (.split call splitIndex population)
    | _ => none

namespace Machine
variable [LinearOrder κ]

def start (nodeCapacity : Nat) : Machine α κ := ⟨.withMaximumNodeSize nodeCapacity, fun _ => none, 0, []⟩

def move (machine : Machine α κ) (thread : ThreadId) (next : Option (CallId × Phase α κ)) (set : BTreeSet α κ)
    (records : List (Record α κ)) : Machine α κ :=
  { machine with set, threads := Function.update machine.threads thread next, history := records ++ machine.history }

abbrev goto (machine : Machine α κ) (thread : ThreadId) (call : CallId) (phase : Phase α κ) (set : BTreeSet α κ)
    (records : List (Record α κ)) : Machine α κ :=
  machine.move thread (some (call, phase)) set records

abbrev exit (machine : Machine α κ) (thread : ThreadId) (set : BTreeSet α κ) (records : List (Record α κ)) : Machine α κ :=
  machine.move thread none set records

variable [Keyed α κ]

def advance (machine : Machine α κ) (thread : ThreadId) (call : CallId) : Phase α κ → Machine α κ
  | .put value checked emitCdc =>
    match BTreeSet.putNode emitCdc value machine.set with
    | (.vacant, set) => machine.goto thread call (.root value checked emitCdc) set []
    | (.stored cdc, set) => machine.exit thread set [.returned call none cdc, .stored call value]
    | (.occupied node position, set) =>
      if checked then machine.exit thread set [.rejected call]
      else
        let (result, set) := BTreeSet.replaceNode noIdentityAdoption emitCdc value node position set
        machine.exit thread set [.returned call result.1 result.2, .stored call value]
    | (.scheduled (.split node oldMax value) cdc, set) =>
      machine.goto thread call (.commitSplit node oldMax value checked emitCdc cdc) set []
    | (.scheduled (.updateMax node oldMax) cdc, set) =>
      machine.goto thread call (.commitMax node oldMax emitCdc cdc) set [.stored call value]
  | .root value checked emitCdc =>
    match BTreeSet.createRoot emitCdc value machine.set with
    | (some cdc, set) => machine.exit thread set [.returned call none cdc, .stored call value]
    | (none, set) => machine.goto thread call (.put value checked emitCdc) set []
  | .commitSplit node oldMax value checked emitCdc cdc =>
    match BTreeSet.commitOperation noIdentityAdoption emitCdc (.split node oldMax value) machine.set with
    | (some (oldValue, committed), set) =>
      machine.exit thread set (.returned call oldValue (cdc ++ committed) :: .stored call value ::
        splitRecords call (machine.set.heap.cells node).length committed)
    | (none, set) => machine.goto thread call (.put value checked emitCdc) set []
  | .commitMax node oldMax emitCdc cdc =>
    match BTreeSet.commitOperation noIdentityAdoption emitCdc (.updateMax node oldMax) machine.set with
    | (some (oldValue, committed), set) => machine.exit thread set [.returned call oldValue (cdc ++ committed)]
    | (none, set) => machine.exit thread set [.returned call none cdc]
  | .remove wanted emitCdc =>
    match BTreeSet.removeNode id emitCdc wanted machine.set with
    | (.absent, set) => machine.exit thread set [.returned call none []]
    | (.singleton, set) => machine.goto thread call (.unlink wanted emitCdc) set []
    | (.removed deleted cdc, set) => machine.exit thread set [.returned call (some deleted) cdc, .erased call deleted]
    | (.repair deleted cdc node oldMax, set) =>
      machine.goto thread call (.repair node oldMax deleted cdc) set [.erased call deleted]
  | .unlink wanted emitCdc =>
    match BTreeSet.unlinkNode id emitCdc wanted machine.set with
    | (.absent, set) => machine.exit thread set [.returned call none []]
    | (.retry, set) => machine.goto thread call (.remove wanted emitCdc) set []
    | (.removed deleted cdc, set) => machine.exit thread set [.returned call (some deleted) cdc, .erased call deleted]
  | .repair node oldMax deleted cdc =>
    machine.exit thread (BTreeSet.commitOperation noIdentityAdoption false (.updateMax node oldMax) machine.set).2
      [.returned call (some deleted) cdc]
  | .removeRange start last =>
    machine.exit thread (BTreeSet.removeRange id start last machine.set) [.returned call none []]

def step (machine : Machine α κ) : Action α κ → Option (Machine α κ)
  | .invoke thread request =>
    match machine.threads thread with
    | some _ => none
    | none => some { machine.goto thread machine.calls request.phase machine.set [.invoked machine.calls request] with
        calls := machine.calls + 1 }
  | .advance thread =>
    match machine.threads thread with
    | none => none
    | some (call, phase) => some (machine.advance thread call phase)

/-- The states reached from an empty set by steps the condition permits. -/
inductive Reached (permits : Machine α κ → Action α κ → Prop) (nodeCapacity : Nat) : Machine α κ → Prop where
  | start : Reached permits nodeCapacity (start nodeCapacity)
  | step {before after : Machine α κ} (earlier : Reached permits nodeCapacity before) (action : Action α κ)
      (allowed : permits before action) (taken : before.step action = some after) : Reached permits nodeCapacity after

def run (machine : Machine α κ) : List (Action α κ) → Option (Machine α κ)
  | [] => some machine
  | action :: rest => (machine.step action).bind fun after => after.run rest

def Any (_ : Machine α κ) (_ : Action α κ) : Prop := True

def Quiescent (machine : Machine α κ) : Prop := ∀ thread, machine.threads thread = none

def Settled (machine : Machine α κ) : Prop :=
  ∀ thread call phase, machine.threads thread = some (call, phase) → phase.pending = none

omit [Keyed α κ] in
theorem Quiescent.settled {machine : Machine α κ} (quiescent : machine.Quiescent) : machine.Settled := by
  intro thread call phase running
  rw [quiescent thread] at running
  cases running

theorem step_history {before after : Machine α κ} {action : Action α κ} (taken : before.step action = some after) :
    ∃ records, after.history = records ++ before.history := by
  cases action with
  | invoke thread request =>
    simp only [step] at taken
    split at taken
    next => cases taken
    next => exact ⟨_, (congrArg history (Option.some.inj taken)).symm⟩
  | advance thread =>
    simp only [step] at taken
    split at taken
    next => cases taken
    next call phase _ =>
      cases taken
      cases phase <;> simp only [advance] <;> (repeat' split) <;> exact ⟨_, rfl⟩

theorem Reached.runs {permits : Machine α κ → Action α κ → Prop} {nodeCapacity : Nat} : ∀ {schedule : List (Action α κ)}
    {before after : Machine α κ}, Reached permits nodeCapacity before → (∀ machine, ∀ action ∈ schedule, permits machine action) →
    before.run schedule = some after → Reached permits nodeCapacity after
  | [], _, _, reached, _, ran => Option.some.inj ran ▸ reached
  | action :: _, _, _, reached, allowed, ran => by
    obtain ⟨middle, taken, rest⟩ := Option.bind_eq_some_iff.mp ran
    refine (reached.step action (allowed _ action List.mem_cons_self) taken).runs (fun machine other member => ?_) rest
    exact allowed machine other (List.mem_cons_of_mem _ member)

theorem Reached.run {nodeCapacity : Nat} {schedule : List (Action α κ)} {before after : Machine α κ}
    (reached : Reached Any nodeCapacity before) (ran : before.run schedule = some after) : Reached Any nodeCapacity after :=
  reached.runs (fun _ _ _ => trivial) ran

end Machine
end WorkTablesIndex
