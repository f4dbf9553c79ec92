import WorkTablesIndex.Drawing

/-! What a section emits, and that a section which nobody interrupts is one step of the
coarse machine. -/

universe u v

namespace WorkTablesIndex

variable {α : Type u} {κ : Type v} [LinearOrder κ] [Keyed α κ]

/-- The events are numbered from the counter on, and there are none unless the call asked
for them. -/
structure Numbered (emitCdc : Bool) (before after : Id) (cdc : List (ChangeEvent α)) : Prop where
  assigned : assignIds before (cdc.map ChangeEvent.unassign) = cdc
  counter : after = before + cdc.length
  mute : emitCdc = false → cdc = []

omit [LinearOrder κ] [Keyed α κ] in
theorem Numbered.nil (emitCdc : Bool) (eventId : Id) : Numbered emitCdc eventId eventId ([] : List (ChangeEvent α)) :=
  ⟨rfl, rfl, fun _ => rfl⟩

def PutStep.cdc : PutStep α κ → List (ChangeEvent α)
  | .stored cdc => cdc
  | .scheduled _ cdc => cdc
  | _ => []

def RemoveStep.cdc : RemoveStep α κ → List (ChangeEvent α)
  | .removed _ cdc => cdc
  | .repair _ cdc _ _ => cdc
  | _ => []

def UnlinkStep.cdc : UnlinkStep α → List (ChangeEvent α)
  | .removed _ cdc => cdc
  | _ => []

namespace BTreeSet

omit [Keyed α κ] in
theorem emit_numbered (emitCdc : Bool) (events : List (ChangeEventUnassigned α)) {set : BTreeSet α κ} {eventId : Id}
    (same : set.eventId = eventId) : Numbered emitCdc eventId (emit emitCdc events set).2.eventId (emit emitCdc events set).1 := by
  subst same
  cases emitCdc with
  | false => exact .nil false set.eventId
  | true => exact ⟨by simp [emit], by simp [emit], fun impossible => by cases impossible⟩

theorem putNode_numbered (emitCdc : Bool) (value : α) (set : BTreeSet α κ) :
    Numbered emitCdc set.eventId (putNode emitCdc value set).2.eventId (putNode emitCdc value set).1.cdc := by
  simp only [putNode]
  split
  next => exact .nil emitCdc set.eventId
  next routingKey node _ =>
    split
    next => exact .nil emitCdc set.eventId
    next =>
      split
      next =>
        split
        all_goals
          simp only [PutStep.cdc]
          exact emit_numbered emitCdc _ rfl
      next => exact .nil emitCdc set.eventId

theorem putNode_split {emitCdc : Bool} {value item : α} {set after : BTreeSet α κ} {node : NodeId} {oldMax : κ}
    {cdc : List (ChangeEvent α)} (scheduled : putNode emitCdc value set = (.scheduled (.split node oldMax item) cdc, after)) :
    cdc = [] ∧ after = set := by
  simp only [putNode] at scheduled
  split at scheduled
  next => cases scheduled
  next =>
    split at scheduled
    next => cases scheduled; exact ⟨rfl, rfl⟩
    next =>
      split at scheduled
      next => split at scheduled <;> cases scheduled
      next => cases scheduled

theorem createRoot_numbered (emitCdc : Bool) (value : α) (set : BTreeSet α κ) :
    Numbered emitCdc set.eventId (createRoot emitCdc value set).2.eventId ((createRoot emitCdc value set).1.getD []) := by
  simp only [createRoot]
  split
  next => exact emit_numbered emitCdc _ rfl
  next => exact .nil emitCdc set.eventId

theorem commitOperation_numbered (emitCdc : Bool) (operation : Operation α κ) (set : BTreeSet α κ) :
    Numbered emitCdc set.eventId (commitOperation noIdentityAdoption emitCdc operation set).2.eventId
      (((commitOperation noIdentityAdoption emitCdc operation set).1.map Prod.snd).getD []) := by
  simp only [commitOperation]
  split
  next => exact .nil emitCdc set.eventId
  next committed _ => exact emit_numbered emitCdc committed.events rfl

omit [Keyed α κ] in
theorem replaceNode_numbered (emitCdc : Bool) (value : α) (node : NodeId) (position : Nat) (set : BTreeSet α κ) :
    Numbered emitCdc set.eventId (replaceNode noIdentityAdoption emitCdc value node position set).2.eventId
      (replaceNode noIdentityAdoption emitCdc value node position set).1.2 := by
  simp only [replaceNode]
  split
  next => exact .nil emitCdc set.eventId
  next => exact emit_numbered emitCdc _ rfl

theorem removeNode_numbered (emitCdc : Bool) (wanted : κ) (set : BTreeSet α κ) :
    Numbered emitCdc set.eventId (removeNode id emitCdc wanted set).2.eventId (removeNode id emitCdc wanted set).1.cdc := by
  simp only [removeNode]
  split
  next => exact .nil emitCdc set.eventId
  next =>
    split
    next => split <;> exact .nil emitCdc set.eventId
    next =>
      split
      next => exact .nil emitCdc set.eventId
      next =>
        split
        all_goals
          simp only [RemoveStep.cdc]
          exact emit_numbered emitCdc _ rfl

theorem unlinkNode_numbered (emitCdc : Bool) (wanted : κ) (set : BTreeSet α κ) :
    Numbered emitCdc set.eventId (unlinkNode id emitCdc wanted set).2.eventId (unlinkNode id emitCdc wanted set).1.cdc := by
  simp only [unlinkNode]
  split
  next => exact .nil emitCdc set.eventId
  next =>
    split
    next => exact .nil emitCdc set.eventId
    next =>
      split
      next => exact .nil emitCdc set.eventId
      next =>
        simp only [UnlinkStep.cdc]
        exact emit_numbered emitCdc _ rfl

theorem removeRange_eventId (start last : Bound κ) (set : BTreeSet α κ) :
    (removeRange id start last set).eventId = set.eventId := by
  simp only [removeRange]
  repeat' split
  all_goals rfl

end BTreeSet

structure Uninterrupted (machine : Machine α κ) (thread : ThreadId) (call : CallId) (entered : Critical α κ)
    (after : Machine α κ) : Prop where
  moved : after = machine.move thread
    ((entered.exit.next (entered.carried ++ assignIds machine.set.eventId entered.events)).map (call, ·)) entered.set
    (entered.exit.records call (entered.carried ++ assignIds machine.set.eventId entered.events) ++ entered.noted)
  counter : entered.set.eventId = machine.set.eventId + entered.events.length

omit [Keyed α κ] in
private theorem Uninterrupted.numbered {machine : Machine α κ} {thread : ThreadId} {call : CallId} {emitCdc : Bool}
    {set : BTreeSet α κ} {place : Place} {mutated : List NodeId} {cdc carried : List (ChangeEvent α)}
    {noted : List (Record α κ)} {exit : Exit α κ} (numbered : Numbered emitCdc machine.set.eventId set.eventId cdc) :
    Uninterrupted machine thread call ⟨set, place, mutated, cdc.map ChangeEvent.unassign, carried, noted, exit⟩
      (machine.move thread ((exit.next (carried ++ cdc)).map (call, ·)) set (exit.records call (carried ++ cdc) ++ noted)) := by
  refine ⟨?_, ?_⟩
  · simp only [numbered.assigned]
  · simpa only [List.length_map] using numbered.counter

omit [Keyed α κ] in
private theorem Uninterrupted.quiet {machine : Machine α κ} {thread : ThreadId} {call : CallId} {set : BTreeSet α κ}
    {place : Place} {carried : List (ChangeEvent α)} {exit : Exit α κ} (same : set.eventId = machine.set.eventId) :
    Uninterrupted machine thread call (.quiet place set carried exit)
      (machine.move thread ((exit.next carried).map (call, ·)) set (exit.records call carried)) := by
  refine ⟨?_, same⟩
  simp only [Critical.quiet, assignIds, List.append_nil]

theorem Machine.advance_uninterrupted (machine : Machine α κ) (thread : ThreadId) (call : CallId) (phase : Phase α κ) :
    Uninterrupted machine thread call (machine.set.critical call phase) (machine.advance thread call phase) := by
  cases phase with
  | put value checked emitCdc =>
    have numbered := BTreeSet.putNode_numbered emitCdc value machine.set
    rcases result : BTreeSet.putNode emitCdc value machine.set with ⟨step, after⟩
    rw [result] at numbered
    simp only [Machine.advance, BTreeSet.critical, result]
    cases step with
    | vacant => exact .quiet numbered.counter
    | stored cdc => exact .numbered numbered
    | occupied node position =>
      have counter : after.eventId = machine.set.eventId := numbered.counter
      cases checked with
      | true => exact .quiet counter
      | false => exact .numbered (counter ▸ BTreeSet.replaceNode_numbered emitCdc value node position after)
    | scheduled operation cdc =>
      cases operation with
      | split node oldMax item =>
        obtain ⟨rfl, rfl⟩ := BTreeSet.putNode_split result
        exact .quiet rfl
      | updateMax node oldMax => exact .numbered numbered
  | root value checked emitCdc =>
    have numbered := BTreeSet.createRoot_numbered emitCdc value machine.set
    rcases result : BTreeSet.createRoot emitCdc value machine.set with ⟨created, after⟩
    rw [result] at numbered
    simp only [Machine.advance, BTreeSet.critical, result]
    cases created with
    | none => exact .quiet numbered.counter
    | some cdc => exact .numbered numbered
  | commitSplit node oldMax value checked emitCdc cdc =>
    have numbered := BTreeSet.commitOperation_numbered emitCdc (.split node oldMax value) machine.set
    rcases result : BTreeSet.commitOperation noIdentityAdoption emitCdc (.split node oldMax value) machine.set with
      ⟨committed, after⟩
    rw [result] at numbered
    simp only [Machine.advance, BTreeSet.critical, result]
    cases committed with
    | none => exact .quiet numbered.counter
    | some outcome => exact .numbered numbered
  | commitMax node oldMax emitCdc cdc =>
    have numbered := BTreeSet.commitOperation_numbered emitCdc (.updateMax node oldMax) machine.set
    rcases result : BTreeSet.commitOperation noIdentityAdoption emitCdc (.updateMax node oldMax) machine.set with
      ⟨committed, after⟩
    rw [result] at numbered
    simp only [Machine.advance, BTreeSet.critical, result]
    cases committed with
    | none => exact .quiet numbered.counter
    | some outcome => exact .numbered numbered
  | remove wanted emitCdc =>
    have numbered := BTreeSet.removeNode_numbered emitCdc wanted machine.set
    rcases result : BTreeSet.removeNode id emitCdc wanted machine.set with ⟨step, after⟩
    rw [result] at numbered
    simp only [Machine.advance, BTreeSet.critical, result]
    cases step with
    | absent => exact .quiet numbered.counter
    | singleton => exact .quiet numbered.counter
    | removed deleted cdc => exact .numbered numbered
    | repair deleted cdc node oldMax => exact .numbered numbered
  | unlink wanted emitCdc =>
    have numbered := BTreeSet.unlinkNode_numbered emitCdc wanted machine.set
    rcases result : BTreeSet.unlinkNode id emitCdc wanted machine.set with ⟨step, after⟩
    rw [result] at numbered
    simp only [Machine.advance, BTreeSet.critical, result]
    cases step with
    | absent => exact .quiet numbered.counter
    | retry => exact .quiet numbered.counter
    | removed deleted cdc => exact .numbered numbered
  | repair node oldMax deleted cdc =>
    have numbered := BTreeSet.commitOperation_numbered false (.updateMax node oldMax) machine.set
    simp only [Machine.advance, BTreeSet.critical]
    refine .quiet ?_
    rw [numbered.counter, numbered.mute rfl]
    rfl
  | removeRange first last => exact ⟨rfl, BTreeSet.removeRange_eventId first last machine.set⟩

namespace CdcMachine
variable {machine : CdcMachine α κ} {thread : ThreadId} {call : CallId}

/-- The coarse machine does not see a section that is under way. -/
def coarse (machine : CdcMachine α κ) : Machine α κ where
  set := machine.set
  threads thread := match machine.threads thread with
    | some (call, .outside phase) => some (call, phase)
    | _ => none
  calls := machine.calls
  history := machine.history

theorem run_append {middle : CdcMachine α κ} {first : List (CdcAction α κ)} (second : List (CdcAction α κ))
    (ran : machine.run first = some middle) : machine.run (first ++ second) = middle.run second := by
  induction first generalizing machine with
  | nil => rw [← Option.some.inj ran]; rfl
  | cons action rest ih =>
    obtain ⟨next, taken, rest⟩ := Option.bind_eq_some_iff.mp ran
    simp only [List.cons_append, run, taken, Option.bind_some]
    exact ih rest

theorem Reached.runs {nodeCapacity : Nat} {after : CdcMachine α κ} (reached : Reached nodeCapacity machine)
    {schedule : List (CdcAction α κ)} (ran : machine.run schedule = some after) : Reached nodeCapacity after := by
  induction schedule generalizing machine with
  | nil => exact Option.some.inj ran ▸ reached
  | cons action rest ih =>
    obtain ⟨middle, taken, rest⟩ := Option.bind_eq_some_iff.mp ran
    exact ih (reached.step action taken) rest

def drawAll (machine : CdcMachine α κ) (thread : ThreadId) (call : CallId) (events : List (ChangeEventUnassigned α))
    (drawn : List (ChangeEvent α)) (exit : Exit α κ) : CdcMachine α κ :=
  { machine with
    set := { machine.set with eventId := machine.set.eventId + events.length }
    threads := Function.update machine.threads thread
      (some (call, .inside [] (drawn ++ assignIds machine.set.eventId events) exit))
    draws := machine.draws ++ List.replicate events.length call }

theorem run_draws {events : List (ChangeEventUnassigned α)} {drawn : List (ChangeEvent α)} {exit : Exit α κ}
    (standing : machine.threads thread = some (call, .inside events drawn exit)) :
    machine.run (List.replicate events.length (.draw thread)) = some (machine.drawAll thread call events drawn exit) := by
  induction events generalizing machine drawn with
  | nil =>
    simp [drawAll, assignIds, run, ← standing]
  | cons event rest ih =>
    have taken : machine.step (.draw thread) = some (machine.draw thread call event rest drawn exit) := by
      simp only [step, standing]
    simp only [List.length_cons, List.replicate_succ, run, taken, Option.bind_some]
    have standing : (machine.draw thread call event rest drawn exit).threads thread =
        some (call, .inside rest (drawn ++ [event.assignId machine.set.eventId]) exit) := Function.update_self ..
    rw [ih standing]
    simp [drawAll, draw, assignIds, List.replicate_succ, Nat.add_assoc, Nat.add_comm 1]

def through (machine : CdcMachine α κ) (thread : ThreadId) (call : CallId) (entered : Critical α κ) : CdcMachine α κ :=
  ((machine.enter thread call entered).drawAll thread call entered.events entered.carried entered.exit).leave thread call
    (entered.carried ++ assignIds machine.set.eventId entered.events) entered.exit

theorem run_through {phase : Phase α κ} (free : machine.holds = [])
    (standing : machine.threads thread = some (call, .outside phase)) :
    let entered := machine.set.critical call phase
    machine.run (.enter thread :: (List.replicate entered.events.length (.draw thread) ++ [.leave thread])) =
      some (machine.through thread call entered) := by
  intro entered
  have taken : machine.step (.enter thread) = some (machine.enter thread call entered) := by
    simp only [step, standing, free, List.all_nil, if_true, entered]
  have drawn := (run_draws (Function.update_self ..) :
    (machine.enter thread call entered).run _ = _)
  have left : ((machine.enter thread call entered).drawAll thread call entered.events entered.carried entered.exit).step
      (.leave thread) = some (machine.through thread call entered) := by
    simp only [step, through, drawAll, Function.update_self, enter]
  simp only [run, taken, Option.bind_some, run_append _ drawn, left]

omit [Keyed α κ] in
@[simp] theorem through_threads (machine : CdcMachine α κ) (thread : ThreadId) (call : CallId) (entered : Critical α κ) :
    (machine.through thread call entered).threads = Function.update machine.threads thread
      ((entered.exit.next (entered.carried ++ assignIds machine.set.eventId entered.events)).map fun phase =>
        (call, .outside phase)) := by
  simp [through, leave, drawAll, enter]

omit [Keyed α κ] in
@[simp] theorem through_holds (free : machine.holds = []) (entered : Critical α κ) :
    (machine.through thread call entered).holds = [] := by
  simp [through, leave, drawAll, enter, free]

/-- A section that is not interrupted is one step of the coarse machine. -/
theorem through_coarse (machine : CdcMachine α κ) (thread : ThreadId) (call : CallId) (phase : Phase α κ) :
    (machine.through thread call (machine.set.critical call phase)).coarse = machine.coarse.advance thread call phase := by
  obtain ⟨moved, counter⟩ := machine.coarse.advance_uninterrupted thread call phase
  rw [moved]
  simp only [show machine.coarse.set = machine.set from rfl] at counter ⊢
  generalize machine.set.critical call phase = entered at counter
  have threads : (machine.through thread call entered).coarse.threads = Function.update machine.coarse.threads thread
      ((entered.exit.next (entered.carried ++ assignIds machine.set.eventId entered.events)).map (call, ·)) := by
    funext other
    by_cases here : other = thread
    · subst here
      simp only [coarse, through_threads, Function.update_self]
      generalize entered.exit.next _ = next
      cases next <;> rfl
    · simp [coarse, Function.update_of_ne here]
  have set : (machine.through thread call entered).set = entered.set := by
    simp [through, leave, drawAll, enter, ← counter]
  have history : (machine.through thread call entered).history = entered.exit.records call
      (entered.carried ++ assignIds machine.set.eventId entered.events) ++ entered.noted ++ machine.history := by
    simp [through, leave, drawAll, enter]
  simp only [Machine.move, ← threads]
  simp only [coarse, set, history]
  rfl

/-- Whatever the coarse machine does, this one can do. -/
theorem coarse_reached {nodeCapacity : Nat} {target : Machine α κ} (reached : Machine.Reached Machine.Any nodeCapacity target) :
    ∃ machine, Reached nodeCapacity machine ∧ machine.coarse = target ∧ machine.holds = [] ∧
      ∀ thread call standing, machine.threads thread = some (call, standing) → ∃ phase, standing = .outside phase := by
  induction reached with
  | start => exact ⟨_, .start, rfl, rfl, fun _ _ _ running => by cases running⟩
  | step earlier action allowed taken ih =>
    obtain ⟨machine, reached, rfl, free, outside⟩ := ih
    cases action with
    | invoke thread request =>
      have idle : machine.threads thread = none := by
        cases running : machine.threads thread with
        | none => rfl
        | some current =>
          obtain ⟨call, standing⟩ := current
          obtain ⟨phase, rfl⟩ := outside thread call standing running
          have busy : machine.coarse.threads thread = some (call, phase) := by simp only [coarse, running]
          simp [Machine.step, busy] at taken
      have quiet : machine.coarse.threads thread = none := by simp only [coarse, idle]
      simp only [Machine.step, quiet, Option.some.injEq] at taken
      have invoked : machine.step (.invoke thread request) = some { machine with
          threads := Function.update machine.threads thread (some (machine.calls, .outside request.phase))
          history := .invoked machine.calls request :: machine.history
          calls := machine.calls + 1 } := by
        simp only [step, idle]
      refine ⟨_, reached.step _ invoked, ?_, free, fun other call standing running => ?_⟩
      · rw [← taken]
        simp only [Machine.move, coarse]
        congr 1
        funext other
        by_cases here : other = thread
        · subst here
          simp
        · simp [Function.update_of_ne here]
      · by_cases here : other = thread
        · subst here
          simp only [Function.update_self, Option.some.injEq, Prod.mk.injEq] at running
          exact ⟨_, running.2.symm⟩
        · simp only [Function.update_of_ne here] at running
          exact outside other call standing running
    | advance thread =>
      simp only [Machine.step] at taken
      split at taken
      next => cases taken
      next call phase running =>
        cases taken
        have standing : machine.threads thread = some (call, .outside phase) := by
          simp only [coarse] at running
          split at running
          next caller current seen => cases running; exact seen
          next => cases running
        refine ⟨_, reached.runs (run_through free standing), through_coarse machine thread call phase,
          through_holds free _, fun other caller current there => ?_⟩
        by_cases here : other = thread
        · subst here
          simp only [through_threads, Function.update_self, Option.map_eq_some_iff, Prod.mk.injEq] at there
          obtain ⟨phase, -, -, same⟩ := there
          exact ⟨phase, same.symm⟩
        · rw [through_threads, Function.update_of_ne here] at there
          exact outside other caller current there

end CdcMachine
end WorkTablesIndex
