import WorkTablesIndex.Boundaries
import WorkTablesIndex.Library.Interference

/-! No interleaving keeps the writers busy without an end. A call that goes round its loop
again was disturbed by a change of another call, and a call makes at most two changes; so
the sections of a run are bounded by its calls and threads, however they are scheduled. -/

universe u v

namespace WorkTablesIndex
open SortedMap

variable {α : Type u} {κ : Type v} [LinearOrder κ] [Keyed α κ]

namespace Phase

/-- What the call has decided no longer fits the set, so that its next section will
send it back to the head of its loop. -/
def stale (layout : Layout α κ) : Phase α κ → Bool
  | .root .. => !layout.index.entries.isEmpty
  | .commitSplit node old .. => decide (layout.index.get? old ≠ some node)
  | .unlink wanted _ =>
    match route id layout.index wanted with
    | some (_, node) => decide (1 < (layout.heap.cells node).length)
    | none => false
  | _ => false

def work (layout : Layout α κ) (phase : Phase α κ) : Nat :=
  match phase with
  | .put .. | .remove .. => 2
  | phase => if phase.stale layout then 3 else 1

/-- The changes ahead: an element goes in or out, then its node gets a new key. -/
def harm : Phase α κ → Nat
  | .commitMax .. | .repair .. | .removeRange .. => 1
  | _ => 2

omit [Keyed α κ] in
theorem work_pos (layout : Layout α κ) (phase : Phase α κ) : 0 < phase.work layout := by
  cases phase <;> simp only [work] <;> first | omega | (split <;> omega)

omit [Keyed α κ] in
/-- A change of the set costs a call at most one more round. -/
theorem work_le (before after : Layout α κ) (phase : Phase α κ) : phase.work after ≤ phase.work before + 2 := by
  cases phase <;> simp only [work] <;> first | omega | (split <;> split <;> omega)

omit [Keyed α κ] in
theorem stale_root {layout : Layout α κ} (value : α) (checked emitCdc : Bool) :
    (Phase.root value checked emitCdc : Phase α κ).stale layout = true ↔ ∃ entry, entry ∈ layout.index := by
  simp only [stale, Bool.not_eq_true', List.isEmpty_eq_false_iff_exists_mem]
  rfl

omit [Keyed α κ] in
theorem stale_commitSplit {layout : Layout α κ} (node : NodeId) (old : κ) (value : α) (checked emitCdc : Bool)
    (cdc : List (ChangeEvent α)) :
    (Phase.commitSplit node old value checked emitCdc cdc).stale layout = true ↔ (old, node) ∉ layout.index := by
  simp only [stale, decide_eq_true_eq, ne_eq, get?_eq_some]

omit [Keyed α κ] in
theorem stale_unlink {layout : Layout α κ} {wanted entry : κ} {node : NodeId} (emitCdc : Bool)
    (linked : (entry, node) ∈ layout.index) (inside : Between layout.index entry wanted) :
    (Phase.unlink wanted emitCdc : Phase α κ).stale layout = true ↔ 1 < (layout.heap.cells node).length := by
  simp only [stale, route_eq_some.mpr ⟨linked, inside⟩, decide_eq_true_eq]

end Phase

namespace Machine
variable {machine : Machine α κ} {thread : ThreadId} {call : CallId}

/-- The section gets on with the call, and uses up one of its changes if it changes the set. -/
def Works (machine : Machine α κ) (thread : ThreadId) (call : CallId) (phase : Phase α κ) (after : Machine α κ) : Prop :=
  ∃ set next records, after = machine.move thread (next.map fun phase => (call, phase)) set records ∧
    (∀ later, next = some later → later.work set.layout < phase.work machine.set.layout ∧ later.harm ≤ phase.harm) ∧
    (set.layout = machine.set.layout ∨ ∀ later, next = some later → later.harm < phase.harm)

omit [Keyed α κ] in
private theorem Works.exits {phase : Phase α κ} (set : BTreeSet α κ) (records : List (Record α κ)) :
    Works machine thread call phase (machine.exit thread set records) :=
  ⟨set, none, records, rfl, fun _ same => (nomatch same), Or.inr fun _ same => (nomatch same)⟩

omit [Keyed α κ] in
private theorem Works.waits {phase next : Phase α κ} {set : BTreeSet α κ} (records : List (Record α κ))
    (unchanged : set.layout = machine.set.layout) (works : next.work machine.set.layout < phase.work machine.set.layout)
    (harms : next.harm ≤ phase.harm) : Works machine thread call phase (machine.goto thread call next set records) :=
  ⟨set, some next, records, rfl, fun _ same => Option.some.inj same ▸ ⟨unchanged ▸ works, harms⟩, Or.inl unchanged⟩

omit [Keyed α κ] in
private theorem Works.leaves {phase next : Phase α κ} (set : BTreeSet α κ) (records : List (Record α κ))
    (works : next.work set.layout < phase.work machine.set.layout) (harms : next.harm < phase.harm) :
    Works machine thread call phase (machine.goto thread call next set records) :=
  ⟨set, some next, records, rfl, fun _ same => Option.some.inj same ▸ ⟨works, harms.le⟩,
    Or.inr fun _ same => Option.some.inj same ▸ harms⟩

private theorem put_works (valid : machine.set.Valid) (value : α) (checked emitCdc : Bool) :
    Works machine thread call (.put value checked emitCdc) (machine.advance thread call (.put value checked emitCdc)) := by
  rcases BTreeSet.putNode_cases valid emitCdc value with ⟨empty, result⟩ | ⟨entry, node, linked, _, found⟩
  · have fresh : (Phase.root value checked emitCdc : Phase α κ).stale machine.set.layout ≠ true := by
      rw [ne_eq, Phase.stale_root]
      rintro ⟨entry, member⟩
      exact empty entry member
    simp only [advance, result]
    exact .waits [] rfl (by simp [Phase.work, fresh]) le_rfl
  · generalize result : BTreeSet.putNode emitCdc value machine.set = outcome at found
    cases found with
    | full =>
      have fresh : (Phase.commitSplit node entry value checked emitCdc []).stale machine.set.layout ≠ true := by
        rw [ne_eq, Phase.stale_commitSplit]
        exact not_not.mpr linked
      simp only [advance, result]
      exact .waits [] rfl (by simp [Phase.work, fresh]) le_rfl
    | inner =>
      simp only [advance, result]
      exact .exits _ _
    | grows =>
      simp only [advance, result]
      exact .leaves _ _ (by simp [Phase.work, Phase.stale]) (by simp [Phase.harm])
    | occupied =>
      simp only [advance, result]
      split <;> exact .exits _ _

private theorem root_works (valid : machine.set.Valid) (value : α) (checked emitCdc : Bool) :
    Works machine thread call (.root value checked emitCdc) (machine.advance thread call (.root value checked emitCdc)) := by
  rcases BTreeSet.createRoot_cases valid emitCdc value with ⟨_, after, result, _⟩ | ⟨filled, result⟩
  · simp only [advance, result]
    exact .exits _ _
  · have late : (Phase.root value checked emitCdc : Phase α κ).stale machine.set.layout = true :=
      (Phase.stale_root ..).mpr filled
    simp only [advance, result]
    exact .waits [] (BTreeSet.valid_unused valid).2 (by simp [Phase.work, late]) le_rfl

private theorem commitSplit_works (valid : machine.set.Valid) (node : NodeId) (old : κ) (value : α) (checked emitCdc : Bool)
    (cdc : List (ChangeEvent α)) : Works machine thread call (.commitSplit node old value checked emitCdc cdc)
      (machine.advance thread call (.commitSplit node old value checked emitCdc cdc)) := by
  by_cases linked : (old, node) ∈ machine.set.index.index
  · obtain ⟨after, result, _⟩ := BTreeSet.commitOperation_split_some valid emitCdc value linked
    simp only [advance, result]
    exact .exits _ _
  · have result := BTreeSet.commitOperation_split_none machine.set emitCdc node old value
      (Or.inl fun found => linked (get?_eq_some.mp found))
    have late : (Phase.commitSplit node old value checked emitCdc cdc).stale machine.set.layout = true :=
      (Phase.stale_commitSplit ..).mpr linked
    simp only [advance, result]
    exact .waits [] (BTreeSet.valid_unused valid).2 (by simp [Phase.work, late]) le_rfl

private theorem remove_works (valid : machine.set.Valid) (wanted : κ) (emitCdc : Bool) :
    Works machine thread call (.remove wanted emitCdc) (machine.advance thread call (.remove wanted emitCdc)) := by
  rcases BTreeSet.removeNode_cases valid emitCdc wanted with ⟨_, result⟩ | ⟨entry, node, linked, inside, found⟩
  · simp only [advance, result]
    exact .exits _ _
  · generalize result : BTreeSet.removeNode id emitCdc wanted machine.set = outcome at found
    cases found with
    | absent =>
      simp only [advance, result]
      exact .exits _ _
    | singleton single =>
      have fresh : (Phase.unlink wanted emitCdc : Phase α κ).stale machine.set.layout ≠ true := by
        rw [ne_eq, Phase.stale_unlink emitCdc linked inside]
        exact not_lt.mpr single
      simp only [advance, result]
      exact .waits [] rfl (by simp [Phase.work, fresh]) le_rfl
    | inner =>
      simp only [advance, result]
      exact .exits _ _
    | shrinks =>
      simp only [advance, result]
      exact .leaves _ _ (by simp [Phase.work, Phase.stale]) (by simp [Phase.harm])

private theorem unlink_works (valid : machine.set.Valid) (wanted : κ) (emitCdc : Bool) :
    Works machine thread call (.unlink wanted emitCdc) (machine.advance thread call (.unlink wanted emitCdc)) := by
  rcases BTreeSet.unlinkNode_cases valid emitCdc wanted with ⟨_, result⟩ | ⟨entry, node, linked, inside, many, result⟩ |
    ⟨_, _, _, _, _, _, _, _, result, _⟩
  · simp only [advance, result]
    exact .exits _ _
  · have late : (Phase.unlink wanted emitCdc : Phase α κ).stale machine.set.layout = true :=
      (Phase.stale_unlink emitCdc linked inside).mpr many
    simp only [advance, result]
    exact .waits [] (BTreeSet.valid_unused valid).2 (by simp [Phase.work, late]) le_rfl
  · simp only [advance, result]
    exact .exits _ _

theorem advance_works (valid : machine.set.Valid) (phase : Phase α κ) :
    Works machine thread call phase (machine.advance thread call phase) := by
  cases phase with
  | put value checked emitCdc => exact put_works valid value checked emitCdc
  | root value checked emitCdc => exact root_works valid value checked emitCdc
  | commitSplit node old value checked emitCdc cdc => exact commitSplit_works valid node old value checked emitCdc cdc
  | commitMax node old emitCdc cdc =>
    simp only [advance]
    split <;> exact .exits _ _
  | remove wanted emitCdc => exact remove_works valid wanted emitCdc
  | unlink wanted emitCdc => exact unlink_works valid wanted emitCdc
  | repair node old deleted cdc => exact .exits _ _
  | removeRange start last => exact .exits _ _

def workload : Workload (Machine α κ) ThreadId where
  work machine thread := (machine.threads thread).elim 0 fun running => running.2.work machine.set.layout
  harm machine thread := (machine.threads thread).elim 0 fun running => running.2.harm

omit [Keyed α κ] in
private theorem move_other {next : Option (CallId × Phase α κ)} {set : BTreeSet α κ} {records : List (Record α κ)}
    {other : ThreadId} (apart : other ≠ thread) :
    (machine.move thread next set records).threads other = machine.threads other :=
  Function.update_of_ne apart ..

omit [Keyed α κ] in
private theorem move_own {next : Option (CallId × Phase α κ)} {set : BTreeSet α κ} {records : List (Record α κ)} :
    (machine.move thread next set records).threads thread = next := Function.update_self ..

variable {phase : Phase α κ} {after : Machine α κ}

omit [Keyed α κ] in
theorem Works.advances (works : Works machine thread call phase after) (running : machine.threads thread = some (call, phase)) :
    workload.Advances 2 thread machine after := by
  obtain ⟨set, next, records, rfl, ahead, changes⟩ := works
  have harms : workload.harm (machine.move thread (next.map fun phase => (call, phase)) set records) thread ≤
      workload.harm machine thread := by
    simp only [workload, move_own, running, Option.elim_some]
    cases next with
    | none => exact Nat.zero_le _
    | some later => exact (ahead later rfl).2
  refine ⟨?_, fun other apart => ?_, ?_⟩
  · simp only [workload, move_own, running, Option.elim_some]
    cases next with
    | none => exact phase.work_pos _
    | some later => exact (ahead later rfl).1
  · simp only [workload, move_other apart, le_refl]
  · rcases changes with unchanged | spent
    · refine Or.inl ⟨harms, fun other apart => ?_⟩
      have same : (machine.move thread (next.map fun phase => (call, phase)) set records).set.layout = machine.set.layout :=
        unchanged
      simp only [workload, move_other apart, same, le_refl]
    · refine Or.inr ⟨?_, fun other apart => ?_⟩
      · simp only [workload, move_own, running, Option.elim_some]
        cases next with
        | none => cases phase <;> simp [Phase.harm]
        | some later => exact spent later rfl
      · simp only [workload, move_other apart]
        cases machine.threads other with
        | none => exact Nat.zero_le _
        | some other => exact other.2.work_le _ _

omit [Keyed α κ] in
theorem invoke_begins (idle : machine.threads thread = none) (request : Request α κ) :
    workload.Begins 2 2 thread machine
      { machine.goto thread machine.calls request.phase machine.set [.invoked machine.calls request] with
        calls := machine.calls + 1 } := by
  refine ⟨?_, ?_, fun other apart => ?_⟩
  · simp only [workload, move_own, idle, Option.elim_some, Option.elim_none]
    cases request <;> simp [Request.phase, Phase.work, Phase.stale]
  · simp only [workload, move_own, idle, Option.elim_some, Option.elim_none]
    cases request <;> simp [Request.phase, Phase.harm]
  · simp only [workload, move_other apart]
    exact ⟨le_rfl, le_rfl⟩

end Machine

def Action.thread : Action α κ → ThreadId
  | .invoke thread _ => thread
  | .advance thread => thread

namespace Machine
variable {nodeCapacity : Nat} {threads : Finset ThreadId} {schedule : List (Action α κ)} {before after : Machine α κ}

private theorem run_runs {first : Machine α κ} {sections calls : Nat} (reached : Reached Any nodeCapacity before)
    (runs : workload.Runs 2 2 2 threads first before sections calls) (within : ∀ action ∈ schedule, action.thread ∈ threads)
    (ran : before.run schedule = some after) :
    ∃ later new, workload.Runs 2 2 2 threads first after (sections + later) (calls + new) ∧
      schedule.length = later + new ∧ after.calls = before.calls + new := by
  induction schedule generalizing before sections calls with
  | nil =>
    cases ran
    exact ⟨0, 0, runs, rfl, rfl⟩
  | cons action rest ih =>
    obtain ⟨middle, taken, ran⟩ := Option.bind_eq_some_iff.mp ran
    have there := reached.step action trivial taken
    have listed := within action List.mem_cons_self
    have others : ∀ action ∈ rest, action.thread ∈ threads :=
      fun action member => within action (List.mem_cons_of_mem _ member)
    cases action with
    | invoke thread request =>
      simp only [step] at taken
      split at taken
      next => cases taken
      next idle =>
        cases taken
        obtain ⟨later, new, runs, long, counted⟩ :=
          ih there (runs.begins thread listed (invoke_begins idle request)) others ran
        refine ⟨later, new + 1, ?_, ?_, counted.trans (Nat.add_right_comm ..)⟩
        · rwa [Nat.add_right_comm calls] at runs
        · rw [List.length_cons, long, Nat.add_assoc]
    | advance thread =>
      simp only [step] at taken
      split at taken
      next => cases taken
      next call phase running =>
        cases taken
        have works : Works before thread call phase (before.advance thread call phase) := advance_works reached.sound.valid phase
        obtain ⟨later, new, runs, long, counted⟩ := ih there (runs.advance thread listed (works.advances running)) others ran
        obtain ⟨set, next, records, moved, _⟩ := works
        refine ⟨later + 1, new, ?_, ?_, ?_⟩
        · rwa [Nat.add_right_comm sections] at runs
        · rw [List.length_cons, long, Nat.add_right_comm]
        · rw [counted, moved]
          rfl

omit [Keyed α κ] in
private theorem potential_le (machine : Machine α κ) (threads : Finset ThreadId) : workload.potential 2 threads machine ≤
    (threads.filter fun thread => (machine.threads thread).isSome).card * (4 * threads.card - 1) := by
  have each : ∀ thread ∈ threads, workload.work machine thread + 2 * (threads.card - 1) * workload.harm machine thread ≤
      if (machine.threads thread).isSome then 4 * threads.card - 1 else 0 := by
    intro thread member
    have filled : 0 < threads.card := Finset.card_pos.mpr ⟨thread, member⟩
    cases running : machine.threads thread with
    | none => simp [workload, running]
    | some pair =>
      obtain ⟨call, phase⟩ := pair
      have ahead : phase.work machine.set.layout ≤ 3 := by
        cases phase <;> simp only [Phase.work] <;> first | omega | (split <;> omega)
      have changes : phase.harm ≤ 2 := by
        cases phase <;> simp [Phase.harm]
      simp only [workload, running, Option.elim_some, Option.isSome_some, if_true]
      calc phase.work machine.set.layout + 2 * (threads.card - 1) * phase.harm
          ≤ 3 + 2 * (threads.card - 1) * 2 := Nat.add_le_add ahead (Nat.mul_le_mul_left _ changes)
        _ = 4 * threads.card - 1 := by omega
  calc workload.potential 2 threads machine
      ≤ ∑ thread ∈ threads, if (machine.threads thread).isSome then 4 * threads.card - 1 else 0 := Finset.sum_le_sum each
    _ = (threads.filter fun thread => (machine.threads thread).isSome).card * (4 * threads.card - 1) := by
        rw [← Finset.sum_filter]
        exact Finset.sum_const_nat fun _ _ => rfl

/-- From any state, the steps that so many threads can take are bounded by the calls under
way and those that begin: with no new call, every interleaving soon comes to rest. -/
theorem steps_bounded (reached : Reached Any nodeCapacity before) (within : ∀ action ∈ schedule, action.thread ∈ threads)
    (ran : before.run schedule = some after) : schedule.length ≤ (4 * threads.card - 1) *
      ((threads.filter fun thread => (before.threads thread).isSome).card + (after.calls - before.calls)) := by
  obtain ⟨later, new, runs, long, counted⟩ := run_runs reached .start within ran
  rw [Nat.zero_add, Nat.zero_add] at runs
  rcases schedule with - | ⟨action, rest⟩
  · exact Nat.zero_le _
  have filled : 0 < threads.card := Finset.card_pos.mpr ⟨_, within action List.mem_cons_self⟩
  have each : 2 + 2 * (threads.card - 1) * 2 + 1 = 4 * threads.card - 1 := by omega
  rw [long, counted, Nat.add_sub_cancel_left]
  calc later + new
      ≤ workload.potential 2 threads before + new * (2 + 2 * (threads.card - 1) * 2) + new :=
        Nat.add_le_add_right ((Nat.le_add_right ..).trans runs.bounded) new
    _ = workload.potential 2 threads before + new * (4 * threads.card - 1) := by
        rw [← each, Nat.mul_add_one new, Nat.add_assoc]
    _ ≤ _ := Nat.add_le_add_right (potential_le before threads) _
    _ = _ := by rw [← Nat.add_mul, Nat.mul_comm]

/-- Two insertions schedule a split of one full node; the second finds it gone and starts over. -/
theorem steps_bounded_race : ∃ (schedule : List (Action Nat Nat)) (after : Machine Nat Nat),
    (start 1).run schedule = some after ∧ schedule.length = 11 ∧ after.calls = 3 ∧
    schedule.length ≤ (4 * ({0, 1} : Finset ThreadId).card - 1) *
      ((({0, 1} : Finset ThreadId).filter fun thread => ((start 1 : Machine Nat Nat).threads thread).isSome).card +
        (after.calls - (start 1 : Machine Nat Nat).calls)) := by
  refine ⟨[.invoke 0 (.insert 0 false false), .advance 0, .advance 0, .invoke 0 (.insert 1 false false),
    .invoke 1 (.insert 2 false false), .advance 0, .advance 1, .advance 0, .advance 1, .advance 1, .advance 1],
    _, rfl, rfl, rfl, ?_⟩
  exact steps_bounded .start (by decide) rfl

end Machine
end WorkTablesIndex
