import WorkTablesIndex.RangeSections
import WorkTablesIndex.WeakConsistency

/-! Scans interleaved with the single sections of concurrent calls. Boundaries may be stale then:
a node that has just lost its maximum has a boundary above it, and the last node may hold values
above its own boundary until the writer that put them there has repaired it. -/

universe u v

namespace WorkTablesIndex
open SortedMap

variable {α : Type u} {κ : Type v} [LinearOrder κ] [Keyed α κ]

namespace Iter

/-- One pass of the loop of `next`, which takes at most one section: what the call returns, unless
the loop goes on, and the iterator. -/
def nextPass (set : BTreeSet α κ) (iter : Iter α) : Option (Option α) × Iter α :=
  if iter.met then (some none, iter)
  else
    match iter.frontBatch set with
    | none => (some none, iter)
    | some ([], iter) => (none, { iter with currentFrontBatch := none })
    | some (value :: rest, iter) =>
      let iter := { iter with currentFrontBatch := some rest }
      if iter.currentFrontValue.any fun last => decide (key value ≤ key last) then (none, iter)
      else if iter.currentBackValue.any fun last => decide (key last ≤ key value) then
        (some none, { iter with met := true })
      else (some (some value), { iter with currentFrontValue := some value })

def nextBackPass (set : BTreeSet α κ) (iter : Iter α) : Option (Option α) × Iter α :=
  if iter.met then (some none, iter)
  else
    match iter.backBatch set with
    | none => (some none, iter)
    | some (batch, iter) =>
      match batch.getLast? with
      | none => (none, { iter with currentBackBatch := none })
      | some value =>
        let iter := { iter with currentBackBatch := some batch.dropLast }
        if iter.currentBackValue.any fun last => decide (key last ≤ key value) then (none, iter)
        else if iter.currentFrontValue.any fun last => decide (key value ≤ key last) then
          (some none, { iter with met := true })
        else (some (some value), { iter with currentBackValue := some value })

theorem next_succ (set : BTreeSet α κ) (fuel : Nat) (iter : Iter α) : next set (fuel + 1) iter =
    match nextPass set iter with
    | (some result, after) => some (result, after)
    | (none, after) => next set fuel after := by
  rw [next, nextPass]
  cases iter.met with
  | true => rfl
  | false =>
    simp only [Bool.false_eq_true, if_false]
    cases iter.frontBatch set with
    | none => rfl
    | some ready =>
      obtain ⟨batch, iter⟩ := ready
      cases batch with
      | nil => rfl
      | cons value rest =>
        dsimp only
        split_ifs <;> rfl

theorem nextBack_succ (set : BTreeSet α κ) (fuel : Nat) (iter : Iter α) : nextBack set (fuel + 1) iter =
    match nextBackPass set iter with
    | (some result, after) => some (result, after)
    | (none, after) => nextBack set fuel after := by
  rw [nextBack, nextBackPass]
  cases iter.met with
  | true => rfl
  | false =>
    simp only [Bool.false_eq_true, if_false]
    cases iter.backBatch set with
    | none => rfl
    | some ready =>
      obtain ⟨batch, iter⟩ := ready
      dsimp only
      cases batch.getLast? with
      | none => rfl
      | some value =>
        dsimp only
        split_ifs <;> rfl

def pass (set : BTreeSet α κ) : Deque.End → Iter α → Option (Option α) × Iter α
  | .front, iter => nextPass set iter
  | .back, iter => nextBackPass set iter

theorem draw_succ (set : BTreeSet α κ) (fuel : Nat) (side : Deque.End) (iter : Iter α) : draw set (fuel + 1) side iter =
    match pass set side iter with
    | (some result, after) => some (result, after)
    | (none, after) => draw set fuel side after := by
  cases side with
  | front => exact next_succ set fuel iter
  | back => exact nextBack_succ set fuel iter

end Iter

/-- What a pass of the loop can do: the call goes on from where it stood, or it returns. -/
inductive Passes (r : κ → κ → Prop) (watch : Watch α κ) (heap : Heap α) (cursor other : Option α) (after : Direction α) :
    Option (Option α) → Bool → Prop where
  | again (ready : after.Ready r watch heap) (same : after.cursor = cursor) :
      Passes r watch heap cursor other after none false
  | returns {result : Option α} {met : Bool} (draws : Draws r watch heap cursor other after result met) :
      Passes r watch heap cursor other after (some result) met

omit [LinearOrder κ] in
theorem Passes.goes {r : κ → κ → Prop} {watch : Watch α κ} {heap : Heap α} {cursor other : Option α} {after : Direction α}
    {met : Bool} (passes : Passes r watch heap cursor other after none met) :
    after.Ready r watch heap ∧ after.cursor = cursor ∧ met = false := by
  cases passes with
  | again ready same => exact ⟨ready, same, rfl⟩

omit [LinearOrder κ] in
theorem Passes.drawn {r : κ → κ → Prop} {watch : Watch α κ} {heap : Heap α} {cursor other : Option α} {after : Direction α}
    {result : Option α} {met : Bool} (passes : Passes r watch heap cursor other after (some result) met) :
    Draws r watch heap cursor other after result met := by
  cases passes with
  | returns draws => exact draws

omit [LinearOrder κ] in
theorem Progress.pass {r : κ → κ → Prop} [IsStrictTotalOrder κ r] {watch : Watch α κ} {heap : Heap α}
    {own own' other : Direction α} {front back : List α} {outcome : Option (Option α)} {met : Bool}
    (progress : Progress r watch heap own other front back false)
    (passes : Passes r watch heap own.cursor other.cursor own' outcome met) :
    Progress r watch heap own' other (front ++ outcome.join.toList) back met := by
  cases passes with
  | returns draws => exact progress.draw draws
  | again ready same =>
    rw [Option.join_none, Option.toList_none, List.append_nil]
    refine ⟨progress.ordered, progress.reversed, progress.apart, progress.known, progress.exact, ?_,
      fun unmet => ⟨same.trans (progress.own unmet).1, ready⟩, progress.other⟩
    rw [same]
    exact progress.yielded

namespace Iter
variable {watch : Watch α κ} {set : BTreeSet α κ} {iter : Iter α}

private theorem pass_returns {side : Deque.End} {result : Option α} {after : Iter α}
    (ran : draw set 1 side iter = some (result, after)) : pass set side iter = (some result, after) := by
  rw [draw_succ] at ran
  generalize pass set side iter = passed at ran ⊢
  obtain ⟨outcome, later⟩ := passed
  cases outcome with
  | none => cases side <;> cases ran
  | some result =>
    cases ran
    rfl

/-- A linked node has values, so before the first value is yielded there is none without one beyond the cursor. -/
private theorem spent_cursor {r : κ → κ → Prop} {cursor : Option α} {entry : κ} {node : NodeId} (sound : set.layout.Sound)
    (linked : (entry, node) ∈ set.layout.index) (spent : ∀ item ∈ set.heap.cells node, ¬ Past r cursor (key item)) :
    cursor ≠ none := by
  rintro rfl
  obtain ⟨item, member⟩ := List.exists_mem_of_ne_nil _ (sound.filled entry node linked)
  exact spent item member fun last same => by cases same

def SteppedFront (index : NodeIndex κ) (iter : Iter α) : Prop :=
  ∃ entry node, iter.frontCandidate index = some (entry, node) ∧ iter.exhaustedFrontNode = some node

/-- The node that follows a finished one lies wholly beyond the cursor. -/
private theorem SteppedFront.fresh {entry : κ} {node : NodeId} (stepped : SteppedFront set.index.index iter)
    (sound : set.layout.Sound) (routed : set.layout.Routed) (chosen : iter.frontEntry set.index.index = some (entry, node)) :
    ∃ item ∈ set.heap.cells node, Past (· < ·) iter.currentFrontValue (key item) := by
  have linked : (entry, node) ∈ set.layout.index := frontEntry_mem chosen
  obtain ⟨first, drained, found, exhausted⟩ := stepped
  simp only [frontEntry, found, stepPast, exhausted, if_true] at chosen
  have after : first < entry := by simpa using (find?_eq_some.mp chosen).2.1
  obtain ⟨member, past⟩ := frontCandidate_some found
  obtain ⟨item, present⟩ := List.exists_mem_of_ne_nil _ (sound.filled entry node linked)
  have above : first < key item := (routed entry node linked item present).above (first, drained) member after
  exact ⟨item, present, fun last same => (past last same).trans above⟩

private theorem Stepped.fresh {entry : κ} {node : NodeId} (stepped : Stepped set.index.index iter)
    (sound : set.layout.Sound) (routed : set.layout.Routed) (chosen : iter.backEntry set.index.index = some (entry, node)) :
    ∃ item ∈ set.heap.cells node, Past (· > ·) iter.currentBackValue (key item) := by
  have linked : (entry, node) ∈ set.layout.index := backEntry_mem chosen
  have past := stepped.past chosen
  obtain ⟨last, drained, found, exhausted⟩ := stepped
  simp only [backEntry, found, stepPast, exhausted, if_true] at chosen
  obtain ⟨_, before, _⟩ := below?_eq_some.mp chosen
  obtain ⟨item, present⟩ := List.exists_mem_of_ne_nil _ (sound.filled entry node linked)
  have below : key item ≤ entry := (routed entry node linked item present).within (last, drained) (backCandidate_some found).1 before
  exact ⟨item, present, fun value same => below.trans_lt (past value same)⟩

theorem nextPass_passes (fit : set.layout.Fit watch) (ready : iter.forward.Ready (· < ·) watch set.heap)
    (unmet : iter.met = false) : ∃ outcome after, nextPass set iter = (outcome, after) ∧ after.backward = iter.backward ∧
      Passes (· < ·) watch set.heap iter.currentFrontValue iter.currentBackValue after.forward outcome after.met ∧
      (outcome = none → after.currentFrontBatch = none ∧ (iter.currentFrontBatch = none →
        ¬ SteppedFront set.index.index iter ∧ SteppedFront set.index.index after)) := by
  have side := ready.side
  cases held : iter.currentFrontBatch with
  | some batch =>
    simp only [forward, held, Option.getD_some] at side
    have there : iter.frontBatch set = some (batch, iter) := by simp only [frontBatch, held]
    cases batch with
    | nil =>
      refine ⟨none, { iter with currentFrontBatch := none }, ?_, rfl, ?_, fun _ => ⟨rfl, fun idle => (by cases idle)⟩⟩
      · simp only [nextPass, unmet, there, Bool.false_eq_true, if_false]
      · rw [unmet]
        exact .again ⟨side, fun missing => ⟨rfl, (ready.fresh missing).2⟩, ready.limit⟩ rfl
    | cons value rest =>
      obtain ⟨result, after, ran, frame, draws⟩ := next_cons unmet there rfl side ready.limit 0
      have returns : pass set .front iter = (some result, after) := pass_returns ran
      exact ⟨_, after, returns, frame, .returns draws, fun goes => (by cases goes)⟩
  | none =>
    simp only [forward, held, Option.getD_none] at side
    rcases installFrontBatch_fit fit side (fun missing => (ready.fresh missing).2.2) ready.limit with
      ⟨ended, done⟩ | ⟨batch, later, result, frame, same, cursor, limit, side, empty⟩
    · refine ⟨some none, iter, by simp only [nextPass, unmet, frontBatch, held, ended, Bool.false_eq_true, if_false], rfl, ?_,
        fun goes => (by cases goes)⟩
      rw [unmet]
      exact .returns (.ended done ready rfl)
    · have there : iter.frontBatch set = some (batch, later) := by simp only [frontBatch, held, result]
      cases batch with
      | nil =>
        obtain ⟨entry, node, chosen, linked, exhausted, spent⟩ := empty rfl
        have moved := spent_cursor fit.sound linked spent
        refine ⟨none, { later with currentFrontBatch := none }, ?_, frame, ?_, fun _ => ⟨rfl, fun _ => ?_⟩⟩
        · simp only [nextPass, unmet, there, Bool.false_eq_true, if_false]
        · rw [same, unmet]
          exact .again ⟨side, fun missing => absurd (cursor.symm.trans missing) moved, limit⟩ cursor
        · have fixed : ¬ SteppedFront set.index.index iter := by
            intro stepped
            obtain ⟨item, present, past⟩ := stepped.fresh fit.sound fit.routed chosen
            exact spent item present past
          rcases stepPast_eq_some chosen with candidate | ⟨first, drained, found, same, _⟩
          · refine ⟨fixed, entry, node, ?_, exhausted⟩
            simpa only [frontCandidate, cursor] using candidate
          · exact absurd ⟨first, drained, found, same⟩ fixed
      | cons value rest =>
        obtain ⟨result, after, ran, kept, draws⟩ := next_cons unmet there same side limit 0
        have other : later.currentBackValue = iter.currentBackValue := congrArg Direction.cursor frame
        have returns : pass set .front iter = (some result, after) := pass_returns ran
        exact ⟨_, after, returns, kept.trans frame, .returns (cursor ▸ other ▸ draws), fun goes => (by cases goes)⟩

theorem nextBackPass_passes (fit : set.layout.Fit watch) (ready : iter.backward.Ready (· > ·) watch set.heap)
    (unmet : iter.met = false) : ∃ outcome after, nextBackPass set iter = (outcome, after) ∧ after.forward = iter.forward ∧
      Passes (· > ·) watch set.heap iter.currentBackValue iter.currentFrontValue after.backward outcome after.met ∧
      (outcome = none → after.currentBackBatch = none ∧ (iter.currentBackBatch = none →
        ¬ Stepped set.index.index iter ∧ Stepped set.index.index after)) := by
  have side := ready.side
  cases held : iter.currentBackBatch with
  | some batch =>
    simp only [backward, held, Option.map_some, Option.getD_some] at side
    have there : iter.backBatch set = some (batch, iter) := by simp only [backBatch, held]
    rcases List.eq_nil_or_concat batch with rfl | ⟨earlier, value, rfl⟩
    · refine ⟨none, { iter with currentBackBatch := none }, ?_, rfl, ?_, fun _ => ⟨rfl, fun idle => (by cases idle)⟩⟩
      · simp only [nextBackPass, unmet, there, List.getLast?_nil, Bool.false_eq_true, if_false]
      · rw [unmet]
        exact .again ⟨side, fun missing => ⟨rfl, (ready.fresh missing).2⟩, ready.limit⟩ rfl
    · rw [List.concat_eq_append] at there side
      obtain ⟨result, after, ran, frame, draws⟩ := nextBack_concat unmet there rfl side ready.limit 0
      have returns : pass set .back iter = (some result, after) := pass_returns ran
      exact ⟨_, after, returns, frame, .returns draws, fun goes => (by cases goes)⟩
  | none =>
    simp only [backward, held, Option.map_none, Option.getD_none] at side
    rcases installBackBatch_fit fit side (fun missing => (ready.fresh missing).2.2) ready.limit with
      ⟨ended, done⟩ | ⟨batch, later, result, frame, same, cursor, limit, side, empty⟩
    · refine ⟨some none, iter, by simp only [nextBackPass, unmet, backBatch, held, ended, Bool.false_eq_true, if_false], rfl, ?_,
        fun goes => (by cases goes)⟩
      rw [unmet]
      exact .returns (.ended done ready rfl)
    · have there : iter.backBatch set = some (batch, later) := by simp only [backBatch, held, result]
      rcases List.eq_nil_or_concat batch with rfl | ⟨earlier, value, rfl⟩
      · obtain ⟨entry, node, chosen, linked, exhausted, spent⟩ := empty rfl
        have moved := spent_cursor fit.sound linked spent
        refine ⟨none, { later with currentBackBatch := none }, ?_, frame, ?_, fun _ => ⟨rfl, fun _ => ?_⟩⟩
        · simp only [nextBackPass, unmet, there, List.getLast?_nil, Bool.false_eq_true, if_false]
        · rw [same, unmet]
          exact .again ⟨side, fun missing => absurd (cursor.symm.trans missing) moved, limit⟩ cursor
        · have fixed : ¬ Stepped set.index.index iter := by
            intro stepped
            obtain ⟨item, present, past⟩ := stepped.fresh fit.sound fit.routed chosen
            exact spent item present past
          refine ⟨fixed, entry, node, ?_, exhausted⟩
          have candidate := stepped_of_ne chosen fixed
          simpa only [backCandidate, cursor] using candidate
      · rw [List.concat_eq_append] at there side
        obtain ⟨result, after, ran, kept, draws⟩ := nextBack_concat unmet there same side limit 0
        have other : later.currentFrontValue = iter.currentFrontValue := congrArg Direction.cursor frame
        have returns : pass set .back iter = (some result, after) := pass_returns ran
        exact ⟨_, after, returns, kept.trans frame, .returns (cursor ▸ other ▸ draws), fun goes => (by cases goes)⟩

def ahead : Deque.End → κ → κ → Prop
  | .front => (· < ·)
  | .back => (· > ·)

def own : Deque.End → Iter α → Direction α
  | .front, iter => iter.forward
  | .back, iter => iter.backward

def opposed : Deque.End → Iter α → Direction α
  | .front, iter => iter.backward
  | .back, iter => iter.forward

def SteppedAt (index : NodeIndex κ) : Deque.End → Iter α → Prop
  | .front, iter => iter.SteppedFront index
  | .back, iter => iter.Stepped index

theorem pass_passes {side : Deque.End} (fit : set.layout.Fit watch) (ready : (iter.own side).Ready (ahead side) watch set.heap)
    (unmet : iter.met = false) : ∃ outcome after, pass set side iter = (outcome, after) ∧
      after.opposed side = iter.opposed side ∧
      Passes (ahead side) watch set.heap (iter.own side).cursor (iter.opposed side).cursor (after.own side) outcome after.met ∧
      (outcome = none → (after.own side).batch = none ∧ ((iter.own side).batch = none →
        ¬ iter.SteppedAt set.index.index side ∧ after.SteppedAt set.index.index side)) := by
  cases side with
  | front => exact nextPass_passes fit ready unmet
  | back =>
    obtain ⟨outcome, after, ran, frame, passes, goes⟩ := nextBackPass_passes fit ready unmet
    refine ⟨outcome, after, ran, frame, passes, ?_⟩
    intro onward
    obtain ⟨emptied, steps⟩ := goes onward
    exact ⟨Option.map_eq_none_iff.mpr emptied, fun idle => steps (Option.map_eq_none_iff.mp idle)⟩

private theorem pass_goes {side : Deque.End} {after : Iter α} (fit : set.layout.Fit watch)
    (ready : (iter.own side).Ready (ahead side) watch set.heap) (unmet : iter.met = false)
    (ran : pass set side iter = (none, after)) :
    (after.own side).Ready (ahead side) watch set.heap ∧ after.met = false ∧ (after.own side).batch = none ∧
      ((iter.own side).batch = none → ¬ iter.SteppedAt set.index.index side ∧ after.SteppedAt set.index.index side) := by
  obtain ⟨_, _, same, _, passes, again⟩ := pass_passes fit ready unmet
  cases ran.symm.trans same
  obtain ⟨ready, _, unmet⟩ := passes.goes
  exact ⟨ready, unmet, again rfl⟩

private theorem draw_later {side : Deque.End} {fuel : Nat}
    (later : ∀ after, pass set side iter = (none, after) → (draw set fuel side after).isSome) :
    (draw set (fuel + 1) side iter).isSome := by
  rw [draw_succ]
  cases seen : pass set side iter with
  | mk outcome after =>
    cases outcome with
    | some result => rfl
    | none => exact later after seen

/-- Undisturbed, a call returns: it drops an empty batch, finds the first node finished, and then
reads one with a value beyond the cursor. -/
theorem draw_returns {side : Deque.End} (fit : set.layout.Fit watch)
    (ready : (iter.own side).Ready (ahead side) watch set.heap) (unmet : iter.met = false) (fuel : Nat) :
    (draw set (fuel + 3) side iter).isSome := by
  apply draw_later
  intro dropped first
  obtain ⟨ready, unmet, idle, _⟩ := pass_goes fit ready unmet first
  apply draw_later
  intro finished second
  obtain ⟨ready, unmet, emptied, steps⟩ := pass_goes fit ready unmet second
  apply draw_later
  intro after third
  obtain ⟨_, _, _, again⟩ := pass_goes fit ready unmet third
  exact absurd (steps idle).2 (again emptied).1

end Iter

section Sections
variable {set after : BTreeSet α κ} {call : CallId} {phase : Phase α κ} {next : Option (Phase α κ)}
  {records : List (Record α κ)}

private theorem stays_of_cells {before after : Layout α κ} (same : after.heap = before.heap) : before.Stays after :=
  Layout.Fewer.stays ⟨congrArg Heap.next same, fun node item member => by rwa [same] at member⟩

/-- No section moves a stored key into a node that already existed. -/
theorem section_stays (runs : Section set call phase after next records) (sound : set.layout.Sound)
    (routed : set.layout.Routed)
    (aims : ∀ node old value checked emitCdc cdc, phase = .commitSplit node old value checked emitCdc cdc →
      (old, node) ∈ set.index.index → Between set.index.index old (key value)) : set.layout.Stays after.layout := by
  cases runs with
  | again _ unchanged => exact stays_of_cells (congrArg Layout.heap unchanged)
  | rejected => exact stays_of_cells rfl
  | missed _ unchanged => exact stays_of_cells (congrArg Layout.heap unchanged)
  | schedules => exact stays_of_cells rfl
  | stores linked inside _ stored _ rewritten =>
    rw [rewritten]
    exact routed.stays linked inside stored (List.Subset.refl _) le_rfl (Heap.write_same ..)
      fun other _ apart => Heap.write_other _ _ apart
  | grows linked inside _ stored rewritten =>
    rw [rewritten]
    exact routed.stays linked inside stored (List.Subset.refl _) le_rfl (Heap.write_same ..)
      fun other _ apart => Heap.write_other _ _ apart
  | roots empty _ rooted =>
    rw [rooted]
    refine ⟨Nat.le_succ _, fun node old item member _ => ⟨item, ?_, rfl⟩⟩
    simpa [Layout.root, Heap.alloc_other _ _ old.ne] using member
  | @splits node _ _ _ _ _ _ _ _ _ linked _ stored _ divided =>
    have away : node ≠ set.layout.heap.next := (sound.allocated _ node linked).ne
    rw [divided]
    refine routed.stays linked (aims _ _ _ _ _ _ rfl linked) stored (List.subset_append_left _ _) (Nat.le_succ _) ?_
      fun other old apart => ?_
    · rw [Layout.split_cells, if_neg away, if_pos rfl]
    · rw [Layout.split_cells, if_neg old.ne, if_neg apart]
  | rekeys _ _ _ _ rekeyed => exact rekeyed ▸ stays_of_cells rfl
  | waives _ _ _ unchanged => exact stays_of_cells (congrArg Layout.heap unchanged)
  | deletes _ _ _ removed _ _ rewritten =>
    rw [rewritten]
    exact (Layout.rewrite_fewer fun item member => ((removed.mem item).mp member).1).stays
  | shrinks _ _ _ removed _ rewritten =>
    rw [rewritten]
    exact (Layout.rewrite_fewer fun item member => ((removed.mem item).mp member).1).stays
  | unlinks _ _ _ _ _ unlinked =>
    rw [unlinked]
    exact Layout.Fewer.stays ⟨rfl, (Layout.rewrite_fewer (List.nil_subset _)).cells⟩
  | sweeps _ trims => exact (Layout.trims_fewer trims).stays

end Sections

variable {nodeCapacity : Nat} {before after machine : Machine α κ}

theorem Machine.Reached.stays (reached : Machine.Reached Machine.Aimed nodeCapacity before) {action : Action α κ}
    (allowed : Machine.Aimed before action) (taken : before.step action = some after) :
    before.set.layout.Stays after.set.layout := by
  have valid := reached.sound.valid
  rcases Machine.step_cases valid taken with ⟨_, _, _, _, rfl⟩ | ⟨thread, call, phase, rfl, running, _, _, _, runs, rfl⟩
  · exact stays_of_cells rfl
  · exact section_stays runs valid.sound reached.routed (Machine.Aimed.between allowed running)

/-- The scans of a set that threads keep changing: between any two passes of a scan there may be
any number of sections. -/
inductive ScannedAmid (permits : Machine α κ → Action α κ → Prop) (nodeCapacity : Nat) : Machine α κ → Scan α κ → Prop where
  | created {machine : Machine α κ} (reached : Machine.Reached permits nodeCapacity machine) :
      ScannedAmid permits nodeCapacity machine ⟨machine.set, machine.set.iter, [machine.set], [], []⟩
  | writes {before after : Machine α κ} {scan : Scan α κ} (earlier : ScannedAmid permits nodeCapacity before scan)
      (action : Action α κ) (allowed : permits before action) (taken : before.step action = some after) :
      ScannedAmid permits nodeCapacity after { scan with set := after.set, sets := after.set :: scan.sets }
  | next {machine : Machine α κ} {scan : Scan α κ} {outcome : Option (Option α)} {iter : Iter α}
      (earlier : ScannedAmid permits nodeCapacity machine scan) (pass : scan.iter.nextPass scan.set = (outcome, iter)) :
      ScannedAmid permits nodeCapacity machine { scan with iter, front := scan.front ++ outcome.join.toList }
  | nextBack {machine : Machine α κ} {scan : Scan α κ} {outcome : Option (Option α)} {iter : Iter α}
      (earlier : ScannedAmid permits nodeCapacity machine scan) (pass : scan.iter.nextBackPass scan.set = (outcome, iter)) :
      ScannedAmid permits nodeCapacity machine { scan with iter, back := scan.back ++ outcome.join.toList }

namespace Scan
variable {scan : Scan α κ}

/-- The key has been in the set from the creation of the iterator on, and never above the boundary
of its node. -/
def SettledKey (scan : Scan α κ) (wanted : κ) : Prop := ∀ set ∈ scan.sets, set.layout.Settled wanted

def settledWatch (scan : Scan α κ) : Watch α κ := ⟨scan.SettledKey, scan.Held, scan.Seen⟩

structure CompleteSettled (scan : Scan α κ) : Prop where
  once : ∀ wanted, scan.SettledKey wanted → ((scan.front ++ scan.back).map key).count wanted = 1
  values : ∀ value, scan.Held value → scan.SettledKey (key value) → value ∈ scan.front ++ scan.back

/-- The promise of the iterator among sections: as among complete calls, except that a key may be
missed that was above the boundary of its node for a time. -/
structure ConsistentAmid (scan : Scan α κ) : Prop where
  increasing : scan.front.Pairwise fun first second => key first < key second
  decreasing : scan.back.Pairwise fun first second => key first > key second
  apart : ∀ first ∈ scan.front, ∀ second ∈ scan.back, key first ≠ key second
  genuine : ∀ value ∈ scan.front ++ scan.back, scan.Seen value
  returns : ∀ fuel, 3 ≤ fuel → (scan.iter.next scan.set fuel).isSome ∧ (scan.iter.nextBack scan.set fuel).isSome
  next_none : ∀ iter, scan.iter.nextPass scan.set = (some none, iter) → scan.CompleteSettled
  nextBack_none : ∀ iter, scan.iter.nextBackPass scan.set = (some none, iter) → scan.CompleteSettled

structure AdvancesAmid (scan : Scan α κ) : Prop where
  sound : scan.set.layout.Sound
  routed : scan.set.layout.Routed
  current : scan.set ∈ scan.sets
  progress : Progress (· < ·) scan.settledWatch scan.set.heap scan.iter.forward scan.iter.backward scan.front scan.back
    scan.iter.met

namespace AdvancesAmid

theorem fit (advances : AdvancesAmid scan) : scan.set.layout.Fit scan.settledWatch := by
  refine ⟨advances.sound, advances.routed, ⟨fun wanted settled => ?_, fun _ held => held scan.set advances.current,
    fun _ stored => ⟨scan.set, advances.current, stored⟩⟩, fun _ settled => settled scan.set advances.current⟩
  obtain ⟨entry, node, item, linked, member, same, _⟩ := settled scan.set advances.current
  exact ⟨item, ⟨entry, node, linked, member⟩, same⟩

theorem unmet (advances : AdvancesAmid scan) (unmet : scan.iter.met = false) : Progress (· < ·) scan.settledWatch
    scan.set.heap scan.iter.forward scan.iter.backward scan.front scan.back false :=
  unmet ▸ advances.progress

private theorem created {set : BTreeSet α κ} (sound : set.layout.Sound) (routed : set.layout.Routed) :
    AdvancesAmid ⟨set, set.iter, [set], [], []⟩ := by
  have positive : 0 < initialBatch := by decide
  refine ⟨sound, routed, List.mem_singleton_self set, List.Pairwise.nil, List.Pairwise.nil, by simp, by simp, by simp,
    fun wanted _ => ?_, fun _ => ⟨rfl, Side.idle, fun _ => ⟨rfl, rfl, rfl⟩, positive⟩,
    fun _ => ⟨rfl, Side.idle, fun _ => ⟨rfl, rfl, rfl⟩, positive⟩⟩
  exact Or.inr ⟨rfl, fun last same => (by cases same), fun last same => (by cases same)⟩

private theorem writes (advances : AdvancesAmid scan) {after : BTreeSet α κ} (stays : scan.set.layout.Stays after.layout)
    (sound : after.layout.Sound) (routed : after.layout.Routed) :
    AdvancesAmid { scan with set := after, sets := after :: scan.sets } := by
  refine ⟨sound, routed, List.mem_cons_self, ?_⟩
  refine advances.progress.mutate stays advances.fit.present ⟨fun _ held set member => held set (List.mem_cons_of_mem _ member),
    fun _ held set member => held set (List.mem_cons_of_mem _ member), fun value seen => ?_⟩
  obtain ⟨set, member, stored⟩ := seen
  exact ⟨set, List.mem_cons_of_mem _ member, stored⟩

private theorem ready (advances : AdvancesAmid scan) (unmet : scan.iter.met = false) (side : Deque.End) :
    (scan.iter.own side).Ready (Iter.ahead side) scan.settledWatch scan.set.heap := by
  cases side with
  | front => exact (advances.progress.own unmet).2
  | back => exact (advances.progress.other unmet).2

private theorem passes (advances : AdvancesAmid scan) (unmet : scan.iter.met = false) {side : Deque.End}
    {outcome : Option (Option α)} {iter : Iter α} (ran : scan.iter.pass scan.set side = (outcome, iter)) :
    iter.opposed side = scan.iter.opposed side ∧ Passes (Iter.ahead side) scan.settledWatch scan.set.heap
      (scan.iter.own side).cursor (scan.iter.opposed side).cursor (iter.own side) outcome iter.met := by
  obtain ⟨_, _, same, frame, passes, _⟩ := Iter.pass_passes advances.fit (advances.ready unmet side) unmet
  cases ran.symm.trans same
  exact ⟨frame, passes⟩

private theorem next (advances : AdvancesAmid scan) {outcome : Option (Option α)} {iter : Iter α}
    (ran : scan.iter.nextPass scan.set = (outcome, iter)) :
    AdvancesAmid { scan with iter, front := scan.front ++ outcome.join.toList } := by
  refine ⟨advances.sound, advances.routed, advances.current, ?_⟩
  cases met : scan.iter.met with
  | true =>
    rw [Iter.nextPass, if_pos met] at ran
    cases ran
    simpa using advances.progress
  | false =>
    obtain ⟨frame, passes⟩ : iter.backward = scan.iter.backward ∧ Passes (· < ·) _ _ _ _ iter.forward outcome iter.met :=
      advances.passes met (show scan.iter.pass scan.set .front = _ from ran)
    simp only [frame]
    exact (advances.unmet met).pass passes

private theorem nextBack (advances : AdvancesAmid scan) {outcome : Option (Option α)} {iter : Iter α}
    (ran : scan.iter.nextBackPass scan.set = (outcome, iter)) :
    AdvancesAmid { scan with iter, back := scan.back ++ outcome.join.toList } := by
  refine ⟨advances.sound, advances.routed, advances.current, ?_⟩
  cases met : scan.iter.met with
  | true =>
    rw [Iter.nextBackPass, if_pos met] at ran
    cases ran
    simpa using advances.progress
  | false =>
    obtain ⟨frame, passes⟩ : iter.forward = scan.iter.forward ∧ Passes (· > ·) _ _ _ _ iter.backward outcome iter.met :=
      advances.passes met (show scan.iter.pass scan.set .back = _ from ran)
    simp only [frame]
    exact ((advances.unmet met).flip.pass passes).flip

private theorem complete (advances : AdvancesAmid scan)
    (yielded : ∀ wanted, scan.SettledKey wanted → ∃ item, (item ∈ scan.front ∨ item ∈ scan.back) ∧ key item = wanted) :
    scan.CompleteSettled := by
  have distinct : ((scan.front ++ scan.back).map key).Nodup := by
    rw [List.Nodup, List.pairwise_map, List.pairwise_append]
    exact ⟨advances.progress.ordered.imp fun below => below.ne, advances.progress.reversed.imp fun above => above.ne',
      fun first member second there => (advances.progress.apart first member second there).ne⟩
  refine ⟨fun wanted settled => ?_, fun value held settled => ?_⟩
  · obtain ⟨item, member, rfl⟩ := yielded wanted settled
    exact List.count_eq_one_of_mem distinct (List.mem_map_of_mem (List.mem_append.mpr member))
  · obtain ⟨item, member, same⟩ := yielded (key value) settled
    rw [advances.progress.exact item member value held same.symm]
    exact List.mem_append.mpr member

private theorem complete_met (advances : AdvancesAmid scan) (met : scan.iter.met = true) : scan.CompleteSettled := by
  refine advances.complete fun wanted settled => (advances.progress.yielded wanted settled).resolve_right fun pending => ?_
  cases met.symm.trans pending.1

theorem consistentAmid (advances : AdvancesAmid scan) : scan.ConsistentAmid := by
  refine ⟨advances.progress.ordered, advances.progress.reversed,
    fun first member second there => (advances.progress.apart first member second there).ne,
    fun value member => advances.progress.known value (List.mem_append.mp member), fun fuel enough => ?_,
    fun iter ran => ?_, fun iter ran => ?_⟩
  · obtain ⟨more, rfl⟩ := Nat.exists_eq_add_of_le' enough
    cases met : scan.iter.met with
    | true => simp [Iter.next, Iter.nextBack, met]
    | false =>
      have returns (side : Deque.End) : (scan.iter.draw scan.set (more + 3) side).isSome :=
        Iter.draw_returns advances.fit (advances.ready met side) met more
      exact ⟨returns .front, returns .back⟩
  · cases met : scan.iter.met with
    | true => exact advances.complete_met met
    | false =>
      have passes := (advances.passes met (show scan.iter.pass scan.set .front = _ from ran)).2
      exact advances.complete fun wanted settled => (advances.unmet met).complete passes.drawn settled
  · cases met : scan.iter.met with
    | true => exact advances.complete_met met
    | false =>
      have passes := (advances.passes met (show scan.iter.pass scan.set .back = _ from ran)).2
      apply advances.complete
      intro wanted settled
      obtain ⟨item, member, same⟩ := (advances.unmet met).flip.complete passes.drawn settled
      exact ⟨item, member.symm, same⟩

end AdvancesAmid
end Scan

namespace ScannedAmid
variable {scan : Scan α κ}

theorem reached {permits : Machine α κ → Action α κ → Prop} (scanned : ScannedAmid permits nodeCapacity machine scan) :
    Machine.Reached permits nodeCapacity machine ∧ scan.set = machine.set := by
  induction scanned with
  | created reached => exact ⟨reached, rfl⟩
  | writes _ action allowed taken ih => exact ⟨ih.1.step action allowed taken, rfl⟩
  | next _ _ ih => exact ih
  | nextBack _ _ ih => exact ih

theorem advances (scanned : ScannedAmid Machine.Aimed nodeCapacity machine scan) : scan.AdvancesAmid := by
  induction scanned with
  | created reached => exact .created reached.sound.valid.sound reached.routed
  | writes earlier action allowed taken advances =>
    obtain ⟨reached, same⟩ := earlier.reached
    have later := reached.step action allowed taken
    exact advances.writes (same ▸ reached.stays allowed taken) later.sound.valid.sound later.routed
  | next _ pass advances => exact advances.next pass
  | nextBack _ pass advances => exact advances.nextBack pass

/-- Scans are consistent among the single sections of any number of writers: whatever sections come
between the passes of its calls, both ends return in order and never the same key, only values of
the set, and a scan that returns `None` has returned every key that was in the set from the creation
of the iterator on and never above the boundary of its node. -/
theorem consistent_amid_sections (scanned : ScannedAmid Machine.Aimed nodeCapacity machine scan) : scan.ConsistentAmid :=
  scanned.advances.consistentAmid

/-- Between two passes a split takes 20 to a new node. -/
theorem consistent_amid_sections_split : ∃ (machine : Machine Nat Nat) (scan : Scan Nat Nat),
    ScannedAmid Machine.Aimed 2 machine scan ∧ scan.front = [10, 20, 30] ∧ scan.CompleteSettled ∧
      (∀ wanted ∈ [10, 20], scan.SettledKey wanted) := by
  obtain ⟨machine, scan, scanned, front, ⟨iter, ended⟩, settled⟩ : ∃ (machine : Machine Nat Nat) (scan : Scan Nat Nat),
      ScannedAmid Machine.Aimed 2 machine scan ∧ scan.front = [10, 20, 30] ∧
        (∃ iter, scan.iter.nextPass scan.set = (some none, iter)) ∧
        ∀ wanted ∈ [10, 20], ∀ set ∈ scan.sets, set.layout.Settled wanted :=
    ⟨_, _, .next (.next (.next (.next (.next (.writes (.next (.writes (.writes (.created
      (.step (.step (.step (.step (.step (.step .start
      (.invoke 0 (.insert 10 false false)) trivial rfl) (.advance 0) trivial rfl)
      (.advance 0) trivial rfl)
      (.invoke 0 (.insert 20 false false)) trivial rfl) (.advance 0) trivial rfl)
      (.advance 0) trivial rfl))
      (.invoke 1 (.insert 30 false false)) trivial rfl) (.advance 1) trivial rfl) rfl)
      (.advance 1) (fun _ => rfl) rfl) rfl) rfl) rfl) rfl) rfl, rfl, ⟨_, rfl⟩, by decide⟩
  exact ⟨machine, scan, scanned, front, scanned.consistent_amid_sections.next_none iter ended, settled⟩

/-- 20 is stored above the boundary 10, which its insertion has yet to repair. The insertion of 15
returns, and yet a scan that begins only then and comes to its end misses 15. -/
theorem misses_unsettled : ∃ (machine : Machine Nat Nat) (scan : Scan Nat Nat),
    ScannedAmid Machine.Aimed 8 machine scan ∧ machine.threads 1 = none ∧ (∀ set ∈ scan.sets, set.layout.Stored 15) ∧
      scan.front = [1, 2, 3, 10] ∧ scan.back = [] ∧ ∃ iter, scan.iter.nextPass scan.set = (some none, iter) := by
  obtain ⟨machine, scan, scanned, returned, held, front, back, ended⟩ : ∃ (machine : Machine Nat Nat) (scan : Scan Nat Nat),
      ScannedAmid Machine.Aimed 8 machine scan ∧ machine.threads 1 = none ∧ (∀ set ∈ scan.sets, 15 ∈ set.nodes.flatten) ∧
        scan.front = [1, 2, 3, 10] ∧ scan.back = [] ∧ ∃ iter, scan.iter.nextPass scan.set = (some none, iter) :=
    ⟨_, _, .next (.next (.next (.next (.next (.created (.step (.step (.step (.step (.step (.step (.step (.step (.step
      (.step (.step (.step (.step .start
      (.invoke 0 (.insert 10 false false)) trivial rfl) (.advance 0) trivial rfl)
      (.advance 0) trivial rfl)
      (.invoke 0 (.insert 1 false false)) trivial rfl) (.advance 0) trivial rfl)
      (.invoke 0 (.insert 2 false false)) trivial rfl) (.advance 0) trivial rfl)
      (.invoke 0 (.insert 3 false false)) trivial rfl) (.advance 0) trivial rfl)
      (.invoke 0 (.insert 20 false false)) trivial rfl) (.advance 0) trivial rfl)
      (.invoke 1 (.insert 15 false false)) trivial rfl) (.advance 1) trivial rfl))
      rfl) rfl) rfl) rfl) rfl, rfl, by decide, rfl, rfl, ⟨_, rfl⟩⟩
  exact ⟨machine, scan, scanned, returned, fun set member => (BTreeSet.mem_flatten_nodes 15).mp (held set member), front, back, ended⟩

end ScannedAmid
end WorkTablesIndex
