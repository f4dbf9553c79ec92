import WorkTablesIndex.ConcurrentReplay

/-! The events of a running system. Sections that do not exclude each other draw their
numbers alternately, so a log in the order of the numbers is not one section after the
other. It still replays, because what two such sections touch on the consumer's side is
disjoint. -/

universe u v

namespace WorkTablesIndex
open Relation SortedMap PersistedBTreeMap

variable {α : Type u} {κ : Type v} [LinearOrder κ] [Keyed α κ]

theorem BTreeSet.critical_section {set : BTreeSet α κ} (valid : set.Valid) (call : CallId) (phase : Phase α κ) :
    ∃ drawn records, Section set call phase (set.critical call phase).set ((set.critical call phase).exit.next drawn) records := by
  let machine : Machine α κ := ⟨set, fun _ => none, 0, []⟩
  obtain ⟨moved, _⟩ := machine.advance_uninterrupted 0 call phase
  have moves : machine.Moves 0 call phase (machine.advance 0 call phase) := Machine.advance_moves valid phase
  obtain ⟨after, next, records, runs, same⟩ := moves
  have equal := moved.symm.trans same
  have sets : (set.critical call phase).set = after := congrArg Machine.set equal
  have threads := congrFun (congrArg Machine.threads equal) 0
  simp only [Machine.move, Function.update_self] at threads
  have next := Option.map_injective (fun _ _ same => (Prod.mk.inj same).2) threads
  exact ⟨_, records, sets ▸ next ▸ runs⟩

namespace Standing

def Recording : Standing α κ → Prop
  | .outside phase => phase.Recording
  | .inside _ _ exit => ∀ next, exit = .again next → next.Recording

def repairs : Standing α κ → Option (NodeId × κ)
  | .outside phase => phase.repairs
  | .inside _ drawn exit => (exit.next drawn).bind Phase.repairs

end Standing

omit [LinearOrder κ] [Keyed α κ] in
theorem Request.recording {request : Request α κ} (emits : request.emitsCdc = true) : request.phase.Recording := by
  cases request with
  | removeRange start last => cases emits
  | _ => exact emits

omit [LinearOrder κ] [Keyed α κ] in
private theorem next_repairs (exit : Exit α κ) (first second : List (ChangeEvent α)) :
    (exit.next first).bind Phase.repairs = (exit.next second).bind Phase.repairs := by
  cases exit <;> rfl

private theorem section_recording {set after : BTreeSet α κ} {call : CallId} {phase next : Phase α κ} {records : List (Record α κ)}
    (runs : Section set call phase after (some next) records) (recording : phase.Recording) : next.Recording := by
  cases runs with
  | again _ _ retries =>
    rcases retries with ⟨_, _, _, rfl, rfl⟩ | ⟨_, _, _, rfl, rfl⟩ | ⟨_, _, _, _, _, _, rfl, rfl⟩ | ⟨_, _, rfl, rfl⟩ |
      ⟨_, _, rfl, rfl⟩ <;>
      exact recording
  | schedules _ _ => exact recording
  | grows _ _ _ _ _ => trivial
  | shrinks _ _ _ _ _ _ => trivial

namespace CdcMachine
variable {machine before after : CdcMachine α κ} {action : CdcAction α κ} {nodeCapacity : Nat}

/-- The runs whose calls ask for events and whose splits the consumer can follow. -/
def Replayable (machine : CdcMachine α κ) : CdcAction α κ → Prop
  | .invoke _ request => request.emitsCdc = true
  | .enter thread =>
    match machine.threads thread with
    | some (_, .outside phase) => phase.SplitsWell machine.set
    | _ => True
  | _ => True

inductive ReachedBy (permits : CdcMachine α κ → CdcAction α κ → Prop) (nodeCapacity : Nat) : CdcMachine α κ → Prop where
  | start : ReachedBy permits nodeCapacity (start nodeCapacity)
  | step {before after : CdcMachine α κ} (earlier : ReachedBy permits nodeCapacity before) (action : CdcAction α κ)
      (allowed : permits before action) (taken : before.step action = some after) : ReachedBy permits nodeCapacity after

theorem ReachedBy.reached {permits : CdcMachine α κ → CdcAction α κ → Prop} (reached : ReachedBy permits nodeCapacity machine) :
    Reached nodeCapacity machine := by
  induction reached with
  | start => exact .start
  | step _ action _ taken ih => exact ih.step action taken

theorem step_cases (taken : before.step action = some after) :
    (∃ thread request, action = .invoke thread request ∧ before.threads thread = none ∧ after = { before with
      threads := Function.update before.threads thread (some (before.calls, .outside request.phase))
      history := .invoked before.calls request :: before.history
      calls := before.calls + 1 }) ∨
    (∃ thread call phase, action = .enter thread ∧ before.threads thread = some (call, .outside phase) ∧
      (∀ hold ∈ before.holds, hold.admits (before.set.critical call phase).place (before.set.critical call phase).mutated = true) ∧
      after = before.enter thread call (before.set.critical call phase)) ∨
    (∃ thread call event pending drawn exit, action = .draw thread ∧
      before.threads thread = some (call, .inside (event :: pending) drawn exit) ∧
      after = before.draw thread call event pending drawn exit) ∨
    ∃ thread call drawn exit, action = .leave thread ∧ before.threads thread = some (call, .inside [] drawn exit) ∧
      after = before.leave thread call drawn exit := by
  cases action with
  | invoke thread request =>
    simp only [step] at taken
    split at taken
    next => cases taken
    next idle => cases taken; exact Or.inl ⟨thread, request, rfl, idle, rfl⟩
  | enter thread =>
    simp only [step] at taken
    split at taken
    next call phase standing =>
      split at taken
      next admitted =>
        cases taken
        exact Or.inr (Or.inl ⟨thread, call, phase, rfl, standing, List.all_eq_true.mp admitted, rfl⟩)
      next => cases taken
    next => cases taken
  | draw thread =>
    simp only [step] at taken
    split at taken
    next standing => cases taken; exact Or.inr (Or.inr (Or.inl ⟨thread, _, _, _, _, _, rfl, standing, rfl⟩))
    next => cases taken
  | leave thread =>
    simp only [step] at taken
    split at taken
    next standing => cases taken; exact Or.inr (Or.inr (Or.inr ⟨thread, _, _, _, rfl, standing, rfl⟩))
    next => cases taken

structure Sound (machine : CdcMachine α κ) : Prop where
  valid : machine.set.Valid
  routed : machine.set.layout.Routed
  /-- Every stale key has a repair coming that names it. -/
  tracked : ∀ entry node, (entry, node) ∈ machine.set.index.index → Node.maxKey (machine.set.heap.cells node) = some entry ∨
    ∃ thread call standing, machine.threads thread = some (call, standing) ∧ standing.repairs = some (node, entry)
  recording : ∀ thread call standing, machine.threads thread = some (call, standing) → standing.Recording

private theorem Sound.stays (sound : Sound before) {thread : ThreadId} {next : Option (CallId × Standing α κ)}
    (same : after.set.layout = before.set.layout) (valid : after.set.Valid)
    (threads : after.threads = Function.update before.threads thread next)
    (owes : ∀ call standing owed, before.threads thread = some (call, standing) → standing.repairs = some owed →
      ∃ call standing, next = some (call, standing) ∧ standing.repairs = some owed)
    (recording : ∀ call standing, next = some (call, standing) → standing.Recording) : Sound after := by
  refine ⟨valid, same ▸ sound.routed, fun entry node member => ?_, fun other call standing running => ?_⟩
  · have kept : (entry, node) ∈ before.set.layout.index := same ▸ member
    have cells : after.set.heap.cells node = before.set.heap.cells node := congrArg (fun layout => layout.heap.cells node) same
    rw [cells]
    apply (sound.tracked entry node kept).imp id
    intro pending
    obtain ⟨other, call, standing, runs, owed⟩ := pending
    by_cases here : other = thread
    · subst here
      obtain ⟨call, standing, moved, owed⟩ := owes call standing _ runs owed
      exact ⟨other, call, standing, by rw [threads, Function.update_self, moved], owed⟩
    · exact ⟨other, call, standing, by rw [threads, Function.update_of_ne here, runs], owed⟩
  · rw [threads] at running
    rcases threads_update running with ⟨_, moved⟩ | ⟨_, there⟩
    · exact recording call standing moved
    · exact sound.recording other call standing there

private theorem Sound.enter (sound : Sound before) {thread : ThreadId} {call : CallId} {phase : Phase α κ}
    (standing : before.threads thread = some (call, .outside phase)) (well : phase.SplitsWell before.set) :
    Sound (before.enter thread call (before.set.critical call phase)) := by
  obtain ⟨drawn, records, runs⟩ := BTreeSet.critical_section sound.valid call phase
  have recording : phase.Recording := sound.recording thread call _ standing
  obtain ⟨valid, tracks, resolved⟩ := Machine.section_tracks sound.valid runs
  have pointwise : ∀ start last, phase ≠ .removeRange start last := by
    intro start last same
    subst same
    exact recording
  have aimed : ∀ node old value checked emitCdc cdc, phase = .commitSplit node old value checked emitCdc cdc →
      (old, node) ∈ before.set.index.index → Between before.set.index.index old (key value) := by
    intro node old value checked emitCdc cdc same linked
    subst same
    exact (well linked).1
  have routed := (section_recounts sound.valid sound.routed runs pointwise aimed : _ ∧ (Recounts [] _ → _)).1
  refine ⟨⟨valid.publishes, valid.sound⟩, routed, fun entry node member => ?_, fun other caller later running => ?_⟩
  · rcases tracks entry node member with tight | waived | ⟨kept, same⟩
    · exact Or.inl tight
    · refine Or.inr ⟨thread, call, _, Function.update_self .., ?_⟩
      exact (next_repairs ..).trans waived
    · rcases sound.tracked entry node kept with tight | ⟨other, owner, current, there, owed⟩
      · exact Or.inl (same.trans tight)
      · by_cases here : other = thread
        · subst here
          cases standing.symm.trans there
          exact Or.inl (resolved node entry owed member)
        · exact Or.inr ⟨other, owner, current, (Function.update_of_ne here ..).trans there, owed⟩
  · rcases threads_update running with ⟨_, moved⟩ | ⟨_, there⟩
    · cases moved
      intro next again
      rw [again] at runs
      exact section_recording runs recording
    · exact sound.recording other caller later there

private theorem Sound.step (sound : Sound before) (allowed : Replayable before action) (taken : before.step action = some after) :
    Sound after := by
  rcases step_cases taken with ⟨thread, request, rfl, idle, rfl⟩ | ⟨thread, call, phase, rfl, standing, _, rfl⟩ |
    ⟨thread, call, event, pending, drawn, exit, rfl, standing, rfl⟩ | ⟨thread, call, drawn, exit, rfl, standing, rfl⟩
  · refine sound.stays rfl sound.valid rfl (fun call standing owed running => ?_) fun call standing moved => ?_
    · cases idle.symm.trans running
    · cases moved
      exact request.recording allowed
  · simp only [Replayable, standing] at allowed
    exact sound.enter standing allowed
  · refine sound.stays rfl ⟨sound.valid.publishes, sound.valid.sound⟩ rfl (fun caller current owed running owes => ?_) fun caller current moved => ?_
    · cases standing.symm.trans running
      exact ⟨call, _, rfl, (next_repairs ..).trans owes⟩
    · cases moved
      have recording : Standing.Recording (.inside (event :: pending) drawn exit) := sound.recording thread call _ standing
      exact recording
  · refine sound.stays rfl sound.valid rfl (fun caller current owed running owes => ?_) fun caller current moved => ?_
    · cases standing.symm.trans running
      obtain ⟨phase, follows, owing⟩ := Option.bind_eq_some_iff.mp owes
      exact ⟨call, .outside phase, by rw [follows]; rfl, owing⟩
    · obtain ⟨phase, follows, same⟩ := Option.map_eq_some_iff.mp moved
      cases same
      cases exit with
      | again next =>
        cases follows
        exact sound.recording thread call _ standing _ rfl
      | grown node oldMax emitCdc =>
        cases follows
        trivial
      | shrunk node oldMax deleted =>
        cases follows
        trivial
      | returned result => cases follows
      | rejected => cases follows

theorem ReachedBy.sound (reached : ReachedBy Replayable nodeCapacity machine) : Sound machine := by
  induction reached with
  | start =>
    exact ⟨BTreeSet.valid_new nodeCapacity, fun _ _ member => (not_mem_empty _ member).elim,
      fun _ _ member => (not_mem_empty _ member).elim, fun _ _ _ running => by cases running⟩
  | step _ action allowed taken ih => exact ih.step allowed taken

def carried : Option (CallId × Standing α κ) → List (ChangeEvent α)
  | some (_, standing) => standing.cdc
  | none => []

/-- The event was returned by some call, or some running call will return it. -/
def Emitted (machine : CdcMachine α κ) (event : ChangeEvent α) : Prop :=
  event ∈ (returns machine.history).flatMap Prod.snd ∨ ∃ thread, event ∈ carried (machine.threads thread)

/-- All events so far in the order of their numbers. -/
structure Logs (machine : CdcMachine α κ) (log : List (ChangeEvent α)) : Prop where
  numbered : log.map ChangeEvent.id = List.range machine.set.eventId
  complete : ∀ event, event ∈ log ↔ machine.Emitted event

structure Emits (before after : CdcMachine α κ) (recent : List (ChangeEvent α)) : Prop where
  counter : after.set.eventId = before.set.eventId + recent.length
  numbered : recent.map ChangeEvent.id = List.range' before.set.eventId recent.length
  emitted : ∀ event, after.Emitted event ↔ before.Emitted event ∨ event ∈ recent

omit [Keyed α κ] in
theorem Logs.append {log recent : List (ChangeEvent α)} (logs : Logs before log) (emits : Emits before after recent) :
    Logs after (log ++ recent) := by
  refine ⟨?_, fun event => ?_⟩
  · rw [List.map_append, logs.numbered, emits.numbered, emits.counter, List.range_eq_range', List.range_eq_range',
      ← List.range'_append_1, Nat.zero_add]
  · rw [List.mem_append, logs.complete, emits.emitted]

omit [Keyed α κ] in
/-- The numbers tell the events apart, so there is one such list. -/
theorem Logs.unique {first second : List (ChangeEvent α)} (left : Logs machine first) (right : Logs machine second) :
    first = second := by
  have ids : first.map ChangeEvent.id = second.map ChangeEvent.id := left.numbered.trans right.numbered.symm
  have length : first.length = second.length := by simpa using congrArg List.length ids
  have distinct : (second.map ChangeEvent.id).Nodup := right.numbered ▸ List.nodup_range
  apply List.ext_getElem length
  intro position inFirst inSecond
  apply List.inj_on_of_nodup_map distinct
  · exact (right.complete _).mpr ((left.complete _).mp (List.getElem_mem inFirst))
  · exact List.getElem_mem inSecond
  · have same : (first.map ChangeEvent.id)[position]? = (second.map ChangeEvent.id)[position]? := congrArg (·[position]?) ids
    simpa [inFirst, inSecond] using same

omit [Keyed α κ] in
private theorem emitted_update {thread : ThreadId} {next : Option (CallId × Standing α κ)} {records : List (Record α κ)}
    {recent : List (ChangeEvent α)} (threads : after.threads = Function.update before.threads thread next)
    (history : after.history = records ++ before.history)
    (same : ∀ event, event ∈ (returns records).flatMap Prod.snd ∨ event ∈ carried next ↔
      event ∈ carried (before.threads thread) ∨ event ∈ recent) (event : ChangeEvent α) :
    after.Emitted event ↔ before.Emitted event ∨ event ∈ recent := by
  have others : (∃ other, event ∈ carried (after.threads other)) ↔
      event ∈ carried next ∨ ∃ other, other ≠ thread ∧ event ∈ carried (before.threads other) := by
    rw [threads]
    constructor
    · intro found
      obtain ⟨other, there⟩ := found
      by_cases here : other = thread
      · subst here
        exact Or.inl (by simpa using there)
      · exact Or.inr ⟨other, here, by simpa [Function.update_of_ne here] using there⟩
    · intro found
      rcases found with own | ⟨other, apart, there⟩
      · exact ⟨thread, by simpa using own⟩
      · exact ⟨other, by simpa [Function.update_of_ne apart] using there⟩
  have earlier : (∃ other, event ∈ carried (before.threads other)) ↔
      event ∈ carried (before.threads thread) ∨ ∃ other, other ≠ thread ∧ event ∈ carried (before.threads other) := by
    constructor
    · intro found
      obtain ⟨other, there⟩ := found
      by_cases here : other = thread
      · exact Or.inl (here ▸ there)
      · exact Or.inr ⟨other, here, there⟩
    · intro found
      rcases found with own | ⟨other, _, there⟩
      · exact ⟨thread, own⟩
      · exact ⟨other, there⟩
  rw [Emitted, Emitted, others, earlier, history, returns_append, List.flatMap_append, List.mem_append]
  obtain ⟨comes, stays⟩ := same event
  constructor
  · rintro ((new | old) | own | other)
    · exact (comes (Or.inl new)).imp_left fun mine => Or.inr (Or.inl mine)
    · exact Or.inl (Or.inl old)
    · exact (comes (Or.inr own)).imp_left fun mine => Or.inr (Or.inl mine)
    · exact Or.inl (Or.inr (Or.inr other))
  · rintro ((old | mine | other) | fresh)
    · exact Or.inl (Or.inr old)
    · exact (stays (Or.inl mine)).imp Or.inl Or.inl
    · exact Or.inr (Or.inr other)
    · exact (stays (Or.inr fresh)).imp Or.inl Or.inl

structure Engaged (α : Type u) (κ : Type v) [LinearOrder κ] where
  hold : Hold
  owed : Owed (ChangeEventUnassigned α) (get? (κ := κ) (β := List α))

/-- The consumer, having read the log so far, and the sections under way. -/
structure Streams (machine : CdcMachine α κ) (nodes : PersistedBTreeMap α κ) (engaged : List (Engaged α κ)) : Prop where
  owes : Owes consume (engaged.map Engaged.owed) nodes machine.set.layout.present
  distinct : engaged.Pairwise fun first second => first.hold.call ≠ second.hold.call
  running : ∀ entry ∈ engaged, entry.hold ∈ machine.holds ∧ ∃ thread drawn exit,
    machine.threads thread = some (entry.hold.call, .inside entry.owed.events drawn exit)
  listed : ∀ thread call pending drawn exit, machine.threads thread = some (call, .inside pending drawn exit) →
    ∃ entry ∈ engaged, entry.hold.call = call
  /-- A section that shares the topology only claims keys of the nodes it has locked. -/
  holding : ∀ entry ∈ engaged, entry.hold.place ≠ .write → ∀ wanted ∈ entry.owed.claim.places,
    ∃ named, ∃ node ∈ entry.hold.nodes, (named, node) ∈ machine.set.index.index ∧ Between machine.set.index.index named wanted ∧
      (entry.hold.place = .nodeOnly → ∃ item ∈ machine.set.heap.cells node, key item = wanted)

private theorem Critical.Replays.claimed {set : BTreeSet α κ} {entered : Critical α κ} (replays : entered.Replays set) :
    ∃ places, entered.Claims set places := by
  by_cases silent : entered.events = []
  · refine ⟨∅, fun event member => ?_, fun _ inside => inside.elim, fun _ _ _ _ _ _ => id, fun _ _ inside => inside.elim⟩
    rw [silent] at member
    cases member
  · exact replays.claims silent

private theorem Streams.enter {nodes : PersistedBTreeMap α κ} {engaged : List (Engaged α κ)} (streams : Streams before nodes engaged)
    (counted : Counted before) {thread : ThreadId} {call : CallId} {phase : Phase α κ} {entered : Critical α κ}
    (standing : before.threads thread = some (call, .outside phase))
    (admitted : ∀ hold ∈ before.holds, hold.admits entered.place entered.mutated = true) (replays : entered.Replays before.set)
    (sound : Sound (before.enter thread call entered)) : ∃ engaged, Streams (before.enter thread call entered) nodes engaged := by
  obtain ⟨places, claims⟩ := Critical.Replays.claimed replays
  have apart : ∀ entry ∈ engaged, entry.hold.call ≠ call := by
    intro entry member same
    obtain ⟨_, other, drawn, exit, there⟩ := streams.running entry member
    cases counted.alone other thread call _ _ (same ▸ there) standing
    cases there.symm.trans standing
  refine ⟨engaged ++ [⟨⟨call, entered.place, entered.mutated⟩, ⟨claim places, entered.events⟩⟩], ?_, ?_,
    fun entry member => ?_, fun other caller pending drawn exit there => ?_, fun entry member shared wanted claimed => ?_⟩
  · rw [List.map_append]
    refine streams.owes.enter (fun owed member => ?_) (fun event member => consume_confined (claims.within event member))
      claims.closed replays.replays
    obtain ⟨entry, there, rfl⟩ := List.mem_map.mp member
    obtain ⟨shared, free⟩ := admits_apart (admitted entry.hold (streams.running entry there).1)
    intro wanted theirs ours
    -- the key would route to a node that both sections have locked
    obtain ⟨named, node, locked, linked, inside, _⟩ := streams.holding entry there shared wanted theirs
    exact claims.away named node linked (fun mutated => free node mutated locked) wanted inside ours
  · refine List.pairwise_append.mpr ⟨streams.distinct, List.pairwise_singleton .., fun entry there other last => ?_⟩
    cases List.mem_singleton.mp last
    exact apart entry there
  · rcases List.mem_append.mp member with there | last
    · obtain ⟨held, other, drawn, exit, current⟩ := streams.running entry there
      refine ⟨List.mem_cons_of_mem _ held, other, drawn, exit, ?_⟩
      have different : other ≠ thread := fun same => by
        subst same
        cases current.symm.trans standing
      exact (Function.update_of_ne different ..).trans current
    · cases List.mem_singleton.mp last
      exact ⟨List.mem_cons_self, thread, entered.carried, entered.exit, Function.update_self ..⟩
  · rcases threads_update there with ⟨rfl, moved⟩ | ⟨_, current⟩
    · cases moved
      exact ⟨_, List.mem_append_right _ (List.mem_singleton_self _), rfl⟩
    · obtain ⟨entry, member, same⟩ := streams.listed other caller pending drawn exit current
      exact ⟨entry, List.mem_append_left _ member, same⟩
  · rcases List.mem_append.mp member with there | last
    · obtain ⟨named, node, locked, linked, inside, stored⟩ := streams.holding entry there shared wanted claimed
      have admits := admitted entry.hold (streams.running entry there).1
      obtain ⟨_, free⟩ := admits_apart admits
      by_cases alone : entry.hold.place = .nodeOnly
      · obtain ⟨item, present, rfl⟩ := stored alone
        obtain ⟨⟨renamed, kept⟩, same⟩ := replays.frame node (fun mutated => free node mutated locked) ⟨named, linked⟩
        have present : item ∈ entered.set.heap.cells node := same ▸ present
        exact ⟨renamed, node, locked, kept, sound.routed renamed node kept item present, fun _ => ⟨item, present, rfl⟩⟩
      · have reading : entry.hold.place = .readAndNode := by
          cases place : entry.hold.place with
          | readAndNode => rfl
          | nodeOnly => exact absurd place alone
          | write => exact absurd place shared
        have steady := replays.steady fun writes => by
          simp [Hold.admits, reading, writes] at admits
        have index : (before.enter thread call entered).set.index.index = before.set.index.index := steady
        exact ⟨named, node, locked, index.symm ▸ linked, index.symm ▸ inside, fun only => absurd only alone⟩
    · cases List.mem_singleton.mp last
      obtain ⟨named, node, locked, linked, inside, stored⟩ := claims.held shared wanted claimed
      have index : (before.enter thread call entered).set.index.index = before.set.index.index := replays.steady shared
      exact ⟨named, node, locked, index.symm ▸ linked, index.symm ▸ inside, stored⟩

omit [Keyed α κ] in
private theorem Streams.split [Keyed α κ] {nodes : PersistedBTreeMap α κ} {engaged : List (Engaged α κ)} (streams : Streams machine nodes engaged)
    (counted : Counted machine) {thread : ThreadId} {call : CallId} {pending : List (ChangeEventUnassigned α)}
    {drawn : List (ChangeEvent α)} {exit : Exit α κ} (standing : machine.threads thread = some (call, .inside pending drawn exit)) :
    ∃ earlier entry later, engaged = earlier ++ entry :: later ∧ entry.hold.call = call ∧ entry.owed.events = pending ∧
      ∀ other ∈ earlier ++ later, other.hold.call ≠ call := by
  obtain ⟨entry, member, same⟩ := streams.listed thread call pending drawn exit standing
  obtain ⟨earlier, later, rfl⟩ := List.append_of_mem member
  obtain ⟨_, other, _, _, there⟩ := streams.running entry member
  cases counted.alone other thread call _ _ (same ▸ there) standing
  have events := standing.symm.trans there
  simp only [Option.some.injEq, Prod.mk.injEq, Standing.inside.injEq] at events
  obtain ⟨_, distinct, across⟩ := List.pairwise_append.mp streams.distinct
  refine ⟨earlier, entry, later, rfl, same, events.2.1.symm, fun other there => ?_⟩
  rcases List.mem_append.mp there with before | after
  · exact same ▸ across other before entry List.mem_cons_self
  · exact same ▸ ((List.pairwise_cons.mp distinct).1 other after).symm

private theorem Streams.draw {nodes : PersistedBTreeMap α κ} {engaged : List (Engaged α κ)} (streams : Streams before nodes engaged)
    (counted : Counted before) {thread : ThreadId} {call : CallId} {event : ChangeEventUnassigned α}
    {pending : List (ChangeEventUnassigned α)} {drawn : List (ChangeEvent α)} {exit : Exit α κ}
    (standing : before.threads thread = some (call, .inside (event :: pending) drawn exit)) :
    ∃ next engaged, consume nodes event = some next ∧ Streams (before.draw thread call event pending drawn exit) next engaged := by
  obtain ⟨earlier, ⟨hold, claim, events⟩, later, rfl, rfl, rfl, apart⟩ := streams.split counted standing
  have owes := streams.owes
  rw [List.map_append, List.map_cons] at owes
  obtain ⟨next, consumed, drawing⟩ := owes.draw fun _ _ => ext_get?
  refine ⟨next, earlier ++ ⟨hold, claim, pending⟩ :: later, consumed, ?_, ?_, fun entry member => ?_,
    fun other caller rest given leaving there => ?_, fun entry member => ?_⟩
  · rw [List.map_append, List.map_cons]
    exact drawing
  · have distinct := streams.distinct
    rw [← List.pairwise_map (f := fun entry : Engaged α κ => entry.hold.call) (R := (· ≠ ·))] at distinct ⊢
    simpa using distinct
  · have others (given : List (ChangeEvent α)) (leaving : Exit α κ) (other : Engaged α κ) (there : other ∈ earlier ++ later) : other.hold ∈ before.holds ∧ ∃ runs drawn exit,
        (before.draw thread hold.call event pending given leaving).threads runs =
          some (other.hold.call, .inside other.owed.events drawn exit) := by
      have listed : other ∈ earlier ++ ⟨hold, claim, event :: pending⟩ :: later := by
        rcases List.mem_append.mp there with before | after
        · exact List.mem_append_left _ before
        · exact List.mem_append_right _ (List.mem_cons_of_mem _ after)
      obtain ⟨held, runs, given, leaving, current⟩ := streams.running other listed
      have different : runs ≠ thread := fun same => by
        subst same
        have owner := standing.symm.trans current
        simp only [Option.some.injEq, Prod.mk.injEq] at owner
        exact apart other there owner.1.symm
      exact ⟨held, runs, _, _, (Function.update_of_ne different ..).trans current⟩
    rcases List.mem_append.mp member with there | there
    · exact others _ _ entry (List.mem_append_left _ there)
    · rcases List.mem_cons.mp there with rfl | there
      · obtain ⟨held, _⟩ := streams.running ⟨hold, claim, event :: pending⟩ (List.mem_append_right _ List.mem_cons_self)
        exact ⟨held, thread, _, _, Function.update_self ..⟩
      · exact others _ _ entry (List.mem_append_right _ there)
  · rcases threads_update there with ⟨_, moved⟩ | ⟨_, current⟩
    · cases moved
      exact ⟨_, List.mem_append_right _ List.mem_cons_self, rfl⟩
    · obtain ⟨entry, member, same⟩ := streams.listed other caller rest given leaving current
      rcases List.mem_append.mp member with there | there
      · exact ⟨entry, List.mem_append_left _ there, same⟩
      · rcases List.mem_cons.mp there with rfl | there
        · exact ⟨_, List.mem_append_right _ List.mem_cons_self, same⟩
        · exact ⟨entry, List.mem_append_right _ (List.mem_cons_of_mem _ there), same⟩
  · rcases List.mem_append.mp member with there | there
    · exact streams.holding entry (List.mem_append_left _ there)
    · rcases List.mem_cons.mp there with rfl | there
      · exact streams.holding ⟨hold, claim, event :: pending⟩ (List.mem_append_right _ List.mem_cons_self)
      · exact streams.holding entry (List.mem_append_right _ (List.mem_cons_of_mem _ there))

private theorem Streams.leave {nodes : PersistedBTreeMap α κ} {engaged : List (Engaged α κ)} (streams : Streams before nodes engaged)
    (counted : Counted before) {thread : ThreadId} {call : CallId} {drawn : List (ChangeEvent α)} {exit : Exit α κ}
    (standing : before.threads thread = some (call, .inside [] drawn exit)) :
    ∃ engaged, Streams (before.leave thread call drawn exit) nodes engaged := by
  obtain ⟨earlier, ⟨hold, claim, events⟩, later, rfl, rfl, rfl, apart⟩ := streams.split counted standing
  have owes := streams.owes
  rw [List.map_append, List.map_cons] at owes
  have sublist : (earlier ++ later).Sublist (earlier ++ ⟨hold, claim, []⟩ :: later) :=
    (List.Sublist.refl earlier).append (List.sublist_cons_self _ later)
  refine ⟨earlier ++ later, ?_, streams.distinct.sublist sublist, fun entry member => ?_,
    fun other caller rest given leaving there => ?_, fun entry member => streams.holding entry (sublist.subset member)⟩
  · rw [List.map_append]
    exact owes.leave
  · obtain ⟨held, runs, given, leaving, current⟩ := streams.running entry (sublist.subset member)
    have different : runs ≠ thread := fun same => by
      subst same
      have owner := standing.symm.trans current
      simp only [Option.some.injEq, Prod.mk.injEq] at owner
      exact apart entry member owner.1.symm
    refine ⟨List.mem_filter.mpr ⟨held, by simpa using apart entry member⟩, runs, given, leaving, ?_⟩
    exact (Function.update_of_ne different ..).trans current
  · rcases threads_update there with ⟨_, moved⟩ | ⟨different, current⟩
    · obtain ⟨phase, _, same⟩ := Option.map_eq_some_iff.mp moved
      cases same
    · obtain ⟨entry, member, same⟩ := streams.listed other caller rest given leaving current
      refine ⟨entry, ?_, same⟩
      rcases List.mem_append.mp member with there | there
      · exact List.mem_append_left _ there
      · rcases List.mem_cons.mp there with rfl | there
        · exact absurd (counted.alone other thread caller _ _ current (same ▸ standing)) different
        · exact List.mem_append_right _ there

private theorem Streams.invoke {nodes : PersistedBTreeMap α κ} {engaged : List (Engaged α κ)} (streams : Streams before nodes engaged)
    {thread : ThreadId} (idle : before.threads thread = none) (request : Request α κ) :
    Streams { before with
      threads := Function.update before.threads thread (some (before.calls, .outside request.phase))
      history := .invoked before.calls request :: before.history
      calls := before.calls + 1 } nodes engaged := by
  refine ⟨streams.owes, streams.distinct, fun entry member => ?_, fun other caller rest given leaving there => ?_, streams.holding⟩
  · obtain ⟨held, runs, given, leaving, current⟩ := streams.running entry member
    have different : runs ≠ thread := fun same => by
      subst same
      cases idle.symm.trans current
    exact ⟨held, runs, given, leaving, (Function.update_of_ne different ..).trans current⟩
  · rcases threads_update there with ⟨_, moved⟩ | ⟨_, current⟩
    · cases moved
    · exact streams.listed other caller rest given leaving current

/-- One step: the events it numbers are the consumer's next. -/
private theorem Streams.step {nodes : PersistedBTreeMap α κ} {engaged : List (Engaged α κ)} (streams : Streams before nodes engaged)
    (sound : Sound before) (counted : Counted before) (allowed : Replayable before action) (taken : before.step action = some after) :
    ∃ recent next engaged, Emits before after recent ∧ persistAll recent nodes = some (true, next) ∧ Streams after next engaged := by
  have later := sound.step allowed taken
  rcases step_cases taken with ⟨thread, request, rfl, idle, rfl⟩ | ⟨thread, call, phase, rfl, standing, admitted, rfl⟩ |
    ⟨thread, call, event, pending, drawn, exit, rfl, standing, rfl⟩ | ⟨thread, call, drawn, exit, rfl, standing, rfl⟩
  · refine ⟨[], nodes, engaged, ⟨rfl, rfl, emitted_update rfl (show _ = [_] ++ before.history from rfl) fun event => ?_⟩, rfl, streams.invoke idle request⟩
    simp [idle, carried, Standing.cdc, request.phase_live.2, returns]
  · simp only [Replayable, standing] at allowed
    have shape := BTreeSet.critical_shape call before.set phase
    have own := (counted.running thread call _ standing).stage
    have kept := shape.carried fun live => by
      rcases own with early | late
      · exact early.1.2
      · exact absurd live late
    obtain ⟨engaged, entered⟩ := streams.enter counted standing admitted
      (BTreeSet.critical_replays sound.valid sound.routed (sound.recording thread call _ standing) allowed) later
    refine ⟨[], nodes, engaged, ⟨rfl, rfl, emitted_update rfl rfl fun event => ?_⟩, rfl, entered⟩
    simp [standing, carried, Standing.cdc, returns_inner shape.noted, kept]
  · obtain ⟨next, engaged, consumed, drawing⟩ := streams.draw counted standing
    refine ⟨[event.assignId before.set.eventId], next, engaged, ⟨rfl, by simp, emitted_update rfl (show _ = [] ++ before.history from rfl) fun other => ?_⟩,
      (persistAll_consume ..).mpr ?_, drawing⟩
    · simp [standing, carried, Standing.cdc, returns]
    · simpa using consumed
  · obtain ⟨engaged, leaving⟩ := streams.leave counted standing
    have own := (counted.running thread call _ standing).stage
    have idle (starts : exit.Idle) : drawn = [] ∧ ∀ next, exit = .again next → next.cdc = [] := by
      rcases own with early | late
      · exact ⟨early.1.2.2.1, fun next same => (early.1.2.2.2 next same).2⟩
      · exact absurd starts late
    refine ⟨[], nodes, engaged, ⟨rfl, rfl, emitted_update rfl rfl fun event => ?_⟩, rfl, leaving⟩
    cases exit with
    | again phase =>
      obtain ⟨rfl, empty⟩ := idle trivial
      simp [standing, carried, Standing.cdc, Exit.next, Exit.records, returns, empty phase rfl]
    | rejected =>
      obtain ⟨rfl, _⟩ := idle trivial
      simp [standing, carried, Standing.cdc, Exit.next, Exit.records, returns]
    | grown node oldMax emitCdc => simp [standing, carried, Standing.cdc, Exit.next, Exit.records, returns, Phase.cdc]
    | shrunk node oldMax deleted => simp [standing, carried, Standing.cdc, Exit.next, Exit.records, returns, Phase.cdc]
    | returned result => simp [standing, carried, Standing.cdc, Exit.next, Exit.records, returns]

def Goes (before after : CdcMachine α κ) : Prop := ∃ action, Replayable before action ∧ before.step action = some after

theorem ReachedBy.goes (reached : ReachedBy Replayable nodeCapacity before) (goes : ReflTransGen Goes before after) :
    ReachedBy Replayable nodeCapacity after := by
  induction goes with
  | refl => exact reached
  | tail _ last ih =>
    obtain ⟨action, allowed, taken⟩ := last
    exact ih.step action allowed taken

omit [Keyed α κ] in
theorem Emits.trans {middle : CdcMachine α κ} {first second : List (ChangeEvent α)} (left : Emits before middle first)
    (right : Emits middle after second) : Emits before after (first ++ second) := by
  refine ⟨?_, ?_, fun event => ?_⟩
  · rw [right.counter, left.counter, List.length_append, Nat.add_assoc]
  · rw [List.map_append, left.numbered, right.numbered, left.counter, List.length_append, List.range'_append_1]
  · rw [right.emitted, left.emitted, List.mem_append, or_assoc]

private theorem Streams.runs {nodes : PersistedBTreeMap α κ} {engaged : List (Engaged α κ)} (streams : Streams before nodes engaged)
    (reached : ReachedBy Replayable nodeCapacity before) (goes : ReflTransGen Goes before after) :
    ∃ recent later engaged, Emits before after recent ∧ persistAll recent nodes = some (true, later) ∧ Streams after later engaged := by
  induction goes with
  | refl => exact ⟨[], nodes, engaged, ⟨rfl, rfl, fun event => by simp⟩, rfl, streams⟩
  | tail earlier last ih =>
    obtain ⟨recent, later, engaged, emits, replayed, streams⟩ := ih
    obtain ⟨action, allowed, taken⟩ := last
    have middle := reached.goes earlier
    obtain ⟨newest, final, engaged, emitted, consumed, streams⟩ := streams.step middle.sound middle.reached.counted allowed taken
    exact ⟨recent ++ newest, final, engaged, emits.trans emitted, by rw [persistAll_append _ _ _ replayed, consumed], streams⟩

theorem ReachedBy.from_start (reached : ReachedBy Replayable nodeCapacity machine) : ReflTransGen Goes (CdcMachine.start nodeCapacity) machine := by
  induction reached with
  | start => exact .refl
  | step _ action allowed taken ih => exact ih.tail ⟨action, allowed, taken⟩

private theorem ReachedBy.streams (reached : ReachedBy Replayable nodeCapacity machine) :
    ∃ log nodes engaged, Logs machine log ∧ persistAll log .empty = some (true, nodes) ∧ Streams machine nodes engaged := by
  have first : Streams (CdcMachine.start nodeCapacity : CdcMachine α κ) .empty [] :=
    ⟨.nil _, List.Pairwise.nil, fun _ member => absurd member List.not_mem_nil, fun _ _ _ _ _ running => (nomatch running),
      fun _ member => absurd member List.not_mem_nil⟩
  obtain ⟨log, nodes, engaged, emits, replayed, streams⟩ := first.runs .start reached.from_start
  refine ⟨log, nodes, engaged, ?_, replayed, streams⟩
  have none : Logs (CdcMachine.start nodeCapacity : CdcMachine α κ) [] :=
    ⟨rfl, fun event => by simp [Emitted, CdcMachine.start, returns, carried]⟩
  exact none.append emits

def Drawn (machine : CdcMachine α κ) : Prop :=
  ∀ thread call pending drawn exit, machine.threads thread = some (call, .inside pending drawn exit) → pending = []

def Settled (machine : CdcMachine α κ) : Prop :=
  machine.Drawn ∧ ∀ thread call standing, machine.threads thread = some (call, standing) → standing.repairs = none

private theorem Streams.drawn {nodes : PersistedBTreeMap α κ} {engaged : List (Engaged α κ)} (streams : Streams machine nodes engaged)
    (drawn : machine.Drawn) : nodes = machine.set.layout.present := by
  have silent : (engaged.map Engaged.owed).flatMap Owed.events = [] := by
    rw [List.flatMap_eq_nil_iff]
    intro owed member
    obtain ⟨entry, there, rfl⟩ := List.mem_map.mp member
    obtain ⟨_, thread, given, exit, running⟩ := streams.running entry there
    exact drawn thread _ _ _ _ running
  have leads := streams.owes.leads
  rw [silent] at leads
  exact Option.some.inj leads

theorem Sound.settled (sound : Sound machine) (settled : machine.Settled) :
    machine.set.layout.present = machine.set.topology := by
  apply Layout.Tidy.present
  refine ⟨sound.valid.sound, sound.routed, fun entry node member => ?_⟩
  rcases sound.tracked entry node member with tight | ⟨thread, call, standing, running, owed⟩
  · exact tight
  · cases (settled.2 thread call standing running).symm.trans owed

/-- The events of a stretch of a run, replayed after those before it. -/
theorem ReachedBy.replays (reached : ReachedBy Replayable nodeCapacity before) (goes : ReflTransGen Goes before after) :
    ∃ log recent nodes later, Logs before log ∧ Logs after (log ++ recent) ∧ persistAll log .empty = some (true, nodes) ∧
      persistAll recent nodes = some (true, later) ∧ (before.Drawn → nodes = before.set.layout.present) ∧
      (after.Drawn → later = after.set.layout.present) := by
  obtain ⟨log, nodes, engaged, logs, replayed, streams⟩ := reached.streams
  obtain ⟨recent, later, _, emits, consumed, continued⟩ := streams.runs reached goes
  exact ⟨log, recent, nodes, later, logs, logs.append emits, replayed, consumed, streams.drawn, continued.drawn⟩

/-- In every run of recorded insertions and removals whose splits the consumer can follow,
whatever the order in which concurrent sections draw their numbers: there is one list of
all events so far by number; it replays without a panic and without a dropped event; what
is added later replays on top of it; and where no number is left to draw, the consumer has
exactly the nodes of the set. -/
theorem drawn_events_replay (reached : ReachedBy Replayable nodeCapacity before) (goes : ReflTransGen Goes before after) :
    ∃ log recent nodes later, (∀ other, Logs before other ↔ other = log) ∧ (∀ other, Logs after other ↔ other = log ++ recent) ∧
      persistAll log .empty = some (true, nodes) ∧ persistAll recent nodes = some (true, later) ∧
      (before.Drawn → nodes = before.set.layout.present) ∧ (after.Drawn → later = after.set.layout.present) ∧
      (after.Settled → later = after.set.topology) := by
  obtain ⟨log, recent, nodes, later, logs, continued, replayed, consumed, present, current⟩ := reached.replays goes
  refine ⟨log, recent, nodes, later, fun other => ⟨fun same => same.unique logs, fun same => same ▸ logs⟩,
    fun other => ⟨fun same => same.unique continued, fun same => same ▸ continued⟩, replayed, consumed, present, current,
    fun settled => ?_⟩
  exact (current settled.1).trans ((reached.goes goes).sound.settled settled)

private theorem splitsWell_absent {set : BTreeSet α κ} {node : NodeId} {old : κ} {value : α} (checked emitCdc : Bool)
    (cdc : List (ChangeEvent α)) (target : route id set.index.index (key value) = some (old, node))
    (many : 2 ≤ (set.heap.cells node).length) (absent : ∀ item ∈ set.heap.cells node, key item ≠ key value) :
    (Phase.commitSplit node old value checked emitCdc cdc).SplitsWell set :=
  fun _ => ⟨(route_eq_some.mp target).2, many, fun _ item there same => absurd same (absent item (List.mem_of_getElem? there))⟩

/-- The first part of the schedule builds two nodes; in the second a replacement of 10 and a
removal of 20 draw their numbers alternately. -/
theorem alternating_runs : ∃ before after : CdcMachine Nat Nat, ReachedBy Replayable 2 before ∧ ReflTransGen Goes before after ∧
    (before.Quiescent ∧ before.set.eventId = 4) ∧ (after.Quiescent ∧ after.set.eventId = 7) ∧
    (returns after.history).map (fun entry => (entry.1, entry.2.map ChangeEvent.id)) =
      [(4, [5]), (3, [4, 6]), (2, [2, 3]), (1, [1]), (0, [0])] ∧
    before.set.topology.entries = [(10, [10]), (30, [20, 30])] ∧ after.set.topology.entries = [(10, [10]), (30, [30])] :=
  ⟨_, _, .step (.step (.step (.step (.step (.step (.step (.step (.step (.step (.step (.step (.step (.step (.step (.step
    (.step (.step (.step .start
    (.invoke 0 (.insert 10 false true)) rfl rfl) (.enter 0) trivial rfl) (.leave 0) trivial rfl) (.enter 0) trivial rfl)
    (.draw 0) trivial rfl) (.leave 0) trivial rfl)
    (.invoke 0 (.insert 20 false true)) rfl rfl) (.enter 0) trivial rfl) (.draw 0) trivial rfl) (.leave 0) trivial rfl)
    (.enter 0) trivial rfl) (.leave 0) trivial rfl)
    (.invoke 0 (.insert 30 true true)) rfl rfl) (.enter 0) trivial rfl) (.leave 0) trivial rfl)
    (.enter 0) (splitsWell_absent true true [] rfl (by decide) (by decide)) rfl) (.draw 0) trivial rfl) (.draw 0) trivial rfl)
    (.leave 0) trivial rfl,
    .tail (.tail (.tail (.tail (.tail (.tail (.tail (.tail (.tail .refl ⟨.invoke 0 (.insert 10 false true), rfl, rfl⟩)
    ⟨.enter 0, trivial, rfl⟩) ⟨.draw 0, trivial, rfl⟩) ⟨.invoke 1 (.remove 20 true), rfl, rfl⟩) ⟨.enter 1, trivial, rfl⟩)
    ⟨.draw 1, trivial, rfl⟩) ⟨.draw 0, trivial, rfl⟩) ⟨.leave 0, trivial, rfl⟩) ⟨.leave 1, trivial, rfl⟩,
    ⟨fun | 0 => rfl | _ + 1 => rfl, rfl⟩, ⟨fun | 0 => rfl | 1 => rfl | _ + 2 => rfl, rfl⟩, by decide, by decide, by decide⟩

omit [Keyed α κ] in
theorem Quiescent.settled (quiescent : machine.Quiescent) : machine.Settled := by
  refine ⟨fun thread call pending drawn exit running => ?_, fun thread call standing running => ?_⟩
  · cases (quiescent thread).symm.trans running
  · cases (quiescent thread).symm.trans running

theorem drawn_events_replay_alternating : ∃ (before after : CdcMachine Nat Nat) (log recent : List (ChangeEvent Nat)),
    ReachedBy Replayable 2 before ∧ ReflTransGen Goes before after ∧ Logs before log ∧ Logs after (log ++ recent) ∧
    recent.map ChangeEvent.id = [4, 5, 6] ∧ (returns after.history).map (fun entry => (entry.1, entry.2.map ChangeEvent.id)) =
      [(4, [5]), (3, [4, 6]), (2, [2, 3]), (1, [1]), (0, [0])] ∧
    after.set.topology.entries = [(10, [10]), (30, [30])] ∧
    persistAll recent before.set.topology = some (true, after.set.topology) := by
  obtain ⟨before, after, reached, goes, ⟨quiet, first⟩, ⟨done, last⟩, ids, _, entries⟩ := alternating_runs
  obtain ⟨log, recent, nodes, later, logs, continued, _, replayed, present, _, settled⟩ := drawn_events_replay reached goes
  have earlier := (logs log).mpr rfl
  have all := (continued _).mpr rfl
  refine ⟨before, after, log, recent, reached, goes, earlier, all, ?_, ids, entries, ?_⟩
  · have numbered := all.numbered
    rw [List.map_append, earlier.numbered, first, last] at numbered
    exact List.append_cancel_left (numbered.trans (show List.range 7 = List.range 4 ++ [4, 5, 6] from rfl))
  · rw [← reached.sound.settled quiet.settled, ← present quiet.settled.1, ← settled done.settled]
    exact replayed

end CdcMachine
end WorkTablesIndex
