import Mathlib.Data.Sum.Basic
import WorkTablesIndex.AtomicStore
import WorkTablesIndex.GuardSessions

/-! Point reads and writers in one history. Writers run the sections of their calls; readers
load, route, lock and check in steps of their own between them. A write takes effect
in the section that stores or erases its value, a read at the load that accepts. -/

universe u v w

namespace WorkTablesIndex
open Relation SortedMap

/-- A set under the calls of writers and point readers. -/
structure SharedSet (α : Type u) (κ : Type v) (Q : Type w) [LinearOrder κ] where
  machine : Machine α κ
  reads : ReaderId → Option (CallId × Q × ReadPhase α κ)
  begun : CallId
  events : List (CallEvent AnyCall (StoreRequest α κ Q) (StoreAnswer α))

variable {α : Type u} {κ : Type v} {Q : Type w} [LinearOrder κ]

def Machine.Unoccupied [Keyed α κ] (machine : Machine α κ) : Action α κ → Prop
  | .invoke .. => True
  | .advance thread => ∀ call phase, machine.threads thread = some (call, phase) → phase.Unoccupied machine.set

namespace SharedSet

def start (nodeCapacity : Nat) : SharedSet α κ Q := ⟨.start nodeCapacity, fun _ => none, 0, []⟩

def structural (shared : SharedSet α κ Q) : Structure κ := .unlocked shared.machine.set.index

def Locked (shared : SharedSet α κ Q) (node : NodeId) : Prop :=
  ∃ reader read wanted phase, shared.reads reader = some (read, wanted, phase) ∧ phase.holds = some node

variable [Keyed α κ] [LinearOrder Q]

/-- A section of a writer, which waits for the readers of the node it changes, or a step of
a reader. -/
inductive Step (borrow : κ → Q) (borrowOrderMatches : Bool) : SharedSet α κ Q → SharedSet α κ Q → Prop where
  | writes {shared : SharedSet α κ Q} (action : Action α κ) (records : List (Record α κ)) {after : Machine α κ}
      (allowed : (Machine.Pointwise action ∧ shared.machine.Aimed action) ∧ shared.machine.Unoccupied action)
      (taken : shared.machine.step action = some after) (noted : after.history = records ++ shared.machine.history)
      (waits : ∀ node, shared.Locked node → after.set.heap.cells node = shared.machine.set.heap.cells node) :
      Step borrow borrowOrderMatches shared
        { shared with machine := after, events := shared.events ++ WorkTablesIndex.events records }
  | begins {shared : SharedSet α κ Q} (reader : ReaderId) (wanted : Q) (idle : shared.reads reader = none) :
      Step borrow borrowOrderMatches shared { shared with
        reads := Function.update shared.reads reader (some (shared.begun, wanted, .attempt 0)), begun := shared.begun + 1,
        events := shared.events ++ [.invoke (.inr shared.begun) (.find wanted)] }
  | advances {shared : SharedSet α κ Q} (reader : ReaderId) (later : ReadPhase α κ) {read : CallId} {wanted : Q} {phase : ReadPhase α κ}
      (running : shared.reads reader = some (read, wanted, phase))
      (taken : phase.advance borrow borrowOrderMatches wanted shared.structural shared.machine.set.heap = some later) :
      Step borrow borrowOrderMatches shared
        { shared with reads := Function.update shared.reads reader (some (read, wanted, later)) }
  | answers {shared : SharedSet α κ Q} (reader : ReaderId) {read : CallId} {wanted : Q} {result : Option α} {seen : Moment α κ}
      (running : shared.reads reader = some (read, wanted, .returned result seen)) :
      Step borrow borrowOrderMatches shared { shared with
        reads := Function.update shared.reads reader none, events := shared.events ++ [.respond (.inr read) (.found result)] }

def Reached (borrow : κ → Q) (borrowOrderMatches : Bool) (nodeCapacity : Nat) (shared : SharedSet α κ Q) : Prop :=
  ReflTransGen (Step borrow borrowOrderMatches) (start nodeCapacity) shared

end SharedSet

section Truth
variable [Keyed α κ] [LinearOrder Q] {borrow : κ → Q} {layout : Layout α κ} {wanted : Q} {result : Option α}

omit [Keyed α κ] in
private theorem route_borrowed_key (strict : StrictMono borrow) (index : NodeIndex κ) (wanted : κ) :
    route borrow index (borrow wanted) = route id index wanted := by
  have same : (Bound.included (borrow wanted)).admits borrow = (Bound.included wanted).admits id := by
    funext candidate
    simp [Bound.admits, strict.le_iff_le]
  simp only [route, firstForBorrowedBound, same]

/-- What is true of the node that routing selects is true of the whole layout. -/
theorem Moment.Answers.truth (answers : Moment.Answers borrow wanted ⟨layout.index, layout.heap⟩ result) (strict : StrictMono borrow)
    (routed : layout.Routed) (sound : layout.Sound) (item : α) :
    result = some item ↔ layout.Stored item ∧ borrow (key item) = wanted := by
  unfold Moment.Answers at answers
  split at answers
  next missing =>
    obtain ⟨rfl, empty⟩ := answers
    simp only [reduceCtorEq, false_iff, not_and]
    intro stored
    obtain ⟨entry, node, member, _⟩ := stored
    rw [mem_def, empty] at member
    cases member
  next entry node found =>
    obtain ⟨hit, miss⟩ := answers
    constructor
    · intro same
      obtain ⟨there, equal⟩ := hit item same
      subst equal
      rw [route_borrowed_key strict] at found
      exact ⟨⟨entry, node, (route_eq_some.mp found).1, there⟩, rfl⟩
    · intro ⟨stored, equal⟩
      subst equal
      rw [route_borrowed_key strict] at found
      obtain ⟨linked, inside⟩ := route_eq_some.mp found
      have there : item ∈ layout.heap.cells node := routed.stored_here linked inside stored
      cases result with
      | none => exact absurd rfl (miss rfl item there)
      | some other =>
        obtain ⟨present, same⟩ := hit other rfl
        exact congrArg some ((sound.sorted node).key_unique present there (strict.injective same))

end Truth

inductive Phase.Stands : Phase α κ → CallStatus (StoreRequest α κ Q) (StoreAnswer α) → Prop where
  | waiting {phase : Phase α κ} {request} (asks : phase.request = some request) : Stands phase (.waiting request)
  | performed {phase : Phase α κ} {request answer} (owes : phase.outcome = some answer) : Stands phase (.performed request answer)

def ReadPhase.Stands [Keyed α κ] [LinearOrder Q] (borrow : κ → Q) (wanted : Q) :
    ReadPhase α κ → CallStatus (StoreRequest α κ Q) (StoreAnswer α) → Prop
  | .accepted node seen, status => status = .performed (.find wanted)
      (.found ((Node.trySelect borrow (seen.heap.cells node) wanted).bind (Node.getIth (seen.heap.cells node))))
  | .returned result _, status => status = .performed (.find wanted) (.found result)
  | _, status => status = .waiting (.find wanted)

namespace SharedSet
variable [Keyed α κ] [LinearOrder Q] {borrow : κ → Q} {borrowOrderMatches : Bool} {nodeCapacity : Nat} {shared after : SharedSet α κ Q}
  {status : AnyCall → Option (CallStatus (StoreRequest α κ Q) (StoreAnswer α))}

/-- The atomic map behind a shared set: it has performed exactly the calls that have taken effect,
and holds what the history tells of. -/
structure Simulated (borrow : κ → Q) (borrowOrderMatches : Bool) (nodeCapacity : Nat) (shared : SharedSet α κ Q)
    (status : AnyCall → Option (CallStatus (StoreRequest α κ Q) (StoreAnswer α))) : Prop where
  reached : Machine.Reached (fun machine action => Machine.Pointwise action ∧ machine.Aimed action) nodeCapacity shared.machine
  run : (mapObject borrow).Run shared.events (contents shared.machine.history) status
  stable : shared.structural.Valid shared.machine.set.heap
  valid : ∀ reader read wanted phase, shared.reads reader = some (read, wanted, phase) →
    phase.Valid borrow borrowOrderMatches wanted shared.machine.set.index shared.machine.set.heap
  writes : Tabulates Sum.inl Phase.Stands shared.machine.threads shared.machine.calls shared.events status
  reads : Tabulates Sum.inr (fun (read : Q × ReadPhase α κ) => read.2.Stands borrow read.1) shared.reads shared.begun shared.events status

omit [Keyed α κ] [LinearOrder Q] [LinearOrder κ] in
private theorem stands_waiting {phase : Phase α κ} {standing : CallStatus (StoreRequest α κ Q) (StoreAnswer α)}
    {request : StoreRequest α κ Q} (stands : phase.Stands standing) (asks : phase.request = some request) :
    standing = .waiting request := by
  cases stands with
  | waiting same => exact congrArg CallStatus.waiting (Option.some.inj (same.symm.trans asks))
  | performed owes => cases phase <;> simp [Phase.request, Phase.outcome] at asks owes

omit [Keyed α κ] [LinearOrder Q] [LinearOrder κ] in
private theorem stands_performed {phase : Phase α κ} {standing : CallStatus (StoreRequest α κ Q) (StoreAnswer α)}
    {answer : StoreAnswer α} (stands : phase.Stands standing) (owes : phase.outcome = some answer) :
    ∃ request, standing = .performed request answer := by
  cases stands with
  | waiting asks => cases phase <;> simp [Phase.request, Phase.outcome] at asks owes
  | performed same => exact ⟨_, congrArg (CallStatus.performed _) (Option.some.inj (same.symm.trans owes))⟩

omit [LinearOrder Q] in
/-- The atomic map can come to a history and contents by changing the status of one call. -/
private def Follows (borrow : κ → Q) (status : AnyCall → Option (CallStatus (StoreRequest α κ Q) (StoreAnswer α))) (call : AnyCall)
    (log : List (CallEvent AnyCall (StoreRequest α κ Q) (StoreAnswer α))) (contents : κ → Option α)
    (fits : Option (CallStatus (StoreRequest α κ Q) (StoreAnswer α)) → Prop) : Prop :=
  ∃ after, (mapObject borrow).Run log contents after ∧ (∀ other, other ≠ call → after other = status other) ∧ fits (after call)

omit [LinearOrder Q] in
private theorem follows_update {call : AnyCall} {log : List (CallEvent AnyCall (StoreRequest α κ Q) (StoreAnswer α))}
    {contents : κ → Option α} {standing : Option (CallStatus (StoreRequest α κ Q) (StoreAnswer α))}
    {fits : Option (CallStatus (StoreRequest α κ Q) (StoreAnswer α)) → Prop}
    (run : (mapObject borrow).Run log contents (Function.update status call standing)) (fit : fits standing) :
    Follows borrow status call log contents fits := by
  refine ⟨_, run, fun other apart => Function.update_of_ne apart _ _, ?_⟩
  rw [Function.update_self]
  exact fit

omit [LinearOrder Q] in
/-- What a section means for the map, the atomic map does. -/
private theorem commits_run {phase : Phase α κ} {next : Option (Phase α κ)} {records history : List (Record α κ)} {call : CallId}
    {log : List (CallEvent AnyCall (StoreRequest α κ Q) (StoreAnswer α))} (commits : Commits borrow call phase history next records)
    (run : (mapObject borrow).Run log (contents history) status) {standing : CallStatus (StoreRequest α κ Q) (StoreAnswer α)}
    (found : status (.inl call) = some standing) (stands : phase.Stands standing) :
    Follows borrow status (.inl call) (log ++ WorkTablesIndex.events records) (contents (records ++ history)) fun reached =>
      ∀ following, next = some following → ∃ standing, reached = some standing ∧ following.Stands standing := by
  cases commits with
  | waits request asks still =>
    refine ⟨status, by simpa [WorkTablesIndex.events] using run, fun _ _ => rfl, fun following same => ?_⟩
    cases same
    exact ⟨standing, found, stands_waiting stands asks ▸ .waiting still⟩
  | performs request answer asks owes performed silent =>
    have waits := stands_waiting stands asks ▸ found
    have performs := run.perform (.inl call) request answer waits performed
    rw [silent, List.append_nil]
    refine follows_update performs fun following same => ?_
    cases same
    exact ⟨_, rfl, .performed owes⟩
  | answers request answer asks performed answered =>
    have waits := stands_waiting stands asks ▸ found
    have performs := run.perform (.inl call) request answer waits performed
    have responds := performs.respond (.inl call) request answer (Function.update_self ..)
    rw [Function.update_idem] at responds
    rw [answered]
    exact follows_update responds fun _ impossible => by cases impossible
  | returns answer owed same answered =>
    obtain ⟨request, rfl⟩ := stands_performed stands owed
    have responds := run.respond (.inl call) request answer found
    rw [answered, same]
    exact follows_update responds fun _ impossible => by cases impossible

private theorem find_run {wanted : Q} {phase later : ReadPhase α κ} {read : CallId} {set : BTreeSet α κ} {history : List (Record α κ)}
    {log : List (CallEvent AnyCall (StoreRequest α κ Q) (StoreAnswer α))} (strict : StrictMono borrow)
    (stable : (Structure.unlocked set.index).Valid set.heap) (sound : set.layout.Sound) (routed : set.layout.Routed)
    (recounts : Recounts history set.layout)
    (valid : phase.Valid borrow borrowOrderMatches wanted set.index set.heap)
    (taken : phase.advance borrow borrowOrderMatches wanted (.unlocked set.index) set.heap = some later)
    (run : (mapObject borrow).Run log (contents history) status) {standing : CallStatus (StoreRequest α κ Q) (StoreAnswer α)}
    (found : status (.inr read) = some standing) (stands : phase.Stands borrow wanted standing) :
    Follows borrow status (.inr read) log (contents history) fun reached =>
      ∃ standing, reached = some standing ∧ later.Stands borrow wanted standing := by
  have monotone := strict.monotone
  have kept := valid.advance monotone stable sound.sorted taken
  -- the answer of the moment is the answer of the map
  have performs : ∀ result, Moment.Answers borrow wanted ⟨set.index.index, set.heap⟩ result →
      status (.inr read) = some (.waiting (.find wanted)) →
      (mapObject borrow).Run log (contents history)
        (Function.update status (.inr read) (some (.performed (.find wanted) (.found result)))) := by
    intro result answers waits
    refine run.perform (.inr read) _ _ waits (.find wanted result fun item => ?_)
    have truth : result = some item ↔ set.layout.Stored item ∧ borrow (key item) = wanted := answers.truth strict routed sound item
    rw [truth, recounts item]
    rfl
  have accepts : ∀ node, later = .accepted node ⟨set.index.index, set.heap⟩ → status (.inr read) = some (.waiting (.find wanted)) →
      Follows borrow status (.inr read) log (contents history) fun reached =>
        ∃ standing, reached = some standing ∧ later.Stands borrow wanted standing := by
    intro node same waits
    subst same
    have answers : Moment.Answers borrow wanted ⟨set.index.index, set.heap⟩ _ := kept.advance monotone stable sound.sorted rfl
    exact follows_update (performs _ answers waits) ⟨_, rfl, rfl⟩
  have misses : later = .returned none ⟨set.index.index, set.heap⟩ → status (.inr read) = some (.waiting (.find wanted)) →
      Follows borrow status (.inr read) log (contents history) fun reached =>
        ∃ standing, reached = some standing ∧ later.Stands borrow wanted standing := by
    intro same waits
    subst same
    exact follows_update (performs none kept waits) ⟨_, rfl, rfl⟩
  have remains : later.Stands borrow wanted standing →
      Follows borrow status (.inr read) log (contents history) fun reached =>
        ∃ standing, reached = some standing ∧ later.Stands borrow wanted standing :=
    fun stays => ⟨status, run, fun _ _ => rfl, standing, found, stays⟩
  cases phase with
  | attempt retries =>
    cases stands
    simp only [ReadPhase.advance] at taken
    split at taken
    next =>
      split at taken
      next =>
        split at taken
        next entry node _ => exact accepts node (Option.some.inj taken).symm found
        next => exact misses (Option.some.inj taken).symm found
      next => cases taken
    next =>
      split at taken <;> cases taken <;> exact remains rfl
  | pinned retries generation =>
    cases stands
    cases taken
    exact remains rfl
  | routed retries generation node =>
    cases stands
    cases node with
    | none =>
      simp only [ReadPhase.advance] at taken
      split at taken
      next => exact misses (Option.some.inj taken).symm found
      next =>
        cases taken
        exact remains rfl
    | some node =>
      cases taken
      exact remains rfl
  | locked retries generation node =>
    cases stands
    simp only [ReadPhase.advance] at taken
    split at taken
    next => exact accepts node (Option.some.inj taken).symm found
    next =>
      cases taken
      exact remains rfl
  | accepted node seen =>
    cases taken
    -- the node is still as it was when the reader accepted
    apply remains
    rw [valid.2.1]
    exact stands
  | returned result seen => cases taken

omit [LinearOrder Q] in
private theorem commits_quiet {phase : Phase α κ} {next : Option (Phase α κ)} {records history : List (Record α κ)} {call : CallId}
    (commits : Commits borrow call phase history next records) (other : AnyCall) (request : StoreRequest α κ Q) :
    .invoke other request ∉ WorkTablesIndex.events records := by
  cases commits with
  | waits _ _ _ => simp [WorkTablesIndex.events]
  | performs _ _ _ _ _ silent => simp [silent]
  | answers _ _ _ _ answered => simp [answered]
  | returns _ _ _ answered => simp [answered]

/-- What a writer's section does to the readers' side. -/
private theorem Simulated.disturbed (simulated : Simulated borrow borrowOrderMatches nodeCapacity shared status) {action : Action α κ}
    {machine : Machine α κ} (taken : shared.machine.step action = some machine)
    (waits : ∀ node, shared.Locked node → machine.set.heap.cells node = shared.machine.set.heap.cells node) :
    (Structure.unlocked machine.set.index).Valid machine.set.heap ∧
      ∀ reader read wanted phase, shared.reads reader = some (read, wanted, phase) →
        phase.Valid borrow borrowOrderMatches wanted machine.set.index machine.set.heap := by
  have pointwise : ∀ thread call start last, shared.machine.threads thread ≠ some (call, .removeRange start last) := by
    intro thread call start last running
    obtain ⟨_, standing, _, stands⟩ := simulated.writes.standing thread call _ running
    cases stands with
    | waiting asks => cases asks
    | performed owes => cases owes
  obtain ⟨stable, evolves⟩ := (Machine.step_sessions pointwise taken).evolves simulated.stable
  refine ⟨stable, fun reader read wanted phase running => ?_⟩
  exact (simulated.valid reader read wanted phase running).evolves evolves fun node held =>
    waits node ⟨reader, read, wanted, phase, running, held⟩

omit [LinearOrder κ] [Keyed α κ] [LinearOrder Q] in
private theorem invoked_event (request : Request α κ) (points : ∀ start last, request ≠ .removeRange start last) (call : CallId) :
    ∃ asked : StoreRequest α κ Q, request.phase.request = some asked ∧
      WorkTablesIndex.events [.invoked call request] = [.invoke (.inl call) asked] := by
  cases request with
  | insert value checked emitCdc => exact ⟨_, rfl, rfl⟩
  | remove wanted emitCdc => exact ⟨_, rfl, rfl⟩
  | removeRange start last => exact absurd rfl (points start last)

private theorem Simulated.invoke (simulated : Simulated borrow borrowOrderMatches nodeCapacity shared status) {thread : ThreadId}
    {request : Request α κ} {machine : Machine α κ} {records : List (Record α κ)}
    (allowed : Machine.Pointwise (.invoke thread request) ∧ shared.machine.Aimed (.invoke thread request))
    (taken : shared.machine.step (.invoke thread request) = some machine) (noted : machine.history = records ++ shared.machine.history) :
    ∃ status, Simulated borrow borrowOrderMatches nodeCapacity
      { shared with machine, events := shared.events ++ WorkTablesIndex.events records } status := by
  have points : ∀ start last, request ≠ .removeRange start last := by
    intro start last same
    subst same
    exact allowed.1
  have later := simulated.reached.step _ allowed taken
  rcases Machine.step_cases simulated.reached.sound.valid taken with ⟨_, _, same, _, moved⟩ | ⟨_, _, _, impossible, _⟩
  · cases same
    subst moved
    cases List.append_cancel_right noted
    obtain ⟨asked, asks, event⟩ := invoked_event (Q := Q) request points shared.machine.calls
    have fresh : ∀ other, .invoke (.inl shared.machine.calls) other ∉ shared.events := by
      intro other member
      exact absurd (simulated.writes.known _ other member) (lt_irrefl _)
    have run := simulated.run.invoke (.inl shared.machine.calls) asked fresh
    refine ⟨_, later, event ▸ run, simulated.stable, simulated.valid, ?_, ?_⟩
    · refine simulated.writes.begins Sum.inl_injective thread (Function.update_self ..) (.waiting asks)
        (fun call apart => Function.update_of_ne apart _ _) fun call other member => ?_
      rw [event] at member
      rcases List.mem_append.mp member with earlier | last
      · exact Or.inr earlier
      · cases List.mem_singleton.mp last
        exact Or.inl rfl
    · refine simulated.reads.frame (fun call => Function.update_of_ne (by simp) _ _) fun call other member => ?_
      rw [event] at member
      simpa using member
  · cases impossible

private theorem Simulated.section (simulated : Simulated borrow borrowOrderMatches nodeCapacity shared status) {thread : ThreadId}
    {machine : Machine α κ} {records : List (Record α κ)}
    (allowed : (Machine.Pointwise (.advance thread : Action α κ) ∧ shared.machine.Aimed (.advance thread)) ∧
      shared.machine.Unoccupied (.advance thread))
    (taken : shared.machine.step (.advance thread) = some machine) (noted : machine.history = records ++ shared.machine.history)
    (waits : ∀ node, shared.Locked node → machine.set.heap.cells node = shared.machine.set.heap.cells node) :
    ∃ status, Simulated borrow borrowOrderMatches nodeCapacity
      { shared with machine, events := shared.events ++ WorkTablesIndex.events records } status := by
  have sound := simulated.reached.sound
  have orderly := simulated.reached.orderly
  have later := simulated.reached.step _ allowed.1 taken
  obtain ⟨stable, valid⟩ := simulated.disturbed taken waits
  rcases Machine.step_cases sound.valid taken with ⟨_, _, impossible, _⟩ | ⟨_, call, phase, same, running, _⟩
  · cases impossible
  · cases same
    obtain ⟨_, standing, found, stands⟩ := simulated.writes.standing thread call phase running
    have points : ∀ start last, phase ≠ .removeRange start last := by
      intro start last same
      subst same
      cases stands with
      | waiting asks => cases asks
      | performed owes => cases owes
    have onTarget : phase.OnTarget shared.machine.set := by
      cases phase with
      | commitSplit node old value checked emitCdc cdc =>
        intro linked
        have aimed := allowed.1.2
        simp only [Machine.Aimed, running] at aimed
        exact (route_eq_some.mp (aimed linked)).2
      | _ => trivial
    have advanced : machine = shared.machine.advance thread call phase := by
      simp only [Machine.step, running] at taken
      exact (Option.some.inj taken).symm
    have fulfils : shared.machine.Fulfils borrow thread call phase (shared.machine.advance thread call phase) :=
      Machine.advance_fulfils sound.valid orderly.routed orderly.recounts phase points onTarget (allowed.2 call phase running)
    obtain ⟨set, next, written, commits, moved⟩ := fulfils
    rw [← advanced] at moved
    subst moved
    cases List.append_cancel_right noted
    obtain ⟨status, run, others, fits⟩ := commits_run commits simulated.run found stands
    refine ⟨status, later, run, stable, valid, ?_, ?_⟩
    · refine simulated.writes.continues Sum.inl_injective running next fits others fun owner request member => ?_
      exact (List.mem_append.mp member).resolve_right (commits_quiet commits _ _)
    · refine simulated.reads.frame (fun read => others _ (by simp)) fun read request member => ?_
      exact (List.mem_append.mp member).resolve_right (commits_quiet commits _ _)

/-- Readers change nothing but their own places. -/
private theorem Simulated.place (simulated : Simulated borrow borrowOrderMatches nodeCapacity shared status) (reader : ReaderId)
    (next : Option (CallId × Q × ReadPhase α κ))
    (fits : ∀ read wanted phase, next = some (read, wanted, phase) →
      phase.Valid borrow borrowOrderMatches wanted shared.machine.set.index shared.machine.set.heap) :
    ∀ other read wanted phase, Function.update shared.reads reader next other = some (read, wanted, phase) →
      phase.Valid borrow borrowOrderMatches wanted shared.machine.set.index shared.machine.set.heap := by
  intro other read wanted phase running
  by_cases here : other = reader
  · subst here
    exact fits read wanted phase (by simpa using running)
  · exact simulated.valid other read wanted phase (by simpa [Function.update_of_ne here] using running)

theorem Step.simulated (strict : StrictMono borrow) (step : Step borrow borrowOrderMatches shared after)
    (simulated : Simulated borrow borrowOrderMatches nodeCapacity shared status) :
    ∃ status, Simulated borrow borrowOrderMatches nodeCapacity after status := by
  cases step with
  | writes action records allowed taken noted waits =>
    cases action with
    | invoke thread request => exact simulated.invoke allowed.1 taken noted
    | advance thread => exact simulated.section allowed taken noted waits
  | begins reader wanted idle =>
    have fresh : ∀ other, .invoke (.inr shared.begun) other ∉ shared.events := by
      intro other member
      exact absurd (simulated.reads.known _ other member) (lt_irrefl _)
    have run := simulated.run.invoke (.inr shared.begun) (.find wanted) fresh
    refine ⟨_, simulated.reached, run, simulated.stable, simulated.place reader _ ?_, ?_, ?_⟩
    · intro read other phase same
      cases same
      trivial
    · refine simulated.writes.frame (fun call => Function.update_of_ne (by simp) _ _) fun call other member => ?_
      simpa using member
    · refine simulated.reads.begins Sum.inr_injective reader (Function.update_self ..) rfl
        (fun call apart => Function.update_of_ne apart _ _) fun call other member => ?_
      rcases List.mem_append.mp member with earlier | last
      · exact Or.inr earlier
      · cases List.mem_singleton.mp last
        exact Or.inl rfl
  | @advances reader later read wanted phase running taken =>
    have sound := simulated.reached.sound.valid.sound
    have orderly := simulated.reached.orderly
    have valid := simulated.valid reader read wanted phase running
    obtain ⟨_, standing, found, stands⟩ := simulated.reads.standing reader read _ running
    obtain ⟨status, run, others, fits⟩ := find_run strict simulated.stable sound orderly.routed orderly.recounts valid taken
      simulated.run found stands
    refine ⟨status, simulated.reached, run, simulated.stable, simulated.place reader _ ?_, ?_, ?_⟩
    · intro _ _ _ same
      cases same
      exact valid.advance strict.monotone simulated.stable sound.sorted taken
    · exact simulated.writes.frame (fun call => others _ (by simp)) fun _ _ member => member
    · refine simulated.reads.continues Sum.inr_injective running (some (wanted, later)) (fun _ same => ?_) others fun _ _ member => member
      cases same
      exact fits
  | @answers reader read wanted result seen running =>
    obtain ⟨_, standing, found, stands⟩ := simulated.reads.standing reader read _ running
    cases stands
    refine ⟨_, simulated.reached, simulated.run.respond (.inr read) _ _ found, simulated.stable, simulated.place reader _ ?_, ?_, ?_⟩
    · intro _ _ _ impossible
      cases impossible
    · refine simulated.writes.frame (fun call => Function.update_of_ne (by simp) _ _) fun call other member => ?_
      simpa using member
    · refine simulated.reads.continues Sum.inr_injective running none (fun _ impossible => by cases impossible)
        (fun other apart => Function.update_of_ne apart _ _) fun call other member => ?_
      simpa using member

theorem Reached.simulated (strict : StrictMono borrow) (reached : Reached borrow borrowOrderMatches nodeCapacity shared) :
    ∃ status, Simulated borrow borrowOrderMatches nodeCapacity shared status := by
  induction reached with
  | refl =>
    exact ⟨_, .start, .start, ⟨publishes_new, fun _ _ member => (not_mem_empty _ member).elim, rfl⟩,
      fun _ _ _ _ running => (by cases running), .start, .start⟩
  | tail _ step ih =>
    obtain ⟨status, simulated⟩ := ih
    exact step.simulated strict simulated

/-- Insertions, removals and point reads are linearizable, in every run in which a split that
finds its node still has its value routed there and, for a checked insertion, no equal
key in it: one order of the calls, in which every answer is that of a map, respects
their real time. -/
theorem calls_linearizable (strict : StrictMono borrow) (reached : Reached borrow borrowOrderMatches nodeCapacity shared) :
    (mapObject borrow).Linearizable shared.events := by
  obtain ⟨status, simulated⟩ := reached.simulated strict
  exact simulated.run.linearizable

/-- A removal of 10 looks its node up, a read of 10 begins, accepts and lets the node go, and the
removal ends before the read answers. -/
theorem calls_linearizable_overlap : ∃ shared : SharedSet Nat Nat Nat, Reached id true 2 shared ∧
    shared.events = [.invoke (.inl 0) (.insert 10 false), .respond (.inl 0) (.found none), .invoke (.inl 1) (.remove 10),
      .invoke (.inr 0) (.find 10), .respond (.inl 1) (.found (some 10)), .respond (.inr 0) (.found (some 10))] ∧
    (mapObject id).Linearizable shared.events := by
  have unlocked : ∀ {shared : SharedSet Nat Nat Nat} {after : Machine Nat Nat},
      (∀ reader read, shared.reads reader = some read → read.2.2.holds = none) →
      ∀ node, shared.Locked node → after.set.heap.cells node = shared.machine.set.heap.cells node := by
    intro shared after unheld node locked
    obtain ⟨reader, read, wanted, phase, running, held⟩ := locked
    cases (unheld reader _ running).symm.trans held
  have alone : ∀ {reads : ReaderId → Option (CallId × Nat × ReadPhase Nat Nat)} {read}, (∀ reader, reader ≠ 0 → reads reader = none) →
      ∀ reader, reader ≠ 0 → Function.update reads 0 read reader = none :=
    fun others reader away => (Function.update_of_ne away _ _).trans (others reader away)
  have released : ∀ {reads : ReaderId → Option (CallId × Nat × ReadPhase Nat Nat)} {call wanted result seen},
      (∀ reader, reader ≠ 0 → reads reader = none) → ∀ reader read,
      Function.update reads 0 (some (call, wanted, .returned result seen)) reader = some read → read.2.2.holds = none := by
    intro reads call wanted result seen others reader read running
    by_cases here : reader = 0
    · subst here
      rw [Function.update_self] at running
      cases running
      rfl
    · cases (alone others reader here).symm.trans running
  obtain ⟨shared, reached, same⟩ : ∃ shared : SharedSet Nat Nat Nat, Reached id true 2 shared ∧
      shared.events = [.invoke (.inl 0) (.insert 10 false), .respond (.inl 0) (.found none), .invoke (.inl 1) (.remove 10),
        .invoke (.inr 0) (.find 10), .respond (.inl 1) (.found (some 10)), .respond (.inr 0) (.found (some 10))] := by
    refine ⟨_, .tail (.tail (.tail (.tail (.tail (.tail (.tail (.tail (.tail (.tail (.tail (.tail (.tail .refl
      (.writes (.invoke 0 (.insert 10 false false)) [_] ⟨⟨trivial, trivial⟩, trivial⟩ rfl rfl
        (unlocked fun _ _ none => by cases none)))
      (.writes (.advance 0) [] ⟨⟨trivial, trivial⟩, fun _ _ same => by cases same; trivial⟩ rfl rfl
        (unlocked fun _ _ none => by cases none)))
      (.writes (.advance 0) [_, _] ⟨⟨trivial, trivial⟩, fun _ _ same => by cases same; trivial⟩ rfl rfl
        (unlocked fun _ _ none => by cases none)))
      (.writes (.invoke 1 (.remove 10 false)) [_] ⟨⟨trivial, trivial⟩, trivial⟩ rfl rfl
        (unlocked fun _ _ none => by cases none)))
      (.writes (.advance 1) [] ⟨⟨trivial, trivial⟩, fun _ _ same => by cases same; trivial⟩ rfl rfl
        (unlocked fun _ _ none => by cases none)))
      (.begins 0 10 rfl))
      (.advances 0 (.pinned 0 2) rfl rfl)) (.advances 0 (.routed 0 2 (some 0)) rfl rfl))
      (.advances 0 (.locked 0 2 0) rfl rfl)) (.advances 0 (.accepted 0 _) rfl rfl))
      (.advances 0 (.returned (some 10) _) rfl rfl))
      (.writes (.advance 1) [_, _] ⟨⟨trivial, trivial⟩, fun _ _ same => by cases same; trivial⟩ rfl rfl
        (unlocked (released (alone (alone (alone (alone (alone fun _ _ => rfl)))))))))
      (.answers 0 rfl), rfl⟩
  exact ⟨shared, reached, same, calls_linearizable strictMono_id reached⟩

end SharedSet
end WorkTablesIndex
