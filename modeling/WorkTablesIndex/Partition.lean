import WorkTablesIndex.QuietIter
import WorkTablesIndex.WeakConsistency

/-! Concurrent insertions and removals. A value is routed in one section and a scheduled
split stores it in a later one, which asks only whether the node still has its key. As
long as the value still belongs to that node, the nodes partition the values in key
order, and the contents are what the history of stores and erasures says. -/

universe u v

namespace WorkTablesIndex
open Relation SortedMap

variable {α : Type u} {κ : Type v} [LinearOrder κ] [Keyed α κ]

namespace Layout
variable {layout after : Layout α κ}

/-- The linked nodes hold the values in key order and no key twice. -/
structure Partitioned (layout : Layout α κ) : Prop where
  above : ∀ first ∈ layout.index, ∀ second ∈ layout.index, first.1 < second.1 →
    ∀ value ∈ layout.heap.cells second.2, first.1 < key value
  within : ∀ first ∈ layout.index, ∀ second ∈ layout.index, first.1 < second.1 →
    ∀ value ∈ layout.heap.cells first.2, key value ≤ first.1
  once : ∀ first ∈ layout.index, ∀ second ∈ layout.index, ∀ left ∈ layout.heap.cells first.2,
    ∀ right ∈ layout.heap.cells second.2, key left = key right → first = second

theorem Routed.partitioned (routed : Routed layout) : Partitioned layout := by
  refine ⟨fun first member second there before value present => ?_, fun first member second there before value present => ?_,
    fun first member second there left leftIn right rightIn same => ?_⟩
  · exact (routed second.1 second.2 there value present).above first member before
  · exact (routed first.1 first.2 member value present).within second there before
  · have route := routed first.1 first.2 member left leftIn
    exact route.unique member there (same ▸ routed second.1 second.2 there right rightIn)

theorem Routed.upsert (routed : Routed layout) (sound : Sound layout) {entry : κ} {node : NodeId}
    (linked : (entry, node) ∈ layout.index)
    {value : α} (inside : Between layout.index entry (key value)) {values : List α}
    (stored : Node.Upserted (layout.heap.cells node) value values) : Routed (layout.rewrite node values) := by
  apply routed.rewrite sound linked
  intro item member
  rcases (stored.mem item).mp member with rfl | ⟨there, _⟩
  · exact inside
  · exact routed entry node linked item there

theorem Routed.shrink (routed : Routed layout) (sound : Sound layout) {entry : κ} {node : NodeId}
    (linked : (entry, node) ∈ layout.index)
    {gone : κ} {values : List α} (removed : Node.Removed (layout.heap.cells node) gone values) :
    Routed (layout.rewrite node values) :=
  routed.rewrite sound linked fun item member => routed entry node linked item ((removed.mem item).mp member).1

end Layout

def latest (wanted : κ) : List (Record α κ) → Option α
  | [] => none
  | .stored _ value :: rest => if key value = wanted then some value else latest wanted rest
  | .erased _ value :: rest => if key value = wanted then none else latest wanted rest
  | _ :: rest => latest wanted rest

/-- The layout holds exactly what was stored last and not erased since. -/
def Recounts (history : List (Record α κ)) (layout : Layout α κ) : Prop :=
  ∀ item, layout.Stored item ↔ latest (key item) history = some item

section Histories
variable {history : List (Record α κ)} {layout after : Layout α κ} {call : CallId} {value : α} {wanted : κ}

theorem latest_key (found : latest wanted history = some value) : key value = wanted := by
  induction history with
  | nil => cases found
  | cons record rest ih =>
    cases record with
    | stored call item =>
      simp only [latest] at found
      split at found
      next same => cases found; exact same
      next => exact ih found
    | erased call item =>
      simp only [latest] at found
      split at found
      next => cases found
      next => exact ih found
    | invoked | split | returned | rejected => exact ih found

theorem latest_splitRecords (population : Nat) (cdc : List (ChangeEvent α)) :
    latest wanted (splitRecords call population cdc ++ history) = latest wanted history := by
  induction cdc with
  | nil => rfl
  | cons event rest ih =>
    simp only [splitRecords] at ih ⊢
    cases event <;> simpa [latest] using ih

/-- A value that was stored and not erased since is still there, or has been replaced. -/
theorem latest_of_stored {newer older : List (Record α κ)}
    (stays : ∀ other item, .erased other item ∈ newer → key item ≠ key value) :
    ∃ item, latest (key value) (newer ++ .stored call value :: older) = some item := by
  induction newer with
  | nil => exact ⟨value, by simp [latest]⟩
  | cons record rest ih =>
    obtain ⟨item, found⟩ := ih fun other item member => stays other item (List.mem_cons_of_mem _ member)
    cases record with
    | stored other stored =>
      by_cases same : key stored = key value
      · exact ⟨stored, by simp [latest, same]⟩
      · exact ⟨item, by simpa [latest, same] using found⟩
    | erased other gone =>
      have apart := stays other gone List.mem_cons_self
      exact ⟨item, by simpa [latest, apart] using found⟩
    | invoked | split | returned | rejected => exact ⟨item, found⟩

theorem Recounts.gains (recounts : Recounts history layout) (call : CallId) (gains : layout.Gains after value) :
    Recounts (.stored call value :: history) after := by
  intro item
  rw [gains item, recounts item, latest]
  split
  next same =>
    rw [Option.some.injEq]
    exact ⟨fun either => (either.resolve_right fun other => other.2 same.symm).symm, fun equal => Or.inl equal.symm⟩
  next apart =>
    refine ⟨fun either => ?_, fun found => Or.inr ⟨found, Ne.symm apart⟩⟩
    rcases either with rfl | both
    · exact absurd rfl apart
    · exact both.1

theorem Recounts.loses (recounts : Recounts history layout) (call : CallId) (loses : layout.Loses after (key value)) :
    Recounts (.erased call value :: history) after := by
  intro item
  rw [loses item, recounts item, latest]
  split
  next same => exact ⟨fun both => absurd same.symm both.2, fun found => by cases found⟩
  next apart => exact ⟨And.left, fun found => ⟨found, Ne.symm apart⟩⟩

theorem Recounts.split (recounts : Recounts history layout) (call : CallId) (population : Nat) (cdc : List (ChangeEvent α)) :
    Recounts (splitRecords call population cdc ++ history) layout := by
  intro item
  rw [latest_splitRecords]
  exact recounts item

/-- One section of an insertion or a removal. A split commits where its value belongs. -/
theorem section_recounts {set later : BTreeSet α κ} {phase : Phase α κ} {next : Option (Phase α κ)} {records : List (Record α κ)}
    (valid : set.Valid) (routed : set.layout.Routed) (runs : Section set call phase later next records)
    (pointwise : ∀ start last, phase ≠ .removeRange start last)
    (aimed : ∀ node old value checked emitCdc cdc, phase = .commitSplit node old value checked emitCdc cdc →
      (old, node) ∈ set.index.index → Between set.index.index old (key value)) :
    later.layout.Routed ∧ (Recounts history set.layout → Recounts (records ++ history) later.layout) := by
  have sound := valid.sound
  cases runs with
  | again _ unchanged _ => exact unchanged.symm ▸ ⟨routed, id⟩
  | rejected => exact ⟨routed, id⟩
  | missed _ unchanged _ => exact unchanged.symm ▸ ⟨routed, id⟩
  | schedules _ _ => exact ⟨routed, id⟩
  | stores linked inside _ stored _ rewritten =>
    rw [rewritten]
    exact ⟨routed.upsert sound linked inside stored, fun recounts =>
      recounts.gains call (Layout.rewrite_gains routed sound linked inside stored)⟩
  | grows linked inside _ stored rewritten =>
    rw [rewritten]
    exact ⟨routed.upsert sound linked inside stored, fun recounts =>
      recounts.gains call (Layout.rewrite_gains routed sound linked inside stored)⟩
  | roots empty _ rooted =>
    rw [rooted]
    exact ⟨.root empty _, fun recounts => recounts.gains call (Layout.root_gains empty _)⟩
  | splits linked _ stored filled divided committed _ =>
    have inside := aimed _ _ _ _ _ _ rfl linked
    rw [divided]
    exact ⟨routed.split sound linked inside stored filled,
      fun recounts => (recounts.split call _ committed).gains call (Layout.split_gains routed sound linked inside stored filled)⟩
  | rekeys _ linked greatest _ rekeyed =>
    rw [rekeyed]
    exact ⟨routed.rekey sound linked greatest, fun recounts item =>
      (Layout.rekey_stored routed sound linked greatest item).trans (recounts item)⟩
  | waives _ _ _ unchanged => exact unchanged.symm ▸ ⟨routed, id⟩
  | deletes linked inside _ removed _ _ rewritten =>
    rw [rewritten]
    exact ⟨routed.shrink sound linked removed, fun recounts =>
      recounts.loses call (Layout.rewrite_loses routed sound linked inside removed)⟩
  | shrinks linked inside _ removed _ rewritten =>
    rw [rewritten]
    exact ⟨routed.shrink sound linked removed, fun recounts =>
      recounts.loses call (Layout.rewrite_loses routed sound linked inside removed)⟩
  | unlinks linked inside _ removed _ unlinked =>
    rw [unlinked]
    exact ⟨routed.unlink sound linked, fun recounts => recounts.loses call (Layout.unlink_loses routed sound linked inside removed)⟩
  | sweeps _ _ => exact absurd rfl (pointwise _ _)

end Histories

/-- The phase is one of the request's, with what the call has done by then. -/
def Serves (history : List (Record α κ)) (call : CallId) (request : Request α κ) : Phase α κ → Prop
  | .put value checked emitCdc | .root value checked emitCdc | .commitSplit _ _ value checked emitCdc _ =>
    request = .insert value checked emitCdc
  | .commitMax .. => ∃ value checked emitCdc, request = .insert value checked emitCdc ∧ .stored call value ∈ history
  | .remove wanted emitCdc | .unlink wanted emitCdc => request = .remove wanted emitCdc
  | .repair .. => ∃ wanted emitCdc, request = .remove wanted emitCdc
  | .removeRange start last => request = .removeRange start last

def Honours (history : List (Record α κ)) (call : CallId) (request : Request α κ) : Prop :=
  ∀ value checked emitCdc, request = .insert value checked emitCdc → .stored call value ∈ history

section Service
variable {set after : BTreeSet α κ} {call : CallId} {phase : Phase α κ} {next : Option (Phase α κ)}
  {records history : List (Record α κ)} {request : Request α κ}

omit [LinearOrder κ] [Keyed α κ] in
/-- A call that owes a repair has already done what it was asked for. -/
private theorem repairs_honours {owed : NodeId × κ} (repairs : phase.repairs = some owed)
    (serves : Serves history call request phase) :
    Honours (records ++ history) call request := by
  intro value checked emitCdc inserts
  cases phase with
  | commitMax node old emit cdc =>
    obtain ⟨_, _, _, same, stored⟩ := serves
    cases same.symm.trans inserts
    exact List.mem_append_right _ stored
  | repair node old deleted cdc =>
    obtain ⟨_, _, same⟩ := serves
    cases same.symm.trans inserts
  | _ => cases repairs

theorem section_records (runs : Section set call phase after next records) :
    (∀ other result cdc, .returned other result cdc ∈ records → other = call) ∧
      ∀ other invoked, .invoked other invoked ∉ records := by
  cases runs with
  | @splits node _ _ _ _ _ _ _ _ _ _ _ _ _ _ committed _ =>
    have plain : ∀ record ∈ splitRecords (κ := κ) call (set.heap.cells node).length committed,
        ∃ splitIndex population, record = .split call splitIndex population := by
      intro record member
      obtain ⟨event, _, found⟩ := List.mem_filterMap.mp member
      cases event <;> cases found
      exact ⟨_, _, rfl⟩
    refine ⟨fun other result cdc member => ?_, fun other invoked member => ?_⟩
    · rcases List.mem_cons.mp member with same | later
      · cases same
        rfl
      · obtain ⟨_, _, same⟩ := plain _ (List.mem_of_ne_of_mem (by simp) later)
        cases same
    · obtain ⟨_, _, same⟩ := plain _ (List.mem_of_ne_of_mem (by simp) (List.mem_of_ne_of_mem (by simp) member))
      cases same
  | _ => simp_all

/-- The call goes on serving its request, and returns only when it is done. -/
theorem section_serves (runs : Section set call phase after next records) (serves : Serves history call request phase) :
    (∀ later, next = some later → Serves (records ++ history) call request later) ∧
    ∀ result cdc, .returned call result cdc ∈ records → Honours (records ++ history) call request := by
  have removes : ∀ {records : List (Record α κ)} {wanted emitCdc}, request = .remove wanted emitCdc → Honours records call request :=
    fun same value checked emitCdc inserts => by cases same.symm.trans inserts
  have inserts : ∀ {records : List (Record α κ)} {value checked emitCdc}, request = .insert value checked emitCdc →
      .stored call value ∈ records → Honours records call request :=
    fun same stored value checked emitCdc inserts => by cases same.symm.trans inserts; exact stored
  cases runs with
  | again _ _ retries =>
    refine ⟨fun later same => ?_, by simp⟩
    cases same
    rcases retries with ⟨_, _, _, rfl, rfl⟩ | ⟨_, _, _, rfl, rfl⟩ | ⟨_, _, _, _, _, _, rfl, rfl⟩ | ⟨_, _, rfl, rfl⟩ |
      ⟨_, _, rfl, rfl⟩ <;>
      exact serves
  | rejected => exact ⟨by simp, by simp⟩
  | missed _ _ removal =>
    obtain ⟨_, _, rfl | rfl, _⟩ := removal <;> exact ⟨by simp, fun _ _ _ => removes serves⟩
  | schedules _ _ =>
    refine ⟨fun later same => ?_, by simp⟩
    cases same
    exact serves
  | stores _ _ _ _ _ _ => exact ⟨by simp, fun _ _ _ => inserts serves (by simp)⟩
  | grows _ _ _ _ _ =>
    refine ⟨fun later same => ?_, by simp⟩
    cases same
    exact ⟨_, _, _, serves, by simp⟩
  | roots _ _ _ => exact ⟨by simp, fun _ _ _ => inserts serves (by simp)⟩
  | splits _ _ _ _ _ _ _ => exact ⟨by simp, fun _ _ _ => inserts serves (by simp)⟩
  | rekeys owed _ _ _ _ => exact ⟨by simp, fun _ _ _ => repairs_honours owed serves⟩
  | waives owed _ _ _ => exact ⟨by simp, fun _ _ _ => repairs_honours owed serves⟩
  | deletes _ _ _ _ _ _ _ => exact ⟨by simp, fun _ _ _ => removes serves⟩
  | shrinks _ _ _ _ _ _ =>
    refine ⟨fun later same => ?_, by simp⟩
    cases same
    exact ⟨_, _, serves⟩
  | unlinks _ _ _ _ _ _ => exact ⟨by simp, fun _ _ _ => removes serves⟩
  | sweeps _ _ => exact ⟨by simp, fun _ _ _ value checked emitCdc inserts => by cases serves.symm.trans inserts⟩

omit [LinearOrder κ] [Keyed α κ] in
theorem Serves.mono {later : List (Record α κ)} (serves : Serves history call request phase) (grows : history ⊆ later) :
    Serves later call request phase := by
  cases phase with
  | commitMax node old emitCdc cdc =>
    obtain ⟨value, checked, emitCdc, same, stored⟩ := serves
    exact ⟨value, checked, emitCdc, same, grows stored⟩
  | _ => exact serves

end Service

namespace Machine
variable {machine before after : Machine α κ} {nodeCapacity : Nat} {action : Action α κ}

/-- The records of the calls: every running call serves the request it was invoked with,
and every call that returned has honoured it. -/
structure Ledger (machine : Machine α κ) : Prop where
  below : ∀ call request, .invoked call request ∈ machine.history → call < machine.calls
  past : ∀ call result cdc, .returned call result cdc ∈ machine.history → call < machine.calls
  unique : ∀ call first second, .invoked call first ∈ machine.history → .invoked call second ∈ machine.history → first = second
  serving : ∀ thread call phase, machine.threads thread = some (call, phase) →
    ∃ request, .invoked call request ∈ machine.history ∧ Serves machine.history call request phase
  honoured : ∀ call request result cdc, .invoked call request ∈ machine.history → .returned call result cdc ∈ machine.history →
    Honours machine.history call request

omit [Keyed α κ] in
private theorem Ledger.invoke (ledger : Ledger machine) (thread : ThreadId) (request : Request α κ) :
    Ledger { machine.goto thread machine.calls request.phase machine.set [.invoked machine.calls request] with
      calls := machine.calls + 1 } := by
  have grows : machine.history ⊆ .invoked machine.calls request :: machine.history := List.subset_cons_self _ _
  refine ⟨fun call other member => ?_, fun call result cdc member => ?_, fun call first second left right => ?_,
    fun other call phase running => ?_, fun call other result cdc member returned => ?_⟩
  · rcases List.mem_cons.mp member with same | earlier
    · cases same
      exact Nat.lt_succ_self _
    · exact (ledger.below call other earlier).trans (Nat.lt_succ_self _)
  · exact (ledger.past call result cdc (List.mem_of_ne_of_mem (by simp) member)).trans (Nat.lt_succ_self _)
  · rcases List.mem_cons.mp left with same | earlier <;> rcases List.mem_cons.mp right with equal | before
    · cases same
      cases equal
      rfl
    · cases same
      exact absurd (ledger.below _ _ before) (lt_irrefl _)
    · cases equal
      exact absurd (ledger.below _ _ earlier) (lt_irrefl _)
    · exact ledger.unique call first second earlier before
  · by_cases here : other = thread
    · subst here
      simp only [move, Function.update_self, Option.some.injEq, Prod.mk.injEq] at running
      obtain ⟨rfl, rfl⟩ := running
      exact ⟨request, List.mem_cons_self, by cases request <;> rfl⟩
    · simp only [move, Function.update_of_ne here] at running
      obtain ⟨served, invoked, serves⟩ := ledger.serving other call phase running
      exact ⟨served, grows invoked, serves.mono grows⟩
  · have earlier := List.mem_of_ne_of_mem (by simp) returned
    rcases List.mem_cons.mp member with same | before
    · cases same
      exact absurd (ledger.past _ _ _ earlier) (lt_irrefl _)
    · exact fun value checked emitCdc inserts => grows (ledger.honoured call other result cdc before earlier value checked emitCdc inserts)

private theorem Ledger.section (ledger : Ledger machine) {thread : ThreadId} {call : CallId} {phase : Phase α κ}
    (running : machine.threads thread = some (call, phase)) {set : BTreeSet α κ} {next : Option (Phase α κ)}
    {records : List (Record α κ)} (runs : Section machine.set call phase set next records) :
    Ledger (machine.move thread (next.map fun phase => (call, phase)) set records) := by
  obtain ⟨request, invoked, serves⟩ := ledger.serving thread call phase running
  obtain ⟨own, quiet⟩ := section_records runs
  obtain ⟨continues, honours⟩ := section_serves runs serves
  have grows : machine.history ⊆ records ++ machine.history := List.subset_append_right _ _
  have old : ∀ {other requested}, .invoked other requested ∈ records ++ machine.history →
      .invoked other requested ∈ machine.history :=
    fun member => (List.mem_append.mp member).resolve_left (quiet _ _)
  refine ⟨fun other requested member => ledger.below other requested (old member), fun other result cdc member => ?_,
    fun other first second left right => ledger.unique other first second (old left) (old right),
    fun other owner later there => ?_, fun other requested result cdc member returned => ?_⟩
  · rcases List.mem_append.mp member with new | earlier
    · rw [own other result cdc new]
      exact ledger.below call request invoked
    · exact ledger.past other result cdc earlier
  · by_cases here : other = thread
    · subst here
      simp only [move, Function.update_self, Option.map_eq_some_iff, Prod.mk.injEq] at there
      obtain ⟨_, same, rfl, rfl⟩ := there
      exact ⟨request, grows invoked, continues _ same⟩
    · simp only [move, Function.update_of_ne here] at there
      obtain ⟨served, asked, serves⟩ := ledger.serving other owner later there
      exact ⟨served, grows asked, serves.mono grows⟩
  · rcases List.mem_append.mp returned with new | earlier
    · cases own other result cdc new
      cases ledger.unique call requested request (old member) invoked
      exact honours result cdc new
    · exact fun value checked emitCdc inserts =>
        grows (ledger.honoured other requested result cdc (old member) earlier value checked emitCdc inserts)

theorem Reached.ledger {permits : Machine α κ → Action α κ → Prop} (reached : Reached permits nodeCapacity machine) :
    Ledger machine := by
  induction reached with
  | start => exact ⟨by simp [Machine.start], by simp [Machine.start], by simp [Machine.start], by simp [Machine.start],
    by simp [Machine.start]⟩
  | step earlier action allowed taken ledger =>
    rcases step_cases earlier.sound.valid taken with ⟨thread, request, _, _, rfl⟩ | ⟨thread, call, phase, _, running, moves⟩
    · exact ledger.invoke thread request
    · obtain ⟨set, next, records, runs, rfl⟩ := moves
      exact ledger.section running runs

def Pointwise : Action α κ → Prop
  | .invoke _ (.removeRange ..) => False
  | _ => True

/-- A split that is about to commit, because its node still has the key it was scheduled
for, still has its value routed to that node. -/
def Aimed (machine : Machine α κ) : Action α κ → Prop
  | .invoke .. => True
  | .advance thread =>
    match machine.threads thread with
    | some (_, .commitSplit node oldMax value ..) => (oldMax, node) ∈ machine.set.index.index →
        route id machine.set.index.index (key value) = some (oldMax, node)
    | _ => True

/-- Every value whose insertion returned, and that was not erased after it was stored, is
found by `contains` and comes up once in an iteration. -/
def Delivers (machine : Machine α κ) : Prop :=
  ∀ call value checked emitCdc result cdc, .invoked call (.insert value checked emitCdc) ∈ machine.history →
    .returned call result cdc ∈ machine.history → .stored call value ∈ machine.history ∧
      ∀ newer older, machine.history = newer ++ .stored call value :: older →
        (∀ other item, .erased other item ∈ newer → key item ≠ key value) →
          machine.set.contains id (key value) = true ∧ ∃ items fuel, machine.set.iter.collect machine.set fuel = some items ∧
            (items.map key).count (key value) = 1

structure Orderly (machine : Machine α κ) : Prop where
  routed : machine.set.layout.Routed
  recounts : Recounts machine.history machine.set.layout
  pointwise : ∀ call start last, .invoked call (.removeRange start last) ∉ machine.history

theorem Orderly.step (orderly : Orderly before) (sound : Sound before) (ledger : Ledger before)
    (allowed : Pointwise action ∧ Aimed before action) (taken : before.step action = some after) : Orderly after := by
  rcases step_cases sound.valid taken with ⟨thread, request, rfl, _, rfl⟩ | ⟨thread, call, phase, rfl, running, moves⟩
  · refine ⟨orderly.routed, orderly.recounts, fun call start last member => ?_⟩
    rcases List.mem_cons.mp member with same | earlier
    · cases same
      exact allowed.1
    · exact orderly.pointwise call start last earlier
  · obtain ⟨set, next, records, runs, rfl⟩ := moves
    obtain ⟨request, invoked, serves⟩ := ledger.serving thread call phase running
    have points : ∀ start last, phase ≠ .removeRange start last := by
      intro start last same
      subst same
      cases serves
      exact orderly.pointwise call start last invoked
    have aims : ∀ node old value checked emitCdc cdc, phase = .commitSplit node old value checked emitCdc cdc →
        (old, node) ∈ before.set.index.index → Between before.set.index.index old (key value) := by
      intro node old value checked emitCdc cdc same linked
      subst same
      have aimed := allowed.2
      simp only [Aimed, running] at aimed
      exact (route_eq_some.mp (aimed linked)).2
    obtain ⟨routed, recounts⟩ := section_recounts sound.valid orderly.routed runs points aims
    exact ⟨routed, recounts orderly.recounts, fun other start last member =>
      orderly.pointwise other start last ((List.mem_append.mp member).resolve_left ((section_records runs).2 _ _))⟩

theorem Reached.orderly
    (reached : Reached (fun machine action => Pointwise action ∧ Aimed machine action) nodeCapacity machine) :
    Orderly machine := by
  induction reached with
  | start =>
    refine ⟨fun _ _ member => (not_mem_empty _ member).elim, fun item => ?_, by simp [Machine.start]⟩
    refine ⟨fun stored => ?_, fun found => by cases found⟩
    obtain ⟨_, _, member, _⟩ := stored
    exact (not_mem_empty _ member).elim
  | step earlier action allowed taken orderly => exact orderly.step earlier.sound earlier.ledger allowed taken

private theorem Orderly.delivers (orderly : Orderly machine) (ledger : Ledger machine) (tidy : machine.set.Tidy) :
    Delivers machine := by
  intro call value checked emitCdc result cdc invoked returned
  refine ⟨ledger.honoured call _ result cdc invoked returned value checked emitCdc rfl, fun newer older split stays => ?_⟩
  obtain ⟨item, found⟩ : ∃ item, latest (key value) machine.history = some item := split ▸ latest_of_stored stays
  have same : key item = key value := latest_key found
  have stored : machine.set.layout.Stored item := (orderly.recounts item).mpr (same ▸ found)
  have holds : machine.set.layout.Holds (key value) (some item) := by
    intro other
    rw [← found]
    refine ⟨fun latest => ⟨(orderly.recounts other).mpr (latest_key latest ▸ latest), latest_key latest⟩, fun both => ?_⟩
    exact both.2 ▸ (orderly.recounts other).mp both.1
  refine ⟨?_, machine.set.nodes.flatten, _, tidy.collect_eq (Nat.lt_succ_self _), ?_⟩
  · rw [BTreeSet.contains, BTreeSet.getWith_eq tidy _ _ holds]
    rfl
  · have distinct : (machine.set.nodes.flatten.map key).Nodup :=
      List.pairwise_map.mpr (tidy.sorted_contents.imp fun below => below.ne)
    apply List.count_eq_one_of_mem distinct
    rw [← same]
    exact List.mem_map_of_mem ((BTreeSet.mem_flatten_nodes item).mpr stored)

/-- In every run of insertions and removals whose split commits all find their value still
routed to the node they split, the linked nodes partition the values in key order, and
once all calls have returned no inserted value is lost. -/
theorem values_partitioned (reached : Reached (fun machine action => Pointwise action ∧ Aimed machine action) nodeCapacity machine) :
    machine.set.layout.Partitioned ∧ (machine.Quiescent → machine.Delivers) := by
  have orderly := reached.orderly
  have sound := reached.sound
  refine ⟨orderly.routed.partitioned, fun quiescent => orderly.delivers reached.ledger ?_⟩
  refine ⟨sound.valid, sound.valid.sound, orderly.routed, fun entry node member => ?_⟩
  rcases sound.tracked entry node member with tight | ⟨thread, call, phase, runs, _⟩
  · exact tight
  · rw [quiescent thread] at runs
    cases runs

/-- A split of the full node `[10, 20]` commits while its value 30 still belongs there. -/
theorem values_partitioned_split : ∃ machine : Machine Nat Nat,
    Reached (fun machine action => Pointwise action ∧ Aimed machine action) 2 machine ∧ machine.Quiescent ∧
      machine.set.nodes = [[10], [20, 30]] ∧ machine.set.layout.Partitioned ∧ machine.set.contains id 30 = true := by
  obtain ⟨machine, reached, quiescent, nodes, invoked, history⟩ : ∃ machine : Machine Nat Nat,
      Reached (fun machine action => Pointwise action ∧ Aimed machine action) 2 machine ∧ machine.Quiescent ∧
        machine.set.nodes = [[10], [20, 30]] ∧ .invoked 2 (.insert 30 false false) ∈ machine.history ∧
        ∃ older, machine.history = [.returned 2 none []] ++ .stored 2 30 :: older :=
    ⟨_, .step (.step (.step (.step (.step (.step (.step (.step (.step .start
      (.invoke 0 (.insert 10 false false)) ⟨trivial, trivial⟩ rfl) (.advance 0) ⟨trivial, trivial⟩ rfl)
      (.advance 0) ⟨trivial, trivial⟩ rfl)
      (.invoke 0 (.insert 20 false false)) ⟨trivial, trivial⟩ rfl) (.advance 0) ⟨trivial, trivial⟩ rfl)
      (.advance 0) ⟨trivial, trivial⟩ rfl)
      (.invoke 1 (.insert 30 false false)) ⟨trivial, trivial⟩ rfl) (.advance 1) ⟨trivial, trivial⟩ rfl)
      (.advance 1) ⟨trivial, fun _ => rfl⟩ rfl,
      fun | 0 => rfl | 1 => rfl | _ + 2 => rfl, by decide, by decide, _, rfl⟩
  obtain ⟨older, history⟩ := history
  obtain ⟨partitioned, delivers⟩ := values_partitioned reached
  have delivered := delivers quiescent 2 30 false false none [] invoked (by simp [history])
  exact ⟨machine, reached, quiescent, nodes, partitioned, (delivered.2 _ older history (by simp)).1⟩

/-- Two writers schedule splits of the node `[10, 20]`, whose key is still 10. The commit for 30
leaves 10 alone in it, under the same key, so the commit for 40 passes its check and splits
it again: 40 joins 10, above the node of 20 and 30. -/
def staleSplit : List (Action Nat Nat) :=
  [.invoke 0 (.insert 10 false false), .advance 0, .advance 0, .invoke 1 (.insert 20 false false), .advance 1,
    .invoke 2 (.insert 40 false false), .advance 2, .invoke 3 (.insert 30 false false), .advance 3, .advance 3,
      .advance 2, .advance 1]

theorem values_misrouted_stale_split : ∃ machine : Machine Nat Nat, Reached (fun _ action => Pointwise action) 2 machine ∧ machine.Quiescent ∧
    machine.set.nodes = [[20, 30], [10, 40]] ∧ machine.set.contains id 10 = false ∧ ¬ machine.set.layout.Partitioned ∧
    ¬ machine.Delivers := by
  obtain ⟨machine, ran, quiescent, nodes, ⟨first, second, misplaced⟩, missing, invoked, returned, unerased⟩ :
      ∃ machine : Machine Nat Nat,
      (start 2).run staleSplit = some machine ∧ machine.Quiescent ∧ machine.set.nodes = [[20, 30], [10, 40]] ∧
      ((30, 1) ∈ machine.set.index.index ∧ (40, 2) ∈ machine.set.index.index ∧ 10 ∈ machine.set.heap.cells 2) ∧
      machine.set.contains id 10 = false ∧ .invoked 0 (.insert 10 false false) ∈ machine.history ∧
      .returned 0 none [] ∈ machine.history ∧ (machine.history.all fun | .erased .. => false | _ => true) = true :=
    ⟨_, rfl, fun | 0 => rfl | 1 => rfl | 2 => rfl | 3 => rfl | _ + 4 => rfl, by decide, by decide, by decide, by decide, by decide,
      by decide⟩
  have reached : Reached (fun _ action => Pointwise action) 2 machine := by
    refine Reached.start.runs (fun _ action member => ?_) ran
    have pointwise : ∀ action ∈ staleSplit, Pointwise action := by simp [staleSplit, Pointwise]
    exact pointwise action member
  refine ⟨machine, reached, quiescent, nodes, missing, fun partitioned => ?_, fun delivers => ?_⟩
  · exact absurd (partitioned.above _ first _ second (by decide) 10 misplaced) (by decide)
  · obtain ⟨stored, found⟩ := delivers 0 10 false false none [] invoked returned
    obtain ⟨newer, older, split⟩ := List.append_of_mem stored
    have present := found newer older split fun other item member =>
      absurd (List.all_eq_true.mp unerased (.erased other item) (split ▸ List.mem_append_left _ member)) Bool.false_ne_true
    exact Bool.false_ne_true (missing.symm.trans present.1)

end Machine
end WorkTablesIndex
