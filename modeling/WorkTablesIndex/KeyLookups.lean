import WorkTablesIndex.MultiMapRefinement
import WorkTablesIndex.Partition

/-! Lookups by key among concurrent writers of the multimap. A step is one critical section
of one thread, and each lookup under way carries the multimap of every moment since it
began. A point read is one section, taken at the moment it accepts; see `PointRead`. -/

universe u v

namespace WorkTablesIndex
open SortedMap

variable {K : Type u} {V : Type v} [LinearOrder K] [LinearOrder V]

/-- The section a lookup runs next: the read of `contains_key`, or the node section or the
unlink of `remove_some`. -/
inductive SeekPhase where
  | containsKey
  | removeSome
  | unlinkSome
  deriving DecidableEq

/-- A lookup by key. The moments are those since its invocation, the latest first. -/
structure Seek (K : Type u) (V : Type v) [LinearOrder K] [LinearOrder V] where
  call : CallId
  key : K
  phase : SeekPhase
  moments : List (BTreeMultiMap K V)

/-- The insertions and exact removals under way are those of `base`, with the repairs that
`remove_some` owes; `misses` are the lookups that returned without an entry. -/
structure MultiMapMachine (K : Type u) (V : Type v) [LinearOrder K] [LinearOrder V] where
  base : Machine (OrdMultiPair K V) (K ×ₗ V)
  seeks : ThreadId → Option (Seek K V)
  misses : List (Seek K V)

inductive MultiMapAction (K : Type u) (V : Type v) where
  | insert (thread : ThreadId) (key : K) (value : V)
  | remove (thread : ThreadId) (key : K) (value : V)
  | containsKey (thread : ThreadId) (key : K)
  | removeSome (thread : ThreadId) (key : K)
  | advance (thread : ThreadId)

namespace MultiMapMachine
open OrdMultiPair

def start (map : BTreeMultiMap K V) : MultiMapMachine K V := ⟨⟨map, fun _ => none, 0, []⟩, fun _ => none, []⟩

def observe (base : Machine (OrdMultiPair K V) (K ×ₗ V)) (seeks : ThreadId → Option (Seek K V)) (misses : List (Seek K V)) :
    MultiMapMachine K V :=
  ⟨base, fun thread => (seeks thread).map fun seek => { seek with moments := base.set :: seek.moments }, misses⟩

def look (machine : MultiMapMachine K V) (thread : ThreadId) (seek : Seek K V) : MultiMapMachine K V :=
  let base := machine.base
  let done := Function.update machine.seeks thread none
  let goto (phase : SeekPhase) := Function.update machine.seeks thread (some { seek with phase })
  match seek.phase with
  | .containsKey =>
    if BTreeMultiMap.containsKey seek.key base.set then observe base done machine.misses
    else observe base done (seek :: machine.misses)
  | .removeSome =>
    match BTreeSet.removeNode borrow false seek.key base.set with
    | (.absent, set) => observe (base.exit thread set [.returned seek.call none []]) done (seek :: machine.misses)
    | (.singleton, set) => observe (base.exit thread set []) (goto .unlinkSome) machine.misses
    | (.removed deleted cdc, set) =>
      observe (base.exit thread set [.returned seek.call (some deleted) cdc, .erased seek.call deleted]) done machine.misses
    | (.repair deleted cdc node oldMax, set) =>
      observe (base.goto thread seek.call (.repair node oldMax deleted cdc) set [.erased seek.call deleted]) done machine.misses
  | .unlinkSome =>
    match BTreeSet.unlinkNode borrow false seek.key base.set with
    | (.absent, set) => observe (base.exit thread set [.returned seek.call none []]) done (seek :: machine.misses)
    | (.retry, set) => observe (base.exit thread set []) (goto .removeSome) machine.misses
    | (.removed deleted cdc, set) =>
      observe (base.exit thread set [.returned seek.call (some deleted) cdc, .erased seek.call deleted]) done machine.misses

def invoke (machine : MultiMapMachine K V) (thread : ThreadId) (request : Request (OrdMultiPair K V) (K ×ₗ V)) :
    Option (MultiMapMachine K V) :=
  match machine.seeks thread with
  | some _ => none
  | none => (machine.base.step (.invoke thread request)).map fun base => observe base machine.seeks machine.misses

def lookUp (machine : MultiMapMachine K V) (thread : ThreadId) (key : K) (phase : SeekPhase) : Option (MultiMapMachine K V) :=
  match machine.seeks thread, machine.base.threads thread with
  | none, none =>
    some (observe { machine.base with calls := machine.base.calls + 1 }
      (Function.update machine.seeks thread (some ⟨machine.base.calls, key, phase, []⟩)) machine.misses)
  | _, _ => none

def step (machine : MultiMapMachine K V) : MultiMapAction K V → Option (MultiMapMachine K V)
  | .insert thread key value => machine.invoke thread (.insert ⟨key, value⟩ false false)
  | .remove thread key value => machine.invoke thread (.remove (toLex (key, value)) false)
  | .containsKey thread key => machine.lookUp thread key .containsKey
  | .removeSome thread key => machine.lookUp thread key .removeSome
  | .advance thread =>
    match machine.seeks thread with
    | some seek => some (machine.look thread seek)
    | none => (machine.base.step (.advance thread)).map fun base => observe base machine.seeks machine.misses

inductive Reached (permits : MultiMapMachine K V → MultiMapAction K V → Prop) (nodeCapacity : Nat) : MultiMapMachine K V → Prop where
  | start {map : BTreeMultiMap K V} {pairs : Finset (K ×ₗ V)} (built : BTreeMultiMap.Reached nodeCapacity map pairs) :
      Reached permits nodeCapacity (start map)
  | step {before after : MultiMapMachine K V} (earlier : Reached permits nodeCapacity before) (action : MultiMapAction K V)
      (allowed : permits before action) (taken : before.step action = some after) : Reached permits nodeCapacity after

def NoFalseMiss (machine : MultiMapMachine K V) : Prop :=
  ∀ seek ∈ machine.misses, ∃ map ∈ seek.moments, ∀ pair, map.layout.Stored pair → pair.key ≠ seek.key

/-- A node that is reached by a routing key with the wanted key still holds an entry with it. -/
def Reaching (wanted : K) (map : BTreeMultiMap K V) : Prop :=
  ∀ entry node, route borrow map.index.index wanted = some (entry, node) → borrow entry = wanted →
    ∃ pair ∈ map.heap.cells node, pair.key = wanted

/-- A split commits where its value still belongs, and a lookup is not led by the key of an
entry that has gone. -/
def Guided (machine : MultiMapMachine K V) : MultiMapAction K V → Prop
  | .advance thread =>
    match machine.seeks thread with
    | some seek => Reaching seek.key machine.base.set
    | none => machine.base.Aimed (.advance thread)
  | _ => True

section Lookups
variable {map : BTreeMultiMap K V} {wanted : K}

/-- An entry with the key is in the node the lookup is routed to. -/
private theorem held (routed : map.layout.Routed) (reaching : Reaching wanted map) {pair : OrdMultiPair K V}
    (stored : map.layout.Stored pair) (same : pair.key = wanted) :
    ∃ entry node, route borrow map.index.index wanted = some (entry, node) ∧ ∃ held ∈ map.heap.cells node, held.key = wanted := by
  cases found : route borrow map.index.index wanted with
  | none =>
    obtain ⟨entry, node, member, _⟩ := stored
    exact absurd member (route_borrowed_none found _)
  | some target =>
    obtain ⟨entry, node⟩ := target
    exact ⟨entry, node, rfl, routed.reaches borrow_monotone found (reaching entry node found) stored same⟩

private theorem containsKey_false (valid : map.Valid) (routed : map.layout.Routed) (reaching : Reaching wanted map)
    (missed : BTreeMultiMap.containsKey wanted map = false) (pair : OrdMultiPair K V) (stored : map.layout.Stored pair) :
    pair.key ≠ wanted := by
  intro same
  have hit := (BTreeSet.contains_borrowed valid borrow_monotone wanted).mpr (held routed reaching stored same)
  cases missed.symm.trans hit

/-- The node section keeps the invariants, and misses only when the key is absent. -/
private theorem removeNode_spec (valid : map.Valid) (routed : map.layout.Routed) (wanted : K)
    {step : RemoveStep (OrdMultiPair K V) (K ×ₗ V)}
    {after : BTreeMultiMap K V} (ran : BTreeSet.removeNode borrow false wanted map = (step, after)) :
    after.Valid ∧ after.layout.Routed ∧
      (Reaching wanted map → step = .absent → ∀ pair, map.layout.Stored pair → pair.key ≠ wanted) := by
  cases found : route borrow map.index.index wanted with
  | none =>
    simp only [BTreeSet.removeNode, found] at ran
    cases ran
    refine ⟨valid, routed, fun _ _ pair stored => ?_⟩
    obtain ⟨entry, node, member, _⟩ := stored
    exact absurd member (route_borrowed_none found _)
  | some target =>
    obtain ⟨entry, node⟩ := target
    rcases BTreeSet.removeNode_borrowed valid routed borrow_monotone false found with ⟨item, member, same, exact⟩ | ⟨missing, absent⟩
    · rw [exact] at ran
      rcases BTreeSet.removeNode_cases valid false (key item) with ⟨empty, _⟩ | ⟨other, target, linked, inside, effect⟩
      · exact absurd (route_borrowed found).1 (empty _)
      have chosen := (route_borrowed found).1
      cases inside.unique linked chosen (routed entry node chosen item member)
      rw [ran] at effect
      cases effect with
      | absent missing => exact absurd rfl (missing item member)
      | singleton single => exact ⟨valid, routed, fun _ impossible => by cases impossible⟩
      | inner deleted oldMax position many there level max kept =>
        refine ⟨valid.deleteAt false deleted _ oldMax position many, ?_, fun _ impossible => by cases impossible⟩
        rw [BTreeSet.deleteAt_layout]
        exact routed.shrink valid.sound linked (Node.eraseIdx_removed (valid.sound.sorted _) there)
      | shrinks deleted oldMax position many there level max moved =>
        refine ⟨valid.deleteAt false deleted _ oldMax position many, ?_, fun _ impossible => by cases impossible⟩
        rw [BTreeSet.deleteAt_layout]
        exact routed.shrink valid.sound linked (Node.eraseIdx_removed (valid.sound.sorted _) there)
    · cases absent.symm.trans ran
      refine ⟨valid, routed, fun reaching _ pair stored same => ?_⟩
      obtain ⟨_, _, again, present, member, level⟩ := held routed reaching stored same
      cases found.symm.trans again
      exact missing present member level

private theorem unlinkNode_spec (valid : map.Valid) (routed : map.layout.Routed) (wanted : K) {step : UnlinkStep (OrdMultiPair K V)}
    {after : BTreeMultiMap K V} (ran : BTreeSet.unlinkNode borrow false wanted map = (step, after)) :
    after.Valid ∧ after.layout.Routed ∧
      (Reaching wanted map → step = .absent → ∀ pair, map.layout.Stored pair → pair.key ≠ wanted) := by
  obtain ⟨unusedValid, unchanged⟩ := BTreeSet.valid_unused valid
  cases found : route borrow map.index.index wanted with
  | none =>
    have again : route borrow map.index.write.index wanted = none := found
    simp only [BTreeSet.unlinkNode, again] at ran
    cases ran
    refine ⟨unusedValid, unchanged.symm ▸ routed, fun _ _ pair stored => ?_⟩
    obtain ⟨entry, node, member, _⟩ := stored
    exact absurd member (route_borrowed_none found _)
  | some target =>
    obtain ⟨entry, node⟩ := target
    have chosen := (route_borrowed found).1
    rcases BTreeSet.unlinkNode_borrowed valid routed borrow_monotone false found with ⟨item, member, same, exact⟩ | ⟨missing, either⟩
    · rw [exact] at ran
      rcases BTreeSet.unlinkNode_cases valid false (key item) with ⟨missing, result⟩ | ⟨_, _, _, _, _, result⟩ |
        ⟨other, target, deleted, later, linked, _, _, _, result, laterValid, layout, _, _⟩
      · exact absurd rfl (missing item routed ⟨entry, node, chosen, member⟩)
      · cases result.symm.trans ran
        exact ⟨unusedValid, unchanged.symm ▸ routed, fun _ impossible => by cases impossible⟩
      · cases result.symm.trans ran
        exact ⟨laterValid, layout ▸ routed.unlink valid.sound linked, fun _ impossible => by cases impossible⟩
    · have absent : Reaching wanted map → ∀ pair, map.layout.Stored pair → pair.key ≠ wanted := by
        intro reaching pair stored same
        obtain ⟨_, _, again, present, member, level⟩ := held routed reaching stored same
        cases found.symm.trans again
        exact missing present member level
      rcases either with result | result <;> cases result.symm.trans ran
      · exact ⟨unusedValid, unchanged.symm ▸ routed, fun reaching _ => absent reaching⟩
      · exact ⟨unusedValid, unchanged.symm ▸ routed, fun reaching _ => absent reaching⟩

end Lookups

variable {machine before after : MultiMapMachine K V}

/-- The invariant: values are where their keys route to, every lookup has seen the present
moment, and no miss is false. -/
structure Fair (machine : MultiMapMachine K V) : Prop where
  valid : machine.base.set.Valid
  routed : machine.base.set.layout.Routed
  pointwise : ∀ thread call start last, machine.base.threads thread ≠ some (call, .removeRange start last)
  present : ∀ thread seek, machine.seeks thread = some seek → machine.base.set ∈ seek.moments
  fair : machine.NoFalseMiss

private theorem fair_observe {base : Machine (OrdMultiPair K V) (K ×ₗ V)} {seeks : ThreadId → Option (Seek K V)}
    {misses : List (Seek K V)}
    (valid : base.set.Valid) (routed : base.set.layout.Routed)
    (pointwise : ∀ thread call start last, base.threads thread ≠ some (call, .removeRange start last))
    (fair : ∀ seek ∈ misses, ∃ map ∈ seek.moments, ∀ pair, map.layout.Stored pair → pair.key ≠ seek.key) :
    Fair (observe base seeks misses) := by
  refine ⟨valid, routed, pointwise, fun thread seek running => ?_, fair⟩
  obtain ⟨_, _, rfl⟩ := Option.map_eq_some_iff.mp running
  exact List.mem_cons_self

omit [LinearOrder K] [LinearOrder V] in
private theorem pointwise_update {threads : ThreadId → Option (CallId × Phase (OrdMultiPair K V) (K ×ₗ V))}
    (pointwise : ∀ thread call start last, threads thread ≠ some (call, .removeRange start last)) (thread : ThreadId)
    {next : Option (CallId × Phase (OrdMultiPair K V) (K ×ₗ V))}
    (fits : ∀ call start last, next ≠ some (call, .removeRange start last)) :
    ∀ other call start last, Function.update threads thread next other ≠ some (call, .removeRange start last) := by
  intro other call start last
  by_cases here : other = thread
  · subst here
    rw [Function.update_self]
    exact fits call start last
  · rw [Function.update_of_ne here]
    exact pointwise other call start last

theorem Fair.look (fair : Fair machine) {thread : ThreadId} {seek : Seek K V} (running : machine.seeks thread = some seek)
    (reaching : Reaching seek.key machine.base.set) : Fair (machine.look thread seek) := by
  have idle : ∀ other call start last,
      Function.update machine.base.threads thread none other ≠ some (call, .removeRange start last) :=
    pointwise_update fair.pointwise thread fun _ _ _ impossible => by cases impossible
  have missed : (∀ pair, machine.base.set.layout.Stored pair → pair.key ≠ seek.key) →
      ∀ other ∈ seek :: machine.misses, ∃ map ∈ other.moments, ∀ pair, map.layout.Stored pair → pair.key ≠ other.key := by
    intro absent other member
    rcases List.mem_cons.mp member with rfl | earlier
    · exact ⟨_, fair.present thread other running, absent⟩
    · exact fair.fair other earlier
  obtain ⟨call, key, phase, moments⟩ := seek
  cases phase with
  | containsKey =>
    simp only [MultiMapMachine.look]
    split
    next => exact fair_observe fair.valid fair.routed fair.pointwise fair.fair
    next miss =>
      exact fair_observe fair.valid fair.routed fair.pointwise
        (missed (containsKey_false fair.valid fair.routed reaching (by simpa using miss)))
  | removeSome =>
    simp only [MultiMapMachine.look]
    split <;> rename_i ran <;> obtain ⟨valid, routed, absent⟩ := removeNode_spec fair.valid fair.routed key ran
    · exact fair_observe valid routed idle (missed (absent reaching rfl))
    · exact fair_observe valid routed idle fair.fair
    · exact fair_observe valid routed idle fair.fair
    · exact fair_observe valid routed (pointwise_update fair.pointwise thread fun _ _ _ impossible => by cases impossible) fair.fair
  | unlinkSome =>
    simp only [MultiMapMachine.look]
    split <;> rename_i ran <;> obtain ⟨valid, routed, absent⟩ := unlinkNode_spec fair.valid fair.routed key ran
    · exact fair_observe valid routed idle (missed (absent reaching rfl))
    · exact fair_observe valid routed idle fair.fair
    · exact fair_observe valid routed idle fair.fair

private theorem Fair.section (fair : Fair machine) {thread : ThreadId} (aimed : machine.base.Aimed (.advance thread))
    {base : Machine (OrdMultiPair K V) (K ×ₗ V)} (taken : machine.base.step (.advance thread) = some base) :
    Fair (observe base machine.seeks machine.misses) := by
  rcases Machine.step_cases fair.valid taken with ⟨_, _, impossible, _⟩ | ⟨_, call, phase, same, running, moves⟩
  · cases impossible
  cases same
  obtain ⟨set, next, records, runs, rfl⟩ := moves
  have points : ∀ start last, phase ≠ .removeRange start last := by
    intro start last same
    subst same
    exact fair.pointwise thread call start last running
  have aims : ∀ node old value checked emitCdc cdc, phase = .commitSplit node old value checked emitCdc cdc →
      (old, node) ∈ machine.base.set.index.index → Between machine.base.set.index.index old (key value) := by
    intro node old value checked emitCdc cdc same linked
    subst same
    simp only [Machine.Aimed, running] at aimed
    exact (route_eq_some.mp (aimed linked)).2
  have valid := (Machine.section_tracks fair.valid runs).1
  have routed := (section_recounts fair.valid fair.routed runs points aims : _ ∧ (Recounts machine.base.history _ → _)).1
  refine fair_observe valid routed (pointwise_update fair.pointwise thread fun other start last same => ?_) fair.fair
  obtain ⟨later, found, there⟩ := Option.map_eq_some_iff.mp same
  obtain ⟨_, rfl⟩ := Prod.mk.inj there
  exact section_pointwise runs start last found

theorem Fair.step (fair : Fair before) {action : MultiMapAction K V} (guided : before.Guided action)
    (taken : before.step action = some after) : Fair after := by
  have invokes : ∀ thread request, (∀ start last, request ≠ .removeRange start last) →
      before.invoke thread request = some after → Fair after := by
    intro thread request points taken
    simp only [invoke] at taken
    split at taken
    · cases taken
    obtain ⟨base, stepped, rfl⟩ := Option.map_eq_some_iff.mp taken
    rcases Machine.step_cases fair.valid stepped with ⟨_, _, same, _, rfl⟩ | ⟨_, _, _, impossible, _⟩
    · cases same
      refine fair_observe fair.valid fair.routed (pointwise_update fair.pointwise thread fun call start last same => ?_) fair.fair
      cases request with
      | insert value checked emitCdc => cases same
      | remove wanted emitCdc => cases same
      | removeRange start last => exact points start last rfl
    · cases impossible
  have begins : ∀ thread key phase, before.lookUp thread key phase = some after → Fair after := by
    intro thread key phase taken
    simp only [lookUp] at taken
    split at taken
    · cases taken
      exact fair_observe fair.valid fair.routed fair.pointwise fair.fair
    · cases taken
  cases action with
  | insert thread key value => exact invokes thread _ (fun _ _ impossible => by cases impossible) taken
  | remove thread key value => exact invokes thread _ (fun _ _ impossible => by cases impossible) taken
  | containsKey thread key => exact begins thread key _ taken
  | removeSome thread key => exact begins thread key _ taken
  | advance thread =>
    simp only [MultiMapMachine.step] at taken
    split at taken
    next seek running =>
      cases taken
      simp only [Guided, running] at guided
      exact fair.look running guided
    next idle =>
      obtain ⟨base, stepped, rfl⟩ := Option.map_eq_some_iff.mp taken
      simp only [Guided, idle] at guided
      exact fair.section guided stepped

theorem Reached.fair {nodeCapacity : Nat} (reached : Reached Guided nodeCapacity machine) : Fair machine := by
  induction reached with
  | start built =>
    have holding := built.holding
    exact ⟨holding.tidy.valid, holding.tidy.layout.routed, fun _ _ _ _ impossible => (by cases impossible),
      fun _ _ impossible => (by cases impossible), fun _ impossible => (by cases impossible)⟩
  | step earlier action allowed taken ih => exact ih.step allowed taken

/-- In every run whose split commits find their value still routed to the node they split,
and whose lookups are not led by the key of an entry that has gone, a lookup by key that
misses had a moment at which no entry had the key. -/
theorem no_false_miss {nodeCapacity : Nat} (reached : Reached Guided nodeCapacity machine) : machine.NoFalseMiss := reached.fair.fair

/-- A read of key 1 begins before two removals take its entries from the nodes
`[(0, 7), (1, 10)]` and `[(1, 20)]`, and runs after them. -/
theorem no_false_miss_overtaken : ∃ machine : MultiMapMachine Nat Nat, Reached Guided 2 machine ∧
    machine.misses.map Seek.key = [1] ∧ machine.NoFalseMiss := by
  have reaching : ∀ (map : BTreeMultiMap Nat Nat) (entry : Nat ×ₗ Nat) (node : NodeId),
      route borrow map.index.index 1 = some (entry, node) →
      (borrow entry = 1 → ∃ pair ∈ map.heap.cells node, pair.key = 1) → Reaching 1 map := by
    intro map entry node routed holds other target found same
    cases routed.symm.trans found
    exact holds same
  obtain ⟨machine, reached, keys⟩ : ∃ machine : MultiMapMachine Nat Nat, Reached Guided 2 machine ∧
      machine.misses.map Seek.key = [1] :=
    ⟨_, .step (.step (.step (.step (.step (.step (.step (.step (.start
      (.call (.call (.call .start (.insert 1 10) 0 trivial rfl) (.insert 1 20) 0 trivial rfl) (.insert 0 7) 0 trivial rfl))
      (.containsKey 0 1) trivial rfl) (.removeSome 1 1) trivial rfl)
      (.advance 1) (reaching _ (toLex (1, 10)) 0 rfl fun _ => ⟨⟨1, 10⟩, by decide, rfl⟩) rfl) (.advance 1) trivial rfl)
      (.removeSome 1 1) trivial rfl)
      (.advance 1) (reaching _ (toLex (1, 20)) 1 rfl fun _ => ⟨⟨1, 20⟩, by decide, rfl⟩) rfl)
      (.advance 1) (reaching _ (toLex (1, 20)) 1 rfl fun _ => ⟨⟨1, 20⟩, by decide, rfl⟩) rfl)
      (.advance 0) (reaching _ (toLex (0, 7)) 0 rfl fun impossible => by cases impossible) rfl, by decide⟩
  exact ⟨machine, reached, keys, no_false_miss reached⟩

/-- In the same nodes a removal has taken `(1, 10)` and not yet moved the key of its node, so
both kinds of lookup go there and miss, although `(1, 20)` is stored all along. -/
theorem misses_deleted_route : ∃ machine : MultiMapMachine Nat Nat, Reached (fun _ _ => True) 2 machine ∧
    machine.misses.map (fun seek => (seek.key, seek.phase)) = [(1, .removeSome), (1, .containsKey)] ∧
    (∀ seek ∈ machine.misses, ∀ map ∈ seek.moments, map.layout.Stored ⟨1, 20⟩) ∧ ¬ machine.NoFalseMiss := by
  obtain ⟨machine, reached, missed, stays⟩ : ∃ machine : MultiMapMachine Nat Nat, Reached (fun _ _ => True) 2 machine ∧
      machine.misses.map (fun seek => (seek.key, seek.phase)) = [(1, .removeSome), (1, .containsKey)] ∧
      (machine.misses.all fun seek => seek.moments.all fun map => decide (⟨1, 20⟩ ∈ map.nodes.flatten)) = true :=
    ⟨_, .step (.step (.step (.step (.step (.step (.start
      (.call (.call (.call .start (.insert 1 10) 0 trivial rfl) (.insert 1 20) 0 trivial rfl) (.insert 0 7) 0 trivial rfl))
      (.remove 0 1 10) trivial rfl) (.advance 0) trivial rfl) (.containsKey 1 1) trivial rfl) (.advance 1) trivial rfl)
      (.removeSome 2 1) trivial rfl) (.advance 2) trivial rfl, by decide, by decide⟩
  have stored : ∀ seek ∈ machine.misses, ∀ map ∈ seek.moments, map.layout.Stored ⟨1, 20⟩ := by
    intro seek member map there
    have present := List.all_eq_true.mp (List.all_eq_true.mp stays seek member) map there
    exact (BTreeSet.mem_flatten_nodes _).mp (by simpa using present)
  refine ⟨machine, reached, missed, stored, fun noFalseMiss => ?_⟩
  have keys : ∀ pair ∈ machine.misses.map (fun seek => (seek.key, seek.phase)), pair.1 = 1 := by
    rw [missed]
    decide
  obtain ⟨seek, member⟩ : ∃ seek, seek ∈ machine.misses := by
    cases same : machine.misses with
    | nil => rw [same] at missed; cases missed
    | cons seek rest => exact ⟨seek, List.mem_cons_self⟩
  obtain ⟨map, there, absent⟩ := noFalseMiss seek member
  exact absent ⟨1, 20⟩ (stored seek member map there) (keys _ (List.mem_map_of_mem member)).symm

end MultiMapMachine
end WorkTablesIndex
