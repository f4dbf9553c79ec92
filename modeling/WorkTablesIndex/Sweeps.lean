import Mathlib.Data.Finset.Card
import WorkTablesIndex.Occupancy
import WorkTablesIndex.Partition

/-! Sweeps over a set that writers keep changing (`export_topology`, `snapshot_nodes`, `len` and
`is_empty`). A sweep holds the topology's read lock while it visits the nodes one after the
other, so the index stands still, but a node that it has not visited yet, or has left behind,
may gain and lose values. -/

universe u v

namespace WorkTablesIndex
open SortedMap

variable {α : Type u} {κ : Type v}

def Phase.structural : Phase α κ → Bool
  | .put .. | .remove .. => false
  | _ => true

theorem Phase.structural_of_repairs {phase : Phase α κ} {node : NodeId} {old : κ} (owed : phase.repairs = some (node, old)) :
    phase.structural = true := by
  cases phase <;> first | rfl | cases owed

/-- The entries still to visit, and the values of the visited nodes. -/
structure Sweep (α : Type u) (κ : Type v) where
  left : List (κ × NodeId)
  seen : List (List α)

namespace Sweep
variable [LinearOrder κ]

def new (set : BTreeSet α κ) : Sweep α κ := ⟨set.index.index.entries, []⟩

def visit (set : BTreeSet α κ) (sweep : Sweep α κ) : Sweep α κ :=
  match sweep.left with
  | [] => sweep
  | (_, node) :: rest => ⟨rest, sweep.seen ++ [set.heap.cells node]⟩

omit [LinearOrder κ] in
def exportTopology (nodeCapacity : Nat) (sweep : Sweep α κ) : BTreeMap.Topology α := ⟨nodeCapacity, sweep.seen⟩

omit [LinearOrder κ] in
def snapshotNodes (sweep : Sweep α κ) : List (List α) := sweep.seen

omit [LinearOrder κ] in
def len (sweep : Sweep α κ) : Nat := (sweep.seen.map List.length).sum

omit [LinearOrder κ] in
def isEmpty (sweep : Sweep α κ) : Bool := sweep.seen.all List.isEmpty

end Sweep

variable [LinearOrder κ] [Keyed α κ]

/-- Insertions and removals whose split commits still find their value routed to the node. -/
abbrev Machine.WellAimed (machine : Machine α κ) (action : Action α κ) : Prop := Pointwise action ∧ Aimed machine action

/-- A step that the read lock of a sweep lets through. -/
def Machine.Shares (machine : Machine α κ) : Action α κ → Prop
  | .invoke .. => True
  | .advance thread => ∀ call phase, machine.threads thread = some (call, phase) → phase.structural = false

/-- A sweep under way, with the state of the set now and all its states since the sweep took
its lock. -/
inductive Swept (permits : Machine α κ → Action α κ → Prop) (nodeCapacity : Nat) :
    Machine α κ → Sweep α κ → List (Machine α κ) → Prop where
  | locks {machine : Machine α κ} (reached : Machine.Reached permits nodeCapacity machine) :
      Swept permits nodeCapacity machine (.new machine.set) [machine]
  | writes {before after : Machine α κ} {sweep : Sweep α κ} {moments : List (Machine α κ)}
      (earlier : Swept permits nodeCapacity before sweep moments) (action : Action α κ) (allowed : permits before action)
      (shares : before.Shares action) (taken : before.step action = some after) :
      Swept permits nodeCapacity after sweep (after :: moments)
  | visits {machine : Machine α κ} {sweep : Sweep α κ} {moments : List (Machine α κ)}
      (earlier : Swept permits nodeCapacity machine sweep moments) :
      Swept permits nodeCapacity machine (sweep.visit machine.set) moments

/-- Without the write lock a section leaves the index alone. -/
theorem section_index {set after : BTreeSet α κ} {call : CallId} {phase : Phase α κ} {next : Option (Phase α κ)}
    {records : List (Record α κ)} (runs : Section set call phase after next records) (inner : phase.structural = false) :
    after.index.index = set.index.index := by
  cases runs with
  | again _ unchanged => exact congrArg Layout.index unchanged
  | rejected => rfl
  | missed _ unchanged => exact congrArg Layout.index unchanged
  | schedules => rfl
  | stores _ _ _ _ _ rewritten => exact congrArg Layout.index rewritten
  | grows _ _ _ _ rewritten => exact congrArg Layout.index rewritten
  | roots => cases inner
  | splits => cases inner
  | rekeys owed => exact absurd (Phase.structural_of_repairs owed) (ne_of_eq_of_ne inner Bool.false_ne_true)
  | waives owed => exact absurd (Phase.structural_of_repairs owed) (ne_of_eq_of_ne inner Bool.false_ne_true)
  | deletes _ _ _ _ _ _ rewritten => exact congrArg Layout.index rewritten
  | shrinks _ _ _ _ _ rewritten => exact congrArg Layout.index rewritten
  | unlinks => cases inner
  | sweeps => cases inner

theorem Machine.Shares.index {before after : Machine α κ} {action : Action α κ} (shares : before.Shares action)
    (valid : before.set.Valid) (taken : before.step action = some after) : after.set.index.index = before.set.index.index := by
  rcases Machine.step_cases valid taken with ⟨_, _, _, _, rfl⟩ | ⟨thread, call, phase, rfl, running, moves⟩
  · rfl
  · obtain ⟨set, next, records, runs, rfl⟩ := moves
    exact section_index runs (shares call phase running)

namespace Swept
variable {permits : Machine α κ → Action α κ → Prop} {nodeCapacity : Nat} {machine : Machine α κ} {sweep : Sweep α κ}
  {moments : List (Machine α κ)}

structure Traced (permits : Machine α κ → Action α κ → Prop) (nodeCapacity : Nat) (machine : Machine α κ)
    (sweep : Sweep α κ) (moments : List (Machine α κ)) : Prop where
  current : machine ∈ moments
  reached : ∀ moment ∈ moments, Machine.Reached permits nodeCapacity moment
  steady : ∀ moment ∈ moments, moment.set.index.index = machine.set.index.index
  copied : ∃ copies : List ((κ × NodeId) × Machine α κ),
    machine.set.index.index.entries = copies.map Prod.fst ++ sweep.left ∧
    sweep.seen = copies.map (fun copy => copy.2.set.heap.cells copy.1.2) ∧ ∀ copy ∈ copies, copy.2 ∈ moments

theorem traced (swept : Swept permits nodeCapacity machine sweep moments) :
    Traced permits nodeCapacity machine sweep moments := by
  induction swept with
  | locks reached =>
    refine ⟨List.mem_singleton_self _, fun moment member => ?_, fun moment member => ?_, [], rfl, rfl,
      fun _ none => nomatch none⟩
    · exact List.mem_singleton.mp member ▸ reached
    · rw [List.mem_singleton.mp member]
  | @writes before after sweep moments _ action allowed shares taken ih =>
    have earlier := ih.reached _ ih.current
    have index := shares.index earlier.sound.valid taken
    obtain ⟨copies, split, seen, taken⟩ := ih.copied
    refine ⟨List.mem_cons_self, fun moment member => ?_, fun moment member => ?_, copies, ?_, seen, fun copy member =>
      List.mem_cons_of_mem _ (taken copy member)⟩
    · rcases List.mem_cons.mp member with rfl | older
      · exact earlier.step action allowed taken
      · exact ih.reached moment older
    · rcases List.mem_cons.mp member with rfl | older
      · rfl
      · exact (ih.steady moment older).trans index.symm
    · rw [index]
      exact split
  | @visits machine sweep moments _ ih =>
    obtain ⟨copies, split, same, taken⟩ := ih.copied
    obtain ⟨left, seen⟩ := sweep
    cases left with
    | nil => exact ih
    | cons entry rest =>
      refine ⟨ih.current, ih.reached, ih.steady, copies ++ [(entry, machine)], ?_, ?_, fun copy member => ?_⟩
      · rw [split, List.map_append, List.append_assoc]
        rfl
      · rw [List.map_append, ← same]
        rfl
      · rcases List.mem_append.mp member with older | newest
        · exact taken copy older
        · exact List.mem_singleton.mp newest ▸ ih.current

/-- A complete sweep has copied every linked node, each from the set as it was at that moment. -/
theorem complete (swept : Swept permits nodeCapacity machine sweep moments) (done : sweep.left = []) :
    ∃ copies : List ((κ × NodeId) × Machine α κ), machine.set.index.index.entries = copies.map Prod.fst ∧
      sweep.seen = copies.map (fun copy => copy.2.set.heap.cells copy.1.2) ∧
      ∀ copy ∈ copies, copy.2 ∈ moments ∧ copy.1 ∈ copy.2.set.index.index := by
  obtain ⟨copies, split, seen, taken⟩ := swept.traced.copied
  rw [done, List.append_nil] at split
  refine ⟨copies, split, seen, fun copy member => ⟨taken copy member, ?_⟩⟩
  rw [swept.traced.steady copy.2 (taken copy member), mem_def, split]
  exact List.mem_map_of_mem member

theorem copied_stored (swept : Swept permits nodeCapacity machine sweep moments) (done : sweep.left = []) {item : α}
    (copied : item ∈ sweep.seen.flatten) : ∃ moment ∈ moments, moment.set.layout.Stored item := by
  obtain ⟨copies, _, seen, taken⟩ := swept.complete done
  obtain ⟨values, member, inside⟩ := List.mem_flatten.mp copied
  rw [seen] at member
  obtain ⟨copy, listed, rfl⟩ := List.mem_map.mp member
  obtain ⟨there, linked⟩ := taken copy listed
  exact ⟨copy.2, there, copy.1.1, copy.1.2, linked, inside⟩

theorem copied_fine (swept : Swept permits nodeCapacity machine sweep moments) (done : sweep.left = []) {values : List α}
    (copied : values ∈ sweep.seen) :
    values ≠ [] ∧ Node.Sorted values ∧ (2 ≤ nodeCapacity → values.length ≤ nodeCapacity) := by
  obtain ⟨copies, _, seen, taken⟩ := swept.complete done
  rw [seen] at copied
  obtain ⟨copy, listed, rfl⟩ := List.mem_map.mp copied
  obtain ⟨there, linked⟩ := taken copy listed
  have reached := swept.traced.reached copy.2 there
  have sound := reached.sound.valid.sound
  exact ⟨sound.filled copy.1.1 copy.1.2 linked, sound.sorted _, fun many => (reached.fits many).bounded _⟩

theorem isEmpty_iff (swept : Swept permits nodeCapacity machine sweep moments) (done : sweep.left = []) {moment : Machine α κ}
    (there : moment ∈ moments) : sweep.isEmpty = true ↔ ∀ item, ¬moment.set.layout.Stored item := by
  obtain ⟨copies, entries, seen, _⟩ := swept.complete done
  have steady := swept.traced.steady moment there
  have sound := (swept.traced.reached moment there).sound.valid.sound
  rw [Sweep.isEmpty, List.all_eq_true]
  constructor
  · intro empty item stored
    obtain ⟨entry, node, linked, _⟩ := stored
    rw [show moment.set.layout.index = machine.set.index.index from steady, mem_def, entries] at linked
    obtain ⟨copy, listed, _⟩ := List.mem_map.mp linked
    have copied : copy.2.set.heap.cells copy.1.2 ∈ sweep.seen := by
      rw [seen]
      exact List.mem_map_of_mem listed
    exact (swept.copied_fine done copied).1 (List.isEmpty_iff.mp (empty _ copied))
  · intro nothing values copied
    rw [seen] at copied
    obtain ⟨copy, listed, _⟩ := List.mem_map.mp copied
    have linked : copy.1 ∈ moment.set.index.index := by
      rw [steady, mem_def, entries]
      exact List.mem_map_of_mem listed
    obtain ⟨item, inside⟩ := List.exists_mem_of_ne_nil _ (sound.filled copy.1.1 copy.1.2 linked)
    exact absurd ⟨copy.1.1, copy.1.2, linked, inside⟩ (nothing item)

end Swept

omit [Keyed α κ] in
theorem Sweep.quiet (set : BTreeSet α κ) :
    (Sweep.visit set)^[set.index.index.entries.length] (.new set) = ⟨[], set.nodes⟩ := by
  have visits (entries : List (κ × NodeId)) (seen : List (List α)) : (Sweep.visit set)^[entries.length] ⟨entries, seen⟩ =
      ⟨[], seen ++ entries.map fun entry => set.heap.cells entry.2⟩ := by
    induction entries generalizing seen with
    | nil => simp
    | cons entry rest ih =>
      rw [List.length_cons, Function.iterate_succ_apply, Sweep.visit, ih, List.map_cons, List.append_assoc]
      rfl
  exact (visits _ []).trans rfl

omit [Keyed α κ] in
theorem Sweep.quiet_answers (set : BTreeSet α κ) (sweep : Sweep α κ) (alone : sweep = ⟨[], set.nodes⟩) :
    sweep.exportTopology set.nodeCapacity = BTreeMap.exportTopology set ∧ sweep.snapshotNodes = set.nodes ∧
      sweep.len = set.len ∧ sweep.isEmpty = set.isEmpty := by
  subst alone
  refine ⟨rfl, rfl, ?_, ?_⟩
  · rw [Sweep.len, BTreeSet.nodes, List.map_map]
    rfl
  · rw [Sweep.isEmpty, BTreeSet.nodes, List.all_map]
    rfl

namespace Swept
open Machine
variable {nodeCapacity : Nat} {machine : Machine α κ} {sweep : Sweep α κ} {moments : List (Machine α κ)}

/-- Copied nodes lie one above the other, though they were copied at different moments. -/
theorem ordered (swept : Swept WellAimed nodeCapacity machine sweep moments) (done : sweep.left = []) :
    sweep.seen.Pairwise fun left right => ∀ first ∈ left, ∀ second ∈ right, key first < key second := by
  have traced := swept.traced
  obtain ⟨copies, entries, seen, taken⟩ := swept.complete done
  have placed : ∀ copy ∈ copies, ∀ item ∈ copy.2.set.heap.cells copy.1.2,
      Between machine.set.index.index copy.1.1 (key item) := by
    intro copy member item present
    obtain ⟨there, linked⟩ := taken copy member
    have routed := (traced.reached copy.2 there).orderly.routed copy.1.1 copy.1.2 linked item present
    exact traced.steady copy.2 there ▸ routed
  have listed : ∀ copy ∈ copies, copy.1 ∈ machine.set.index.index := by
    intro copy member
    rw [mem_def, entries]
    exact List.mem_map_of_mem member
  have ascending := machine.set.index.index.sorted
  rw [entries, List.pairwise_map] at ascending
  rw [seen, List.pairwise_map]
  apply ascending.imp_of_mem
  intro left right leftIn rightIn below first firstIn second secondIn
  calc key first ≤ left.1.1 := (placed left leftIn first firstIn).within right.1 (listed right rightIn) below
    _ < key second := (placed right rightIn second secondIn).above left.1 (listed left leftIn) below

theorem copies_present (swept : Swept WellAimed nodeCapacity machine sweep moments) (done : sweep.left = []) {wanted : κ}
    (present : ∀ moment ∈ moments, ∃ item, moment.set.layout.Stored item ∧ key item = wanted) :
    ∃ item ∈ sweep.seen.flatten, key item = wanted := by
  have traced := swept.traced
  obtain ⟨copies, entries, seen, taken⟩ := swept.complete done
  -- the key routes to one node all the while, so it is found there when that node is copied
  have here : ∀ moment ∈ moments, ∃ entry ∈ machine.set.index.index, Between machine.set.index.index entry.1 wanted ∧
      ∃ item ∈ moment.set.heap.cells entry.2, key item = wanted := by
    intro moment member
    obtain ⟨item, ⟨entry, node, linked, inside⟩, same⟩ := present moment member
    have routed := (traced.reached moment member).orderly.routed entry node linked item inside
    rw [show moment.set.layout.index = machine.set.index.index from traced.steady moment member] at linked routed
    exact ⟨(entry, node), linked, same ▸ routed, item, inside, same⟩
  obtain ⟨entry, linked, routed, _⟩ := here machine traced.current
  rw [mem_def, entries] at linked
  obtain ⟨copy, member, rfl⟩ := List.mem_map.mp linked
  obtain ⟨other, there, between, item, inside, same⟩ := here copy.2 (taken copy member).1
  have listed : copy.1 ∈ machine.set.index.index := by
    rw [mem_def, entries]
    exact linked
  rw [← routed.unique listed there between] at inside
  refine ⟨item, List.mem_flatten.mpr ⟨_, ?_, inside⟩, same⟩
  rw [seen]
  exact List.mem_map_of_mem member

/-- The export of a set that writers keep changing is accepted, and restores a set that holds
every key that was there all the while and nothing that never was. -/
theorem checkpoint_restores (swept : Swept WellAimed nodeCapacity machine sweep moments) (done : sweep.left = [])
    (many : 2 ≤ nodeCapacity) : ∃ restored : BTreeSet α κ,
      BTreeMap.fromTopology (sweep.exportTopology machine.set.nodeCapacity) = some (.ok restored) ∧
      restored.Tidy ∧ restored.nodes = sweep.seen ∧
      (∀ item, restored.layout.Stored item → ∃ moment ∈ moments, moment.set.layout.Stored item) ∧
      ∀ wanted, (∀ moment ∈ moments, ∃ item, moment.set.layout.Stored item ∧ key item = wanted) →
        ∃ item, restored.layout.Stored item ∧ key item = wanted := by
  have fits := (swept.traced.reached machine swept.traced.current).fits many
  have formed : (sweep.exportTopology nodeCapacity).WellFormed := by
    refine ⟨Nat.lt_of_lt_of_le Nat.zero_lt_two many, fun node member => (swept.copied_fine done member).1,
      fun node member => (swept.copied_fine done member).2.2 many, fun node member => (swept.copied_fine done member).2.1, ?_⟩
    apply (swept.ordered done).isChain.imp
    intro left right below last ends first begins
    exact below last (List.mem_of_getLast? ends) first (List.mem_of_head? begins)
  obtain ⟨restored, decoded, tidy, _, nodes⟩ := BTreeMap.fromTopology_restores (κ := κ) formed
  refine ⟨restored, fits.capacity.symm ▸ decoded, tidy, nodes, fun item stored => ?_, fun wanted present => ?_⟩
  · apply swept.copied_stored done
    rw [← show restored.nodes = sweep.seen from nodes, BTreeSet.mem_flatten_nodes]
    exact stored
  · obtain ⟨item, copied, same⟩ := swept.copies_present done present
    refine ⟨item, ?_, same⟩
    rw [← BTreeSet.mem_flatten_nodes, nodes]
    exact copied

/-- While the nodes `[10]` and `[20, 30]` are visited, 5 comes after its node and 20 goes before. -/
private theorem overlapped : ∃ (machine : Machine Nat Nat) (moments : List (Machine Nat Nat)),
    Swept WellAimed 2 machine ⟨[], [[10], [30]]⟩ moments ∧ machine.set.nodes = [[5, 10], [30]] ∧
    moments.map (fun moment => moment.set.nodes) =
      [[[5, 10], [30]], [[5, 10], [20, 30]], [[5, 10], [20, 30]], [[10], [20, 30]], [[10], [20, 30]]] := by
  have reached := (((((((((Reached.start : Reached WellAimed 2 (start 2 : Machine Nat Nat)).step
    (.invoke 0 (.insert 10 false false)) ⟨trivial, trivial⟩ rfl).step (.advance 0) ⟨trivial, trivial⟩ rfl).step
    (.advance 0) ⟨trivial, trivial⟩ rfl).step
    (.invoke 0 (.insert 20 false false)) ⟨trivial, trivial⟩ rfl).step (.advance 0) ⟨trivial, trivial⟩ rfl).step
    (.advance 0) ⟨trivial, trivial⟩ rfl).step
    (.invoke 1 (.insert 30 false false)) ⟨trivial, trivial⟩ rfl).step (.advance 1) ⟨trivial, trivial⟩ rfl).step
    (.advance 1) ⟨trivial, fun _ => rfl⟩ rfl
  have swept := ((((((Swept.locks reached).visits).writes
    (.invoke 0 (.insert 5 false false)) ⟨trivial, trivial⟩ trivial rfl).writes
    (.advance 0) ⟨trivial, trivial⟩ (fun _ _ running => by cases running; rfl) rfl).writes
    (.invoke 1 (.remove 20 false)) ⟨trivial, trivial⟩ trivial rfl).writes
    (.advance 1) ⟨trivial, trivial⟩ (fun _ _ running => by cases running; rfl) rfl).visits
  exact ⟨_, _, swept, rfl, rfl⟩

/-- The export of that sweep. -/
theorem checkpoint_restores_overlapped : ∃ (machine : Machine Nat Nat) (restored : BTreeSet Nat Nat),
    machine.set.nodes = [[5, 10], [30]] ∧ restored.nodes = [[10], [30]] ∧ restored.Tidy ∧
    BTreeMap.fromTopology (Sweep.exportTopology machine.set.nodeCapacity ⟨([] : List (Nat × NodeId)), [[10], [30]]⟩) =
      some (.ok restored) := by
  obtain ⟨machine, moments, swept, nodes, _⟩ := overlapped
  obtain ⟨restored, decoded, tidy, same, _⟩ := checkpoint_restores swept rfl le_rfl
  exact ⟨machine, restored, nodes, same, tidy, decoded⟩

/-- The length counts each key at most once, and each key that was there all the while; emptiness
is exact at every moment of the sweep. -/
theorem counts (swept : Swept WellAimed nodeCapacity machine sweep moments) (done : sweep.left = []) :
    (∀ always : Finset κ,
      (∀ wanted ∈ always, ∀ moment ∈ moments, ∃ item, moment.set.layout.Stored item ∧ key item = wanted) →
      always.card ≤ sweep.len) ∧
    (∀ ever : Finset κ, (∀ moment ∈ moments, ∀ item, moment.set.layout.Stored item → key item ∈ ever) →
      sweep.len ≤ ever.card) ∧
    ∀ moment ∈ moments, (sweep.isEmpty = true ↔ ∀ item, ¬moment.set.layout.Stored item) := by
  have length : sweep.len = (sweep.seen.flatten.map key).length := by rw [List.length_map, List.length_flatten, Sweep.len]
  have distinct : (sweep.seen.flatten.map (key : α → κ)).Nodup := by
    have sorted : Node.Sorted sweep.seen.flatten :=
      List.pairwise_flatten.mpr ⟨fun values member => (swept.copied_fine done member).2.1, swept.ordered done⟩
    exact List.pairwise_map.mpr (sorted.imp fun below => below.ne)
  rw [length, ← List.toFinset_card_of_nodup distinct]
  refine ⟨fun always present => ?_, fun ever within => ?_, fun moment there => swept.isEmpty_iff done there⟩
  · apply Finset.card_le_card
    intro wanted member
    obtain ⟨item, copied, same⟩ := swept.copies_present done (present wanted member)
    exact List.mem_toFinset.mpr (same ▸ List.mem_map_of_mem copied)
  · apply Finset.card_le_card
    intro wanted member
    obtain ⟨item, copied, rfl⟩ := List.mem_map.mp (List.mem_toFinset.mp member)
    obtain ⟨moment, there, stored⟩ := swept.copied_stored done copied
    exact within moment there item stored

/-- Two of the four values were there all the while, and two were copied. -/
theorem counts_overlapped : ∃ (machine : Machine Nat Nat) (sweep : Sweep Nat Nat) (moments : List (Machine Nat Nat)),
    Swept WellAimed 2 machine sweep moments ∧ sweep.len = 2 ∧ ({10, 30} : Finset Nat).card ≤ sweep.len ∧
    sweep.len ≤ ({5, 10, 20, 30} : Finset Nat).card ∧ sweep.isEmpty = false := by
  obtain ⟨machine, moments, swept, _, contents⟩ := overlapped
  have listed : ∀ moment ∈ moments, moment.set.nodes ∈ [[[5, 10], [30]], [[5, 10], [20, 30]], [[10], [20, 30]]] := by
    intro moment member
    have there := List.mem_map_of_mem (f := fun moment : Machine Nat Nat => moment.set.nodes) member
    rw [contents] at there
    simpa using there
  obtain ⟨always, ever, _⟩ := counts swept rfl
  refine ⟨machine, _, moments, swept, rfl, always _ fun wanted present moment there => ?_,
    ever _ fun moment there item stored => ?_, rfl⟩
  · refine ⟨wanted, (BTreeSet.mem_flatten_nodes wanted).mp ?_, rfl⟩
    have each : ∀ nodes ∈ [[[5, 10], [30]], [[5, 10], [20, 30]], [[10], [20, 30]]], ∀ wanted ∈ ({10, 30} : Finset Nat),
        wanted ∈ nodes.flatten := by decide
    exact each _ (listed moment there) wanted present
  · have each : ∀ nodes ∈ [[[5, 10], [30]], [[5, 10], [20, 30]], [[10], [20, 30]]], ∀ item ∈ nodes.flatten,
        item ∈ ({5, 10, 20, 30} : Finset Nat) := by decide
    exact each _ (listed moment there) item ((BTreeSet.mem_flatten_nodes item).mpr stored)

end Swept
end WorkTablesIndex
