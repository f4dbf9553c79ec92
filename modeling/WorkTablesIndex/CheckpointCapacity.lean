import WorkTablesIndex.Checkpoint

/-! Whether a checkpoint can be restored. The encoder copies whatever nodes there are, while
the decoder bounds their length, so the bound has to survive every call: halving a full node
leaves room for the value that rides on the split exactly when a node may hold two. -/

universe u v

namespace WorkTablesIndex

variable {α : Type u} {κ : Type v} [LinearOrder κ] [Keyed α κ]

def Layout.Bounded (nodeCapacity : Nat) (layout : Layout α κ) : Prop :=
  ∀ node, (layout.heap.cells node).length ≤ nodeCapacity

theorem Half.put_length {values : List α} (sorted : Node.Sorted values) (max value : α) :
    (Half.put noIdentityAdoption values max value).values.length ≤ values.length + 1 := by
  rcases Half.put_cases noIdentityAdoption sorted max value with ⟨index, gap, result⟩ | ⟨index, old, _, _, result⟩
  · rw [result]
    exact List.length_insertIdx_le_succ ..
  · rw [result, List.length_set]
    exact Nat.le_succ _

/-- Both halves of a split fit, with the value that one of them takes. -/
theorem Operation.halves_fit {values : List α} (sorted : Node.Sorted values) (many : 2 ≤ values.length) (value : α) :
    (leftHalf values value).values.length ≤ values.length ∧ (rightHalf values value).values.length ≤ values.length := by
  obtain ⟨leftMax, rightMax, _, _, _, cases⟩ := halves_cases sorted many value
  obtain ⟨leftSorted, rightSorted, _⟩ := Node.sorted_append.mp ((Node.halve_append values).symm ▸ sorted)
  have left : (Node.halve values).1.length = values.length / 2 := by
    simp only [Node.halve, List.length_take]
    omega
  have right : (Node.halve values).2.length = values.length - values.length / 2 := by
    simp only [Node.halve, List.length_drop]
  rcases cases with ⟨_, kept, moved⟩ | ⟨_, kept, moved⟩
  · have grown := Half.put_length leftSorted leftMax value
    rw [kept, moved, Half.untouched]
    exact ⟨by omega, by simp only; omega⟩
  · have grown := Half.put_length rightSorted rightMax value
    rw [kept, moved, Half.untouched]
    exact ⟨by simp only; omega, by omega⟩

namespace Layout
variable {layout after : Layout α κ} {nodeCapacity : Nat}

omit [Keyed α κ] in
theorem Bounded.write (bounded : Bounded nodeCapacity layout) (node : NodeId) {values : List α}
    (fits : values.length ≤ nodeCapacity) (other : NodeId) :
    ((layout.heap.write node values).cells other).length ≤ nodeCapacity := by
  by_cases here : other = node
  · subst here
    rw [Heap.write_same]
    exact fits
  · rw [Heap.write_other _ _ here]
    exact bounded other

theorem Bounded.put (bounded : Bounded nodeCapacity layout) (many : 2 ≤ nodeCapacity) (tidy : layout.Tidy) {value : α}
    {result : Option α} {events : List (ChangeEventUnassigned α)}
    (effect : PutEffect nodeCapacity value layout result events after) : Bounded nodeCapacity after := by
  intro other
  cases effect with
  | root empty =>
    by_cases here : other = layout.heap.next
    · subst here
      simp only [Layout.root, Heap.alloc_same, List.length_singleton]
      omega
    · rw [Layout.root, Heap.alloc_other _ _ here]
      exact bounded other
  | inserts oldMax position linked inside room gap max greatest =>
    refine bounded.write _ ?_ other
    rw [List.length_insertIdx_of_le_length gap.inside]
    exact room
  | replaces position old linked inside room there same =>
    refine bounded.write _ ?_ other
    rw [List.length_set]
    exact room.le
  | @splits entry node linked inside full stored filled found =>
    have fits := bounded node
    obtain ⟨left, right⟩ := Operation.halves_fit (tidy.sound.sorted node) (many.trans full) value
    rw [Layout.split_cells]
    split
    next => exact right.trans fits
    next =>
      split
      next => exact left.trans fits
      next => exact bounded other

theorem Bounded.remove (bounded : Bounded nodeCapacity layout) {wanted : κ} {result : Option α}
    {events : List (ChangeEventUnassigned α)} (effect : RemoveEffect wanted layout result events after) :
    Bounded nodeCapacity after := by
  cases effect with
  | absent missing => exact bounded
  | @deletes entry node deleted oldMax position top linked inside many there same max greatest =>
    exact bounded.write node ((List.length_eraseIdx_le ..).trans (bounded node))
  | unlinks deleted linked inside only same => exact bounded.write _ (Nat.zero_le _)

end Layout

namespace BTreeMap
variable {K : Type u} {V : Type v} [LinearOrder K] {map after : BTreeMap K V} {nodeCapacity : Nat}

/-- The maps reached by complete insertions and removals, with or without events. -/
inductive Written (nodeCapacity : Nat) : BTreeMap K V → Prop where
  | new : Written nodeCapacity (.withMaximumNodeSize nodeCapacity)
  | insert {map after : BTreeMap K V} {old} (earlier : Written nodeCapacity map) (key : K) (value : V) (fuel : Nat)
      (ran : map.insert key value fuel = some (old, after)) : Written nodeCapacity after
  | insertCdc {map after : BTreeMap K V} {result} (earlier : Written nodeCapacity map) (key : K) (value : V) (fuel : Nat)
      (ran : map.insertCdc key value fuel = some (result, after)) : Written nodeCapacity after
  | remove {map after : BTreeMap K V} {old} (earlier : Written nodeCapacity map) (key : K) (fuel : Nat)
      (ran : map.remove key fuel = some (old, after)) : Written nodeCapacity after
  | removeCdc {map after : BTreeMap K V} {result} (earlier : Written nodeCapacity map) (key : K) (fuel : Nat)
      (ran : map.removeCdc key fuel = some (result, after)) : Written nodeCapacity after

private structure Sized (nodeCapacity : Nat) (map : BTreeMap K V) : Prop where
  tidy : map.Tidy
  capacity : map.nodeCapacity = nodeCapacity
  bounded : 2 ≤ nodeCapacity → map.layout.Bounded nodeCapacity

private theorem Sized.put (sized : Sized nodeCapacity map) {emitCdc : Bool} {value : Pair K V} {fuel : Nat}
    {result : Option (Pair K V) × List (ChangeEvent (Pair K V))}
    (ran : BTreeSet.putInner noIdentityAdoption emitCdc value fuel map = some (result, after)) : Sized nodeCapacity after := by
  cases fuel with
  | zero => cases ran
  | succ fuel =>
    obtain ⟨_, _, _, effect, left, returned⟩ := BTreeSet.putInner_effect sized.tidy emitCdc value fuel
    cases ran.symm.trans returned
    refine ⟨⟨left.valid, (effect.tidy sized.tidy.layout).1⟩, left.nodeCapacity.trans sized.capacity, fun many => ?_⟩
    rw [sized.capacity] at effect
    exact (sized.bounded many).put many sized.tidy.layout effect

private theorem Sized.remove (sized : Sized nodeCapacity map) {emitCdc : Bool} {wanted : K} {fuel : Nat}
    {result : Option (Pair K V) × List (ChangeEvent (Pair K V))}
    (ran : BTreeSet.removeInner id emitCdc wanted fuel map = some (result, after)) : Sized nodeCapacity after := by
  cases fuel with
  | zero => cases ran
  | succ fuel =>
    obtain ⟨_, _, _, effect, left, returned⟩ := BTreeSet.removeInner_effect sized.tidy emitCdc wanted fuel
    cases ran.symm.trans returned
    exact ⟨⟨left.valid, (effect.tidy sized.tidy.layout).1⟩, left.nodeCapacity.trans sized.capacity,
      fun many => (sized.bounded many).remove effect⟩

private theorem Written.sized (written : Written nodeCapacity map) : Sized nodeCapacity map := by
  induction written with
  | new => exact ⟨BTreeSet.tidy_new nodeCapacity, rfl, fun _ _ => Nat.zero_le _⟩
  | insert earlier key value fuel ran ih =>
    obtain ⟨_, stored, same⟩ := Option.map_eq_some_iff.mp ran
    obtain ⟨⟨_, _⟩, put, same'⟩ := Option.map_eq_some_iff.mp stored
    cases same
    cases same'
    exact ih.put put
  | insertCdc earlier key value fuel ran ih =>
    obtain ⟨⟨_, _⟩, put, same⟩ := Option.map_eq_some_iff.mp ran
    cases same
    exact ih.put put
  | remove earlier key fuel ran ih =>
    obtain ⟨_, removed, same⟩ := Option.map_eq_some_iff.mp ran
    obtain ⟨⟨_, _⟩, deleted, same'⟩ := Option.map_eq_some_iff.mp removed
    cases same
    cases same'
    exact ih.remove deleted
  | removeCdc earlier key fuel ran ih =>
    obtain ⟨⟨_, _⟩, deleted, same⟩ := Option.map_eq_some_iff.mp ran
    cases same
    exact ih.remove deleted

def Restores (map : BTreeMap K V) : Prop :=
  ∃ restored : BTreeMap K V, fromTopology (exportTopology map) = some (.ok restored) ∧ restored.nodes.flatten = map.nodes.flatten

private theorem restores_of_fits (tidy : map.Tidy) (positive : 0 < map.nodeCapacity)
    (fits : ∀ node ∈ map.nodes, node.length ≤ map.nodeCapacity) : Restores map := by
  have formed : (exportTopology map).WellFormed := by
    refine ⟨positive, fun node member => ?_, fits, fun node member => ?_, ?_⟩
    · obtain ⟨entry, cell, linked, rfl⟩ := BTreeSet.mem_nodes.mp member
      exact tidy.valid.sound.filled entry cell linked
    · obtain ⟨entry, cell, linked, rfl⟩ := BTreeSet.mem_nodes.mp member
      exact tidy.valid.sound.sorted cell
    · apply tidy.ordered.isChain.imp
      intro left right below last ends first begins
      exact below last (List.mem_of_getLast? ends) first (List.mem_of_head? begins)
  obtain ⟨restored, decoded, _, _, nodes⟩ := fromTopology_restores (κ := K) formed
  exact ⟨restored, decoded, by rw [nodes]; rfl⟩

private theorem Written.inserts (written : Written nodeCapacity map) (pair : Pair K V) :
    ∃ old events after, Written nodeCapacity after ∧ PutEffect nodeCapacity pair map.layout old events after.layout := by
  obtain ⟨old, events, after, effect, _, ran⟩ := BTreeSet.putInner_effect written.sized.tidy false pair 0
  have inserted : BTreeMap.insert pair.key pair.value 1 map = some (old.map Pair.value, after) := by
    simp only [BTreeMap.insert, BTreeSet.put, ran, Option.map_some]
  exact ⟨old, events, after, .insert written pair.key pair.value 1 inserted, written.sized.capacity ▸ effect⟩

/-- The right half of a node with one value also takes a greater one. -/
private theorem rightHalf_single (first second : Pair K V) (below : first.key < second.key) :
    (Operation.rightHalf [first] second).values = [first, second] := by
  have order : compare first.key second.key = .lt := compare_lt_iff_lt.mpr below
  simp [Operation.rightHalf, Node.halve, Node.max, Operation.keepLeft, Operation.moveRight, Half.put, Node.insert, Node.search,
    Node.searchLoop, Node.compareBorrowed, Keyed.key, order]

/-- With room for one, the second key splits the node of the first, and the right half gets both. -/
private theorem overfills {first second : K} (below : first < second) (value : V) :
    ∃ map : BTreeMap K V, Written 1 map ∧ ∃ node ∈ map.nodes, node.length = 2 := by
  obtain ⟨_, _, map, written, effect⟩ := Written.inserts (.new : Written 1 (.withMaximumNodeSize 1 : BTreeMap K V)) ⟨first, value⟩
  have empty : ∀ entry, entry ∉ (BTreeSet.withMaximumNodeSize 1 : BTreeMap K V).layout.index :=
    fun entry => SortedMap.not_mem_empty entry
  have rooted : map.layout = (BTreeSet.withMaximumNodeSize 1 : BTreeMap K V).layout.root ⟨first, value⟩ := by
    generalize map.layout = layout at effect
    cases effect with
    | root _ => rfl
    | inserts _ _ linked => exact absurd linked (empty _)
    | replaces _ _ linked => exact absurd linked (empty _)
    | splits linked => exact absurd linked (empty _)
  have only : ∀ entry node, (entry, node) ∈ map.layout.index → map.layout.heap.cells node = [⟨first, value⟩] := by
    intro entry node member
    rw [rooted] at member ⊢
    rcases (SortedMap.mem_insert ..).mp member with same | ⟨_, old⟩
    · cases same
      exact Heap.alloc_same ..
    · exact absurd old (empty _)
  obtain ⟨_, _, after, writtenAfter, effect⟩ := written.inserts ⟨second, value⟩
  refine ⟨after, writtenAfter, ?_⟩
  generalize final : after.layout = layout at effect
  cases effect with
  | root none =>
    have linked : (first, 0) ∈ map.layout.index := by
      rw [rooted]
      exact (SortedMap.mem_insert ..).mpr (Or.inl rfl)
    exact absurd linked (none _)
  | inserts _ _ linked _ room =>
    rw [only _ _ linked] at room
    exact absurd room (lt_irrefl _)
  | replaces _ _ linked _ room =>
    rw [only _ _ linked] at room
    exact absurd room (lt_irrefl _)
  | @splits entry node linked inside full stored filled found =>
    have right := rightHalf_single ⟨first, value⟩ ⟨second, value⟩ below
    rw [only entry node linked, right] at final
    have member : (second, map.layout.heap.next) ∈ after.layout.index := by
      rw [final]
      exact (SortedMap.mem_insert ..).mpr (Or.inl rfl)
    have cells : after.layout.heap.cells map.layout.heap.next = [⟨first, value⟩, ⟨second, value⟩] := by
      rw [final, Layout.split_cells, if_pos rfl]
    exact ⟨_, BTreeSet.mem_nodes.mpr ⟨second, map.layout.heap.next, member, rfl⟩, congrArg List.length cells⟩

/-- Every checkpoint can be restored exactly when a node may hold two entries: then no call
makes a node longer than the decoder allows. (A type without two keys cannot fill two places.) -/
theorem checkpoints_restore_iff (positive : 1 ≤ nodeCapacity) :
    (∀ map : BTreeMap K V, Written nodeCapacity map → (∀ node ∈ map.nodes, node.length ≤ nodeCapacity) ∧ Restores map) ↔
      2 ≤ nodeCapacity ∨ Subsingleton K ∨ IsEmpty V := by
  constructor
  · intro holds
    by_contra neither
    obtain ⟨single, several, inhabited⟩ : ¬2 ≤ nodeCapacity ∧ ¬Subsingleton K ∧ ¬IsEmpty V := by
      simpa only [not_or] using neither
    obtain rfl : nodeCapacity = 1 := by omega
    have nontrivial : Nontrivial K := not_subsingleton_iff_nontrivial.mp several
    obtain ⟨value⟩ := not_isEmpty_iff.mp inhabited
    obtain ⟨first, second, apart⟩ := exists_pair_ne K
    have refuted : ∀ {low high : K}, ¬low < high := by
      intro low high below
      obtain ⟨map, written, node, member, long⟩ := overfills below value
      have short := (holds map written).1 node member
      omega
    exact apart (le_antisymm (not_lt.mp refuted) (not_lt.mp refuted))
  · intro either map written
    have sized := written.sized
    have fits : ∀ node ∈ map.nodes, node.length ≤ nodeCapacity := by
      intro node member
      obtain ⟨entry, cell, linked, rfl⟩ := BTreeSet.mem_nodes.mp member
      rcases either with many | few
      · exact sized.bounded many cell
      · refine le_trans ?_ positive
        have sorted : Node.Sorted (map.heap.cells cell) := sized.tidy.valid.sound.sorted cell
        match cells : map.heap.cells cell with
        | [] => exact Nat.zero_le _
        | [_] => exact le_rfl
        | first :: second :: rest =>
          rw [cells] at sorted
          have below : first.key < second.key := List.rel_of_pairwise_cons sorted List.mem_cons_self
          rcases few with one | none
          · exact absurd (Subsingleton.elim first.key second.key) below.ne
          · exact isEmptyElim first.value
    exact ⟨fits, restores_of_fits sized.tidy (sized.capacity ▸ positive) (sized.capacity ▸ fits)⟩

/-- Three keys in nodes of at most two. -/
theorem checkpoints_restore_iff_two : ∃ map : BTreeMap Nat Nat, Written 2 map ∧
    (exportTopology map).nodes = [[⟨0, 0⟩], [⟨1, 1⟩, ⟨2, 2⟩]] ∧ Restores map := by
  obtain ⟨map, written, nodes⟩ : ∃ map : BTreeMap Nat Nat, Written 2 map ∧
      (exportTopology map).nodes = [[⟨0, 0⟩], [⟨1, 1⟩, ⟨2, 2⟩]] :=
    ⟨_, .insert (.insertCdc (.insert .new 0 0 1 rfl) 1 1 1 rfl) 2 2 1 rfl, by decide⟩
  exact ⟨map, written, nodes, ((checkpoints_restore_iff (by decide)).mpr (Or.inl le_rfl) map written).2⟩

/-- Two keys in nodes of at most one: the checkpoint has a node of two. -/
theorem checkpoint_rejected_single : ∃ map : BTreeMap Nat Nat, Written 1 map ∧
    exportTopology map = ⟨1, [[⟨0, 0⟩, ⟨1, 1⟩]]⟩ ∧
    fromTopology (κ := Nat) (exportTopology map) = some (.error (.oversizedNode 0 2 1)) ∧ ¬Restores map := by
  obtain ⟨map, written, topology⟩ : ∃ map : BTreeMap Nat Nat, Written 1 map ∧
      exportTopology map = ⟨1, [[⟨0, 0⟩, ⟨1, 1⟩]]⟩ :=
    ⟨_, .insert (.insert .new 0 0 1 rfl) 1 1 1 rfl, by decide⟩
  have rejected : fromTopology (κ := Nat) (exportTopology map) = some (.error (.oversizedNode 0 2 1)) := by
    rw [topology]
    rfl
  refine ⟨map, written, topology, rejected, fun restores => ?_⟩
  obtain ⟨restored, decoded, _⟩ := restores
  cases rejected.symm.trans decoded

end BTreeMap
end WorkTablesIndex
