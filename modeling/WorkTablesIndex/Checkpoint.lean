import WorkTablesIndex.QuietIter
import WorkTablesIndex.WeakConsistency

/-! Pointer-free checkpoints (`Topology`, `export_topology` and `from_topology` in
`concurrent/map.rs`). The decoder validates the node boundaries, rebuilds every node by
insertion and attaches all of them with one publication. -/

universe u v

namespace WorkTablesIndex
open SortedMap

variable {α : Type u} {κ : Type v}

structure BTreeMap.Topology (α : Type u) where
  nodeCapacity : Nat
  nodes : List (List α)
  deriving DecidableEq

inductive BTreeMap.TopologyError where
  | zeroNodeCapacity
  | emptyNode (index : Nat)
  | oversizedNode (index len capacity : Nat)
  | unsortedNode (index : Nat)
  | overlappingNodes (left right : Nat)
  deriving DecidableEq, Repr

namespace BTreeMap
variable [LinearOrder κ] [Keyed α κ]

namespace Topology

/-- `node.windows(2).any(|pair| pair[0] >= pair[1])`. -/
def unsorted (node : List α) : Bool := (node.zip node.tail).any fun pair => decide (key pair.2 ≤ key pair.1)

/-- The last key of one node is not below the first key of the next. Both are filled, for
the loop has validated them. -/
def overlap (left right : List α) : Bool :=
  match left.getLast?, right.head? with
  | some last, some first => decide (key first ≤ key last)
  | _, _ => false

def nodeError (topology : Topology α) (index : Nat) (node : List α) : Option TopologyError :=
  if node.isEmpty then some (.emptyNode index)
  else if topology.nodeCapacity < node.length then some (.oversizedNode index node.length topology.nodeCapacity)
  else if unsorted node then some (.unsortedNode index)
  else if 0 < index ∧ overlap (topology.nodes[index - 1]?.getD []) node then some (.overlappingNodes (index - 1) index)
  else none

def firstError (topology : Topology α) : Option TopologyError :=
  topology.nodes.zipIdx.findSome? fun (node, index) => topology.nodeError index node

end Topology

/-- A node filled by one search and insertion after another. -/
def rebuildNode (values : List α) : List α := values.foldl (fun node value => (Node.insert node value).2.2) []

def exportTopology (map : BTreeSet α κ) : Topology α := ⟨map.nodeCapacity, map.nodes⟩

/-- `from_topology`; `none` would be the panic of `attach_nodes` on an empty node. -/
def fromTopology (topology : Topology α) : Option (Except TopologyError (BTreeSet α κ)) :=
  if topology.nodeCapacity = 0 then some (.error .zeroNodeCapacity)
  else
    match topology.firstError with
    | some error => some (.error error)
    | none => (BTreeSet.attachNodes (topology.nodes.map rebuildNode) (.withMaximumNodeSize topology.nodeCapacity)).map .ok

def TopologyError.node : TopologyError → Option Nat
  | .zeroNodeCapacity => none
  | .emptyNode index => some index
  | .oversizedNode index _ _ => some index
  | .unsortedNode index => some index
  | .overlappingNodes _ right => some right

def TopologyError.Describes (topology : Topology α) : TopologyError → Prop
  | .zeroNodeCapacity => topology.nodeCapacity = 0
  | .emptyNode index => topology.nodes[index]? = some []
  | .oversizedNode index len capacity => capacity = topology.nodeCapacity ∧
    ∃ node, topology.nodes[index]? = some node ∧ node.length = len ∧ capacity < len
  | .unsortedNode index => ∃ node, topology.nodes[index]? = some node ∧ ¬Node.Sorted node
  | .overlappingNodes left right => right = left + 1 ∧ ∃ first second last next, topology.nodes[left]? = some first ∧
    topology.nodes[right]? = some second ∧ last ∈ first.getLast? ∧ next ∈ second.head? ∧ key next ≤ key last

namespace Topology

/-- The node at the position is filled, fits, ascends and lies above its predecessor. -/
structure Fine (topology : Topology α) (index : Nat) (node : List α) : Prop where
  filled : node ≠ []
  fits : node.length ≤ topology.nodeCapacity
  ascends : Node.Sorted node
  above : ∀ position previous, index = position + 1 → topology.nodes[position]? = some previous →
    ∀ last ∈ previous.getLast?, ∀ first ∈ node.head?, key last < key first

structure WellFormed (topology : Topology α) : Prop where
  capacity : 0 < topology.nodeCapacity
  filled : ∀ node ∈ topology.nodes, node ≠ []
  fits : ∀ node ∈ topology.nodes, node.length ≤ topology.nodeCapacity
  ascends : ∀ node ∈ topology.nodes, Node.Sorted node
  boundaries : topology.nodes.IsChain fun left right => ∀ last ∈ left.getLast?, ∀ first ∈ right.head?, key last < key first

theorem unsorted_iff (node : List α) : unsorted node = true ↔ ¬Node.Sorted node := by
  have chain : Node.Sorted node ↔ node.IsChain fun first second => key first < key second := by
    have trans : IsTrans α fun first second => key first < key second := ⟨fun _ _ _ below above => below.trans above⟩
    exact List.isChain_iff_pairwise.symm
  rw [chain]
  clear chain
  induction node with
  | nil => simp [unsorted]
  | cons first rest ih =>
    cases rest with
    | nil => simp [unsorted]
    | cons second rest =>
      simp only [unsorted, List.tail_cons, List.zip_cons_cons, List.any_cons, Bool.or_eq_true, decide_eq_true_eq,
        List.isChain_cons_cons, not_and_or, not_lt] at ih ⊢
      exact or_congr_right ih

theorem overlap_iff (left right : List α) :
    overlap left right = true ↔ ∃ last ∈ left.getLast?, ∃ first ∈ right.head?, key first ≤ key last := by
  simp only [overlap]
  split
  next last first ends begins => simp [ends, begins]
  next missing =>
    refine ⟨fun impossible => absurd impossible Bool.false_ne_true, fun both => ?_⟩
    obtain ⟨last, ends, first, begins, _⟩ := both
    exact absurd begins (missing last first ends)

variable {topology : Topology α} {index : Nat} {node : List α}

theorem nodeError_none (topology : Topology α) (index : Nat) (node : List α) :
    topology.nodeError index node = none ↔ topology.Fine index node := by
  simp only [nodeError]
  split
  next empty =>
    refine ⟨fun impossible => (by cases impossible), fun fine => absurd (List.isEmpty_iff.mp empty) fine.filled⟩
  next filled =>
    split
    next oversized => exact ⟨fun impossible => (by cases impossible), fun fine => absurd oversized (not_lt.mpr fine.fits)⟩
    next fits =>
      split
      next disorder =>
        exact ⟨fun impossible => (by cases impossible), fun fine => absurd fine.ascends ((unsorted_iff node).mp disorder)⟩
      next ordered =>
        have ascends : Node.Sorted node := by
          by_contra disorder
          exact ordered ((unsorted_iff node).mpr disorder)
        split
        next overlaps =>
          refine ⟨fun impossible => (by cases impossible), fun fine => ?_⟩
          obtain ⟨position, rfl⟩ : ∃ position, index = position + 1 := ⟨index - 1, by omega⟩
          obtain ⟨last, ends, first, begins, reaches⟩ := (overlap_iff _ _).mp overlaps.2
          rw [Nat.add_sub_cancel] at ends
          cases before : topology.nodes[position]? with
          | none => simp [before] at ends
          | some previous =>
            simp only [before, Option.getD_some] at ends
            exact absurd (fine.above position previous rfl before last ends first begins) (not_lt.mpr reaches)
        next clear =>
          refine ⟨fun _ => ⟨fun empty => filled (List.isEmpty_iff.mpr empty), not_lt.mp fits, ascends, ?_⟩, fun _ => rfl⟩
          intro position previous same before last ends first begins
          by_contra reaches
          refine clear ⟨by omega, (overlap_iff _ _).mpr ⟨last, ?_, first, begins, not_lt.mp reaches⟩⟩
          simpa [same, before] using ends

theorem firstError_none (topology : Topology α) :
    topology.firstError = none ↔ ∀ (index : Nat) node, topology.nodes[index]? = some node → topology.Fine index node := by
  simp only [firstError, List.findSome?_eq_none_iff, Prod.forall, List.mem_zipIdx_iff_getElem?, nodeError_none]
  exact ⟨fun fine index node there => fine node index there, fun fine node index there => fine index node there⟩

theorem wellFormed_iff (topology : Topology α) : topology.WellFormed ↔ 0 < topology.nodeCapacity ∧
    ∀ (index : Nat) node, topology.nodes[index]? = some node → topology.Fine index node := by
  constructor
  · intro formed
    refine ⟨formed.capacity, fun index node there => ?_⟩
    have member := List.mem_of_getElem? there
    refine ⟨formed.filled node member, formed.fits node member, formed.ascends node member, ?_⟩
    intro position previous same before
    subst same
    obtain ⟨inside, rfl⟩ := List.getElem?_eq_some_iff.mp there
    obtain ⟨_, rfl⟩ := List.getElem?_eq_some_iff.mp before
    exact List.isChain_iff_getElem.mp formed.boundaries position inside
  · intro both
    obtain ⟨capacity, fine⟩ := both
    have each : ∀ node ∈ topology.nodes, ∃ index, topology.Fine index node := by
      intro node member
      obtain ⟨index, there⟩ := List.mem_iff_getElem?.mp member
      exact ⟨index, fine index node there⟩
    refine ⟨capacity, fun node member => ?_, fun node member => ?_, fun node member => ?_, ?_⟩
    · exact (each node member).choose_spec.filled
    · exact (each node member).choose_spec.fits
    · exact (each node member).choose_spec.ascends
    · apply List.isChain_iff_getElem.mpr
      intro position inside
      exact (fine (position + 1) _ (List.getElem?_eq_getElem inside)).above position _ rfl (List.getElem?_eq_getElem (by omega))

private theorem head_le {first item : α} (sorted : Node.Sorted node) (begins : first ∈ node.head?) (member : item ∈ node) :
    key first ≤ key item := by
  cases node with
  | nil => cases member
  | cons head rest =>
    cases begins
    rcases List.mem_cons.mp member with rfl | later
    · exact le_rfl
    · exact (List.rel_of_pairwise_cons sorted later).le

private theorem ordered_of_chain : ∀ {nodes : List (List α)}, (∀ node ∈ nodes, node ≠ []) →
    (∀ node ∈ nodes, Node.Sorted node) →
    nodes.IsChain (fun left right => ∀ last ∈ left.getLast?, ∀ first ∈ right.head?, key last < key first) →
    nodes.Pairwise fun left right => ∀ first ∈ left, ∀ second ∈ right, key first < key second
  | [], _, _, _ => .nil
  | [_], _, _, _ => List.pairwise_singleton ..
  | left :: next :: rest, filled, ascends, chain => by
    obtain ⟨boundary, chain⟩ := List.isChain_cons_cons.mp chain
    have ordered := ordered_of_chain (fun node member => filled node (List.mem_cons_of_mem _ member))
      (fun node member => ascends node (List.mem_cons_of_mem _ member)) chain
    have leftSorted := ascends left List.mem_cons_self
    have nextSorted := ascends next (List.mem_cons_of_mem _ List.mem_cons_self)
    obtain ⟨begin_, begins⟩ := List.exists_mem_of_ne_nil _ (filled next (List.mem_cons_of_mem _ List.mem_cons_self))
    have adjacent : ∀ first ∈ left, ∀ second ∈ next, key first < key second := by
      intro first present second there
      obtain ⟨last, ends⟩ : ∃ last, last ∈ left.getLast? :=
        ⟨_, List.getLast?_eq_some_getLast (filled left List.mem_cons_self)⟩
      obtain ⟨head, starts⟩ : ∃ head, head ∈ next.head? := ⟨_, List.head?_eq_some_head (List.ne_nil_of_mem there)⟩
      calc key first ≤ key last := ((Node.max_eq_some leftSorted).mp ends).2 first present
        _ < key head := boundary last ends head starts
        _ ≤ key second := head_le nextSorted starts there
    refine List.pairwise_cons.mpr ⟨fun right member first present second there => ?_, ordered⟩
    rcases List.mem_cons.mp member with rfl | later
    · exact adjacent first present second there
    · exact (adjacent first present begin_ begins).trans (List.rel_of_pairwise_cons ordered later begin_ begins second there)

theorem WellFormed.ordered (formed : topology.WellFormed) :
    topology.nodes.Pairwise fun left right => ∀ first ∈ left, ∀ second ∈ right, key first < key second :=
  ordered_of_chain formed.filled formed.ascends formed.boundaries

end Topology

/-- Inserting ascending values one by one puts each at the end. -/
theorem rebuildNode_eq {values : List α} (sorted : Node.Sorted values) : rebuildNode values = values := by
  have grow : ∀ (rest node : List α), Node.Sorted (node ++ rest) →
      rest.foldl (fun node value => (Node.insert node value).2.2) node = node ++ rest := by
    intro rest
    induction rest with
    | nil => simp
    | cons value rest ih =>
      intro node sorted
      have appended : (Node.insert node value).2.2 = node ++ [value] := by
        obtain ⟨prefixSorted, _, below⟩ := Node.sorted_append.mp sorted
        rcases Node.insert_cases prefixSorted value with ⟨index, result, gap⟩ | ⟨index, old, _, there, same⟩
        · rw [result]
          have last : index = node.length := by
            by_contra short
            have inside : index < node.length := lt_of_le_of_ne gap.inside short
            have member : node[index] ∈ node.drop index := by
              rw [List.drop_eq_getElem_cons inside]
              exact List.mem_cons_self
            exact absurd (gap.greater _ member) (below _ (List.getElem_mem inside) value List.mem_cons_self).asymm
          simp [last]
        · exact absurd same (below old (List.mem_of_getElem? there) value List.mem_cons_self).ne
      rw [List.foldl_cons, appended, ih _ (by simpa using sorted), List.append_assoc]
      rfl
  simpa [rebuildNode] using grow values [] (by simpa using sorted)

theorem nodes_ext {first second : List (List α)} (filled : ∀ node ∈ first, node ≠ [])
    (left : first.Pairwise fun left right => ∀ one ∈ left, ∀ other ∈ right, key one < key other)
    (right : second.Pairwise fun left right => ∀ one ∈ left, ∀ other ∈ right, key one < key other)
    (same : ∀ node, node ∈ first ↔ node ∈ second) : first = second := by
  have distinct : ∀ {nodes : List (List α)}, (∀ node ∈ nodes, node ≠ []) →
      (nodes.Pairwise fun left right => ∀ one ∈ left, ∀ other ∈ right, key one < key other) → nodes.Nodup := by
    intro nodes filled ordered
    apply ordered.imp_of_mem
    intro one other member _ below equal
    subst equal
    obtain ⟨item, present⟩ := List.exists_mem_of_ne_nil _ (filled one member)
    exact lt_irrefl _ (below item present item present)
  have filledToo : ∀ node ∈ second, node ≠ [] := fun node member => filled node ((same node).mpr member)
  have perm : first.Perm second := (List.perm_ext_iff_of_nodup (distinct filled left) (distinct filledToo right)).mpr same
  refine perm.eq_of_pairwise (fun one other member there below above => ?_) left right
  obtain ⟨item, present⟩ := List.exists_mem_of_ne_nil _ (filled one member)
  obtain ⟨second, here⟩ := List.exists_mem_of_ne_nil _ (filled other ((same other).mpr there))
  exact absurd (below item present second here) (above second here item present).asymm

/-- A well formed checkpoint is restored node by node. -/
theorem fromTopology_restores {topology : Topology α} (formed : topology.WellFormed) :
    ∃ map : BTreeSet α κ, fromTopology topology = some (.ok map) ∧ map.Tidy ∧ map.nodeCapacity = topology.nodeCapacity ∧
      map.nodes = topology.nodes := by
  obtain ⟨capacity, fine⟩ := topology.wellFormed_iff.mp formed
  have rebuilt : topology.nodes.map rebuildNode = topology.nodes := by
    refine (List.map_congr_left fun node member => ?_).trans (List.map_id _)
    exact rebuildNode_eq (formed.ascends node member)
  have empty : ∀ entry values,
      ¬(BTreeSet.withMaximumNodeSize topology.nodeCapacity : BTreeSet α κ).layout.Linked entry values := by
    intro entry values linked
    obtain ⟨node, member, _⟩ := linked
    exact not_mem_empty _ member
  have attachable :
      BTreeSet.Attachable (BTreeSet.withMaximumNodeSize topology.nodeCapacity : BTreeSet α κ).layout topology.nodes :=
    ⟨formed.filled, formed.ascends, formed.ordered.imp Or.inl, fun values _ entry node member => (not_mem_empty _ member).elim⟩
  obtain ⟨map, attached, tidy, same, linked⟩ := BTreeSet.attachNodes_spec (BTreeSet.tidy_new topology.nodeCapacity) attachable
  refine ⟨map, ?_, tidy, same, ?_⟩
  · simp only [fromTopology, capacity.ne', if_false, topology.firstError_none.mpr fine, rebuilt, attached, Option.map_some]
  · have present : ∀ values, values ∈ map.nodes ↔ values ∈ topology.nodes := by
      intro values
      rw [BTreeSet.mem_nodes]
      constructor
      · intro there
        obtain ⟨entry, node, member, rfl⟩ := there
        exact (((linked entry _).mp ⟨node, member, rfl⟩).resolve_right (empty entry _)).1
      · intro member
        obtain ⟨top, greatest⟩ := Node.maxKey_isSome (κ := κ) (formed.filled values member)
        obtain ⟨node, there, same⟩ := (linked top values).mpr (Or.inl ⟨member, greatest⟩)
        exact ⟨top, node, there, same⟩
    exact nodes_ext (fun node member => formed.filled node ((present node).mp member)) tidy.ordered formed.ordered present

variable {K : Type u} {V : Type v} [LinearOrder K]

end BTreeMap
end WorkTablesIndex
