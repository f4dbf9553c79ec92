import WorkTablesIndex.Indexset.SetLaws

/-! Positions by rank, and the calls that cut a set or empty parts of it: popping, retaining,
splitting off and appending. -/

namespace WorkTablesIndex.Indexset.BTreeSet
open Slice

variable {F α κ Q : Type} [FenwickTree F] [LawfulFenwickTree F] [LinearOrder κ] [Keyed α κ]
  {set : BTreeSet F α} {before after : List (List α)} {low high node : List α} {item : α}

omit [FenwickTree F] [LawfulFenwickTree F] [LinearOrder κ] [Keyed α κ] in
private theorem sum_take_lengths (inner : List (List α)) (count : Nat) :
    ((inner.map List.length).take count).sum = (inner.take count).flatten.length := by
  rw [← List.map_take, List.length_flatten]

omit [LinearOrder κ] [Keyed α κ] in
theorem prefixSum_spec (indexed : slots set.index = set.inner.map List.length) (opened : Opened set before node after) :
    FenwickTree.prefixSum set.index before.length 0 = before.flatten.length := by
  have inside : before.length ≤ (slots set.index).length := by
    rw [indexed, opened.nodes]
    simp
  rw [LawfulFenwickTree.prefixSum_eq _ _ _ inside, indexed, sum_take_lengths, opened.nodes, List.take_left, Nat.zero_add]

omit [FenwickTree F] [LawfulFenwickTree F] [LinearOrder κ] [Keyed α κ] in
private theorem opened_of_lt {nodeIdx : Nat} (within : nodeIdx < set.inner.length) :
    ∃ node, Opened set (set.inner.take nodeIdx) node (set.inner.drop (nodeIdx + 1)) ∧
      (set.inner.take (nodeIdx + 1)).flatten.length = (set.inner.take nodeIdx).flatten.length + node.length := by
  have there := List.getElem?_eq_getElem within
  refine ⟨_, ⟨split_at there⟩, ?_⟩
  rw [List.take_succ_eq_append_getElem within, List.flatten_append, List.length_append]
  simp

omit [LinearOrder κ] [Keyed α κ] in
private theorem indexOf_spec (consistent : Consistent set) (idx : Nat) : ∃ nodeIdx,
    FenwickTree.indexOf set.index idx = nodeIdx ∧
    (if nodeIdx ≠ 0 then FenwickTree.prefixSum set.index nodeIdx 0 else 0) = (set.inner.take nodeIdx).flatten.length ∧
      (set.inner.take nodeIdx = [] ∨ (set.inner.take nodeIdx).flatten.length < idx) ∧
      (nodeIdx < set.inner.length → idx ≤ (set.inner.take (nodeIdx + 1)).flatten.length) ∧
      (set.inner.length ≤ nodeIdx → nodeIdx = set.inner.length ∧ set.elements.length < idx) := by
  obtain ⟨above, reached⟩ := countBelow_spec (set.inner.map List.length) idx
  have position := LawfulFenwickTree.indexOf_eq set.index idx
  have bounded := countBelow_le (set.inner.map List.length) idx
  rw [consistent.indexed] at position
  rw [← position, sum_take_lengths] at above reached
  rw [← position, List.length_map] at bounded
  rw [List.length_map] at reached
  have many := List.length_pos_iff.mpr consistent.nonempty
  refine ⟨_, rfl, ?_, ?_, reached, ?_⟩
  · split
    next =>
      have inside : FenwickTree.indexOf set.index idx ≤ (slots set.index).length := by
        rwa [consistent.indexed, List.length_map]
      rw [LawfulFenwickTree.prefixSum_eq _ _ _ inside, consistent.indexed, sum_take_lengths, Nat.zero_add]
    next first => simp [not_not.mp first]
  · refine (Nat.eq_zero_or_pos (FenwickTree.indexOf set.index idx)).imp ?_ above
    intro first
    rw [first, List.take_zero]
  · intro beyond
    have total := above (by omega)
    rw [List.take_of_length_le beyond] at total
    exact ⟨le_antisymm bounded beyond, total⟩

omit [FenwickTree F] [LawfulFenwickTree F] [LinearOrder κ] [Keyed α κ] in
theorem passed_le {nodes : List (List α)} {idx : Nat} (passed : nodes = [] ∨ nodes.flatten.length < idx) :
    nodes.flatten.length ≤ idx := by
  rcases passed with rfl | above
  · simp
  · exact above.le

omit [LinearOrder κ] [Keyed α κ] in
/-- The subtraction of `locate_ith` does not underflow. -/
theorem prefixSum_le (consistent : Consistent set) {idx : Nat} (later : FenwickTree.indexOf set.index idx ≠ 0) :
    FenwickTree.prefixSum set.index (FenwickTree.indexOf set.index idx) 0 ≤ idx := by
  obtain ⟨_, rfl, offset, passed, _⟩ := indexOf_spec consistent idx
  rw [if_pos later] at offset
  rw [offset]
  exact passed_le passed

/-- The first node that ends at a position or beyond it. -/
def FallsIn (idx : Nat) (before : List (List α)) (node : List α) : Prop :=
  (before = [] ∨ before.flatten.length < idx) ∧ idx ≤ before.flatten.length + node.length

omit [LinearOrder κ] [Keyed α κ] in
private theorem locateIth_falls (consistent : Consistent set) {idx : Nat} (inside : idx ≤ set.elements.length) :
    ∃ before node after, Opened set before node after ∧ FallsIn idx before node ∧
      locateIth idx set = if idx - before.flatten.length = node.length then (before.length + 1, 0)
        else (before.length, idx - before.flatten.length) := by
  obtain ⟨nodeIdx, position, offset, passed, reached, ended⟩ := indexOf_spec consistent idx
  have within : nodeIdx < set.inner.length := by
    by_contra beyond
    have total := (ended (not_lt.mp beyond)).2
    omega
  obtain ⟨node, opened, next⟩ := opened_of_lt within
  have length : (set.inner.take nodeIdx).length = nodeIdx := by
    rw [List.length_take]
    omega
  have there := opened.get
  rw [length] at there
  refine ⟨_, node, _, opened, ⟨passed, ?_⟩, ?_⟩
  · rw [← next]
    exact reached within
  · simp only [locateIth, position, offset, there, length]

omit [FenwickTree F] [LawfulFenwickTree F] [LinearOrder κ] [Keyed α κ] in
private theorem FallsIn.not_before {idx : Nat} {rest : List (List α)} {other : List α} (falls : FallsIn idx before node) :
    ¬FallsIn idx (before ++ node :: rest) other := by
  intro given
  obtain ⟨passed, _⟩ := given
  have upTo := falls.2
  have above := passed.resolve_left (by simp)
  rw [List.flatten_append, List.flatten_cons, List.length_append, List.length_append] at above
  omega

omit [FenwickTree F] [LawfulFenwickTree F] [LinearOrder κ] [Keyed α κ] in
private theorem FallsIn.unique {idx : Nat} {first last : List (List α)} {other : List α} (falls : FallsIn idx before node)
    (falls' : FallsIn idx first other) (same : before ++ node :: after = first ++ other :: last) :
    before = first ∧ node = other ∧ after = last := by
  rcases List.append_eq_append_iff.mp same with ⟨between, later, parts⟩ | ⟨between, later, parts⟩
  · cases between with
    | nil =>
      cases parts
      exact ⟨by simp [later], rfl, rfl⟩
    | cons _ rest =>
      cases parts
      exact absurd (later ▸ falls') falls.not_before
  · cases between with
    | nil =>
      cases parts
      exact ⟨by simp [later], rfl, rfl⟩
    | cons _ rest =>
      cases parts
      exact absurd (later ▸ falls) falls'.not_before

/-- The position falls on the end of a node, and the next node is empty. -/
def GapAt (idx : Nat) (nodes : List (List α)) : Prop :=
  ∃ before node after, nodes = before ++ node :: [] :: after ∧ FallsIn idx before node ∧
    idx = before.flatten.length + node.length

omit [LinearOrder κ] [Keyed α κ] in
/-- Where a position leads, whatever the nodes hold: into a node, or behind the last one. -/
theorem locateIth_opens (consistent : Consistent set) {idx : Nat} (inside : idx ≤ set.elements.length) :
    (∃ before low high after, Opened set before (low ++ high) after ∧ locateIth idx set = (before.length, low.length) ∧
      idx = before.flatten.length + low.length ∧ (high = [] ↔ GapAt idx set.inner)) ∨
    locateIth idx set = (set.inner.length, 0) ∧ idx = set.elements.length ∧ ¬GapAt idx set.inner := by
  obtain ⟨before, node, after, opened, falls, position⟩ := locateIth_falls consistent inside
  have since := passed_le falls.1
  have upTo := falls.2
  -- the position is described by one node only, so a gap is one behind this node
  have gap : GapAt idx set.inner ↔ idx = before.flatten.length + node.length ∧ ∃ rest, after = [] :: rest := by
    constructor
    · intro given
      obtain ⟨first, other, last, nodes, falls', ends⟩ := given
      obtain ⟨rfl, rfl, rfl⟩ := falls.unique falls' (opened.nodes.symm.trans nodes)
      exact ⟨ends, last, rfl⟩
    · intro given
      obtain ⟨ends, rest, rfl⟩ := given
      exact ⟨before, node, rest, opened.nodes, falls, ends⟩
  rw [position, gap]
  split
  next ended =>
    have ends : idx = before.flatten.length + node.length := by omega
    cases after with
    | nil =>
      refine Or.inr ⟨?_, ?_, ?_⟩
      · rw [opened.nodes, List.length_append, List.length_singleton]
      · rw [opened.elements, List.flatten_nil, List.append_nil, List.length_append, ends]
      · intro given
        obtain ⟨_, _, impossible⟩ := given
        cases impossible
    | cons following rest =>
      refine Or.inl ⟨before ++ [node], [], following, rest, ⟨by rw [opened.nodes]; simp⟩, by simp, by simp [ends], ?_, ?_⟩
      · rintro rfl
        exact ⟨ends, rest, rfl⟩
      · intro given
        obtain ⟨_, _, same⟩ := given
        exact (List.cons.inj same).1
  next =>
    have small : idx - before.flatten.length < node.length := by omega
    have parts := List.take_append_drop (idx - before.flatten.length) node
    have length : (node.take (idx - before.flatten.length)).length = idx - before.flatten.length :=
      List.length_take_of_le small.le
    refine Or.inl ⟨before, node.take (idx - before.flatten.length), _, after, ⟨parts.symm ▸ opened.nodes⟩, ?_, ?_, ?_, ?_⟩
    · rw [length]
    · rw [length]
      omega
    · intro none
      have beyond := List.drop_eq_nil_iff.mp none
      omega
    · intro given
      obtain ⟨ends, _⟩ := given
      omega

omit [FenwickTree F] [LawfulFenwickTree F] [LinearOrder κ] [Keyed α κ] in
/-- A gap is an empty node other than the first one. -/
theorem GapAt.empty_node {idx : Nat} {nodes : List (List α)} (gap : GapAt idx nodes) : [] ∈ nodes.tail := by
  obtain ⟨before, node, after, rfl, _⟩ := gap
  cases before with
  | nil => exact List.mem_cons_self
  | cons _ before =>
    apply List.mem_append_right
    exact List.mem_cons_of_mem _ List.mem_cons_self

theorem Valid.not_gapAt (valid : Valid set) (idx : Nat) : ¬GapAt idx set.inner := by
  intro gap
  have empty := gap.empty_node
  rcases valid.filled with single | filled
  · rw [single] at empty
    cases empty
  · exact filled [] (List.mem_of_mem_tail empty) rfl

theorem locateIth_spec (valid : Valid set) {idx : Nat} (inside : idx < set.elements.length) :
    ∃ before low item high after, Opened set before (low ++ item :: high) after ∧
      locateIth idx set = (before.length, low.length) ∧ idx = before.flatten.length + low.length := by
  rcases locateIth_opens valid.consistent inside.le with ⟨before, low, high, after, opened, position, rank, gap⟩ | ⟨_, ends, _⟩
  · cases high with
    | nil => exact absurd (gap.mp rfl) (valid.not_gapAt idx)
    | cons item high => exact ⟨before, low, item, high, after, opened, position, rank⟩
  · omega

theorem locateIth_beyond (valid : Valid set) {idx : Nat} (outside : set.elements.length ≤ idx) :
    locateIth idx set = (set.inner.length, idx - set.elements.length) := by
  obtain ⟨nodeIdx, position, offset, passed, reached, ended⟩ := indexOf_spec valid.consistent idx
  have since := passed_le passed
  by_cases within : nodeIdx < set.inner.length
  · obtain ⟨node, opened, next⟩ := opened_of_lt within
    have length : (set.inner.take nodeIdx).length = nodeIdx := by
      rw [List.length_take]
      omega
    have there := opened.get
    have parts := opened.elements
    rw [length] at there
    have upTo := reached within
    rw [next] at upTo
    have whole : set.elements.length =
        (set.inner.take nodeIdx).flatten.length + (node.length + (set.inner.drop (nodeIdx + 1)).flatten.length) := by
      rw [parts, List.length_append, List.length_append]
    -- all of the last nodes hold something, so this is the last one
    have final : set.inner.drop (nodeIdx + 1) = [] := by
      rcases valid.filled with empty | filled
      · rw [empty]
        exact List.drop_of_length_le (by simp)
      · have nothing : (set.inner.drop (nodeIdx + 1)).flatten = [] := List.length_eq_zero_iff.mp (by omega)
        rw [List.flatten_eq_nil_iff] at nothing
        exact List.eq_nil_iff_forall_not_mem.mpr fun other member =>
          filled other (List.mem_of_mem_drop member) (nothing other member)
    have last := List.drop_eq_nil_iff.mp final
    simp only [locateIth, position, offset, there]
    rw [if_pos (by omega)]
    exact Prod.ext (by omega) (by simp only; omega)
  · obtain ⟨same, _⟩ := ended (not_lt.mp within)
    have there : set.inner[nodeIdx]? = none := List.getElem?_eq_none (not_lt.mp within)
    have all : (set.inner.take nodeIdx).flatten.length = set.elements.length := by
      rw [List.take_of_length_le (not_lt.mp within)]
      rfl
    simp only [locateIth, position, offset, there]
    rw [same] at all ⊢
    rw [all]

theorem getIndex_spec (valid : Valid set) (idx : Nat) : set.getIndex idx = set.elements[idx]? := by
  by_cases inside : idx < set.elements.length
  · obtain ⟨before, low, item, high, after, opened, position, rank⟩ := locateIth_spec valid inside
    have length : idx = (before.flatten ++ low).length := by rw [List.length_append, rank]
    rw [getIndex, position]
    simp only [opened.get, Option.bind_some]
    rw [opened.around_item, length, List.getElem?_append_right le_rfl, List.getElem?_append_right le_rfl]
    simp
  · have outside := not_lt.mp inside
    rw [getIndex, locateIth_beyond valid outside, List.getElem?_eq_none outside]
    simp only [List.getElem?_eq_none le_rfl, Option.bind_none]

omit [LinearOrder κ] [Keyed α κ] in
private theorem rankCmp_located (consistent : Consistent set) {cmp : α → Bool} (located : Located cmp set before low high after)
    (position : locateValueBy true cmp set = some (before.length, low.length)) :
    rankCmp cmp set = some (set.elements.filter cmp).length := by
  simp only [rankCmp, locateValueCmp, position, bind, Option.bind_some, pure]
  rw [prefixSum_spec consistent.indexed located.toOpened, located.satisfying, List.length_append]

theorem rankCmp_spec (valid : Valid set) {cmp : α → Bool} (descending : Descending cmp) :
    rankCmp cmp set = some (set.elements.filter cmp).length := by
  obtain ⟨before, low, high, after, located, _, position⟩ := locateValueBy_spec valid true descending
  exact rankCmp_located valid.consistent located position

/-- Ranks need no more than elements in order and nodes that the comparison partitions. -/
theorem rankCmp_partitioned (consistent : Consistent set) (sorted : Node.Sorted set.elements) {cmp : α → Bool}
    (descending : Descending cmp) (prefixed : Prefixed (passes true cmp) set.inner) :
    rankCmp cmp set = some (set.elements.filter cmp).length := by
  obtain ⟨before, low, high, after, located, _, position⟩ :=
    locateValueBy_located consistent.nonempty sorted descending prefixed (by
      rintro _ _ _ _ _ failed rfl
      cases failed)
  exact rankCmp_located consistent located position

theorem popIndex_spec (valid : Valid set) {idx : Nat} (inside : idx < set.elements.length) :
    ∃ left, popIndex idx set = some (set.elements[idx], left) ∧ Valid left ∧ left.nodeCapacity = set.nodeCapacity ∧
      left.elements = set.elements.eraseIdx idx := by
  obtain ⟨before, low, item, high, after, opened, position, rank⟩ := locateIth_spec valid inside
  obtain ⟨left, deleted, lost⟩ := deleteAt_spec valid opened
  have parts := opened.around_item
  have length : idx = (before.flatten ++ low).length := by rw [List.length_append, rank]
  have stored : set.elements[idx]? = some item := by
    rw [parts, length, List.getElem?_append_right le_rfl]
    simp
  refine ⟨left, ?_, lost.valid, lost.nodeCapacity, ?_⟩
  · rw [popIndex, position]
    simp only [deleted]
    rw [List.getElem?_eq_getElem inside] at stored
    rw [Option.some.inj stored]
  · rw [lost.elements, parts, length, List.eraseIdx_append_of_length_le le_rfl]
    simp

theorem popFirst_spec (valid : Valid set) :
    ∃ left, popFirst set = some (set.elements.head?, left) ∧ Valid left ∧ left.nodeCapacity = set.nodeCapacity ∧
      left.elements = set.elements.tail := by
  obtain ⟨node, rest, nodes⟩ := List.exists_cons_of_ne_nil valid.nonempty
  cases node with
  | nil =>
    have none : set.elements = [] := by
      rcases valid.filled with empty | filled
      · rw [elements, empty]
        rfl
      · exact absurd rfl (filled [] (nodes ▸ List.mem_cons_self))
    refine ⟨set, ?_, valid, rfl, ?_⟩
    · simp [popFirst, nodes, none]
    · rw [none]
      rfl
  | cons item high =>
    have opened : Opened set [] ([] ++ item :: high) rest := ⟨nodes⟩
    obtain ⟨left, deleted, lost⟩ := deleteAt_spec valid opened
    refine ⟨left, ?_, lost.valid, lost.nodeCapacity, ?_⟩
    · rw [opened.elements]
      simp [popFirst, nodes, show deleteAt 0 0 set = some (item, left) from deleted]
    · rw [lost.elements, opened.elements]
      rfl

theorem popLast_spec (valid : Valid set) :
    ∃ left, popLast set = some (set.elements.getLast?, left) ∧ Valid left ∧ left.nodeCapacity = set.nodeCapacity ∧
      left.elements = set.elements.dropLast := by
  obtain ⟨before, node, nodes⟩ := List.eq_nil_or_concat set.inner |>.resolve_left valid.nonempty
  rw [List.concat_eq_append] at nodes
  have final : set.inner[set.inner.length - 1]? = some node := by
    rw [nodes]
    simp
  have length : set.inner.length - 1 = before.length := by
    rw [nodes]
    simp
  rcases List.eq_nil_or_concat node with rfl | ⟨low, item, rfl⟩
  · have none : set.elements = [] := by
      rcases valid.filled with empty | filled
      · rw [elements, empty]
        rfl
      · exact absurd rfl (filled [] (nodes ▸ List.mem_append_right _ List.mem_cons_self))
    refine ⟨set, ?_, valid, rfl, ?_⟩
    · simp only [popLast, final, none, bind, Option.bind_some]
      rfl
    · rw [none]
      rfl
  · rw [List.concat_eq_append] at nodes
    have opened : Opened set before (low ++ item :: []) [] := ⟨nodes⟩
    obtain ⟨left, deleted, lost⟩ := deleteAt_spec valid opened
    have elements := opened.elements
    have ends : (low ++ [item]).length - 1 = low.length := by simp
    have stored : (low ++ [item])[low.length]? = some item := by simp
    refine ⟨left, ?_, lost.valid, lost.nodeCapacity, ?_⟩
    · simp only [popLast, length, opened.get, bind, Option.bind_some, ends, stored, deleted, Option.map_some]
      rw [elements]
      simp
    · rw [lost.elements, elements]
      simp

/-- A predicate that may write is shown every value once, in order; what it keeps, and the state it ends with. -/
def sieve {σ : Type} (f : α → σ → Bool × α × σ) : List α → σ → σ × List α
  | [], state => (state, [])
  | item :: rest, state =>
    let (keep, item, state) := f item state
    let (state, kept) := sieve f rest state
    (state, if keep then item :: kept else kept)

section Retain
variable {σ : Type} (f : α → σ → Bool × α × σ)

omit [FenwickTree F] [LawfulFenwickTree F] [LinearOrder κ] [Keyed α κ] in
private theorem sieve_append (first second : List α) (state : σ) :
    sieve f (first ++ second) state = ((sieve f second (sieve f first state).1).1,
      (sieve f first state).2 ++ (sieve f second (sieve f first state).1).2) := by
  induction first generalizing state with
  | nil => rfl
  | cons item rest ih =>
    simp only [List.cons_append, sieve, ih]
    split <;> rfl

omit [FenwickTree F] [LawfulFenwickTree F] [LinearOrder κ] [Keyed α κ] in
private theorem visitNode_state (nodeIdx position : Nat) (items : List α) (state : σ) :
    (visitNode f nodeIdx position items state).1 = (sieve f items state).1 := by
  induction items generalizing position state with
  | nil => rfl
  | cons item rest ih => exact ih (position + 1) (f item state).2.2

omit [FenwickTree F] [LawfulFenwickTree F] [LinearOrder κ] [Keyed α κ] in
private theorem visitNodes_state (nodeIdx : Nat) (nodes : List (List α)) (state : σ) :
    (visitNodes f nodeIdx nodes state).1 = (sieve f nodes.flatten state).1 := by
  induction nodes generalizing nodeIdx state with
  | nil => rfl
  | cons node rest ih =>
    rw [List.flatten_cons, sieve_append, ← visitNode_state f nodeIdx 0 node state]
    exact ih (nodeIdx + 1) (visitNode f nodeIdx 0 node state).1

private def deletions (positions : List (Nat × Nat)) (set : BTreeSet F α) : Option (BTreeSet F α) :=
  positions.foldrM (fun (nodeIdx, positionWithinNode) set => (deleteAt nodeIdx positionWithinNode set).map Prod.snd) set

private theorem deletions_node (valid : Valid set) (items : List α) (state : σ) (some : low ++ items ≠ [])
    (opened : Opened set before (low ++ (visitNode f before.length low.length items state).2.2) after) :
    ∃ left, deletions (visitNode f before.length low.length items state).2.1 set = .some left ∧
      Lost set before (low ++ (sieve f items state).2) after left := by
  induction items generalizing low state with
  | nil =>
    rw [List.append_nil] at some
    refine ⟨set, rfl, valid, ?_, rfl⟩
    rw [shrink, if_neg (by simp [sieve, some])]
    exact opened.nodes
  | cons item rest ih =>
    have next : (low ++ [(f item state).2.1]).length = low.length + 1 := by simp
    have shown : Opened set before (low ++ [(f item state).2.1] ++
        (visitNode f before.length (low ++ [(f item state).2.1]).length rest (f item state).2.2).2.2) after := by
      rw [next, List.append_assoc]
      exact opened
    obtain ⟨left, ran, lost⟩ := ih (f item state).2.2 (by simp) shown
    rw [next] at ran
    have stays : left.inner = before ++ (low ++ (f item state).2.1 :: (sieve f rest (f item state).2.2).2) :: after := by
      rw [lost.inner, shrink, if_neg (by simp)]
      simp
    cases keep : (f item state).1 with
    | true =>
      refine ⟨left, ?_, lost.valid, ?_, lost.nodeCapacity⟩
      · simp only [visitNode, keep, if_true]
        exact ran
      · rw [stays, shrink, if_neg (by simp [sieve, keep])]
        simp [sieve, keep]
    | false =>
      obtain ⟨last, deleted, lostLast⟩ := deleteAt_spec lost.valid ⟨stays⟩
      refine ⟨last, ?_, lostLast.valid, ?_, lostLast.nodeCapacity.trans lost.nodeCapacity⟩
      · simp only [visitNode, keep, Bool.false_eq_true, if_false, deletions, List.foldrM_cons]
        simp only [deletions] at ran
        rw [ran]
        simp only [bind, Option.bind_some, deleted, Option.map_some]
      · rw [lostLast.inner]
        simp [sieve, keep]

private theorem deletions_nodes (valid : Valid set) (nodes : List (List α)) (state : σ) (filled : ∀ node ∈ nodes, node ≠ [])
    (opened : set.inner = before ++ (visitNodes f before.length nodes state).2.2) :
    ∃ left rest, deletions (visitNodes f before.length nodes state).2.1 set = some left ∧ Valid left ∧
      left.inner = before ++ rest ∧ rest.flatten = (sieve f nodes.flatten state).2 ∧ left.nodeCapacity = set.nodeCapacity := by
  induction nodes generalizing before set state with
  | nil => exact ⟨set, [], rfl, valid, opened, rfl, rfl⟩
  | cons node further ih =>
    obtain ⟨nonempty, others⟩ := List.forall_mem_cons.mp filled
    generalize visited : visitNode f before.length 0 node state = shown at opened
    obtain ⟨after, positions, values⟩ := shown
    have next : (before ++ [values]).length = before.length + 1 := by simp
    have later : set.inner = (before ++ [values]) ++ (visitNodes f (before ++ [values]).length further after).2.2 := by
      rw [opened, next, visitNodes, visited]
      simp
    obtain ⟨left, rest, ran, leftValid, inner, kept, capacity⟩ := ih valid after others later
    have here : Opened left before ([] ++ (visitNode f before.length ([] : List α).length node state).2.2) rest := by
      refine ⟨?_⟩
      rw [inner, List.length_nil, visited]
      simp
    obtain ⟨last, ranLast, lost⟩ := deletions_node f leftValid node state (by simpa using nonempty) here
    rw [List.length_nil, visited] at ranLast
    have state' : after = (sieve f node state).1 := by rw [← visitNode_state f before.length 0, visited]
    have parts := lost.inner
    rw [List.nil_append] at parts
    have total : (sieve f (node :: further).flatten state).2 = (sieve f node state).2 ++ rest.flatten := by
      rw [List.flatten_cons, sieve_append, kept, state']
    refine ⟨last, if (sieve f node state).2 = [] ∧ before ++ rest ≠ [] then rest else (sieve f node state).2 :: rest,
      ?_, lost.valid, ?_, ?_,
      lost.nodeCapacity.trans capacity⟩
    · rw [next] at ran
      simp only [deletions] at ran ranLast
      simp only [visitNodes, visited, deletions, List.foldrM_append, ran, bind, Option.bind_some, ranLast]
    · rw [parts, shrink]
      split <;> rfl
    · rw [total]
      split
      next gone => rw [gone.1, List.nil_append]
      next => rfl

omit [LinearOrder κ] in
private theorem visitNode_keys (keeps : ∀ item state, key (f item state).2.1 = key item) (nodeIdx position : Nat) (items : List α)
    (state : σ) : (visitNode f nodeIdx position items state).2.2.map key = items.map key := by
  induction items generalizing position state with
  | nil => rfl
  | cons item rest ih =>
    simp only [visitNode, List.map_cons, keeps]
    rw [ih]

omit [LinearOrder κ] in
private theorem visitNodes_keys (keeps : ∀ item state, key (f item state).2.1 = key item) (nodeIdx : Nat) (nodes : List (List α))
    (state : σ) : (visitNodes f nodeIdx nodes state).2.2.map (List.map key) = nodes.map (List.map key) := by
  induction nodes generalizing nodeIdx state with
  | nil => rfl
  | cons node rest ih =>
    simp only [visitNodes, List.map_cons, visitNode_keys f keeps]
    rw [ih]

theorem Valid.of_keys (valid : Valid set) {inner : List (List α)}
    (same : inner.map (List.map key) = set.inner.map (List.map key)) : Valid { set with inner } := by
  have lengths : inner.map List.length = set.inner.map List.length := by
    have counted := congrArg (List.map List.length) same
    simpa [List.map_map, Function.comp_def] using counted
  have keys : inner.flatten.map key = set.elements.map key := by
    rw [elements, List.map_flatten, List.map_flatten, same]
  refine ⟨?_, ?_, ?_, ?_, valid.indexed.trans lengths.symm, valid.room⟩
  · intro none
    have empty : inner = [] := none
    rw [empty] at lengths
    exact valid.nonempty (List.map_eq_nil_iff.mp lengths.symm)
  · rcases valid.filled with empty | filled
    · rw [empty] at same
      obtain ⟨node, rest, rfl, none, further⟩ := List.map_eq_cons_iff.mp same
      rw [List.map_eq_nil_iff.mp none, List.map_eq_nil_iff.mp further]
      exact Or.inl rfl
    · right
      intro node member none
      have zero : 0 ∈ inner.map List.length := List.mem_map.mpr ⟨node, member, by rw [none]; rfl⟩
      rw [lengths] at zero
      obtain ⟨other, stored, empty⟩ := List.mem_map.mp zero
      exact filled other stored (List.length_eq_zero_iff.mp empty)
  · have sorted := List.pairwise_map.mpr valid.sorted
    rw [← keys] at sorted
    exact List.pairwise_map.mp sorted
  · have size := congrArg List.length keys
    rw [List.length_map, List.length_map] at size
    exact valid.counted.trans size.symm

theorem retainMut_spec (valid : Valid set) (keeps : ∀ item state, key (f item state).2.1 = key item) (state : σ) :
    ∃ left, retainMut f state set = some ((sieve f set.elements state).1, left) ∧ Valid left ∧
      left.nodeCapacity = set.nodeCapacity ∧ left.elements = (sieve f set.elements state).2 := by
  have visited := valid.of_keys (visitNodes_keys f keeps 0 set.inner state)
  rcases valid.filled with empty | filled
  · obtain ⟨inner, index, nodeCapacity, len⟩ := set
    cases empty
    exact ⟨_, rfl, valid, rfl, rfl⟩
  · have whole : (visitNodes f 0 set.inner state).2.2 = [] ++ (visitNodes f ([] : List (List α)).length set.inner state).2.2 := rfl
    obtain ⟨left, rest, ran, leftValid, inner, kept, capacity⟩ := deletions_nodes f visited set.inner state filled whole
    refine ⟨left, ?_, leftValid, capacity, ?_⟩
    · simp only [retainMut, bind]
      simp only [deletions, List.foldrM] at ran
      rw [List.length_nil] at ran
      rw [ran, Option.bind_some, visitNodes_state]
      rfl
    · rw [elements, inner]
      exact kept

end Retain

structure SplitOff (set : BTreeSet F α) (before : List (List α)) (low high : List α) (after : List (List α))
    (kept moved : BTreeSet F α) : Prop extends Opened set before (low ++ high) after where
  kept : kept = { set with
    inner := shrink before low [], index := reindex (shrink before low []),
    len := ((shrink before low []).map List.length).sum }
  moved : moved = { (new : BTreeSet F α) with
    inner := high :: after, index := reindex (high :: after), len := ((high :: after).map List.length).sum }

omit [LawfulFenwickTree F] [LinearOrder κ] [Keyed α κ] in
theorem splitOffAt_splits (opened : Opened set before node after) (position : Nat) :
    ∃ kept moved, splitOffAt before.length position set = some (kept, moved) ∧
      SplitOff set before (node.take position) (node.drop position) after kept moved := by
  have whole : Opened set before (node.take position ++ node.drop position) after := by
    rw [List.take_append_drop]
    exact opened
  have length : before.length + 1 = (before ++ [node]).length := by simp
  have nodes : set.inner = (before ++ [node]) ++ after := by
    rw [opened.nodes]
    simp
  have front : ∀ low, (set.inner.take (before.length + 1)).set before.length low = before ++ [low] := by
    intro low
    rw [nodes, length, List.take_left, List.set_append_right _ _ le_rfl, Nat.sub_self]
    rfl
  have only : ∀ low : List α, 1 < (before ++ [low]).length ↔ before ++ [] ≠ [] := by
    intro low
    rw [← List.length_pos_iff]
    simp
  have shrunk : ∀ low, (if low = [] ∧ before ++ [] ≠ [] then (before ++ [low]).eraseIdx before.length else before ++ [low]) =
      shrink before low [] := by
    intro low
    unfold shrink
    split
    next => rw [List.eraseIdx_append_of_length_le le_rfl, Nat.sub_self]; rfl
    next => rfl
  simp only [splitOffAt, opened.get, front, opened.later, only, shrunk, bind, Option.bind_some, pure]
  exact ⟨_, _, rfl, whole, rfl, rfl⟩

omit [LawfulFenwickTree F] [LinearOrder κ] [Keyed α κ] in
theorem splitOffAt_inv {nodeIdx position : Nat} {kept moved : BTreeSet F α}
    (ran : splitOffAt nodeIdx position set = some (kept, moved)) :
    ∃ before low high after, SplitOff set before low high after kept moved := by
  have same := ran
  simp only [splitOffAt, bind] at same
  obtain ⟨node, there, _⟩ := Option.bind_eq_some_iff.mp same
  have opened : Opened set (set.inner.take nodeIdx) node (set.inner.drop (nodeIdx + 1)) := ⟨split_at there⟩
  obtain ⟨_, _, cut, split⟩ := splitOffAt_splits opened position
  rw [List.length_take_of_le (List.getElem?_eq_some_iff.mp there).1.le] at cut
  cases ran.symm.trans cut
  exact ⟨_, _, _, _, split⟩

theorem splitOffAt_spec {cmp : α → Bool} (valid : Valid set) (located : Located cmp set before low high after) :
    ∃ kept moved, splitOffAt before.length low.length set = some (kept, moved) ∧
      (Valid kept ∧ kept.nodeCapacity = set.nodeCapacity ∧ kept.elements = before.flatten ++ low) ∧
      (Valid moved ∧ moved.nodeCapacity = defaultInnerSize ∧ moved.elements = high ++ after.flatten) := by
  have around := valid.around located.toOpened
  have earlier : ∀ other ∈ before ++ [], other ≠ [] := fun other member =>
    around other (List.mem_append_left _ (List.append_nil before ▸ member))
  obtain ⟨nonempty, filled⟩ := shrink_filled low earlier
  have sorted := valid.sorted
  rw [located.parts] at sorted
  obtain ⟨lowSorted, highSorted, _⟩ := Node.sorted_append.mp sorted
  have lower : (shrink before low []).flatten = before.flatten ++ low := by
    rw [shrink_flatten]
    simp
  have large : 2 ≤ defaultInnerSize := by decide
  obtain ⟨_, _, ran, split⟩ := splitOffAt_splits located.toOpened low.length
  rw [List.take_left, List.drop_left] at split
  obtain ⟨_, rfl, rfl⟩ := split
  refine ⟨_, _, ran, ⟨⟨nonempty, filled, ?_, ?_, slots_reindex _, valid.room⟩, rfl, lower⟩,
    ⟨⟨List.cons_ne_nil _ _, ?_, highSorted, ?_, slots_reindex _, large⟩, rfl, rfl⟩⟩
  · rw [elements, lower]
    exact lowSorted
  · rw [elements, List.length_flatten]
  · by_cases none : high = []
    · rw [none, located.final none]
      exact Or.inl rfl
    · right
      intro other member
      rcases List.mem_cons.mp member with rfl | later
      · exact none
      · exact around other (List.mem_append_right _ later)
  · rw [elements, List.length_flatten]

end WorkTablesIndex.Indexset.BTreeSet
