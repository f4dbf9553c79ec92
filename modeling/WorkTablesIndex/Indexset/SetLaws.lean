import WorkTablesIndex.Indexset.Set
import WorkTablesIndex.NodeLaws

/-! The representation invariant of the single-threaded set, and what each building block does
to a valid set. A position is described by the nodes on either side of it and by the two parts
of its own node. -/

namespace WorkTablesIndex.Indexset.BTreeSet
open Slice

variable {F α κ Q : Type} [FenwickTree F]

def elements (set : BTreeSet F α) : List α := set.inner.flatten

/-- There is a node, and both counters agree with the nodes. -/
structure Consistent [LawfulFenwickTree F] (set : BTreeSet F α) : Prop where
  nonempty : set.inner ≠ []
  counted : set.len = set.elements.length
  indexed : slots set.index = set.inner.map List.length

section Invariant
variable [LawfulFenwickTree F] [LinearOrder κ] [Keyed α κ]

structure Valid (set : BTreeSet F α) : Prop where
  nonempty : set.inner ≠ []
  filled : set.inner = [[]] ∨ ∀ node ∈ set.inner, node ≠ []
  sorted : Node.Sorted set.elements
  counted : set.len = set.elements.length
  indexed : slots set.index = set.inner.map List.length
  room : 2 ≤ set.nodeCapacity

theorem valid_withMaximumNodeSize {maximumNodeSize : Nat} (room : 2 ≤ maximumNodeSize) :
    Valid (withMaximumNodeSize maximumNodeSize : BTreeSet F α) where
  nonempty := List.cons_ne_nil _ _
  filled := Or.inl rfl
  sorted := List.Pairwise.nil
  counted := rfl
  indexed := LawfulFenwickTree.slots_fromIter _
  room := room

variable {set : BTreeSet F α}

theorem Valid.consistent (valid : Valid set) : Consistent set := ⟨valid.nonempty, valid.counted, valid.indexed⟩

theorem Valid.clear (valid : Valid set) : Valid set.clear where
  nonempty := List.cons_ne_nil _ _
  filled := Or.inl rfl
  sorted := List.Pairwise.nil
  counted := rfl
  indexed := LawfulFenwickTree.slots_fromIter _
  room := valid.room

theorem Valid.filled_of_several (valid : Valid set) {first : List α} {nodes : List (List α)}
    (inner : set.inner = first :: nodes) (several : nodes ≠ []) : ∀ node ∈ set.inner, node ≠ [] := by
  apply valid.filled.resolve_left
  intro single
  rw [single] at inner
  cases inner
  exact several rfl

theorem Valid.node_sorted (valid : Valid set) {node : List α} (member : node ∈ set.inner) : Node.Sorted node :=
  valid.sorted.sublist (List.sublist_flatten_of_mem member)

end Invariant

structure Opened (set : BTreeSet F α) (before : List (List α)) (node : List α) (after : List (List α)) : Prop where
  nodes : set.inner = before ++ node :: after

namespace Opened
variable {set : BTreeSet F α} {before after : List (List α)} {node : List α}

omit [FenwickTree F] in
theorem elements (opened : Opened set before node after) : set.elements = before.flatten ++ (node ++ after.flatten) := by
  rw [BTreeSet.elements, opened.nodes, List.flatten_append, List.flatten_cons]

omit [FenwickTree F] in
theorem get (opened : Opened set before node after) : set.inner[before.length]? = some node := by
  rw [opened.nodes, List.getElem?_append_right le_rfl, Nat.sub_self]
  rfl

omit [FenwickTree F] in
theorem later (opened : Opened set before node after) : set.inner.drop (before.length + 1) = after := by
  rw [opened.nodes, ← List.drop_drop, List.drop_left, List.drop_one, List.tail_cons]

omit [FenwickTree F] in
theorem around_item {low high : List α} {item : α} (opened : Opened set before (low ++ item :: high) after) :
    set.elements = (before.flatten ++ low) ++ item :: (high ++ after.flatten) := by
  rw [opened.elements]
  simp only [List.append_assoc, List.cons_append]

omit [FenwickTree F] in
theorem set_node (opened : Opened set before node after) (other : List α) :
    set.inner.set before.length other = before ++ other :: after := by
  rw [opened.nodes, List.set_append_right _ _ le_rfl, Nat.sub_self, List.set_cons_zero]

omit [FenwickTree F] in
theorem member (opened : Opened set before node after) : node ∈ set.inner := by
  rw [opened.nodes]
  exact List.mem_append_right _ List.mem_cons_self

end Opened

/-- What a location by comparison finds: everything before the position satisfies the comparison,
nothing from it on does, and only the last node is passed as a whole. -/
structure Located (cmp : α → Bool) (set : BTreeSet F α) (before : List (List α)) (low high : List α)
    (after : List (List α)) : Prop extends Opened set before (low ++ high) after where
  lower : ∀ item ∈ before.flatten ++ low, cmp item = true
  upper : ∀ item ∈ high ++ after.flatten, cmp item = false
  final : high = [] → after = []

namespace Located
variable {cmp : α → Bool} {set : BTreeSet F α} {before after : List (List α)} {low high : List α}

omit [FenwickTree F] in
theorem parts (located : Located cmp set before low high after) :
    set.elements = (before.flatten ++ low) ++ (high ++ after.flatten) := by
  rw [located.toOpened.elements]
  simp only [List.append_assoc]

omit [FenwickTree F] in
theorem satisfying (located : Located cmp set before low high after) : set.elements.filter cmp = before.flatten ++ low := by
  rw [located.parts, List.filter_append, List.filter_eq_self.mpr located.lower, List.filter_eq_nil_iff.mpr, List.append_nil]
  intro item member
  simp [located.upper item member]

omit [FenwickTree F] in
theorem failing (located : Located cmp set before low high after) :
    set.elements.filter (fun item => !cmp item) = high ++ after.flatten := by
  rw [located.parts, List.filter_append, List.filter_eq_nil_iff.mpr, List.nil_append, List.filter_eq_self.mpr]
  · intro item member
    simp [located.upper item member]
  · intro item member
    simp [located.lower item member]

omit [FenwickTree F] in
theorem candidate (located : Located cmp set before low high after) :
    ((set.inner[before.length]?).bind fun node => node[low.length]?) = set.elements.find? (fun item => !cmp item) := by
  have first : (high ++ after.flatten).head? = high.head? := by
    cases high with
    | nil => rw [located.final rfl]; rfl
    | cons item rest => rfl
  rw [located.toOpened.get, Option.bind_some, List.getElem?_append_right le_rfl, Nat.sub_self, ← List.head?_filter,
    located.failing, first, List.head?_eq_getElem?]

end Located

section Locate
variable [LawfulFenwickTree F] [LinearOrder κ] [Keyed α κ] {set : BTreeSet F α}

/-- The comparison holds below every element for which it holds. -/
def Descending (cmp : α → Bool) : Prop := ∀ first second : α, key first < key second → cmp second = true → cmp first = true

theorem descending_below [LinearOrder Q] {borrow : κ → Q} (monotone : Monotone borrow) (value : Q) :
    Descending (below borrow value : α → Bool) := by
  intro first second before
  simp only [below, decide_eq_true_eq]
  exact fun smaller => (monotone before.le).trans_lt smaller

def passes (onEmpty : Bool) (cmp : α → Bool) (node : List α) : Bool :=
  match node.getLast? with
  | some max => cmp max
  | none => onEmpty

private theorem passes_of_mem {onEmpty : Bool} {cmp : α → Bool} (descending : Descending cmp) {node : List α}
    (sorted : Node.Sorted node) {item : α} (member : item ∈ node) (passed : passes onEmpty cmp node = true) : cmp item = true := by
  cases top : node.getLast? with
  | none =>
    rw [List.getLast?_eq_none_iff.mp top] at member
    cases member
  | some max =>
    simp only [passes, top] at passed
    rcases lt_or_eq_of_le ((((Node.max_eq_some sorted).mp top).2 item) member) with below | same
    · exact descending item max below passed
    · rwa [sorted.key_unique member ((Node.max_eq_some sorted).mp top).1 same]

private theorem passes_of_item (onEmpty : Bool) (cmp : α → Bool) {node : List α} (filled : node ≠ []) :
    ∃ max, node.getLast? = some max ∧ passes onEmpty cmp node = cmp max := by
  cases top : node.getLast? with
  | none => exact absurd (List.getLast?_eq_none_iff.mp top) filled
  | some max => exact ⟨max, rfl, by simp only [passes, top]⟩

/-- A later node passes only if the earlier ones do. -/
theorem prefixed_passes (valid : Valid set) (onEmpty : Bool) {cmp : α → Bool} (descending : Descending cmp) :
    Prefixed (passes onEmpty cmp) set.inner := by
  rcases valid.filled with empty | filled
  · rw [empty]
    exact List.pairwise_singleton _ _
  have ordered := (List.pairwise_flatten.mp valid.sorted).2
  refine List.Pairwise.imp_of_mem ?_ ordered
  intro first second left right before passed
  obtain ⟨low, lowest, same⟩ := passes_of_item onEmpty cmp (filled first left)
  obtain ⟨high, highest, same'⟩ := passes_of_item onEmpty cmp (filled second right)
  rw [same]
  rw [same'] at passed
  exact descending low high (before low (List.mem_of_getLast? lowest) high (List.mem_of_getLast? highest)) passed

omit [FenwickTree F] [LawfulFenwickTree F] in
/-- The outer search ends at a node, with every earlier one passed and, unless it is the last one,
not passed itself. -/
private theorem locateNodeBy_spec {onEmpty : Bool} {cmp : α → Bool} (nonempty : set.inner ≠ [])
    (prefixed : Prefixed (passes onEmpty cmp) set.inner) :
    ∃ before node after, Opened set before node after ∧ locateNodeBy onEmpty cmp set = before.length ∧
      (∀ earlier ∈ before, passes onEmpty cmp earlier = true) ∧ (after ≠ [] → passes onEmpty cmp node = false) := by
  have position : locateNodeBy onEmpty cmp set =
      if set.inner[partitionPoint (passes onEmpty cmp) set.inner]?.isNone then partitionPoint (passes onEmpty cmp) set.inner - 1
      else partitionPoint (passes onEmpty cmp) set.inner := rfl
  generalize point : partitionPoint (passes onEmpty cmp) set.inner = cut at position
  cases there : set.inner[cut]? with
  | some node =>
    obtain ⟨inside, _⟩ := List.getElem?_eq_some_iff.mp there
    refine ⟨set.inner.take cut, node, set.inner.drop (cut + 1), ⟨split_at there⟩, ?_, ?_, ?_⟩
    · rw [position, there, List.length_take, Nat.min_eq_left inside.le]
      rfl
    · intro earlier member
      exact before_partitionPoint (point ▸ member)
    · intro _
      have member : node ∈ set.inner.drop (partitionPoint (passes onEmpty cmp) set.inner) := by
        rw [point, ← List.getElem_cons_drop inside]
        obtain ⟨_, rfl⟩ := List.getElem?_eq_some_iff.mp there
        exact List.mem_cons_self
      exact after_partitionPoint prefixed member
  | none =>
    -- every node is passed, and the last one is taken
    have beyond := List.getElem?_eq_none_iff.mp there
    obtain ⟨before, node, whole⟩ := List.eq_nil_or_concat set.inner |>.resolve_left nonempty
    rw [List.concat_eq_append] at whole
    have length := congrArg List.length whole
    rw [List.length_append, List.length_singleton] at length
    have bounded : cut ≤ set.inner.length := point ▸ partitionPoint_le
    refine ⟨before, node, [], ⟨whole⟩, ?_, ?_, fun impossible => absurd rfl impossible⟩
    · rw [position, there, Option.isNone_none, if_pos rfl]
      omega
    · intro earlier member
      have stored : earlier ∈ set.inner.take (partitionPoint (passes onEmpty cmp) set.inner) := by
        rw [point, List.take_of_length_le beyond, whole]
        exact List.mem_append_left _ member
      exact before_partitionPoint stored

omit [FenwickTree F] [LawfulFenwickTree F] in
/-- A location on nodes that are in order and partitioned, where the search stops at no empty node
before others. -/
theorem locateValueBy_located {onEmpty : Bool} {cmp : α → Bool} (nonempty : set.inner ≠ []) (sorted : Node.Sorted set.elements)
    (descending : Descending cmp) (prefixed : Prefixed (passes onEmpty cmp) set.inner)
    (filled : ∀ {before node after}, Opened set before node after → after ≠ [] → passes onEmpty cmp node = false → node ≠ []) :
    ∃ before low high after, Located cmp set before low high after ∧ locateNodeBy onEmpty cmp set = before.length ∧
      locateValueBy onEmpty cmp set = some (before.length, low.length) := by
  obtain ⟨before, node, after, opened, position, passed, failed⟩ := locateNodeBy_spec nonempty prefixed
  have inOrder : ∀ other ∈ set.inner, Node.Sorted other := fun other member =>
    sorted.sublist (List.sublist_flatten_of_mem member)
  have prefixed : Prefixed cmp node := List.Pairwise.imp (fun below => descending _ _ below) (inOrder node opened.member)
  have parts : node = node.takeWhile cmp ++ node.dropWhile cmp := List.takeWhile_append_dropWhile.symm
  have high : ∀ item ∈ node.dropWhile cmp, cmp item = false := by
    intro item member
    rw [← drop_partitionPoint] at member
    exact after_partitionPoint prefixed member
  have across := (Node.sorted_append.mp (opened.elements ▸ sorted)).2.1
  -- a node before others has a maximum, which fails the comparison
  have stopped : after ≠ [] → ∃ max, node.getLast? = some max ∧ cmp max = false := by
    intro more
    obtain ⟨max, top, same⟩ := passes_of_item onEmpty cmp (filled opened more (failed more))
    exact ⟨max, top, same ▸ failed more⟩
  refine ⟨before, node.takeWhile cmp, node.dropWhile cmp, after, ⟨⟨parts ▸ opened.nodes⟩, ?_, ?_, ?_⟩, position, ?_⟩
  · intro item member
    rcases List.mem_append.mp member with earlier | low
    · obtain ⟨first, inside, there⟩ := List.mem_flatten.mp earlier
      have stored : first ∈ set.inner := by
        rw [opened.nodes]
        exact List.mem_append_left _ inside
      exact passes_of_mem descending (inOrder first stored) there (passed first inside)
    · exact List.mem_takeWhile_imp low
  · intro item member
    rcases List.mem_append.mp member with here | later
    · exact high item here
    · obtain ⟨max, top, fails⟩ := stopped (fun none => by simp [none] at later)
      have beyond := (Node.sorted_append.mp across).2.2 max (List.mem_of_getLast? top) item later
      exact Bool.eq_false_iff.mpr fun holds => Bool.eq_false_iff.mp fails (descending max item beyond holds)
  · intro all
    by_contra more
    obtain ⟨max, top, fails⟩ := stopped more
    have member := List.mem_of_getLast? top
    rw [parts, all, List.append_nil] at member
    exact Bool.eq_false_iff.mp fails (List.mem_takeWhile_imp member)
  · simp only [locateValueBy, position, opened.get, bind, Option.bind_some, pure]
    rfl

theorem locateValueBy_spec (valid : Valid set) (onEmpty : Bool) {cmp : α → Bool} (descending : Descending cmp) :
    ∃ before low high after, Located cmp set before low high after ∧ locateNodeBy onEmpty cmp set = before.length ∧
      locateValueBy onEmpty cmp set = some (before.length, low.length) := by
  apply locateValueBy_located valid.nonempty valid.sorted descending (prefixed_passes valid onEmpty descending)
  intro before node after opened more _
  rcases valid.filled with empty | filled
  · have length := congrArg List.length (opened.nodes.symm.trans empty)
    have several := List.length_pos_iff.mpr more
    simp only [List.length_append, List.length_cons, List.length_nil] at length
    omega
  · exact filled node opened.member

theorem candidateBy_eq (valid : Valid set) (onEmpty : Bool) {cmp : α → Bool} (descending : Descending cmp) :
    candidateBy onEmpty cmp set = some (set.elements.find? (fun item => !cmp item)) := by
  obtain ⟨before, low, high, after, located, _, found⟩ := locateValueBy_spec valid onEmpty descending
  simp only [candidateBy, found, bind, Option.bind_some, pure]
  exact congrArg some located.candidate

end Locate

/-- The nodes once one of them has lost values: an emptied node goes, unless it is the only one. -/
def shrink (before : List (List α)) (node : List α) (after : List (List α)) : List (List α) :=
  if node = [] ∧ before ++ after ≠ [] then before ++ after else before ++ node :: after

theorem shrink_flatten (before after : List (List α)) (node : List α) :
    (shrink before node after).flatten = before.flatten ++ (node ++ after.flatten) := by
  unfold shrink
  split
  next gone => simp only [gone.1, List.flatten_append, List.nil_append]
  next => simp only [List.flatten_append, List.flatten_cons]

theorem shrink_filled {before after : List (List α)} (node : List α) (filled : ∀ other ∈ before ++ after, other ≠ []) :
    shrink before node after ≠ [] ∧ (shrink before node after = [[]] ∨ ∀ other ∈ shrink before node after, other ≠ []) := by
  unfold shrink
  split
  next gone => exact ⟨gone.2, Or.inr filled⟩
  next stays =>
    refine ⟨by simp, ?_⟩
    by_cases empty : node = []
    · have alone : before ++ after = [] := by
        by_contra more
        exact stays ⟨empty, more⟩
      obtain ⟨rfl, rfl⟩ := List.append_eq_nil_iff.mp alone
      exact Or.inl (by rw [empty]; rfl)
    · apply Or.inr
      intro other member
      rcases List.mem_append.mp member with earlier | later
      · exact filled other (List.mem_append_left _ earlier)
      · rcases List.mem_cons.mp later with rfl | later
        · exact empty
        · exact filled other (List.mem_append_right _ later)

section Delete
variable [LawfulFenwickTree F] [LinearOrder κ] [Keyed α κ] {set : BTreeSet F α} {before after : List (List α)}
  {low high node : List α} {item : α}

theorem slots_reindex (inner : List (List α)) : slots (reindex inner : F) = inner.map List.length :=
  LawfulFenwickTree.slots_fromIter _

theorem Valid.around (valid : Valid set) (opened : Opened set before node after) :
    ∀ other ∈ before ++ after, other ≠ [] := by
  rcases valid.filled with empty | filled
  · have only := opened.nodes.symm.trans empty
    have length := congrArg List.length only
    simp only [List.length_append, List.length_cons, List.length_nil] at length
    have none : before = [] ∧ after = [] := ⟨List.length_eq_zero_iff.mp (by omega), List.length_eq_zero_iff.mp (by omega)⟩
    simp [none]
  · intro other member
    apply filled other
    rw [opened.nodes]
    rcases List.mem_append.mp member with earlier | later
    · exact List.mem_append_left _ earlier
    · exact List.mem_append_right _ (List.mem_cons_of_mem _ later)

private theorem valid_of_nodes (valid : Valid set) (opened : Opened set before node after) {middle : List (List α)}
    {index : F} {len : Nat}
    (some : middle ≠ []) (filled : ∀ other ∈ middle, other ≠ [])
    (sorted : Node.Sorted (before.flatten ++ (middle.flatten ++ after.flatten)))
    (counted : len = (before.flatten ++ (middle.flatten ++ after.flatten)).length)
    (indexed : slots index = (before ++ middle ++ after).map List.length) :
    Valid { set with inner := before ++ middle ++ after, index, len } := by
  have parts : (before ++ middle ++ after).flatten = before.flatten ++ (middle.flatten ++ after.flatten) := by
    simp only [List.flatten_append, List.append_assoc]
  have around := valid.around opened
  refine ⟨by simp [some], Or.inr ?_, ?_, ?_, indexed, valid.room⟩
  · intro other member
    rcases List.mem_append.mp member with early | later
    · rcases List.mem_append.mp early with earlier | here
      · exact around other (List.mem_append_left _ earlier)
      · exact filled other here
    · exact around other (List.mem_append_right _ later)
  · rw [BTreeSet.elements, parts]
    exact sorted
  · rw [BTreeSet.elements, parts]
    exact counted

omit [FenwickTree F] [LawfulFenwickTree F] [LinearOrder κ] [Keyed α κ] in
theorem opened_at {nodeIdx position : Nat} (there : set.inner[nodeIdx]? = some node) (stored : node[position]? = some item) :
    Opened set (set.inner.take nodeIdx) (node.take position ++ item :: node.drop (position + 1)) (set.inner.drop (nodeIdx + 1)) :=
  ⟨(split_at stored) ▸ split_at there⟩

structure Lost (set : BTreeSet F α) (before : List (List α)) (rest : List α) (after : List (List α))
    (left : BTreeSet F α) : Prop where
  valid : Valid left
  inner : left.inner = shrink before rest after
  nodeCapacity : left.nodeCapacity = set.nodeCapacity

theorem Lost.elements {rest : List α} {left : BTreeSet F α} (lost : Lost set before rest after left) :
    left.elements = before.flatten ++ (rest ++ after.flatten) := by
  rw [BTreeSet.elements, lost.inner, shrink_flatten]

/-- The nodes and the counters after a deletion, whatever the nodes hold. -/
structure Deleted (set : BTreeSet F α) (before : List (List α)) (low : List α) (item : α) (high : List α)
    (after : List (List α)) (left : BTreeSet F α) : Prop extends Opened set before (low ++ item :: high) after where
  inner : left.inner = shrink before (low ++ high) after
  len : left.len = set.len - 1
  nodeCapacity : left.nodeCapacity = set.nodeCapacity
  index : left.index = reindex left.inner ∨
    left.inner = before ++ (low ++ high) :: after ∧ left.index = FenwickTree.subAt set.index before.length 1

omit [LawfulFenwickTree F] [LinearOrder κ] [Keyed α κ] in
theorem deleteAt_deleted (opened : Opened set before (low ++ item :: high) after) :
    ∃ left, deleteAt before.length low.length set = some (item, left) ∧ Deleted set before low item high after left := by
  have stored : (low ++ item :: high)[low.length]? = some item := by simp
  have erased : (low ++ item :: high).eraseIdx low.length = low ++ high := by
    rw [List.eraseIdx_append_of_length_le le_rfl, Nat.sub_self]
    rfl
  have only : 1 < (before ++ (low ++ high) :: after).length ↔ before ++ after ≠ [] := by
    rw [← List.length_pos_iff]
    simp only [List.length_append, List.length_cons]
    omega
  simp only [deleteAt, opened.get, stored, erased, opened.set_node, only, bind, Option.bind_some, pure]
  split
  next gone =>
    have nodes : (before ++ (low ++ high) :: after).eraseIdx before.length = shrink before (low ++ high) after := by
      rw [shrink, if_pos gone, List.eraseIdx_append_of_length_le le_rfl, Nat.sub_self]
      rfl
    exact ⟨_, rfl, opened, nodes, rfl, rfl, Or.inl rfl⟩
  next stays =>
    have nodes : before ++ (low ++ high) :: after = shrink before (low ++ high) after := by
      rw [shrink, if_neg stays]
    exact ⟨_, rfl, opened, nodes, rfl, rfl, Or.inr ⟨rfl, rfl⟩⟩

omit [LawfulFenwickTree F] [LinearOrder κ] [Keyed α κ] in
theorem deleteAt_inv {nodeIdx positionWithinNode : Nat} {left : BTreeSet F α}
    (ran : deleteAt nodeIdx positionWithinNode set = some (item, left)) :
    ∃ before low high after, Deleted set before low item high after left := by
  simp only [deleteAt, bind] at ran
  obtain ⟨node, there, rest⟩ := Option.bind_eq_some_iff.mp ran
  obtain ⟨found, stored, _⟩ := Option.bind_eq_some_iff.mp rest
  obtain ⟨_, deleted, lost⟩ := deleteAt_deleted (opened_at there stored)
  rw [List.length_take_of_le (List.getElem?_eq_some_iff.mp there).1.le,
    List.length_take_of_le (List.getElem?_eq_some_iff.mp stored).1.le] at deleted
  cases ran.symm.trans deleted
  exact ⟨_, _, _, _, lost⟩

omit [LinearOrder κ] [Keyed α κ] in
theorem Deleted.consistent {left : BTreeSet F α} (deleted : Deleted set before low item high after left)
    (consistent : Consistent set) : Consistent left := by
  have opened := deleted.toOpened
  have nonempty : left.inner ≠ [] := by
    rw [deleted.inner, shrink]
    split
    next gone => exact gone.2
    next => simp
  have elements : left.elements = before.flatten ++ (low ++ high ++ after.flatten) := by
    rw [BTreeSet.elements, deleted.inner, shrink_flatten]
  refine ⟨nonempty, ?_, ?_⟩
  · rw [deleted.len, consistent.counted, opened.elements, elements]
    simp only [List.length_append, List.length_cons]
    omega
  · rcases deleted.index with reindexed | ⟨nodes, subtracted⟩
    · rw [reindexed, slots_reindex]
    · have slot : (slots set.index)[before.length]? = some (low ++ item :: high).length := by
        rw [consistent.indexed, List.getElem?_map, opened.get]
        rfl
      have positive : 1 ≤ (low ++ item :: high).length := List.length_pos_iff.mpr (by simp)
      have fewer : (low ++ item :: high).length - 1 = (low ++ high).length := by simp
      rw [subtracted, LawfulFenwickTree.slots_subAt _ _ _ _ slot positive, consistent.indexed, nodes, fewer, ← List.map_set,
        opened.set_node]

theorem deleteAt_spec (valid : Valid set) (opened : Opened set before (low ++ item :: high) after) :
    ∃ left, deleteAt before.length low.length set = some (item, left) ∧ Lost set before (low ++ high) after left := by
  obtain ⟨left, ran, deleted⟩ := deleteAt_deleted opened
  obtain ⟨nonempty, counted, indexed⟩ := deleted.consistent valid.consistent
  obtain ⟨_, filled⟩ := shrink_filled (low ++ high) (valid.around opened)
  have sorted : Node.Sorted (before.flatten ++ (low ++ high ++ after.flatten)) := by
    apply valid.sorted.sublist
    rw [opened.elements]
    simp
  refine ⟨left, ran, ⟨nonempty, ?_, ?_, counted, indexed, ?_⟩, deleted.inner, deleted.nodeCapacity⟩
  · rw [deleted.inner]
    exact filled
  · rw [BTreeSet.elements, deleted.inner, shrink_flatten]
    exact sorted
  · rw [deleted.nodeCapacity]
    exact valid.room

theorem refAt_spec (valid : Valid set) (opened : Opened set before (low ++ item :: high) after) :
    ∃ ref, refAt before.length low.length set = some ref ∧ ref.current = item ∧
      ∀ value, key value = key item → Valid (ref.write value) ∧ Opened (ref.write value) before (low ++ value :: high) after ∧
        (ref.write value).nodeCapacity = set.nodeCapacity := by
  have stored : (low ++ item :: high)[low.length]? = some item := by simp
  simp only [refAt, opened.get, stored, bind, Option.bind_some, pure]
  refine ⟨_, rfl, rfl, fun value same => ?_⟩
  have nodes : (low ++ item :: high).set low.length value = low ++ value :: high := by
    rw [List.set_append_right _ _ le_rfl, Nat.sub_self, List.set_cons_zero]
  have keys : Node.Sorted (before.flatten ++ ([low ++ value :: high].flatten ++ after.flatten)) := by
    have sorted := valid.sorted
    rw [opened.elements] at sorted
    apply List.pairwise_map.mp
    simpa [same] using List.pairwise_map.mpr sorted
  simp only [opened.set_node, nodes, and_true]
  refine ⟨?_, ⟨rfl⟩⟩
  have written : before ++ (low ++ value :: high) :: after = before ++ [low ++ value :: high] ++ after := by simp
  rw [written]
  apply valid_of_nodes valid opened (by simp) (by simp) keys
  · rw [valid.counted, opened.elements]
    simp
  · rw [valid.indexed, opened.nodes]
    simp

end Delete

section Insert
variable [LawfulFenwickTree F] [LinearOrder κ] [Keyed α κ] {set : BTreeSet F α} {before after : List (List α)}
  {node : List α} {value : α}

/-- What becomes of the node that takes a value. -/
inductive Takes (nodeCapacity : Nat) (node : List α) (value : α) : Bool → List (List α) → Prop where
  | spare (room : node.length ≠ nodeCapacity) :
      Takes nodeCapacity node value (Node.insert node value).1 [(Node.insert node value).2.2]
  | left {first : α} (full : node.length = nodeCapacity) (there : (Node.halve node).2[0]? = some first)
      (below : key value < key first) : Takes nodeCapacity node value (Node.insert (Node.halve node).1 value).1
        [(Node.insert (Node.halve node).1 value).2.2, (Node.halve node).2]
  | right {first : α} (full : node.length = nodeCapacity) (there : (Node.halve node).2[0]? = some first)
      (reached : key first ≤ key value) : Takes nodeCapacity node value (Node.insert (Node.halve node).2 value).1
        [(Node.halve node).1, (Node.insert (Node.halve node).2 value).2.2]

theorem Takes.length {nodeCapacity : Nat} {inserted : Bool} {middle : List (List α)}
    (takes : Takes nodeCapacity node value inserted middle) : middle.flatten.length = node.length + inserted.toNat := by
  have halves := congrArg List.length (Node.halve_append node)
  rw [List.length_append] at halves
  cases takes with
  | spare room => simp [Node.insert_length]
  | left full there below =>
    simp only [List.flatten_cons, List.flatten_nil, List.append_nil, List.length_append, Node.insert_length]
    omega
  | right full there reached =>
    simp only [List.flatten_cons, List.flatten_nil, List.append_nil, List.length_append, Node.insert_length]
    omega

structure Inserted (set : BTreeSet F α) (before : List (List α)) (node : List α) (after : List (List α)) (value : α)
    (inserted : Bool) (grown : BTreeSet F α) : Prop extends Opened set before node after where
  takes : ∃ middle, Takes set.nodeCapacity node value inserted middle ∧ grown.inner = before ++ middle ++ after
  len : grown.len = set.len + inserted.toNat
  nodeCapacity : grown.nodeCapacity = set.nodeCapacity
  index : grown.index = reindex grown.inner ∨
    (∃ taken, grown.inner = before ++ taken :: after ∧ taken.length = node.length + inserted.toNat) ∧
      grown.index = if inserted then FenwickTree.addAt set.index before.length 1 else set.index

omit [FenwickTree F] [LawfulFenwickTree F] [LinearOrder κ] [Keyed α κ] in
private theorem Opened.halved (opened : Opened set before node after) (left right : List α) :
    (set.inner.set before.length left).insertIdx (before.length + 1) right = before ++ left :: right :: after := by
  have length : before.length + 1 = (before ++ [left]).length := by simp
  rw [opened.set_node, length, List.append_cons, insertIdx_middle, List.append_assoc]
  rfl

omit [LawfulFenwickTree F] in
/-- A full node is cut before the value goes into one of its halves. -/
private theorem insertAt_halves (opened : Opened set before node after) (full : node.length = set.nodeCapacity)
    (filled : node ≠ []) (value : α) :
    ∃ inserted grown, insertAt before.length value set = some (inserted, grown) ∧
      Inserted set before node after value inserted grown := by
  obtain ⟨first, rest, whole⟩ := List.exists_cons_of_ne_nil (Node.halve_right_ne_nil filled)
  have atFirst : (Node.halve node).2[0]? = some first := by rw [whole]; rfl
  have kept : ∀ (middle : List (List α)) (inserted : Bool), Takes set.nodeCapacity node value inserted middle →
      ∃ grown, (if inserted then
          some (true, { set with
            inner := before ++ middle ++ after, index := reindex (before ++ middle ++ after), len := set.len + 1 })
        else some (false, { set with inner := before ++ middle ++ after, index := reindex (before ++ middle ++ after) })) =
          some (inserted, grown) ∧ Inserted set before node after value inserted grown := by
    intro middle inserted takes
    cases inserted with
    | true => exact ⟨_, rfl, opened, ⟨middle, takes, rfl⟩, rfl, rfl, Or.inl rfl⟩
    | false => exact ⟨_, rfl, opened, ⟨middle, takes, rfl⟩, rfl, rfl, Or.inl rfl⟩
  simp only [insertAt, opened.get, if_pos full, opened.halved, atFirst, bind, Option.bind_some, pure]
  by_cases reached : key first ≤ key value
  · have target : (before ++ (Node.halve node).1 :: (Node.halve node).2 :: after)[before.length + 1]? =
        some (Node.halve node).2 := by
      rw [List.getElem?_append_right (Nat.le_succ _)]
      simp
    have written : ∀ taken, (before ++ (Node.halve node).1 :: (Node.halve node).2 :: after).set (before.length + 1) taken =
        before ++ [(Node.halve node).1, taken] ++ after := by
      intro taken
      rw [List.set_append_right _ _ (Nat.le_succ _)]
      simp
    simp only [if_pos reached, target, Option.bind_some, written]
    exact ⟨_, kept _ _ (.right full atFirst reached)⟩
  · have target : (before ++ (Node.halve node).1 :: (Node.halve node).2 :: after)[before.length]? = some (Node.halve node).1 := by
      rw [List.getElem?_append_right le_rfl]
      simp
    have written : ∀ taken, (before ++ (Node.halve node).1 :: (Node.halve node).2 :: after).set before.length taken =
        before ++ [taken, (Node.halve node).2] ++ after := by
      intro taken
      rw [List.set_append_right _ _ le_rfl]
      simp
    simp only [if_neg reached, target, Option.bind_some, written]
    exact ⟨_, kept _ _ (.left full atFirst (not_le.mp reached))⟩

omit [LawfulFenwickTree F] in
private theorem insertAt_spare (opened : Opened set before node after) (room : node.length ≠ set.nodeCapacity) (value : α) :
    ∃ inserted grown, insertAt before.length value set = some (inserted, grown) ∧
      Inserted set before node after value inserted grown := by
  have spare : Takes set.nodeCapacity node value _ _ := .spare room
  have length := Node.insert_length node value
  have nodes : before ++ (Node.insert node value).2.2 :: after = before ++ [(Node.insert node value).2.2] ++ after := by simp
  simp only [insertAt, opened.get, if_neg room, opened.set_node, bind, Option.bind_some, pure]
  cases fresh : (Node.insert node value).1 with
  | true =>
    rw [fresh] at spare length
    exact ⟨true, _, rfl, opened, ⟨_, spare, nodes⟩, rfl, rfl, Or.inr ⟨⟨_, rfl, length⟩, rfl⟩⟩
  | false =>
    rw [fresh] at spare length
    exact ⟨false, _, rfl, opened, ⟨_, spare, nodes⟩, rfl, rfl, Or.inr ⟨⟨_, rfl, length⟩, rfl⟩⟩

omit [LawfulFenwickTree F] in
/-- Only an empty node that is full cannot be cut. -/
theorem insertAt_inserted (opened : Opened set before node after) (cut : node.length = set.nodeCapacity → node ≠ [])
    (value : α) : ∃ inserted grown, insertAt before.length value set = some (inserted, grown) ∧
      Inserted set before node after value inserted grown := by
  by_cases full : node.length = set.nodeCapacity
  · exact insertAt_halves opened full (cut full) value
  · exact insertAt_spare opened full value

omit [LawfulFenwickTree F] in
theorem insertAt_inv {nodeIdx : Nat} {inserted : Bool} {grown : BTreeSet F α}
    (ran : insertAt nodeIdx value set = some (inserted, grown)) :
    ∃ before node after, Inserted set before node after value inserted grown := by
  have same := ran
  simp only [insertAt, bind] at same
  obtain ⟨node, there, rest⟩ := Option.bind_eq_some_iff.mp same
  have opened : Opened set (set.inner.take nodeIdx) node (set.inner.drop (nodeIdx + 1)) := ⟨split_at there⟩
  have cut : node.length = set.nodeCapacity → node ≠ [] := by
    rintro full rfl
    rw [if_pos full] at rest
    simp [Node.halve] at rest
  obtain ⟨_, _, stored, gained⟩ := insertAt_inserted opened cut value
  rw [List.length_take_of_le (List.getElem?_eq_some_iff.mp there).1.le] at stored
  cases ran.symm.trans stored
  exact ⟨_, _, _, gained⟩

theorem Inserted.consistent {inserted : Bool} {grown : BTreeSet F α}
    (gained : Inserted set before node after value inserted grown) (consistent : Consistent set) : Consistent grown := by
  have opened := gained.toOpened
  obtain ⟨middle, takes, inner⟩ := gained.takes
  have length := takes.length
  refine ⟨?_, ?_, ?_⟩
  · rw [inner]
    cases takes <;> simp
  · rw [gained.len, consistent.counted, opened.elements, elements, inner]
    simp only [List.flatten_append, List.length_append, length]
    omega
  · rcases gained.index with reindexed | ⟨⟨taken, nodes, size⟩, counted⟩
    · rw [reindexed, slots_reindex]
    · have slot : (slots set.index)[before.length]? = some node.length := by
        rw [consistent.indexed, List.getElem?_map, opened.get]
        rfl
      have written : (set.inner.map List.length).set before.length (node.length + inserted.toNat) =
          grown.inner.map List.length := by
        rw [nodes, ← size, ← List.map_set, opened.set_node]
      rw [counted, ← written, ← consistent.indexed]
      cases inserted with
      | true => exact LawfulFenwickTree.slots_addAt _ _ _ _ slot
      | false =>
        obtain ⟨inside, there⟩ := List.getElem?_eq_some_iff.mp slot
        have same := List.set_getElem_self inside
        rw [there] at same
        exact same.symm

structure Gained (set : BTreeSet F α) (value : α) (inserted : Bool) (grown : BTreeSet F α) : Prop where
  valid : Valid grown
  nodeCapacity : grown.nodeCapacity = set.nodeCapacity
  fresh : inserted = true → (∀ item ∈ set.elements, key item ≠ key value) ∧ Node.Upserted set.elements value grown.elements
  known : inserted = false → (∃ item ∈ set.elements, key item = key value) ∧ grown.elements = set.elements

private def Took (node : List α) (value : α) (inserted : Bool) (values : List α) : Prop :=
  values.length = node.length + inserted.toNat ∧
    (inserted = true → (∀ item ∈ node, key item ≠ key value) ∧ Node.Upserted node value values) ∧
    (inserted = false → (∃ item ∈ node, key item = key value) ∧ values = node)

private theorem Took.append_left {left right values : List α} {inserted : Bool} (took : Took right value inserted values)
    (sorted : Node.Sorted (left ++ right)) (above : ∀ item ∈ left, key item < key value) :
    Took (left ++ right) value inserted (left ++ values) := by
  obtain ⟨length, fresh, known⟩ := took
  refine ⟨by simp only [List.length_append, length]; omega, fun new =>
    ⟨?_, (fresh new).2.append_left sorted above⟩, fun old => ⟨?_, ?_⟩⟩
  · intro item member
    rcases List.mem_append.mp member with before | here
    · exact (above item before).ne
    · exact (fresh new).1 item here
  · obtain ⟨item, member, same⟩ := (known old).1
    exact ⟨item, List.mem_append_right _ member, same⟩
  · rw [(known old).2]

private theorem Took.append_right {left right values : List α} {inserted : Bool} (took : Took left value inserted values)
    (sorted : Node.Sorted (left ++ right)) (below : ∀ item ∈ right, key value < key item) :
    Took (left ++ right) value inserted (values ++ right) := by
  obtain ⟨length, fresh, known⟩ := took
  refine ⟨by simp only [List.length_append, length]; omega, fun new =>
    ⟨?_, (fresh new).2.append_right sorted below⟩, fun old => ⟨?_, ?_⟩⟩
  · intro item member
    rcases List.mem_append.mp member with here | after
    · exact (fresh new).1 item here
    · exact (below item after).ne'
  · obtain ⟨item, member, same⟩ := (known old).1
    exact ⟨item, List.mem_append_left _ member, same⟩
  · rw [(known old).2]

private theorem insert_took (sorted : Node.Sorted node) (value : α) :
    (Node.insert node value).2.2 ≠ [] ∧ Took node value (Node.insert node value).1 (Node.insert node value).2.2 := by
  rcases Node.insert_cases sorted value with ⟨index, ran, gap⟩ | ⟨index, old, ran, there, same⟩
  · rw [ran]
    refine ⟨List.ne_nil_of_mem ((gap.mem value).mpr (Or.inl rfl)), List.length_insertIdx_of_le_length gap.inside _,
      fun _ => ⟨gap.absent, gap.upserted sorted⟩, nofun⟩
  · have member := List.mem_of_getElem? there
    rw [ran]
    exact ⟨List.ne_nil_of_mem member, rfl, nofun, fun _ => ⟨⟨old, member, same⟩, rfl⟩⟩

private theorem Takes.took {nodeCapacity : Nat} {inserted : Bool} {middle : List (List α)}
    (takes : Takes nodeCapacity node value inserted middle) (sorted : Node.Sorted node) (room : 2 ≤ nodeCapacity) :
    (∀ other ∈ middle, other ≠ []) ∧ Took node value inserted middle.flatten := by
  cases takes with
  | spare room =>
    obtain ⟨filled, took⟩ := insert_took sorted value
    simpa using ⟨filled, took⟩
  | @left first full there below =>
    have halves := sorted
    rw [← Node.halve_append node] at halves
    obtain ⟨leftSorted, rightSorted, _⟩ := Node.sorted_append.mp halves
    obtain ⟨rest, whole⟩ : ∃ rest, (Node.halve node).2 = first :: rest := ⟨_, split_at there⟩
    have above : ∀ item ∈ (Node.halve node).2, key value < key item := by
      intro item member
      rw [whole] at member rightSorted
      rcases List.mem_cons.mp member with rfl | later
      · exact below
      · exact below.trans (List.rel_of_pairwise_cons rightSorted later)
    obtain ⟨filled, took⟩ := insert_took leftSorted value
    have both := took.append_right halves above
    rw [Node.halve_append] at both
    refine ⟨?_, by simpa using both⟩
    simp [filled, whole]
  | @right first full there reached =>
    have halves := sorted
    rw [← Node.halve_append node] at halves
    obtain ⟨leftSorted, rightSorted, across⟩ := Node.sorted_append.mp halves
    have below : ∀ item ∈ (Node.halve node).1, key item < key value := by
      intro item member
      exact (across item member first (List.mem_of_getElem? there)).trans_le reached
    obtain ⟨filled, took⟩ := insert_took rightSorted value
    have both := took.append_left halves below
    rw [Node.halve_append] at both
    have leftFilled : (Node.halve node).1 ≠ [] := by
      apply List.length_pos_iff.mp
      simp only [Node.halve, List.length_take]
      omega
    refine ⟨?_, by simpa using both⟩
    simp [filled, leftFilled]

theorem insertAt_spec (valid : Valid set) (opened : Opened set before node after)
    (lower : ∀ item ∈ before.flatten, key item < key value) (upper : ∀ item ∈ after.flatten, key value < key item) :
    ∃ inserted grown, insertAt before.length value set = some (inserted, grown) ∧ Gained set value inserted grown := by
  have cut : node.length = set.nodeCapacity → node ≠ [] := by
    rintro full rfl
    have room := valid.room
    simp only [List.length_nil] at full
    omega
  obtain ⟨inserted, grown, ran, stored⟩ := insertAt_inserted opened cut value
  obtain ⟨nonempty, counted, indexed⟩ := stored.consistent valid.consistent
  obtain ⟨middle, takes, inner⟩ := stored.takes
  obtain ⟨filled, took⟩ := takes.took (valid.node_sorted opened.member) valid.room
  have around := valid.around opened
  have parts : grown.elements = before.flatten ++ (middle.flatten ++ after.flatten) := by
    rw [elements, inner]
    simp only [List.flatten_append, List.append_assoc]
  have sorted := valid.sorted
  rw [opened.elements] at sorted
  obtain ⟨_, fresh, known⟩ := (took.append_right (Node.sorted_append.mp sorted).2.1 upper).append_left sorted lower
  rw [← opened.elements, ← parts] at fresh known
  refine ⟨inserted, grown, ran, ⟨nonempty, Or.inr ?_, ?_, counted, indexed, ?_⟩, stored.nodeCapacity, fresh, known⟩
  · intro other member
    rw [inner] at member
    rcases List.mem_append.mp member with early | later
    · rcases List.mem_append.mp early with earlier | here
      · exact around other (List.mem_append_left _ earlier)
      · exact filled other here
    · exact around other (List.mem_append_right _ later)
  · cases inserted with
    | true => exact (fresh rfl).2.sorted
    | false =>
      rw [(known rfl).2]
      exact valid.sorted
  · rw [stored.nodeCapacity]
    exact valid.room

end Insert
end WorkTablesIndex.Indexset.BTreeSet
