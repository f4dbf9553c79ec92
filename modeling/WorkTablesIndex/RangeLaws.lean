import WorkTablesIndex.QuietIter
import WorkTablesIndex.Range

/-! Range scans over a set that nobody changes. The sentinels of a range separate the
values inside its bounds from those outside. -/

universe u v w

namespace WorkTablesIndex
open SortedMap

variable {α : Type u} {κ : Type v} {Q : Type w} [LinearOrder κ] [Keyed α κ] [LinearOrder Q]

namespace Bound
variable {borrow : κ → Q} {first second : κ}

omit [Keyed α κ] in
theorem admits_mono (monotone : Monotone borrow) (start : Bound Q) (before : first ≤ second)
    (admits : start.admits borrow first = true) : start.admits borrow second = true := by
  cases start with
  | included value =>
    have reached : value ≤ borrow first := by simpa [Bound.admits] using admits
    simpa [Bound.admits] using reached.trans (monotone before)
  | excluded value =>
    have passed : value < borrow first := by simpa [Bound.admits] using admits
    simpa [Bound.admits] using passed.trans_le (monotone before)
  | unbounded => rfl

theorem permits_mono (monotone : Monotone borrow) (last : Bound Q) (before : first ≤ second)
    (permits : last.permits borrow second = true) : last.permits borrow first = true := by
  cases last with
  | included value => simpa [Bound.permits] using (monotone before).trans (by simpa [Bound.permits] using permits)
  | excluded value => simpa [Bound.permits] using (monotone before).trans_lt (by simpa [Bound.permits] using permits)
  | unbounded => rfl

end Bound

namespace Node
variable {node : List α} {borrow : κ → Q}

theorem min_eq_some (sorted : Sorted node) {value : α} :
    min node = some value ↔ value ∈ node ∧ ∀ item ∈ node, key value ≤ key item := by
  cases node with
  | nil => simp [min]
  | cons first rest =>
    obtain ⟨below, _⟩ := List.pairwise_cons.mp sorted
    simp only [min, List.head?_cons, Option.some.injEq]
    constructor
    · rintro rfl
      refine ⟨List.mem_cons_self, fun item member => ?_⟩
      rcases List.mem_cons.mp member with rfl | later
      · exact le_rfl
      · exact (below item later).le
    · intro given
      obtain ⟨member, least⟩ := given
      rcases List.mem_cons.mp member with rfl | later
      · rfl
      · exact absurd (below value later) (least first List.mem_cons_self).not_gt

omit [LinearOrder κ] in
private theorem rank_skips {bound : Bound Q} {fromStart : Bool} {count : Nat}
    (skips : ((rank borrow node bound fromStart).map (· + 1)).getD 0 = count) :
    (∃ position, rank borrow node bound fromStart = some position ∧ position + 1 = count) ∨
      rank borrow node bound fromStart = none ∧ count = 0 := by
  cases found : rank borrow node bound fromStart with
  | none => exact Or.inr ⟨rfl, by rw [← skips, found]; rfl⟩
  | some position => exact Or.inl ⟨position, rfl, by rw [← skips, found]; rfl⟩

theorem Sorted.prefixed_start (sorted : Sorted node) (monotone : Monotone borrow) (start : Bound Q) :
    Slice.Prefixed (fun item => !start.admits borrow (key item)) node := by
  apply sorted.imp
  intro first second below outside
  rw [Bool.not_eq_true'] at outside ⊢
  exact Bool.eq_false_iff.mpr fun admitted => (Bool.eq_false_iff.mp outside) (Bound.admits_mono monotone start below.le admitted)

theorem Sorted.prefixed_end (sorted : Sorted node) (monotone : Monotone borrow) (last : Bound Q) :
    Slice.Prefixed (fun item => last.permits borrow (key item)) node :=
  sorted.imp fun below inside => Bound.permits_mono monotone last below.le inside

omit [LinearOrder κ] in
theorem rank_start (start : Bound Q) : ((rank borrow node start true).map (· + 1)).getD 0 =
    Slice.partitionPoint (fun item => !start.admits borrow (key item)) node := by
  cases start with
  | included value => simpa only [Bound.admits, ← decide_not, not_le] using rank_included_start value
  | excluded value => simpa only [Bound.admits, ← decide_not, not_lt] using rank_excluded_start value
  | unbounded => cases node <;> rfl

theorem rank_start_cases (sorted : Sorted node) (monotone : Monotone borrow) (start : Bound Q) :
    (∃ position value, rank borrow node start true = some position ∧ node[position]? = some value ∧
      value ∈ node ∧ start.admits borrow (key value) = false ∧
      ∀ item ∈ node, start.admits borrow (key item) = false → key item ≤ key value) ∨
    rank borrow node start true = none ∧ ∀ item ∈ node, start.admits borrow (key item) = true := by
  have prefixed := sorted.prefixed_start monotone start
  have skips : ((rank borrow node start true).map (· + 1)).getD 0 =
      Slice.partitionPoint (fun item => !start.admits borrow (key item)) node := rank_start start
  have skipped := Slice.take_eq_filter prefixed
  rcases rank_skips skips with ⟨position, found, count⟩ | ⟨missing, count⟩
  · have inside : position < node.length := by
      have bound : Slice.partitionPoint (fun item => !start.admits borrow (key item)) node ≤ node.length := Slice.partitionPoint_le
      omega
    rw [← count, List.take_add_one, List.getElem?_eq_getElem inside, Option.toList_some] at skipped
    have top : max (node.filter fun item => !start.admits borrow (key item)) = some node[position] := by
      rw [← skipped, max, List.getLast?_concat]
    obtain ⟨member, greatest⟩ := (max_eq_some (sorted.sublist List.filter_sublist)).mp top
    obtain ⟨present, outside⟩ := List.mem_filter.mp member
    refine Or.inl ⟨position, node[position], found, List.getElem?_eq_getElem inside, present, by simpa using outside,
      fun item there denied => ?_⟩
    exact greatest item (List.mem_filter.mpr ⟨there, by simpa using denied⟩)
  · refine Or.inr ⟨missing, fun item member => ?_⟩
    rw [count, List.take_zero, eq_comm, List.filter_eq_nil_iff] at skipped
    simpa using skipped item member

theorem rank_end_cases (sorted : Sorted node) (monotone : Monotone borrow) (last : Bound Q) :
    (∃ position value, rank borrow node last false = some position ∧ node.reverse[position]? = some value ∧
      value ∈ node ∧ last.permits borrow (key value) = false ∧
      ∀ item ∈ node, last.permits borrow (key item) = false → key value ≤ key item) ∨
    rank borrow node last false = none ∧ ∀ item ∈ node, last.permits borrow (key item) = true := by
  have prefixed := sorted.prefixed_end monotone last
  have skips : ((rank borrow node last false).map (· + 1)).getD 0 =
      node.length - Slice.partitionPoint (fun item => last.permits borrow (key item)) node := by
    cases last with
    | included value => exact rank_included_end value
    | excluded value => exact rank_excluded_end value
    | unbounded =>
      have all : Slice.partitionPoint (fun item => (Bound.unbounded : Bound Q).permits borrow (key item)) node = node.length :=
        congrArg List.length (List.takeWhile_eq_self_iff.mpr fun _ _ => rfl)
      rw [all, Nat.sub_self]
      rfl
  have bound : Slice.partitionPoint (fun item => last.permits borrow (key item)) node ≤ node.length := Slice.partitionPoint_le
  have kept := Slice.drop_eq_filter prefixed
  rcases rank_skips skips with ⟨position, found, count⟩ | ⟨missing, count⟩
  · have inside : position < node.length := by omega
    have place : node.length - 1 - position = Slice.partitionPoint (fun item => last.permits borrow (key item)) node := by omega
    obtain ⟨value, there⟩ : ∃ value, node.reverse[position]? = some value :=
      ⟨_, List.getElem?_eq_getElem (by simpa using inside)⟩
    have bottom : min (node.filter fun item => !last.permits borrow (key item)) = some value := by
      rw [← kept, min, List.head?_drop, ← place, ← List.getElem?_reverse inside, there]
    obtain ⟨member, least⟩ := (min_eq_some (sorted.sublist List.filter_sublist)).mp bottom
    obtain ⟨present, outside⟩ := List.mem_filter.mp member
    refine Or.inl ⟨position, value, found, there, present, by simpa using outside, fun item held denied => ?_⟩
    exact least item (List.mem_filter.mpr ⟨held, by simpa using denied⟩)
  · refine Or.inr ⟨missing, fun item member => ?_⟩
    rw [List.drop_of_length_le (by omega), eq_comm, List.filter_eq_nil_iff] at kept
    simpa using kept item member

end Node

/-- The outermost stored value outside a range, seen along `r` from outside; `none` when
every stored value is inside. -/
def Sentinel (r : κ → κ → Prop) (layout : Layout α κ) (inside : κ → Prop) : Option α → Prop
  | none => ∀ item, layout.Stored item → inside (key item)
  | some value => layout.Stored value ∧ ¬ inside (key value) ∧
      ∀ item, layout.Stored item → ¬ inside (key item) → ¬ r (key value) (key item)

omit [LinearOrder Q] in
theorem Sentinel.past_iff {r : κ → κ → Prop} [IsStrictTotalOrder κ r] {layout : Layout α κ} {inside : κ → Prop} {sentinel : Option α}
    (bounds : Sentinel r layout inside sentinel) (closed : ∀ first second, r first second → inside first → inside second)
    {item : α} (stored : layout.Stored item) : Past r sentinel (key item) ↔ inside (key item) := by
  cases sentinel with
  | none => exact ⟨fun _ => bounds item stored, fun _ _ impossible => by cases impossible⟩
  | some value =>
    obtain ⟨_, outside, outermost⟩ := bounds
    refine ⟨fun past => ?_, fun held last same => ?_⟩
    · by_contra denied
      exact outermost item stored denied (past value rfl)
    · cases same
      rcases trichotomous_of r (key value) (key item) with before | equal | after
      · exact before
      · exact absurd (equal ▸ held) outside
      · exact absurd (closed _ _ after held) outside

namespace Range
variable {set : BTreeSet α κ} {borrow : κ → Q}

/-- The front sentinel, once some node reaches into the range. -/
theorem frontValue_sentinel (tidy : set.Tidy) (monotone : Monotone borrow) (start : Bound Q) {entry : κ × NodeId}
    (found : firstForBorrowedBound borrow set.index.index start = some entry) :
    Sentinel (· < ·) set.layout (fun wanted => start.admits borrow wanted = true) (frontValue borrow start set) := by
  obtain ⟨frontKey, frontNode⟩ := entry
  obtain ⟨linked, reaches, first⟩ := find?_eq_some.mp found
  have sorted : Node.Sorted (set.heap.cells frontNode) := tidy.valid.sound.sorted frontNode
  -- a value that is not admitted is in the front node or before it
  have early : ∀ other node, (other, node) ∈ set.index.index → ∀ item ∈ set.heap.cells node,
      ¬ start.admits borrow (key item) = true → other ≤ frontKey := by
    intro other node member item present denied
    by_contra beyond
    have above : frontKey < key item := tidy.layout.lt member present linked (not_le.mp beyond)
    exact denied (Bound.admits_mono monotone start above.le reaches)
  have separated := tidy.layout.separated
  unfold frontValue
  simp only [found]
  rcases Node.rank_start_cases sorted monotone start with ⟨position, value, rank, there, present, outside, greatest⟩ | ⟨rank, all⟩
  · simp only [rank, there]
    refine ⟨⟨frontKey, frontNode, linked, present⟩, by simp [outside], fun item stored denied above => ?_⟩
    obtain ⟨other, node, member, held⟩ := stored
    rcases (early other node member item held denied).eq_or_lt with same | before
    · subst same
      have here : node = frontNode := value_unique member linked
      exact (greatest item (here ▸ held) (by simpa using denied)).not_gt above
    · exact (separated (other, node) member (frontKey, frontNode) linked before item held value present).asymm above
  · simp only [rank]
    cases before : set.index.index.below? frontKey with
    | none =>
      intro item stored
      obtain ⟨other, node, member, held⟩ := stored
      by_contra denied
      have same := le_antisymm (early other node member item held denied) (below?_eq_none.mp before _ member)
      subst same
      have here : node = frontNode := value_unique member linked
      exact denied (all item (here ▸ held))
    | some entry =>
      obtain ⟨previous, earlier⟩ := entry
      obtain ⟨member, below, nearest⟩ := below?_eq_some.mp before
      obtain ⟨value, top⟩ : ∃ value, Node.max (set.heap.cells earlier) = some value := by
        obtain ⟨value, top, _⟩ := Option.map_eq_some_iff.mp (tidy.layout.tight previous earlier member)
        exact ⟨value, top⟩
      have level : key value = previous := by
        have tight := tidy.layout.tight previous earlier member
        rw [Node.maxKey, show Node.max (set.layout.heap.cells earlier) = some value from top] at tight
        exact Option.some.inj tight
      have present := (Node.max_eq_some (tidy.valid.sound.sorted earlier)).mp top
      rw [Option.bind_some, show (set.heap.cells earlier).getLast? = some value from top]
      refine ⟨⟨previous, earlier, member, present.1⟩, ?_, fun item stored denied above => ?_⟩
      · rw [level]
        exact fun admitted => below.not_ge (first _ member admitted)
      · obtain ⟨other, node, there, held⟩ := stored
        rcases (early other node there item held denied).eq_or_lt with same | before
        · subst same
          have here : node = frontNode := value_unique there linked
          exact denied (all item (here ▸ held))
        · have bound := (tidy.layout.le there held).trans (nearest _ there before)
          exact (level ▸ bound).not_gt above

omit [LinearOrder κ] [Keyed α κ] in
private theorem nodeForBorrowedEndLoop_eq (borrow : κ → Q) (value : Q) (entries : List (κ × NodeId))
    (lastEqual : Option (κ × NodeId)) :
    nodeForBorrowedEndLoop borrow value entries lastEqual = (entries.find? fun entry => decide (value < borrow entry.1)).or
      ((entries.filter fun entry => decide (borrow entry.1 = value)).getLast?.or lastEqual) := by
  induction entries generalizing lastEqual with
  | nil => rfl
  | cons entry rest ih =>
    simp only [nodeForBorrowedEndLoop]
    split
    next less =>
      have below : borrow entry.1 < value := compare_lt_iff_lt.mp less
      rw [ih, List.find?_cons_of_neg (by simpa using below.le), List.filter_cons_of_neg (by simpa using below.ne)]
    next equal =>
      have same : borrow entry.1 = value := compare_eq_iff_eq.mp equal
      rw [ih, List.find?_cons_of_neg (by simp [same]), List.filter_cons_of_pos (by simpa using same), List.getLast?_cons]
      cases (rest.filter fun entry => decide (borrow entry.1 = value)).getLast? <;> rfl
    next more =>
      have above : value < borrow entry.1 := compare_gt_iff_gt.mp more
      rw [List.find?_cons_of_pos (by simpa using above), Option.some_or]

omit [Keyed α κ] in
/-- Grouped routing ends a range at the first node that reaches beyond it, else at the last. -/
theorem nodeForBorrowedEnd_grouped (monotone : Monotone borrow) (index : NodeIndex κ) (value : Q) :
    nodeForBorrowedEnd borrow index value false = (index.find? fun entry => decide (value < borrow entry)).or index.last? := by
  simp only [nodeForBorrowedEnd, Bool.false_eq_true, if_false, nodeForBorrowedEndLoop_eq, Option.or_none]
  cases beyond : index.find? fun entry => decide (value < borrow entry) with
  | some entry =>
    have same : (index.entries.find? fun entry => decide (value < borrow entry.1)) = some entry := beyond
    rw [same, Option.some_or, Option.some_or]
  | none =>
    have same : (index.entries.find? fun entry => decide (value < borrow entry.1)) = none := beyond
    rw [same, Option.none_or, Option.none_or]
    cases equal : (index.entries.filter fun entry => decide (borrow entry.1 = value)).getLast? with
    | none => rw [Option.none_or]
    | some entry =>
      -- an equal entry that no greater one follows is the last of the index
      obtain ⟨earlier, split⟩ := List.getLast?_eq_some_iff.mp equal
      obtain ⟨member, level⟩ := List.mem_filter.mp (List.mem_of_getLast? equal)
      rw [Option.some_or, eq_comm, last?_eq_some]
      refine ⟨member, fun other there => ?_⟩
      by_contra after
      have bound : borrow other.1 ≤ value := by simpa using find?_eq_none.mp beyond other there
      have above : borrow entry.1 ≤ borrow other.1 := monotone (not_le.mp after).le
      rw [decide_eq_true_eq] at level
      have inside : other ∈ index.entries.filter fun entry => decide (borrow entry.1 = value) :=
        List.mem_filter.mpr ⟨there, by simpa using le_antisymm bound (level ▸ above)⟩
      have ascending := index.sorted.sublist (List.filter_sublist (p := fun entry => decide (borrow entry.1 = value)))
      rw [split] at inside ascending
      rcases List.mem_append.mp inside with before | here
      · exact after ((List.pairwise_append.mp ascending).2.2 other before entry (by simp)).le
      · exact after (List.mem_singleton.mp here ▸ le_rfl)

/-- The chosen node parts the nodes that lie before the end from those that lie after it. -/
structure Parts (borrow : κ → Q) (last : Bound Q) (set : BTreeSet α κ) (backKey : κ) (backNode : NodeId) : Prop where
  linked : (backKey, backNode) ∈ set.index.index
  early : ∀ other node, (other, node) ∈ set.index.index → other < backKey → ∀ item ∈ set.heap.cells node,
    last.permits borrow (key item) = true
  late : ∀ other node, (other, node) ∈ set.index.index → backKey < other → ∀ item ∈ set.heap.cells node,
    ¬ last.permits borrow (key item) = true

/-- The back sentinel comes from such a node or from the one after it. -/
private theorem Parts.sentinel (tidy : set.Tidy) (monotone : Monotone borrow) {last : Bound Q} {backKey : κ} {backNode : NodeId}
    (parts : Parts borrow last set backKey backNode) (chosen : backEntry borrow last set = some (backKey, backNode)) :
    Sentinel (· > ·) set.layout (fun wanted => last.permits borrow wanted = true) (backValue borrow last set) := by
  obtain ⟨linked, early, late⟩ := parts
  have separated := tidy.layout.separated
  unfold backValue
  simp only [chosen]
  rcases Node.rank_end_cases (tidy.valid.sound.sorted backNode) monotone last with
    ⟨position, value, rank, there, present, outside, least⟩ | ⟨rank, all⟩
  · have rank : Node.rank borrow (set.heap.cells backNode) last false = some position := rank
    have there : (set.heap.cells backNode).reverse[position]? = some value := there
    simp only [rank, there]
    refine ⟨⟨backKey, backNode, linked, present⟩, by simp [outside], fun item stored denied before => ?_⟩
    obtain ⟨other, node, member, held⟩ := stored
    rcases lt_trichotomy other backKey with earlier | rfl | later
    · exact denied (early other node member earlier item held)
    · have here : node = backNode := value_unique member linked
      exact (least item (here ▸ held) (by simpa using denied)).not_gt before
    · exact (separated (backKey, backNode) linked (other, node) member later value present item held).asymm before
  · have rank : Node.rank borrow (set.heap.cells backNode) last false = none := rank
    simp only [rank]
    -- what lies beyond the end lies in a later node
    have beyond : ∀ item, set.layout.Stored item → ¬ last.permits borrow (key item) = true →
        ∃ other node, (other, node) ∈ set.index.index ∧ item ∈ set.heap.cells node ∧ backKey < other := by
      intro item stored denied
      obtain ⟨other, node, member, held⟩ := stored
      refine ⟨other, node, member, held, ?_⟩
      rcases lt_trichotomy other backKey with earlier | rfl | later
      · exact absurd (early other node member earlier item held) denied
      · have here : node = backNode := value_unique member linked
        exact absurd (all item (here ▸ held)) denied
      · exact later
    cases after : set.index.index.find? fun entry => decide (backKey < entry) with
    | none =>
      intro item stored
      by_contra denied
      obtain ⟨other, node, member, _, later⟩ := beyond item stored denied
      exact absurd later (by simpa using find?_eq_none.mp after _ member)
    | some entry =>
      obtain ⟨following, node⟩ := entry
      obtain ⟨member, above, nearest⟩ := find?_eq_some.mp after
      obtain ⟨value, bottom⟩ : ∃ value, (set.heap.cells node).head? = some value := by
        cases found : (set.heap.cells node).head? with
        | none => exact absurd (List.head?_eq_none_iff.mp found) (tidy.valid.sound.filled following node member)
        | some value => exact ⟨value, rfl⟩
      obtain ⟨present, least⟩ := (Node.min_eq_some (tidy.valid.sound.sorted node)).mp bottom
      rw [Option.bind_some, bottom]
      refine ⟨⟨following, node, member, present⟩, late following node member (by simpa using above) value present,
        fun item stored denied before => ?_⟩
      obtain ⟨other, target, there, held, later⟩ := beyond item stored denied
      have order : following ≤ other := nearest _ there (by simpa using later)
      rcases order.eq_or_lt with same | farther
      · have here : target = node := value_unique (show (following, target) ∈ set.index.index from same ▸ there) member
        exact (least item (here ▸ held)).not_gt before
      · exact (separated (following, node) member (other, target) there farther value present item held).asymm before

private theorem sentinel_of_parts (tidy : set.Tidy) (monotone : Monotone borrow) {last : Bound Q}
    (parts : ∀ backKey backNode, backEntry borrow last set = some (backKey, backNode) → Parts borrow last set backKey backNode)
    (missing : backEntry borrow last set = none → ∀ entry, entry ∉ set.index.index) :
    Sentinel (· > ·) set.layout (fun wanted => last.permits borrow wanted = true) (backValue borrow last set) := by
  cases chosen : backEntry borrow last set with
  | some entry => exact (parts entry.1 entry.2 chosen).sentinel tidy monotone chosen
  | none =>
    unfold backValue
    rw [chosen]
    intro item stored
    obtain ⟨entry, node, member, _⟩ := stored
    exact absurd member (missing chosen _)

/-- The end of a range: the first node whose key satisfies `reaches`, else the last. -/
private theorem parts_of_reaches (routed : set.layout.Routed) (monotone : Monotone borrow) {last : Bound Q} {reaches : κ → Bool}
    (short : ∀ entry ∈ set.index.index, set.index.index.last? ≠ some entry → reaches entry.1 = false →
      last.permits borrow entry.1 = true)
    (beyond : ∀ first second, reaches first = true → first < second → ¬ last.permits borrow second = true)
    {backKey : κ} {backNode : NodeId}
    (chosen : (set.index.index.find? reaches).or set.index.index.last? = some (backKey, backNode)) :
    Parts borrow last set backKey backNode := by
  rcases Option.or_eq_some_iff.mp chosen with found | ⟨missing, final⟩
  · obtain ⟨linked, reached, first⟩ := find?_eq_some.mp found
    refine ⟨linked, fun other node member earlier item held => ?_, fun other node member later item held => ?_⟩
    · have outer : set.index.index.last? ≠ some (other, node) := fun final =>
        earlier.not_ge ((last?_eq_some.mp final).2 _ linked)
      have missed : reaches other = false := by
        by_contra reached
        exact earlier.not_ge (first _ member (by simpa using reached))
      exact Bound.permits_mono monotone last ((routed other node member item held).within _ linked earlier) (short _ member outer missed)
    · exact beyond backKey (key item) reached ((routed other node member item held).above _ linked later)
  · obtain ⟨linked, greatest⟩ := last?_eq_some.mp final
    refine ⟨linked, fun other node member earlier item held => ?_, fun other node member later => ?_⟩
    · have outer : set.index.index.last? ≠ some (other, node) := fun same => by
        cases final.symm.trans same
        exact earlier.false
      exact Bound.permits_mono monotone last ((routed other node member item held).within _ linked earlier)
        (short _ member outer (find?_eq_none.mp missing _ member))
    · exact absurd (greatest _ member) later.not_ge

omit [Keyed α κ] in
private theorem not_mem_of_or {found : Option (κ × NodeId)} {index : NodeIndex κ} (missing : found.or index.last? = none) :
    ∀ entry, entry ∉ index :=
  last?_eq_none.mp (Option.or_eq_none_iff.mp missing).2

theorem backValue_unbounded (tidy : set.Tidy) (monotone : Monotone borrow) :
    Sentinel (· > ·) set.layout (fun wanted => (Bound.unbounded : Bound Q).permits borrow wanted = true)
      (backValue borrow .unbounded set) := by
  apply sentinel_of_parts tidy monotone
  · intro backKey backNode chosen
    obtain ⟨linked, greatest⟩ := last?_eq_some.mp chosen
    exact ⟨linked, fun _ _ _ _ _ _ => rfl, fun other node member later => absurd (greatest _ member) later.not_ge⟩
  · exact fun missing => last?_eq_none.mp missing

omit [Keyed α κ] in
private theorem backEntry_grouped (monotone : Monotone borrow) (grouped : set.borrowOrderMatches = false) (value : Q) :
    nodeForBorrowedEnd borrow set.index.index value set.borrowOrderMatches =
      (set.index.index.find? fun entry => decide (value < borrow entry)).or set.index.index.last? :=
  (congrArg (nodeForBorrowedEnd borrow set.index.index value) grouped).trans (nodeForBorrowedEnd_grouped monotone _ value)

theorem backValue_sentinel (tidy : set.Tidy) (monotone : Monotone borrow) (grouped : set.borrowOrderMatches = false) (value : Q) :
    Sentinel (· > ·) set.layout (fun wanted => (Bound.included value).permits borrow wanted = true)
      (backValue borrow (.included value) set) := by
  have entry : backEntry borrow (.included value) set = _ := backEntry_grouped monotone grouped value
  apply sentinel_of_parts tidy monotone
  · intro backKey backNode chosen
    rw [entry] at chosen
    refine parts_of_reaches tidy.layout.routed monotone (fun other _ _ missed => ?_) (fun first second reached before permitted => ?_) chosen
    · simpa [Bound.permits] using missed
    · have above : value < borrow first := by simpa using reached
      have bound : borrow second ≤ value := by simpa [Bound.permits] using permitted
      exact (above.trans_le (monotone before.le)).not_ge bound
  · intro missing
    exact not_mem_of_or (entry.symm.trans missing)

/-- Under grouped routing, an exclusive end is found when no node but the last ends in its group. -/
theorem backValue_excluded (tidy : set.Tidy) (monotone : Monotone borrow) (grouped : set.borrowOrderMatches = false) {value : Q}
    (together : ∀ entry ∈ set.index.index, borrow entry.1 = value → set.index.index.last? = some entry) :
    Sentinel (· > ·) set.layout (fun wanted => (Bound.excluded value).permits borrow wanted = true)
      (backValue borrow (.excluded value) set) := by
  have entry : backEntry borrow (.excluded value) set = _ := backEntry_grouped monotone grouped value
  apply sentinel_of_parts tidy monotone
  · intro backKey backNode chosen
    rw [entry] at chosen
    refine parts_of_reaches tidy.layout.routed monotone (fun other member outer missed => ?_)
      (fun first second reached before permitted => ?_) chosen
    · have bound : borrow other.1 ≤ value := by simpa using missed
      have below : borrow other.1 < value := lt_of_le_of_ne bound fun same => outer (together other member same)
      simpa [Bound.permits] using below
    · have above : value < borrow first := by simpa using reached
      have bound : borrow second < value := by simpa [Bound.permits] using permitted
      exact (above.trans_le (monotone before.le)).asymm bound
  · intro missing
    exact not_mem_of_or (entry.symm.trans missing)

omit [Keyed α κ] in
private theorem backEntry_matched (matched : set.borrowOrderMatches = true) (value : Q) :
    nodeForBorrowedEnd borrow set.index.index value set.borrowOrderMatches =
      (set.index.index.find? fun entry => decide (value ≤ borrow entry)).or set.index.index.last? := by
  simp only [nodeForBorrowedEnd, matched, if_true]
  rfl

theorem parts_matched (routed : set.layout.Routed) (strict : StrictMono borrow) (matched : set.borrowOrderMatches = true)
    {last : Bound Q} {backKey : κ} {backNode : NodeId} (chosen : backEntry borrow last set = some (backKey, backNode)) :
    Parts borrow last set backKey backNode := by
  cases last with
  | unbounded =>
    obtain ⟨linked, greatest⟩ := last?_eq_some.mp chosen
    exact ⟨linked, fun _ _ _ _ _ _ => rfl, fun other node member later => absurd (greatest _ member) later.not_ge⟩
  | included value =>
    refine parts_of_reaches routed strict.monotone (fun entry _ _ missed => ?_) (fun first second reached before permitted => ?_)
      ((backEntry_matched matched value).symm.trans chosen)
    · have below : borrow entry.1 < value := by simpa using missed
      simpa [Bound.permits] using below.le
    · have bound : value ≤ borrow first := by simpa using reached
      exact (bound.trans_lt (strict before)).not_ge (by simpa [Bound.permits] using permitted)
  | excluded value =>
    refine parts_of_reaches routed strict.monotone (fun entry _ _ missed => ?_) (fun first second reached before permitted => ?_)
      ((backEntry_matched matched value).symm.trans chosen)
    · have below : borrow entry.1 < value := by simpa using missed
      simpa [Bound.permits] using below
    · have bound : value ≤ borrow first := by simpa using reached
      exact (bound.trans_lt (strict before)).not_gt (by simpa [Bound.permits] using permitted)

omit [Keyed α κ] in
theorem backEntry_none (matched : set.borrowOrderMatches = true) {last : Bound Q} (missing : backEntry borrow last set = none) :
    ∀ entry, entry ∉ set.index.index := by
  cases last with
  | unbounded => exact last?_eq_none.mp missing
  | included value => exact not_mem_of_or ((backEntry_matched matched value).symm.trans missing)
  | excluded value => exact not_mem_of_or ((backEntry_matched matched value).symm.trans missing)

theorem backValue_matched (tidy : set.Tidy) (strict : StrictMono borrow) (matched : set.borrowOrderMatches = true) (last : Bound Q) :
    Sentinel (· > ·) set.layout (fun wanted => last.permits borrow wanted = true) (backValue borrow last set) :=
  sentinel_of_parts tidy strict.monotone (fun _ _ => parts_matched tidy.layout.routed strict matched) (backEntry_none matched)

omit [LinearOrder κ] [Keyed α κ] in
private theorem permits_of_not_admits {start last : Bound Q} (straight : inverted start last = false) {wanted : κ}
    (denied : ¬ start.admits borrow wanted = true) : last.permits borrow wanted = true := by
  cases start with
  | included first =>
    have before : borrow wanted < first := by simpa [Bound.admits] using denied
    cases last with
    | included value => simpa [Bound.permits] using before.le.trans (by simpa [inverted] using straight)
    | excluded value => simpa [Bound.permits] using before.trans (by simpa [inverted] using straight)
    | unbounded => rfl
  | excluded first =>
    have before : borrow wanted ≤ first := by simpa [Bound.admits] using denied
    cases last with
    | included value => simpa [Bound.permits] using before.trans (le_of_lt (by simpa [inverted] using straight))
    | excluded value => simpa [Bound.permits] using before.trans_lt (by simpa [inverted] using straight)
    | unbounded => rfl
  | unbounded => exact absurd rfl denied

omit [LinearOrder κ] [Keyed α κ] in
theorem not_within_inverted {start last : Bound Q} (crossed : inverted start last = true) (wanted : κ) :
    ¬ (start.admits borrow wanted = true ∧ last.permits borrow wanted = true) := by
  intro given
  obtain ⟨admitted, permitted⟩ := given
  cases start with
  | unbounded => cases last <;> cases crossed
  | included first =>
    have above : first ≤ borrow wanted := by simpa [Bound.admits] using admitted
    cases last with
    | unbounded => cases crossed
    | included value =>
      have below : borrow wanted ≤ value := by simpa [Bound.permits] using permitted
      exact (above.trans below).not_gt (by simpa [inverted] using crossed)
    | excluded value =>
      have below : borrow wanted < value := by simpa [Bound.permits] using permitted
      exact (above.trans_lt below).not_ge (by simpa [inverted] using crossed)
  | excluded first =>
    have above : first < borrow wanted := by simpa [Bound.admits] using admitted
    cases last with
    | unbounded => cases crossed
    | included value =>
      have below : borrow wanted ≤ value := by simpa [Bound.permits] using permitted
      exact (above.trans_le below).not_ge (by simpa [inverted] using crossed)
    | excluded value =>
      have below : borrow wanted < value := by simpa [Bound.permits] using permitted
      exact (above.trans below).not_ge (by simpa [inverted] using crossed)

private theorem outside_spec (tidy : set.Tidy) (monotone : Monotone borrow) {start last : Bound Q}
    (apart : outside borrow start last set = true) {item : α} (stored : set.layout.Stored item) :
    ¬ (start.admits borrow (key item) = true ∧ last.permits borrow (key item) = true) := by
  obtain ⟨entry, node, member, held⟩ := stored
  intro both
  simp only [outside, Bool.or_eq_true, Option.any_eq_true, Option.bind_eq_some_iff, Bool.not_eq_true'] at apart
  rcases apart with ⟨max, ⟨final, atLast, top⟩, denied⟩ | ⟨min, ⟨first, atFirst, bottom⟩, denied⟩
  · obtain ⟨linked, greatest⟩ := last?_eq_some.mp atLast
    have level : key max = final.1 := by
      have tight := tidy.layout.tight final.1 final.2 linked
      rw [Node.maxKey, show Node.max (set.layout.heap.cells final.2) = some max from top] at tight
      exact Option.some.inj tight
    have bound : key item ≤ key max := level ▸ (tidy.layout.le member held).trans (greatest _ member)
    exact (Bool.eq_false_iff.mp denied) (Bound.admits_mono monotone start bound both.1)
  · rw [first?_eq_find?] at atFirst
    obtain ⟨linked, _, least⟩ := find?_eq_some.mp atFirst
    have lowest := (Node.min_eq_some (tidy.valid.sound.sorted first.2)).mp bottom
    have bound : key min ≤ key item := by
      rcases (least _ member rfl).eq_or_lt with same | later
      · have here : node = first.2 := value_unique (show (first.1, node) ∈ set.index.index from same ▸ member) linked
        exact lowest.2 item (here ▸ held)
      · exact (tidy.layout.separated first linked (entry, node) member later min lowest.1 item held).le
    exact (Bool.eq_false_iff.mp denied) (Bound.permits_mono monotone last bound both.2)

theorem met_of_above (tidy : set.Tidy) (monotone : Monotone borrow) {start last : Bound Q}
    (back : Sentinel (· > ·) set.layout (fun wanted => last.permits borrow wanted = true) (backValue borrow last set))
    (found : firstForBorrowedBound borrow set.index.index start = none) {item : α} (stored : set.layout.Stored item) :
    (set.range borrow start last).met = true := by
  cases straight : inverted start last with
  | true => simp [BTreeSet.range, new, straight]
  | false =>
    have short : ∀ other node, (other, node) ∈ set.index.index → ¬ start.admits borrow other = true :=
      fun other node member => Bool.eq_false_iff.mp (find?_eq_none.mp found _ member)
    have front : frontValue borrow start set = none := by simp only [frontValue, found]
    have open_ : backValue borrow last set = none := by
      cases same : backValue borrow last set with
      | none => rfl
      | some value =>
        rw [same] at back
        obtain ⟨⟨entry, node, member, held⟩, denied, _⟩ := back
        refine absurd (permits_of_not_admits straight fun admitted => ?_) denied
        exact short entry node member (Bound.admits_mono monotone start (tidy.layout.le member held) admitted)
    obtain ⟨entry, node, member, held⟩ := stored
    obtain ⟨final, atLast⟩ : ∃ final, set.index.index.last? = some final := by
      cases same : set.index.index.last? with
      | none => exact absurd member (last?_eq_none.mp same _)
      | some final => exact ⟨final, rfl⟩
    obtain ⟨linked, _⟩ := last?_eq_some.mp atLast
    obtain ⟨max, top, level⟩ := Option.map_eq_some_iff.mp (tidy.layout.tight final.1 final.2 linked)
    have above : outside borrow start last set = true := by
      have top : Node.max (set.heap.cells final.2) = some max := top
      have denied := Bool.eq_false_iff.mpr (short final.1 final.2 linked)
      simp only [outside, atLast, Option.bind_some, top, Option.any_some, level, denied, Bool.not_false, Bool.true_or]
    have bounded : start.isUnbounded = false := by
      cases start with
      | unbounded => exact absurd rfl (short entry node member)
      | included value => rfl
      | excluded value => rfl
    simp [BTreeSet.range, new, straight, front, open_, above, bounded]

private theorem front_past_iff (tidy : set.Tidy) (monotone : Monotone borrow) {start last : Bound Q}
    (back : Sentinel (· > ·) set.layout (fun wanted => last.permits borrow wanted = true) (backValue borrow last set))
    (unmet : (set.range borrow start last).met = false) {item : α} (stored : set.layout.Stored item) :
    Past (· < ·) (frontValue borrow start set) (key item) ↔ start.admits borrow (key item) = true := by
  cases found : firstForBorrowedBound borrow set.index.index start with
  | some entry =>
    exact (frontValue_sentinel tidy monotone start found).past_iff
      (fun first second before => Bound.admits_mono monotone start (le_of_lt before)) stored
  | none => cases (met_of_above tidy monotone back found stored).symm.trans unmet

end Range

def BTreeSet.within (borrow : κ → Q) (start last : Bound Q) (set : BTreeSet α κ) : List α :=
  set.nodes.flatten.filter fun item => start.admits borrow (key item) && last.permits borrow (key item)

namespace Range
variable {set : BTreeSet α κ} {borrow : κ → Q} {start last : Bound Q}

theorem mem_within (item : α) : item ∈ set.within borrow start last ↔
    set.layout.Stored item ∧ start.admits borrow (key item) = true ∧ last.permits borrow (key item) = true := by
  rw [BTreeSet.within, List.mem_filter, BTreeSet.mem_flatten_nodes, Bool.and_eq_true]

theorem within_sorted (tidy : set.Tidy) : Node.Sorted (set.within borrow start last) :=
  tidy.sorted_contents.sublist List.filter_sublist

theorem quiet (borrow : κ → Q) (start last : Bound Q) (set : BTreeSet α κ) : Iter.Quiet set (set.range borrow start last) :=
  Iter.quiet_new set _ _ _

/-- A range whose back sentinel is right holds exactly the values within its bounds. -/
theorem between_eq (tidy : set.Tidy) (monotone : Monotone borrow)
    (back : Sentinel (· > ·) set.layout (fun wanted => last.permits borrow wanted = true) (backValue borrow last set)) :
    Iter.between set (set.range borrow start last) = set.within borrow start last := by
  cases met : (set.range borrow start last).met with
  | true =>
    rw [Iter.between_met met, eq_comm, List.eq_nil_iff_forall_not_mem]
    intro item member
    obtain ⟨stored, inside⟩ := (mem_within item).mp member
    cases crossed : inverted start last with
    | true => exact not_within_inverted crossed (key item) inside
    | false =>
      simp only [BTreeSet.range, new, crossed, Bool.false_or, Bool.and_eq_true] at met
      exact outside_spec tidy monotone met.2 stored inside
  | false =>
    apply (Iter.between_sorted tidy).ext (within_sorted tidy)
    intro item
    rw [Iter.mem_between met, mem_within]
    apply and_congr_right
    intro stored
    apply and_congr
    · exact front_past_iff tidy monotone back met stored
    · exact back.past_iff (fun first second before => Bound.permits_mono monotone _ (le_of_lt before)) stored

/-- Under grouped routing, a range with an inclusive end yields the stored values inside
its bounds, in order. -/
theorem collect_grouped (tidy : set.Tidy) (monotone : Monotone borrow) (grouped : set.borrowOrderMatches = false) (value : Q)
    {fuel : Nat} (enough : set.nodes.flatten.length < fuel) :
    (set.range borrow start (.included value)).collect set fuel = some (set.within borrow start (.included value)) := by
  have exactly : Iter.between set (set.range borrow start (.included value)) = set.within borrow start (.included value) :=
    between_eq tidy monotone (backValue_sentinel tidy monotone grouped value)
  have fewer : (set.within borrow start (.included value)).length < fuel := (List.length_filter_le _ _).trans_lt enough
  rw [Iter.collect_between tidy (quiet ..) (exactly ▸ fewer), exactly]

end Range

end WorkTablesIndex
