import Mathlib.Data.Set.Insert
import WorkTablesIndex.Indexset.SetRefinement

/-! Sets whose nodes hold one element. As long as every insertion is one before a stored element, each
element stands in a node of its own; any other insertion leaves an empty node in front of an element,
where the search for that element stops. -/

namespace WorkTablesIndex.Indexset
open Slice

variable {F α κ Q : Type} [FenwickTree F] [LinearOrder κ] [Keyed α κ] [LinearOrder Q]

inductive SizedCall (α κ : Type) [LinearOrder κ] : Type 1 where
  | insert (value : α)
  | remove {Q : Type} [LinearOrder Q] (borrow : κ → Q) (strict : StrictMono borrow) (value : Q)

namespace SizedCall

def run : SizedCall α κ → BTreeSet F α → Option (BTreeSet F α)
  | .insert value, set => (set.insert value).map Prod.snd
  | @remove _ _ _ _ _ borrow _ value, set => (set.remove borrow value).map Prod.snd

def held : SizedCall α κ → Set κ → Set κ
  | .insert value, stored => Insert.insert (key value) stored
  | @remove _ _ _ _ _ borrow _ value, stored => { item ∈ stored | borrow item ≠ value }

/-- An insertion is the first one, or one of an absent value before a stored one. -/
def Precedes : SizedCall α κ → Set κ → Prop
  | .insert value, stored => stored = ∅ ∨ key value ∉ stored ∧ ∃ item ∈ stored, key value < item
  | @remove .., _ => True

def runAll : List (SizedCall α κ) → BTreeSet F α → Option (BTreeSet F α)
  | [], set => some set
  | call :: calls, set => do runAll calls (← call.run set)

def heldAfter : List (SizedCall α κ) → Set κ → Set κ
  | [], stored => stored
  | call :: calls, stored => heldAfter calls (call.held stored)

def AllPrecede : List (SizedCall α κ) → Set κ → Prop
  | [], _ => True
  | call :: calls, stored => call.Precedes stored ∧ AllPrecede calls (call.held stored)

end SizedCall

namespace BTreeSet
variable {set after : BTreeSet F α} {stored : Set κ}

def Answers (set : BTreeSet F α) (stored : Set κ) : Prop :=
  ∀ {Q : Type} [LinearOrder Q] (borrow : κ → Q), StrictMono borrow → ∀ value, ∃ answer,
    set.contains borrow value = some answer ∧ (answer = true ↔ ∃ item ∈ stored, borrow item = value)

/-- The set with a greater maximum, at which searches do not look. -/
def widened (set : BTreeSet F α) : BTreeSet F α := { set with nodeCapacity := 2 }

variable [LawfulFenwickTree F]

/-- Each element has a node of its own, and the elements are what is held. -/
structure Singles (set : BTreeSet F α) (stored : Set κ) : Prop where
  nodeCapacity : set.nodeCapacity = 1
  valid : Valid set.widened
  single : ∀ node ∈ set.inner, node.length ≤ 1
  holds : ∀ item, item ∈ stored ↔ ∃ element ∈ set.elements, key element = item

namespace Singles

theorem start : Singles (withMaximumNodeSize 1 : BTreeSet F α) (∅ : Set κ) where
  nodeCapacity := rfl
  valid := valid_withMaximumNodeSize le_rfl
  single := by simp [withMaximumNodeSize]
  holds item := by
    constructor
    · exact fun none => none.elim
    · intro given
      obtain ⟨element, member, _⟩ := given
      cases member

theorem consistent (singles : Singles set stored) : Consistent set :=
  ⟨singles.valid.nonempty, singles.valid.counted, singles.valid.indexed⟩

theorem answers (singles : Singles set stored) : Answers set stored := by
  intro Q _ borrow strict value
  refine ⟨_, contains_spec singles.valid strict value, ?_⟩
  rw [SortedList.contains, SortedList.find_isSome]
  constructor
  · intro given
    obtain ⟨element, member, same⟩ := given
    exact ⟨_, (singles.holds _).mpr ⟨element, member, rfl⟩, same⟩
  · intro given
    obtain ⟨item, held, same⟩ := given
    obtain ⟨element, member, rfl⟩ := (singles.holds item).mp held
    exact ⟨element, member, same⟩

private theorem node_eq (singles : Singles set stored) {node : List α} (member : node ∈ set.inner)
    (several : set.elements ≠ []) : ∃ item, node = [item] := by
  have filled : node ≠ [] := by
    rcases singles.valid.filled with empty | filled
    · exact absurd (congrArg List.flatten empty) several
    · exact filled node member
  exact List.length_eq_one_iff.mp (le_antisymm (singles.single node member) (List.length_pos_iff.mpr filled))

private theorem deleted (singles : Singles set stored) {borrow : κ → Q} (strict : StrictMono borrow) {value : Q}
    {before after : List (List α)} {low rest : List α} {item : α} {left : BTreeSet F α}
    (located : Located (below borrow value) set.widened before low (item :: rest) after)
    (same : borrow (key item) = value) (lost : Deleted set before low item rest after left) :
    Singles left { item ∈ stored | borrow item ≠ value } := by
  obtain ⟨other, ran, valid, _, elements⟩ := located.delete singles.valid strict same
  obtain ⟨_, again, lost'⟩ := deleteAt_deleted located.toOpened
  cases ran.symm.trans again
  have nodes : left.inner = other.inner := lost.inner.trans lost'.inner.symm
  have contents : left.elements = other.elements := congrArg List.flatten nodes
  have consistent := lost.consistent singles.consistent
  refine ⟨lost.nodeCapacity.trans singles.nodeCapacity,
    ⟨consistent.nonempty, nodes ▸ valid.filled, contents ▸ valid.sorted, consistent.counted, consistent.indexed, le_rfl⟩, ?_, ?_⟩
  · intro node member
    have single : ∀ other ∈ before ++ (low ++ item :: rest) :: after, other.length ≤ 1 := lost.nodes ▸ singles.single
    rw [lost.inner, shrink] at member
    split at member
    next => exact single node (by simp only [List.mem_append, List.mem_cons] at member ⊢; tauto)
    next =>
      have here := single (low ++ item :: rest) (by simp)
      simp only [List.mem_append, List.mem_cons] at member single
      rcases member with earlier | rfl | later
      · exact single node (Or.inl earlier)
      · simp only [List.length_append, List.length_cons] at here ⊢
        omega
      · exact single node (Or.inr (Or.inr later))
  · intro wanted
    rw [contents, elements]
    constructor
    · intro given
      obtain ⟨held, apart⟩ := given
      obtain ⟨element, member, rfl⟩ := (singles.holds wanted).mp held
      exact ⟨element, List.mem_filter.mpr ⟨member, by simpa using apart⟩, rfl⟩
    · intro given
      obtain ⟨element, member, rfl⟩ := given
      obtain ⟨member, apart⟩ := List.mem_filter.mp member
      exact ⟨(singles.holds _).mpr ⟨element, member, rfl⟩, by simpa using apart⟩

theorem remove (singles : Singles set stored) {borrow : κ → Q} (strict : StrictMono borrow) (value : Q) :
    ∃ result left, set.remove borrow value = some (result, left) ∧ Singles left { item ∈ stored | borrow item ≠ value } := by
  obtain ⟨before, low, high, after, located, _, position⟩ :=
    locateValueBy_spec singles.valid false (descending_below strict.monotone value)
  have there : set.locateValue borrow value = some (before.length, low.length) := position
  have candidate : ((set.inner[before.length]?).bind fun node => node[low.length]?) = high.head? := located.get
  simp only [BTreeSet.remove, BTreeSet.delete, there, candidate, bind, Option.bind_some, pure]
  rcases located.sought singles.valid strict with ⟨item, rest, rfl, same, found⟩ | ⟨other, absent⟩
  · have opened : Opened set before (low ++ item :: rest) after := ⟨located.toOpened.nodes⟩
    obtain ⟨left, gone, lost⟩ := deleteAt_deleted opened
    exact ⟨true, left, by simp [same, gone], singles.deleted strict located same lost⟩
  · refine ⟨false, set, ?_, singles.nodeCapacity, singles.valid, singles.single, ?_⟩
    · cases high with
      | nil => rfl
      | cons head rest => simp [other head rfl]
    · intro item
      constructor
      · exact fun held => (singles.holds item).mp held.1
      · intro given
        obtain ⟨element, member, rfl⟩ := given
        exact ⟨(singles.holds _).mpr ⟨element, member, rfl⟩, absent element member⟩

private theorem empty_iff (singles : Singles set stored) : stored = ∅ ↔ set.inner = [[]] := by
  rw [Set.eq_empty_iff_forall_notMem]
  constructor
  · intro none
    apply singles.valid.filled.resolve_right
    intro filled
    obtain ⟨node, nodes, whole⟩ := List.exists_cons_of_ne_nil singles.valid.nonempty
    have member : node ∈ set.inner := whole ▸ List.mem_cons_self
    obtain ⟨element, here⟩ := List.exists_mem_of_ne_nil node (filled node member)
    exact none (key element) ((singles.holds _).mpr ⟨element, List.mem_flatten_of_mem member here, rfl⟩)
  · intro empty item held
    obtain ⟨element, member, _⟩ := (singles.holds item).mp held
    rw [elements, empty] at member
    cases member

private inductive Placed (before : List (List α)) (item value : α) (after : List (List α)) : List (List α) → Prop where
  | split (below : key value < key item) : Placed before item value after (before ++ [value] :: [item] :: after)
  | hidden (reached : key item ≤ key value) (taken : List α) : Placed before item value after (before ++ [] :: taken :: after)

private theorem placed (singles : Singles set stored) (value : α) (filled : stored ≠ ∅) :
    ∃ before item after inserted grown, Opened set before [item] after ∧ set.insert value = some (inserted, grown) ∧
      Inserted set before [item] after value inserted grown ∧ Placed before item value after grown.inner ∧
      (∀ element ∈ before.flatten, key element < key value) ∧ (after ≠ [] → key value ≤ key item) := by
  obtain ⟨before, low, high, after, located, position, _⟩ :=
    locateValueBy_spec singles.valid false (descending_below monotone_id (key value))
  have cut := located.cut singles.valid
  have opened : Opened set before (low ++ high) after := ⟨located.nodes⟩
  have several : set.elements ≠ [] := by
    intro none
    apply filled
    rw [Set.eq_empty_iff_forall_notMem]
    intro stored held
    obtain ⟨element, member, _⟩ := (singles.holds stored).mp held
    rw [none] at member
    cases member
  obtain ⟨item, single⟩ := singles.node_eq opened.member several
  rw [single] at opened
  obtain ⟨inserted, grown, ran, gained⟩ := insertAt_inserted opened (fun _ => List.cons_ne_nil _ _) value
  have there : set.locateNode id (key value) = before.length := position
  refine ⟨before, item, after, inserted, grown, opened, ?_, gained, ?_, ?_, ?_⟩
  · rw [BTreeSet.insert, there, ran]
  · have halves : Node.halve [item] = ([], [item]) := by simp [Node.halve]
    obtain ⟨middle, takes, inner⟩ := gained.takes
    rw [inner, List.append_assoc]
    cases takes with
    | spare room => exact absurd singles.nodeCapacity.symm room
    | @left head full first below =>
      rw [halves] at first ⊢
      obtain rfl : item = head := Option.some.inj first
      exact .split below
    | @right head full first reached =>
      rw [halves] at first ⊢
      obtain rfl : item = head := Option.some.inj first
      exact .hidden reached _
  · exact fun element member => cut.lower element (List.mem_append_left _ member)
  · intro more
    obtain ⟨head, rest, whole⟩ := List.exists_cons_of_ne_nil fun none => more (located.final none)
    have member : head ∈ [item] := single ▸ whole ▸ List.mem_append_right _ List.mem_cons_self
    rw [← List.mem_singleton.mp member]
    exact cut.upper head (whole ▸ List.mem_cons_self)

omit [FenwickTree F] [LawfulFenwickTree F] in
/-- A search stops at an empty node behind the smaller elements. -/
private theorem contains_hidden {before after : List (List α)} {wanted : κ} (inner : set.inner = before ++ [] :: after)
    (filled : ∀ node ∈ before, node ≠ []) (lower : ∀ element ∈ before.flatten, key element < wanted) :
    set.contains id wanted = some false := by
  have passed : ∀ node ∈ before, passes false (below id wanted) node = true := by
    intro node member
    obtain ⟨last, top⟩ : ∃ last, node.getLast? = some last := ⟨_, List.getLast?_eq_some_getLast (filled node member)⟩
    simp only [passes, top, below, id, decide_eq_true_eq]
    exact lower last (List.mem_flatten_of_mem member (List.mem_of_getLast? top))
  have point : partitionPoint (passes false (below id wanted)) set.inner = before.length := by
    rw [partitionPoint, inner, List.takeWhile_append_of_pos passed]
    simp [passes]
  have there : set.inner[before.length]? = some [] := by simp [inner]
  have position : locateNodeBy false (below id wanted) set = before.length := by
    have here : locateNodeBy false (below id wanted) set =
        if set.inner[partitionPoint (passes false (below id wanted)) set.inner]?.isNone then
          partitionPoint (passes false (below id wanted)) set.inner - 1
        else partitionPoint (passes false (below id wanted)) set.inner := rfl
    rw [here, point, there]
    rfl
  simp [contains, candidateBy, locateValueBy, position, there]

private theorem grown_singles (singles : Singles set stored) {before after : List (List α)} {node : List α} {value : α}
    {inserted : Bool} {grown : BTreeSet F α} (gained : Inserted set before node after value inserted grown)
    (nodes : ∀ other ∈ grown.inner, ∃ item, other = [item]) (sorted : Node.Sorted grown.elements)
    (members : ∀ element, element ∈ grown.elements ↔ element = value ∨ element ∈ set.elements) :
    Singles grown (Insert.insert (key value) stored) := by
  have consistent := gained.consistent singles.consistent
  refine ⟨gained.nodeCapacity.trans singles.nodeCapacity,
    ⟨consistent.nonempty, Or.inr ?_, sorted, consistent.counted, consistent.indexed, le_rfl⟩, ?_, ?_⟩
  · intro other member
    obtain ⟨item, rfl⟩ := nodes other member
    exact List.cons_ne_nil _ _
  · intro other member
    obtain ⟨item, rfl⟩ := nodes other member
    exact le_rfl
  · intro item
    simp only [Set.mem_insert_iff, singles.holds item, members]
    constructor
    · rintro (rfl | ⟨element, member, same⟩)
      · exact ⟨value, Or.inl rfl, rfl⟩
      · exact ⟨element, Or.inr member, same⟩
    · intro given
      obtain ⟨element, rfl | member, same⟩ := given
      · exact Or.inl same.symm
      · exact Or.inr ⟨element, member, same⟩

private theorem insert_first (singles : Singles set stored) (value : α) (empty : stored = ∅) :
    ∃ inserted grown, set.insert value = some (inserted, grown) ∧ Singles grown (Insert.insert (key value) stored) := by
  obtain ⟨before, low, high, after, located, position, _⟩ :=
    locateValueBy_spec singles.valid false (descending_below monotone_id (key value))
  have none := singles.empty_iff.mp empty
  obtain ⟨rfl, here, rfl⟩ : before = [] ∧ low ++ high = [] ∧ after = [] := by
    have nodes := located.nodes.symm.trans none
    cases before with
    | nil => simpa using nodes
    | cons first before => simp at nodes
  have opened : Opened set [] [] [] := ⟨none⟩
  have full : ([] : List α).length ≠ set.nodeCapacity := by
    rw [singles.nodeCapacity]
    exact Nat.zero_ne_one
  obtain ⟨inserted, grown, ran, gained⟩ := insertAt_inserted opened (fun same => absurd same full) value
  have inner : grown.inner = [[value]] := by
    obtain ⟨middle, takes, inner⟩ := gained.takes
    cases takes with
    | spare room => exact inner
    | left same => exact absurd same full
    | right same => exact absurd same full
  have there : set.locateNode id (key value) = ([] : List (List α)).length := position
  refine ⟨inserted, grown, by rw [BTreeSet.insert, there, ran], singles.grown_singles gained ?_ ?_ ?_⟩
  · intro other member
    rw [inner] at member
    exact ⟨value, List.mem_singleton.mp member⟩
  · rw [elements, inner]
    exact List.pairwise_singleton _ _
  · intro element
    simp [elements, inner, none]

private theorem around (singles : Singles set stored) {before after : List (List α)} {item : α}
    (opened : Opened set before [item] after) : Node.Sorted before.flatten ∧ Node.Sorted (item :: after.flatten) ∧
      ∀ first ∈ before.flatten, ∀ second ∈ item :: after.flatten, key first < key second :=
  Node.sorted_append.mp (opened.elements ▸ singles.valid.sorted : Node.Sorted (before.flatten ++ ([item] ++ after.flatten)))

private theorem insert_before (singles : Singles set stored) {value item : α} {before after : List (List α)}
    {inserted : Bool} {grown : BTreeSet F α} (gained : Inserted set before [item] after value inserted grown)
    (inner : grown.inner = before ++ [value] :: [item] :: after) (below : key value < key item)
    (lower : ∀ element ∈ before.flatten, key element < key value) : Singles grown (Insert.insert (key value) stored) := by
  have opened := gained.toOpened
  obtain ⟨first, second, across⟩ := singles.around opened
  have former : set.elements = before.flatten ++ item :: after.flatten := opened.elements
  apply singles.grown_singles gained
  · intro other member
    rw [inner] at member
    simp only [List.mem_append, List.mem_cons] at member
    have known : ∀ other ∈ set.inner, ∃ item, other = [item] := fun other stored =>
      singles.node_eq stored (by rw [former]; simp)
    simp only [opened.nodes, List.mem_append, List.mem_cons] at known
    rcases member with earlier | rfl | here | later
    · exact known other (Or.inl earlier)
    · exact ⟨value, rfl⟩
    · exact known other (Or.inr (Or.inl here))
    · exact known other (Or.inr (Or.inr later))
  · have greater : ∀ element ∈ item :: after.flatten, key value < key element := by
      rw [List.forall_mem_cons]
      exact ⟨below, fun element member => below.trans (List.rel_of_pairwise_cons second member)⟩
    have sorted : Node.Sorted (before.flatten ++ value :: item :: after.flatten) := by
      refine Node.sorted_append.mpr ⟨first, List.pairwise_cons.mpr ⟨greater, second⟩, ?_⟩
      intro element member
      rw [List.forall_mem_cons]
      exact ⟨lower element member, across element member⟩
    simpa [elements, inner] using sorted
  · intro element
    rw [former, elements, inner]
    simp only [List.flatten_append, List.flatten_cons, List.mem_append, List.mem_cons, List.not_mem_nil, or_false]
    tauto

theorem insert (singles : Singles set stored) {value : α} (precedes : (SizedCall.insert value).Precedes stored) :
    ∃ inserted grown, set.insert value = some (inserted, grown) ∧ Singles grown (Insert.insert (key value) stored) := by
  by_cases empty : stored = ∅
  · exact singles.insert_first value empty
  obtain ⟨absent, greater, held, above⟩ := precedes.resolve_left empty
  obtain ⟨before, item, after, inserted, grown, opened, ran, gained, placed, lower, upper⟩ := singles.placed value empty
  refine ⟨inserted, grown, ran, ?_⟩
  generalize inner : grown.inner = nodes at placed
  cases placed with
  | split below => exact singles.insert_before gained inner below lower
  | hidden reached taken =>
    -- the node of a greater element would have been found
    exfalso
    have former : set.elements = before.flatten ++ item :: after.flatten := opened.elements
    have here : key item ∈ stored := (singles.holds _).mpr ⟨item, by rw [former]; simp, rfl⟩
    have final : after = [] := by
      by_contra more
      exact absent (le_antisymm (upper more) reached ▸ here)
    obtain ⟨element, member, rfl⟩ := (singles.holds greater).mp held
    rw [former, final] at member
    rcases List.mem_append.mp member with earlier | last
    · exact absurd above (lower element earlier).asymm
    · rw [List.mem_singleton.mp last] at above
      exact absurd above reached.not_gt

/-- Any other insertion hides a stored element. -/
theorem insert_hides (singles : Singles set stored) {value : α} (other : ¬(SizedCall.insert value).Precedes stored) :
    ∃ inserted grown item, set.insert value = some (inserted, grown) ∧ item ∈ stored ∧ grown.contains id item = some false := by
  obtain ⟨filled, late⟩ := not_or.mp other
  obtain ⟨before, item, after, inserted, grown, opened, ran, gained, placed, lower, _⟩ := singles.placed value filled
  obtain ⟨_, second, across⟩ := singles.around opened
  have former : set.elements = before.flatten ++ item :: after.flatten := opened.elements
  have here : key item ∈ stored := (singles.holds _).mpr ⟨item, by rw [former]; simp, rfl⟩
  refine ⟨inserted, grown, key item, ran, here, ?_⟩
  generalize inner : grown.inner = nodes at placed
  cases placed with
  | split below =>
    exfalso
    apply late
    refine ⟨fun held => ?_, key item, here, below⟩
    obtain ⟨element, member, same⟩ := (singles.holds _).mp held
    rw [former] at member
    rcases List.mem_append.mp member with earlier | later
    · exact (lower element earlier).ne same
    · rcases List.mem_cons.mp later with rfl | later
      · exact below.ne same.symm
      · exact (below.trans (List.rel_of_pairwise_cons second later)).ne same.symm
  | hidden reached taken =>
    apply contains_hidden inner
    · intro node member
      obtain ⟨first, rfl⟩ := singles.node_eq (opened.nodes ▸ List.mem_append_left _ member) (by rw [former]; simp)
      exact List.cons_ne_nil _ _
    · exact fun element member => across element member item List.mem_cons_self

/-- One call keeps the elements in nodes of their own exactly when it answers as it should afterwards. -/
theorem call (singles : Singles set stored) (call : SizedCall α κ) :
    (call.Precedes stored ∧ ∃ after, call.run set = some after ∧ Singles after (call.held stored)) ∨
    ¬call.Precedes stored ∧ ∀ after, call.run set = some after → ¬Answers after (call.held stored) := by
  cases call with
  | insert value =>
    by_cases precedes : (SizedCall.insert value).Precedes stored
    · obtain ⟨inserted, grown, ran, grownSingles⟩ := singles.insert precedes
      exact Or.inl ⟨precedes, grown, by rw [SizedCall.run, ran]; rfl, grownSingles⟩
    · obtain ⟨inserted, grown, item, ran, held, hidden⟩ := singles.insert_hides precedes
      refine Or.inr ⟨precedes, fun after done answers => ?_⟩
      rw [SizedCall.run, ran] at done
      cases done
      obtain ⟨answer, found, right⟩ := answers id strictMono_id item
      cases hidden.symm.trans found
      exact Bool.false_ne_true (right.mpr ⟨item, Set.mem_insert_of_mem _ held, rfl⟩)
  | remove borrow strict value =>
    obtain ⟨result, left, ran, leftSingles⟩ := singles.remove strict value
    exact Or.inl ⟨trivial, left, by rw [SizedCall.run, ran]; rfl, leftSingles⟩

end Singles

/-- The calls return, and the look-ups afterwards find exactly what is inserted and not removed since. -/
def Usable (set : BTreeSet F α) (stored : Set κ) (calls : List (SizedCall α κ)) : Prop :=
  ∃ after, SizedCall.runAll calls set = some after ∧ Answers after (SizedCall.heldAfter calls stored)

private theorem usable_iff (singles : Singles set stored) (calls : List (SizedCall α κ)) :
    (∀ done, done <+: calls → Usable set stored done) ↔ SizedCall.AllPrecede calls stored := by
  induction calls generalizing set stored with
  | nil =>
    refine iff_of_true ?_ trivial
    intro done early
    obtain rfl := List.prefix_nil.mp early
    exact ⟨set, rfl, singles.answers⟩
  | cons call calls ih =>
    rcases singles.call call with ⟨precedes, after, ran, kept⟩ | ⟨other, wrong⟩
    · have onward (done : List (SizedCall α κ)) : Usable set stored (call :: done) ↔ Usable after (call.held stored) done := by
        simp only [Usable, SizedCall.runAll, SizedCall.heldAfter, ran, bind, Option.bind_some]
      rw [SizedCall.AllPrecede, and_iff_right precedes, ← ih kept]
      constructor
      · exact fun usable done early => (onward done).mp (usable _ (List.cons_prefix_cons.mpr ⟨rfl, early⟩))
      · intro usable done early
        cases done with
        | nil => exact ⟨set, rfl, singles.answers⟩
        | cons first done =>
          obtain ⟨rfl, further⟩ := List.cons_prefix_cons.mp early
          exact (onward done).mpr (usable done further)
    · refine iff_of_false (fun usable => ?_) (fun all => other all.1)
      obtain ⟨after, ran, answers⟩ := usable [call] (List.cons_prefix_cons.mpr ⟨rfl, List.nil_prefix⟩)
      simp only [SizedCall.runAll, bind, Option.bind_eq_some_iff] at ran
      obtain ⟨left, ran, same⟩ := ran
      cases same
      exact wrong _ ran answers

/-- With a maximum node size of one, a run is right all along exactly when every insertion is made into
the empty set, or puts an absent value before a stored one. -/
theorem node_size_one_usable_iff (calls : List (SizedCall α κ)) :
    (∀ done, done <+: calls → Usable (withMaximumNodeSize 1 : BTreeSet F α) ∅ done) ↔ SizedCall.AllPrecede calls ∅ :=
  usable_iff Singles.start calls

/-- The second of two ascending insertions hides the first element. -/
theorem node_size_one_unusable : ∃ set : BTreeSet (List Nat) Nat,
    SizedCall.runAll [.insert 1, .insert 2] (withMaximumNodeSize 1) = some set ∧ set.inner = [[], [1, 2]] ∧
      set.contains id 1 = some false ∧
      ¬Usable (withMaximumNodeSize 1 : BTreeSet (List Nat) Nat) ∅ [SizedCall.insert 1, SizedCall.insert 2] := by
  refine ⟨_, rfl, rfl, rfl, ?_⟩
  intro given
  obtain ⟨after, ran, answers⟩ := given
  cases ran
  obtain ⟨answer, found, right⟩ := answers id strictMono_id 1
  cases found
  exact Bool.false_ne_true (right.mpr ⟨1, Or.inr (Or.inl rfl), rfl⟩)

end BTreeSet
end WorkTablesIndex.Indexset
