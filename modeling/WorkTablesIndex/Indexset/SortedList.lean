import WorkTablesIndex.NodeLaws

/-! The sorted list without duplicates that a single-threaded collection stands for, and what its
calls do to such a list. -/

namespace WorkTablesIndex.SortedList

variable {α κ Q : Type} [LinearOrder κ] [Keyed α κ] [LinearOrder Q]

section Reference
variable (borrow : κ → Q)

def find (value : Q) (items : List α) : Option α := items.find? (fun item => decide (borrow (key item) = value))

def without (value : Q) (items : List α) : List α := items.filter (fun item => decide (borrow (key item) ≠ value))

def store (value : α) (items : List α) : List α :=
  items.filter (fun item => decide (key item < key value)) ++ value :: items.filter (fun item => decide (key value < key item))

def insert (value : α) (items : List α) : Bool × List α :=
  if (find id (key value) items).isSome then (false, items) else (true, store value items)

def replace (value : α) (items : List α) : Option α × List α := (find id (key value) items, store value items)

def remove (value : Q) (items : List α) : Bool × List α := ((find borrow value items).isSome, without borrow value items)

def take (value : Q) (items : List α) : Option α × List α := (find borrow value items, without borrow value items)

def popFirst (items : List α) : Option α × List α := (items.head?, items.tail)

def popLast (items : List α) : Option α × List α := (items.getLast?, items.dropLast)

inductive End where
  | front
  | back

def drain : List End → List α → List (Option α) × List α
  | [], items => ([], items)
  | side :: rest, items =>
    let (item, items) := match side with
      | .front => popFirst items
      | .back => popLast items
    let (later, items) := drain rest items
    (item :: later, items)

def retain {σ : Type} (f : α → σ → Bool × σ) : List α → σ → σ × List α
  | [], state => (state, [])
  | item :: rest, state =>
    let (keep, state) := f item state
    let (state, kept) := retain f rest state
    (state, if keep then item :: kept else kept)

/-- Both lists in order, less the elements that `other` replaces. -/
def append (items other : List α) : List α :=
  (items.filter fun item => other.all fun moved => decide (key moved ≠ key item)).merge other
    fun first second => decide (key first ≤ key second)

def splitOff (value : Q) (items : List α) : List α × List α :=
  (items.filter (fun item => decide (borrow (key item) < value)), items.filter (fun item => decide (value ≤ borrow (key item))))

def contains (value : Q) (items : List α) : Bool := (find borrow value items).isSome

def lowerBound (value : Q) (items : List α) : Option α := items.find? (fun item => decide (value ≤ borrow (key item)))

end Reference

/-- The elements below the value, and the others. -/
structure Cut (borrow : κ → Q) (value : Q) (low high : List α) : Prop where
  sorted : Node.Sorted (low ++ high)
  lower : ∀ item ∈ low, borrow (key item) < value
  upper : ∀ item ∈ high, value ≤ borrow (key item)

variable {borrow : κ → Q} {value : Q} {low high : List α} {item : α}

theorem Cut.filter_lt (cut : Cut borrow value low high) :
    (low ++ high).filter (fun item => decide (borrow (key item) < value)) = low := by
  rw [List.filter_append, List.filter_eq_self.mpr, List.filter_eq_nil_iff.mpr, List.append_nil]
  · intro item member
    simpa using cut.upper item member
  · intro item member
    simpa using cut.lower item member

theorem Cut.filter_ge (cut : Cut borrow value low high) :
    (low ++ high).filter (fun item => decide (value ≤ borrow (key item))) = high := by
  rw [List.filter_append, List.filter_eq_nil_iff.mpr, List.nil_append, List.filter_eq_self.mpr]
  · intro item member
    simpa using cut.upper item member
  · intro item member
    simpa using cut.lower item member

theorem Cut.lowerBound (cut : Cut borrow value low high) : lowerBound borrow value (low ++ high) = high.head? := by
  rw [SortedList.lowerBound, ← List.head?_filter, cut.filter_ge]

theorem Cut.find_equal (cut : Cut borrow value low (item :: high)) (same : borrow (key item) = value) :
    find borrow value (low ++ item :: high) = some item := by
  rw [find, List.find?_append, List.find?_eq_none.mpr, Option.none_or, List.find?_cons_of_pos (by simpa using same)]
  intro other member
  simpa using (cut.lower other member).ne

theorem Cut.without_equal (cut : Cut borrow value low (item :: high)) (strict : StrictMono borrow)
    (same : borrow (key item) = value) : without borrow value (low ++ item :: high) = low ++ high := by
  have above := (List.pairwise_cons.mp (Node.sorted_append.mp cut.sorted).2.1).1
  rw [without, List.filter_append, List.filter_cons_of_neg (by simpa using same), List.filter_eq_self.mpr, List.filter_eq_self.mpr]
  · intro other member
    have beyond := strict (above other member)
    rw [same] at beyond
    simpa using beyond.ne'
  · intro other member
    simpa using (cut.lower other member).ne

theorem Cut.absent (cut : Cut borrow value low high) (strict : StrictMono borrow)
    (first : ∀ item, high.head? = some item → borrow (key item) ≠ value) : ∀ item ∈ low ++ high, borrow (key item) ≠ value := by
  intro item member
  rcases List.mem_append.mp member with below | above
  · exact (cut.lower item below).ne
  · cases high with
    | nil => cases above
    | cons head rest =>
      rcases List.mem_cons.mp above with rfl | later
      · exact first item rfl
      · have reached := cut.upper head List.mem_cons_self
        have beyond := strict (List.rel_of_pairwise_cons (Node.sorted_append.mp cut.sorted).2.1 later)
        exact (reached.trans_lt beyond).ne'

omit [LinearOrder κ] in
theorem find_absent {items : List α} (absent : ∀ item ∈ items, borrow (key item) ≠ value) : find borrow value items = none :=
  List.find?_eq_none.mpr fun item member => by simpa using absent item member

omit [LinearOrder κ] in
theorem without_absent {items : List α} (absent : ∀ item ∈ items, borrow (key item) ≠ value) : without borrow value items = items :=
  List.filter_eq_self.mpr fun item member => by simpa using absent item member

variable {items other : List α} {stored : α}

theorem store_upserted (sorted : Node.Sorted items) (stored : α) : Node.Upserted items stored (store stored items) := by
  refine ⟨Node.sorted_append.mpr ⟨sorted.sublist List.filter_sublist,
    List.pairwise_cons.mpr ⟨?_, sorted.sublist List.filter_sublist⟩, ?_⟩, fun item => ?_⟩
  · intro item member
    simpa using (List.mem_filter.mp member).2
  · intro first below second member
    have before : key first < key stored := by simpa using (List.mem_filter.mp below).2
    rcases List.mem_cons.mp member with rfl | above
    · exact before
    · exact before.trans (by simpa using (List.mem_filter.mp above).2)
  · simp only [store, List.mem_append, List.mem_cons, List.mem_filter, decide_eq_true_eq, ne_iff_lt_or_gt]
    constructor
    · intro member
      rcases member with ⟨there, below⟩ | rfl | ⟨there, above⟩
      · exact Or.inr ⟨there, Or.inl below⟩
      · exact Or.inl rfl
      · exact Or.inr ⟨there, Or.inr above⟩
    · intro member
      rcases member with rfl | ⟨there, below | above⟩
      · exact Or.inr (Or.inl rfl)
      · exact Or.inl ⟨there, below⟩
      · exact Or.inr (Or.inr ⟨there, above⟩)

theorem eraseIdx_eq_without (sorted : Node.Sorted items) {idx : Nat} {item : α} (there : items[idx]? = some item) :
    items.eraseIdx idx = without id (key item) items := by
  refine (Node.eraseIdx_sorted sorted idx).ext (sorted.sublist List.filter_sublist) fun other => ?_
  rw [Node.mem_eraseIdx sorted there, without, List.mem_filter]
  simp

theorem eq_store (sorted : Node.Sorted items) {after : List α} (upserted : Node.Upserted items stored after) :
    after = store stored items := by
  have expected := store_upserted sorted stored
  exact upserted.sorted.ext expected.sorted fun item => by rw [upserted.mem, expected.mem]

omit [LinearOrder κ] in
theorem find_isSome {items : List α} : (find borrow value items).isSome = true ↔ ∃ item ∈ items, borrow (key item) = value := by
  simp [find, List.find?_isSome]

theorem mem_append {item : α} : item ∈ append items other ↔
    item ∈ other ∨ item ∈ items ∧ ∀ moved ∈ other, key moved ≠ key item := by
  simp only [append, List.mem_merge, List.mem_filter, List.all_eq_true, decide_eq_true_eq]
  exact or_comm

theorem append_sorted (sorted : Node.Sorted items) (ordered : Node.Sorted other) : Node.Sorted (append items other) := by
  have kept : Node.Sorted (items.filter fun item => other.all fun moved => decide (key moved ≠ key item)) :=
    sorted.sublist List.filter_sublist
  have weak : ∀ {list : List α}, Node.Sorted list → list.Pairwise fun first second => decide (key first ≤ key second) = true :=
    fun ordered => List.Pairwise.imp (fun below => by simpa using below.le) ordered
  have apart : ∀ {list : List α}, Node.Sorted list → list.Pairwise fun first second => key first ≠ key second :=
    fun ordered => List.Pairwise.imp (fun below => below.ne) ordered
  have nondecreasing : (append items other).Pairwise fun first second => decide (key first ≤ key second) = true := by
    refine List.pairwise_merge ?_ ?_ _ _ (weak kept) (weak ordered)
    · intro first second third
      simp only [decide_eq_true_eq]
      exact le_trans
    · intro first second
      simpa using le_total (key first) (key second)
  have distinct : (append items other).Pairwise fun first second => key first ≠ key second := by
    refine (List.Perm.pairwise_iff (fun apart => Ne.symm apart) (List.merge_perm_append ..)).mpr
      (List.pairwise_append.mpr ⟨apart kept, apart ordered, ?_⟩)
    intro item stays moved member
    have others := (List.mem_filter.mp stays).2
    simp only [List.all_eq_true, decide_eq_true_eq] at others
    exact (others moved member).symm
  apply (nondecreasing.and distinct).imp
  intro earlier later both
  exact lt_of_le_of_ne (by simpa using both.1) both.2

end WorkTablesIndex.SortedList
