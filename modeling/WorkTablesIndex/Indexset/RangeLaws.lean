import Mathlib.Data.List.Nodup
import WorkTablesIndex.Indexset.OrderStatistics
import WorkTablesIndex.RangeLaws

/-! Ranges of values in the single-threaded set and map. Both bounds become positions, so a
range is exact when neither position is off by one, or when being off by one does not show. -/

namespace WorkTablesIndex.Indexset
open Slice

variable {F α κ Q : Type}

section Windows
variable {items : List α} {first upTo : Nat}

private def window (first upTo : Nat) (items : List α) : List α := (items.drop first).take (upTo - first)

private theorem window_length (inside : upTo ≤ items.length) : (window first upTo items).length = upTo - first := by
  rw [window, List.length_take, List.length_drop]
  omega

/-- Either end, drawn between two positions, gives just these values. -/
private def Shows (frontIdx backIdx : Nat) (items values : List α) : Prop :=
  Iter.cut frontIdx backIdx (items.drop frontIdx) = values ∧
    Iter.cut frontIdx backIdx (items.take backIdx).reverse = values.reverse

private theorem shows_window (ordered : first ≤ upTo) (inside : upTo ≤ items.length) :
    Shows first upTo items (window first upTo items) := by
  refine ⟨by rw [Iter.cut, if_pos ordered, window], ?_⟩
  rw [Iter.cut, if_pos ordered, List.take_reverse, List.length_take, Nat.min_eq_left inside, List.drop_take, window]
  rw [Nat.sub_sub_self ordered]

private theorem shows_longer (ordered : first ≤ upTo) (inside : upTo ≤ items.length) :
    Shows first (upTo + 1) items (window first upTo items) ↔ first = 0 ∧ upTo = items.length := by
  constructor
  · intro given
    obtain ⟨front, back⟩ := given
    have some := congrArg List.length front
    have others := congrArg List.length back
    rw [Iter.cut, if_pos (by omega), window_length inside, List.length_take, List.length_drop] at some
    rw [Iter.cut, if_pos (by omega), List.length_reverse, window_length inside, List.length_take, List.length_reverse,
      List.length_take] at others
    omega
  · intro given
    obtain ⟨rfl, rfl⟩ := given
    have all : items.take (items.length + 1) = items := List.take_of_length_le (Nat.le_succ _)
    have back : items.reverse.take (items.length + 1) = items.reverse :=
      List.take_of_length_le (by rw [List.length_reverse]; exact Nat.le_succ _)
    simp [Shows, Iter.cut, window, all, back]

private theorem not_shows_shorter (ordered : first ≤ upTo) (inside : upTo ≤ items.length) (positive : 0 < upTo) :
    ¬Shows (first + 1) upTo items (window first upTo items) := by
  intro given
  obtain ⟨front, back⟩ := given
  by_cases before : first + 1 ≤ upTo
  · have length := congrArg List.length front
    rw [Iter.cut, if_pos before, window_length inside, List.length_take, List.length_drop] at length
    omega
  · have length := congrArg List.length back
    rw [Iter.cut, if_neg before, List.length_reverse, List.length_reverse, window_length inside,
      List.length_take] at length
    omega

private theorem shows_later (unique : items.Nodup) (ordered : first ≤ upTo) (inside : upTo ≤ items.length) :
    Shows (first + 1) (upTo + 1) items (window first upTo items) ↔ first = upTo := by
  constructor
  · intro given
    obtain ⟨front, _⟩ := given
    by_contra apart
    rw [Iter.cut, if_pos (by omega)] at front
    have there : first < items.length := by omega
    have head := congrArg List.head? front
    rw [window, List.head?_take, List.head?_take, if_neg (by omega), if_neg (by omega), List.head?_drop, List.head?_drop,
      List.getElem?_eq_getElem there] at head
    obtain ⟨further, same⟩ := List.getElem?_eq_some_iff.mp head
    have equal := unique.getElem_inj_iff.mp same
    omega
  · rintro rfl
    simp [Shows, Iter.cut, window]

/-- Either end may be one position too far. -/
private theorem shows_iff (unique : items.Nodup) (ordered : first ≤ upTo) (inside : upTo ≤ items.length) {late far : Bool}
    (filled : late = true → far = false → 0 < upTo) :
    Shows (first + late.toNat) (upTo + far.toNat) items (window first upTo items) ↔
      (late = false ∧ (far = false ∨ window first upTo items = items)) ∨
        (late = true ∧ far = true ∧ window first upTo items = []) := by
  have whole : window first upTo items = items ↔ first = 0 ∧ upTo = items.length := by
    constructor
    · intro same
      have length := congrArg List.length same
      rw [window_length inside] at length
      omega
    · intro given
      obtain ⟨rfl, rfl⟩ := given
      simp [window]
  have empty : window first upTo items = [] ↔ first = upTo := by
    rw [← List.length_eq_zero_iff, window_length inside]
    omega
  rw [whole, empty]
  cases late with
  | false =>
    cases far with
    | false => simpa using shows_window ordered inside
    | true => simpa using shows_longer ordered inside
  | true =>
    cases far with
    | false => simpa using not_shows_shorter ordered inside (filled rfl rfl)
    | true => simpa using shows_later unique ordered inside

end Windows

section Bounds
variable [Keyed α κ] [LinearOrder Q] (borrow : κ → Q)

def inBounds (start last : Bound Q) (item : α) : Bool := start.admits borrow (key item) && last.permits borrow (key item)

def within (start last : Bound Q) (items : List α) : List α := items.filter (inBounds borrow start last)

/-- The start is not above the end, and the bounds do not both exclude the same value. -/
def Ordered : Bound Q → Bound Q → Prop
  | .excluded start, .excluded last => start < last
  | .included start, .included last | .included start, .excluded last | .excluded start, .included last => start ≤ last
  | _, _ => True

def startAbsent (items : List α) : Bound Q → Bool
  | .excluded value => (SortedList.find borrow value items).isNone
  | _ => false

def endAbsent (items : List α) : Bound Q → Bool
  | .included value => (SortedList.find borrow value items).isNone
  | _ => false

def endFirst (items : List α) : Bound Q → Bool
  | .excluded value => !items.any (BTreeSet.below borrow value)
  | .unbounded => items.isEmpty
  | _ => false

variable {borrow} {items : List α} {start last : Bound Q}

def skipped (borrow : κ → Q) (start : Bound Q) (items : List α) : Nat :=
  (items.filter fun item => !start.admits borrow (key item)).length

private def kept (borrow : κ → Q) (last : Bound Q) (items : List α) : Nat :=
  (items.filter fun item => last.permits borrow (key item)).length

theorem permits_of_not_admits (ordered : Ordered start last) {candidate : κ}
    (outside : start.admits borrow candidate = false) :
    last.permits borrow candidate = true := by
  cases start with
  | unbounded => cases outside
  | included first =>
    have below := not_le.mp (of_decide_eq_false outside)
    cases last with
    | unbounded => rfl
    | included final => exact decide_eq_true (below.le.trans ordered)
    | excluded final => exact decide_eq_true (below.trans_le ordered)
  | excluded first =>
    have upTo := not_lt.mp (of_decide_eq_false outside)
    cases last with
    | unbounded => rfl
    | included final => exact decide_eq_true (upTo.trans ordered)
    | excluded final => exact decide_eq_true (upTo.trans_lt ordered)

private theorem skipped_le_kept (ordered : Ordered start last) : skipped borrow start items ≤ kept borrow last items := by
  refine (List.monotone_filter_right items ?_).length_le
  intro item outside
  exact permits_of_not_admits ordered (by simpa using outside)

private theorem kept_le : kept borrow last items ≤ items.length := List.length_filter_le _ _

theorem skipped_included (value : Q) :
    skipped borrow (.included value) items = (items.filter (BTreeSet.below borrow value)).length := by
  simp only [skipped, Bound.admits, ← decide_not, not_le]
  rfl

private theorem skipped_excluded (value : Q) :
    skipped borrow (.excluded value) items = (items.filter fun item => decide (borrow (key item) ≤ value)).length := by
  simp only [skipped, Bound.admits, ← decide_not, not_lt]

theorem skipped_unbounded : skipped borrow .unbounded items = 0 :=
  List.length_eq_zero_iff.mpr (List.filter_eq_nil_iff.mpr fun _ _ => Bool.false_ne_true)

private theorem kept_unbounded : kept borrow .unbounded items = items.length :=
  congrArg List.length (List.filter_eq_self.mpr fun _ _ => rfl)

private theorem found_or_absent {value : Option α} : value.toList.length + value.isNone.toNat = 1 := by
  cases value <;> rfl

private theorem below_absent (value : Q) : (items.filter (BTreeSet.below borrow value)).length - 1 + 1 =
    (items.filter (BTreeSet.below borrow value)).length + (endFirst borrow items (.excluded value)).toNat := by
  cases empty : items.any (BTreeSet.below borrow value) with
  | true =>
    obtain ⟨item, member, holds⟩ := List.any_eq_true.mp empty
    have positive := List.length_pos_of_mem (List.mem_filter.mpr ⟨member, holds⟩)
    simp only [endFirst, empty, Bool.not_true, Bool.toNat_false]
    omega
  | false =>
    have none : items.filter (BTreeSet.below borrow value) = [] := by
      rw [List.filter_eq_nil_iff]
      intro item member holds
      exact Bool.eq_false_iff.mp empty (List.any_eq_true.mpr ⟨item, member, holds⟩)
    simp [endFirst, empty, none]

private theorem none_upTo {value : Q} (above : ∀ item ∈ items, value < borrow (key item)) :
    items.filter (fun item => decide (borrow (key item) ≤ value)) = [] ∧ items.filter (BTreeSet.below borrow value) = [] ∧
      SortedList.find borrow value items = none :=
  ⟨List.filter_eq_nil_iff.mpr fun item member => by simpa using above item member,
    List.filter_eq_nil_iff.mpr fun item member => by simpa [BTreeSet.below] using (above item member).le,
    SortedList.find_absent fun item member => (above item member).ne'⟩

variable [LinearOrder κ]

private theorem drop_skipped (sorted : Node.Sorted items) (monotone : Monotone borrow) (start : Bound Q) :
    items.drop (skipped borrow start items) = items.filter fun item => start.admits borrow (key item) := by
  have before := sorted.prefixed_start monotone start
  rw [skipped, ← take_eq_filter before, List.length_take, Nat.min_eq_left partitionPoint_le, drop_eq_filter before]
  simp only [Bool.not_not]

private theorem take_kept (sorted : Node.Sorted items) (monotone : Monotone borrow) (last : Bound Q) :
    items.take (kept borrow last items) = items.filter fun item => last.permits borrow (key item) := by
  have upTo := sorted.prefixed_end monotone last
  rw [kept, ← take_eq_filter upTo, List.length_take, Nat.min_eq_left partitionPoint_le]

private theorem within_eq (sorted : Node.Sorted items) (monotone : Monotone borrow) (ordered : Ordered start last) :
    within borrow start last items = window (skipped borrow start items) (kept borrow last items) items := by
  have same :
      skipped borrow start (items.filter fun item => last.permits borrow (key item)) = skipped borrow start items := by
    rw [skipped, skipped, List.filter_filter]
    congr 2
    funext item
    cases outside : start.admits borrow (key item) with
    | true => rfl
    | false => simp [permits_of_not_admits ordered outside]
  rw [within, window, ← List.drop_take, take_kept sorted monotone, ← same,
    drop_skipped (sorted.sublist List.filter_sublist) monotone,
    List.filter_filter]
  rfl

private theorem length_upTo (sorted : Node.Sorted items) (strict : StrictMono borrow) (value : Q) :
    (items.filter fun item => decide (borrow (key item) ≤ value)).length =
      (items.filter (BTreeSet.below borrow value)).length + (SortedList.find borrow value items).toList.length := by
  induction items with
  | nil => rfl
  | cons item rest ih =>
    obtain ⟨least, sorted⟩ := List.pairwise_cons.mp sorted
    have above : value ≤ borrow (key item) → ∀ other ∈ rest, value < borrow (key other) :=
      fun reached other member => reached.trans_lt (strict (least other member))
    rcases lt_trichotomy (borrow (key item)) value with before | same | beyond
    · have found : SortedList.find borrow value (item :: rest) = SortedList.find borrow value rest :=
        List.find?_cons_of_neg (by simpa using before.ne)
      rw [found, List.filter_cons_of_pos (by simpa using before.le),
        List.filter_cons_of_pos (by simpa [BTreeSet.below] using before),
        List.length_cons, List.length_cons, ih sorted]
      omega
    · have found : SortedList.find borrow value (item :: rest) = some item := List.find?_cons_of_pos (by simpa using same)
      obtain ⟨upTo, below, _⟩ := none_upTo (above same.ge)
      rw [found, List.filter_cons_of_pos (by simpa using same.le),
        List.filter_cons_of_neg (by simpa [BTreeSet.below] using same.ge),
        upTo, below]
      rfl
    · obtain ⟨upTo, below, absent⟩ := none_upTo (List.forall_mem_cons.mpr ⟨beyond, above beyond.le⟩)
      rw [absent, upTo, below]
      rfl

private theorem kept_included (sorted : Node.Sorted items) (strict : StrictMono borrow) (value : Q) :
    (items.filter (BTreeSet.below borrow value)).length + 1 =
      kept borrow (.included value) items + (endAbsent borrow items (.included value)).toNat := by
  have stored := length_upTo sorted strict value
  have once : (SortedList.find borrow value items).toList.length +
      (SortedList.find borrow value items).isNone.toNat = 1 :=
    found_or_absent
  simp only [kept, Bound.permits, endAbsent]
  omega

theorem skipped_late (sorted : Node.Sorted items) (strict : StrictMono borrow) (value : Q) :
    (items.filter (BTreeSet.below borrow value)).length + 1 =
      skipped borrow (.excluded value) items + (startAbsent borrow items (.excluded value)).toNat := by
  rw [kept_included sorted strict, skipped_excluded]
  rfl

private theorem kept_pos (sorted : Node.Sorted items) (strict : StrictMono borrow)
    (placed : (endAbsent borrow items last || endFirst borrow items last) = false) : 0 < kept borrow last items := by
  obtain ⟨stored, before⟩ := Bool.or_eq_false_iff.mp placed
  cases last with
  | included value =>
    have place := kept_included sorted strict value
    rw [stored] at place
    exact Nat.lt_of_lt_of_eq (Nat.succ_pos _) place
  | excluded value =>
    have place : (items.filter (BTreeSet.below borrow value)).length - 1 + 1 =
        (items.filter (BTreeSet.below borrow value)).length + (endFirst borrow items (.excluded value)).toNat :=
          below_absent value
    rw [before] at place
    exact Nat.lt_of_lt_of_eq (Nat.succ_pos _) place
  | unbounded =>
    rw [kept_unbounded, List.length_pos_iff]
    exact List.isEmpty_eq_false_iff.mp before

/-- What either end shows of the items within the bounds when it may be one position too far. -/
private theorem shows_within (sorted : Node.Sorted items) (monotone : Monotone borrow) (ordered : Ordered start last)
    (late far : Bool) (filled : late = true → far = false → 0 < kept borrow last items) :
    Shows (skipped borrow start items + late.toNat) (kept borrow last items + far.toNat) items
      (within borrow start last items) ↔
      (late = false ∧ (far = false ∨ ∀ item ∈ items, inBounds borrow start last item = true)) ∨
        (late = true ∧ far = true ∧ ∀ item ∈ items, inBounds borrow start last item = false) := by
  have before : skipped borrow start items ≤ kept borrow last items := skipped_le_kept ordered
  have all : within borrow start last items = items ↔ ∀ item ∈ items, inBounds borrow start last item = true :=
    List.filter_eq_self
  have none : within borrow start last items = [] ↔ ∀ item ∈ items, inBounds borrow start last item = false := by
    simp only [within, List.filter_eq_nil_iff, Bool.not_eq_true]
  rw [← all, ← none, within_eq sorted monotone ordered]
  exact shows_iff sorted.nodup before kept_le filled

end Bounds

namespace BTreeSet
variable [LinearOrder κ] [Keyed α κ] [LinearOrder Q] {set : BTreeSet F α} {borrow : κ → Q} {start last : Bound Q}

private theorem Ranges.exact_iff {frontIdx backIdx : Nat} {iter : Iter F α} (ranges : Ranges set frontIdx backIdx iter)
    (values : List α) : (Deque.Gives Iter.draw .front iter values ∧ Deque.Gives Iter.draw .back iter values.reverse) ↔
      Shows frontIdx (backIdx + 1) set.elements values := by
  have front := iter.gives_front
  have back := iter.gives_back ranges.inside (by rw [ranges.behind, ranges.backIdx]; exact List.length_take_le _ _)
  rw [ranges.frontIdx, ranges.backIdx, ranges.ahead] at front
  rw [ranges.frontIdx, ranges.backIdx, ranges.behind] at back
  constructor
  · intro given
    obtain ⟨forwards, backwards⟩ := given
    exact ⟨front.unique forwards, back.unique backwards⟩
  · intro given
    obtain ⟨forwards, backwards⟩ := given
    exact ⟨forwards ▸ front, backwards ▸ back⟩

variable [FenwickTree F] [LawfulFenwickTree F]

private theorem startIdx_spec (valid : Valid set) (strict : StrictMono borrow) (start : Bound Q) :
    startIdx borrow set start =
      some (skipped borrow start set.elements + (startAbsent borrow set.elements start).toNat) := by
  cases start with
  | included bound => rw [startIdx, rank_spec valid strict.monotone, skipped_included]; rfl
  | excluded bound =>
    rw [startIdx, rank_spec valid strict.monotone, Option.map_some, skipped_late valid.sorted strict]
  | unbounded => rw [startIdx, skipped_unbounded]; rfl

private theorem endIdx_spec (valid : Valid set) (strict : StrictMono borrow) (last : Bound Q) :
    ∃ backIdx, endIdx borrow set last = some backIdx ∧ backIdx + 1 = kept borrow last set.elements +
      (endAbsent borrow set.elements last || endFirst borrow set.elements last).toNat := by
  cases last with
  | included bound =>
    refine ⟨_, rank_spec valid strict.monotone bound, ?_⟩
    rw [kept_included valid.sorted strict]
    simp only [endFirst, Bool.or_false]
  | excluded bound =>
    refine ⟨_, by rw [endIdx, rank_spec valid strict.monotone, Option.map_some], ?_⟩
    rw [below_absent]
    simp only [endAbsent, Bool.false_or]
    rfl
  | unbounded =>
    refine ⟨_, rfl, ?_⟩
    rw [kept_unbounded, valid.counted]
    simp only [endAbsent, endFirst, Bool.false_or]
    cases set.elements <;> rfl

/-- The range gives the elements within its bounds, from either end. -/
def RangeExact (borrow : κ → Q) (start last : Bound Q) (set : BTreeSet F α) : Prop :=
  ∃ iter, set.range borrow start last = some iter ∧
    Deque.Gives Iter.draw .front iter (within borrow start last set.elements) ∧
    Deque.Gives Iter.draw .back iter (within borrow start last set.elements).reverse

theorem range_elements_iff (reached : Reachable set) (strict : StrictMono borrow) (ordered : Ordered start last) :
    set.RangeExact borrow start last ↔
      (startAbsent borrow set.elements start = false ∧
        ((endAbsent borrow set.elements last = false ∧ endFirst borrow set.elements last = false) ∨
          ∀ item ∈ set.elements, inBounds borrow start last item = true)) ∨
      (startAbsent borrow set.elements start = true ∧
        (endAbsent borrow set.elements last = true ∨ endFirst borrow set.elements last = true) ∧
          ∀ item ∈ set.elements, inBounds borrow start last item = false) := by
  have valid := reached.valid
  obtain ⟨backIdx, final, position⟩ := endIdx_spec valid strict last
  obtain ⟨iter, made, ranges⟩ := rangeIdx_spec valid
    (skipped borrow start set.elements + (startAbsent borrow set.elements start).toNat) backIdx
  have ends := ranges.exact_iff (within borrow start last set.elements)
  rw [position, shows_within valid.sorted strict.monotone ordered _ _ (fun _ => kept_pos valid.sorted strict),
    Bool.or_eq_false_iff,
    Bool.or_eq_true] at ends
  rw [← ends, RangeExact]
  simp only [range, startIdx_spec valid strict, final, made, bind, Option.bind_some, Option.some.injEq, exists_eq_left']

/-- An end between two elements, and an end at one. -/
theorem range_elements_iff_three : ∃ set : BTreeSet (List Nat) Nat, Reachable set ∧ set.inner = [[3], [5, 8]] ∧
    set.RangeExact id (.excluded 3) (.included 5) ∧ ¬set.RangeExact id (.included 3) (.included 4) := by
  have reached : ∃ set : BTreeSet (List Nat) Nat, Reachable set ∧ set = ⟨[[3], [5, 8]], [1, 2], 2, 3⟩ :=
    ⟨_, .insert (.insert (.insert (.withMaximumNodeSize (le_refl 2)) 3 rfl) 5 rfl) 8 rfl, rfl⟩
  obtain ⟨_, reached, rfl⟩ := reached
  refine ⟨_, reached, rfl, ?_, ?_⟩
  · have ordered : Ordered (.excluded 3) (.included 5) := show 3 ≤ 5 by decide
    exact (range_elements_iff reached strictMono_id ordered).mpr (by decide)
  · have ordered : Ordered (.included 3) (.included 4) := show 3 ≤ 4 by decide
    exact fun gives => absurd ((range_elements_iff reached strictMono_id ordered).mp gives) (by decide)

/-- The element after an end that is not stored is given as well. -/
theorem range_beyond_end : ∃ set : BTreeSet (List Nat) Nat, ∃ iter, Reachable set ∧ set.elements = [3, 5, 8] ∧
    set.range id (.included 3) (.included 4) = some iter ∧ Deque.drain Iter.draw .front 3 iter = some [3, 5] ∧
    within id (.included 3) (.included 4) set.elements = [3] ∧ ¬set.RangeExact id (.included 3) (.included 4) := by
  have reached : ∃ set : BTreeSet (List Nat) Nat, Reachable set ∧ set = ⟨[[3], [5, 8]], [1, 2], 2, 3⟩ :=
    ⟨_, .insert (.insert (.insert (.withMaximumNodeSize (le_refl 2)) 3 rfl) 5 rfl) 8 rfl, rfl⟩
  obtain ⟨_, reached, rfl⟩ := reached
  refine ⟨_, _, reached, rfl, rfl, by decide, rfl, ?_⟩
  intro given
  obtain ⟨iter, made, front, _⟩ := given
  cases made
  exact absurd (front 3 (by decide)) (by decide)

end BTreeSet

namespace BTreeMap
variable {K V : Type} [FenwickTree F] [LinearOrder κ] [Keyed K κ] [LinearOrder Q] {map : BTreeMap F K V} {borrow : κ → Q}
  {start last : Bound Q}

theorem item_injective : Function.Injective (item : Pair K V → K × V) := by
  rintro ⟨firstKey, firstValue⟩ ⟨secondKey, secondValue⟩ same
  cases same
  rfl

def RangeExact (borrow : κ → Q) (start last : Bound Q) (map : BTreeMap F K V) : Prop :=
  ∃ iter, map.range borrow start last = some iter ∧
    Deque.Gives draw .front iter ((within borrow start last map.entries).map item) ∧
    Deque.Gives draw .back iter ((within borrow start last map.entries).map item).reverse

variable [LawfulFenwickTree F]

private theorem descending_upTo (monotone : Monotone borrow) (bound : Q) :
    BTreeSet.Descending (keyUpTo borrow bound : Pair K V → Bool) := by
  intro first second before
  simp only [keyUpTo, decide_eq_true_eq]
  exact fun upTo => (monotone before.le).trans upTo

private theorem startIdx_spec (valid : map.set.Valid) (strict : StrictMono borrow) (start : Bound Q) :
    startIdx borrow map start = some (skipped borrow start map.entries) := by
  cases start with
  | included bound =>
    rw [skipped_included]
    exact BTreeSet.rankCmp_spec valid (BTreeSet.descending_below strict.monotone bound)
  | excluded bound =>
    rw [skipped_excluded]
    exact BTreeSet.rankCmp_spec valid (descending_upTo strict.monotone bound)
  | unbounded => rw [skipped_unbounded]; rfl

/-- The positions of a range, or the two that stand for an empty one. -/
private theorem rangeToIdx_spec (valid : map.set.Valid) (strict : StrictMono borrow) (start last : Bound Q) :
    (map.rangeToIdx borrow start last = some (1, 0) ∧ kept borrow last map.entries = 0 ∧
      endAbsent borrow map.entries last = false) ∨
    ∃ endIdx, map.rangeToIdx borrow start last = some (skipped borrow start map.entries, endIdx) ∧
      endIdx + 1 = kept borrow last map.entries + (endAbsent borrow map.entries last).toNat := by
  have rank := rankCmp_spec valid strict
  cases last with
  | included bound =>
    refine Or.inr ⟨_, ?_, kept_included valid.sorted strict bound⟩
    simp only [rangeToIdx, startIdx_spec valid strict, rank, bind, Option.bind_some, pure]
    rfl
  | excluded bound =>
    simp only [rangeToIdx, startIdx_spec valid strict, rank, bind, Option.bind_some, pure]
    by_cases first : (map.entries.filter fun pair => decide (borrow (key pair) < bound)).length = 0
    · exact Or.inl ⟨by rw [if_pos first], first, rfl⟩
    · refine Or.inr ⟨_, by rw [if_neg first], ?_⟩
      exact Nat.sub_add_cancel (Nat.pos_of_ne_zero first)
  | unbounded =>
    have counted : map.len = map.entries.length := valid.counted
    simp only [rangeToIdx, startIdx_spec valid strict, bind, Option.bind_some, pure]
    rw [kept_unbounded, ← counted]
    by_cases empty : map.len = 0
    · exact Or.inl ⟨by rw [if_pos empty], empty, rfl⟩
    · refine Or.inr ⟨_, by rw [if_neg empty], ?_⟩
      exact Nat.sub_add_cancel (Nat.pos_of_ne_zero empty)

private theorem exact_iff {frontIdx backIdx : Nat} (valid : map.set.Valid)
    (position : map.rangeToIdx borrow start last = some (frontIdx, backIdx)) :
    map.RangeExact borrow start last ↔
      Shows frontIdx (backIdx + 1) map.entries (within borrow start last map.entries) := by
  obtain ⟨iter, made, ranges⟩ := BTreeSet.rangeIdx_spec valid frontIdx backIdx
  rw [entries, ← ranges.exact_iff, RangeExact]
  simp only [range, position, made, bind, Option.bind_some, Option.some.injEq, exists_eq_left', draw, ← List.map_reverse,
    Deque.gives_view item_injective, entries]

/-- A range of a map is exact unless its end is an absent key that leaves entries out. -/
theorem range_entries_iff (reached : Reached (.map map)) (strict : StrictMono borrow) (ordered : Ordered start last) :
    map.RangeExact borrow start last ↔
      endAbsent borrow map.entries last = false ∨ ∀ entry ∈ map.entries, inBounds borrow start last entry = true := by
  have valid : map.set.Valid := reached.sound
  rcases rangeToIdx_spec valid strict start last with ⟨position, nothing, present⟩ | ⟨endIdx, position, same⟩
  · rw [exact_iff valid position, present, entries, within_eq valid.sorted strict.monotone ordered, window]
    rw [entries] at nothing
    simp [Shows, Iter.cut, nothing]
  · have shows := shows_within valid.sorted strict.monotone ordered false (endAbsent borrow map.entries last)
      (fun late => absurd late Bool.false_ne_true)
    rw [exact_iff valid position, same]
    simpa [entries] using shows

/-- An end between two keys, and an end beyond the last one. -/
theorem range_entries_iff_three : ∃ map : BTreeMap (List Nat) Nat Nat, Reached (.map map) ∧
    map.set.inner = [[⟨3, 0⟩], [⟨5, 0⟩, ⟨8, 0⟩]] ∧ map.RangeExact id (.excluded 4) .unbounded ∧
      ¬map.RangeExact id (.excluded 3) (.included 6) := by
  have reached : ∃ map : BTreeMap (List Nat) Nat Nat, Reached (.map map) ∧
      map = ⟨⟨[[⟨3, 0⟩], [⟨5, 0⟩, ⟨8, 0⟩]], [1, 2], 2, 3⟩⟩ :=
    ⟨_, .insert (.insert (.insert (.withMaximumNodeSize (le_refl 2)) 3 0 rfl) 5 0 rfl) 8 0 rfl, rfl⟩
  obtain ⟨_, reached, rfl⟩ := reached
  refine ⟨_, reached, rfl, ?_, ?_⟩
  · have ordered : Ordered (.excluded 4) (.unbounded : Bound Nat) := trivial
    exact (range_entries_iff reached strictMono_id ordered).mpr (by decide)
  · have ordered : Ordered (.excluded 3) (.included 6) := show 3 ≤ 6 by decide
    exact fun gives => absurd ((range_entries_iff reached strictMono_id ordered).mp gives) (by decide)

/-- The entry after an end that is not stored is given as well. -/
theorem range_entries_beyond_end : ∃ map : BTreeMap (List Nat) Nat Nat, ∃ iter, Reached (.map map) ∧
    map.entries = [⟨3, 0⟩, ⟨5, 0⟩, ⟨8, 0⟩] ∧ map.range id (.included 3) (.included 6) = some iter ∧
    Deque.drain draw .front 4 iter = some [(3, 0), (5, 0), (8, 0)] ∧
    within id (.included 3) (.included 6) map.entries = [⟨3, 0⟩, ⟨5, 0⟩] ∧
      ¬map.RangeExact id (.included 3) (.included 6) := by
  have reached : ∃ map : BTreeMap (List Nat) Nat Nat, Reached (.map map) ∧
      map = ⟨⟨[[⟨3, 0⟩], [⟨5, 0⟩, ⟨8, 0⟩]], [1, 2], 2, 3⟩⟩ :=
    ⟨_, .insert (.insert (.insert (.withMaximumNodeSize (le_refl 2)) 3 0 rfl) 5 0 rfl) 8 0 rfl, rfl⟩
  obtain ⟨_, reached, rfl⟩ := reached
  refine ⟨_, _, reached, rfl, rfl, by decide, by decide, ?_⟩
  intro given
  obtain ⟨iter, made, front, _⟩ := given
  cases made
  exact absurd (front 4 (by decide)) (by decide)

end BTreeMap
end WorkTablesIndex.Indexset
