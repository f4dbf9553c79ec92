import WorkTablesIndex.Node
import Mathlib.Order.Monotone.Defs

/-! Laws of a node whose values are in strictly increasing key order. Every node
operation of the code keeps that order, so its binary search is exact. -/

universe u v w

namespace WorkTablesIndex.Node
open Slice

variable {α : Type u} {κ : Type v} {Q : Type w} [LinearOrder κ] [Keyed α κ] [LinearOrder Q]
  {node : List α} {borrow : κ → Q}

def Sorted (node : List α) : Prop := node.Pairwise (fun first second => key first < key second)

theorem Sorted.sublist {smaller : List α} (sorted : Sorted node) (sub : smaller.Sublist node) : Sorted smaller :=
  List.Pairwise.sublist sub sorted

theorem Sorted.key_unique (sorted : Sorted node) {first second : α} (left : first ∈ node) (right : second ∈ node)
    (same : key first = key second) : first = second := by
  induction node with
  | nil => cases left
  | cons head rest ih =>
    obtain ⟨below, ordered⟩ := List.pairwise_cons.mp sorted
    rcases List.mem_cons.mp left with rfl | leftLater
    · rcases List.mem_cons.mp right with rfl | rightLater
      · rfl
      · exact absurd same (below _ rightLater).ne
    · rcases List.mem_cons.mp right with rfl | rightLater
      · exact absurd same (below _ leftLater).ne'
      · exact ih ordered leftLater rightLater

theorem Sorted.nodup (sorted : Sorted node) : node.Nodup :=
  List.Pairwise.imp (fun below equal => below.ne (congrArg key equal)) sorted

theorem sorted_append {left right : List α} :
    Sorted (left ++ right) ↔ Sorted left ∧ Sorted right ∧ ∀ x ∈ left, ∀ y ∈ right, key x < key y :=
  List.pairwise_append

theorem Sorted.searchable (sorted : Sorted node) (monotone : Monotone borrow) (value : Q) :
    Searchable (compareBorrowed borrow value) node := by
  refine List.Pairwise.imp ?_ sorted
  intro first second below
  have carried : borrow (key first) ≤ borrow (key second) := monotone below.le
  simp only [compareBorrowed, compare_lt_iff_lt, compare_gt_iff_gt]
  exact ⟨fun less => carried.trans_lt less, fun more => lt_of_lt_of_le more carried⟩

omit [LinearOrder κ] in
theorem trySelect_some {value : Q} {index : Nat} (selected : trySelect borrow node value = some index) :
    ∃ found, node[index]? = some found ∧ borrow (key found) = value := by
  simp only [trySelect] at selected
  split at selected
  next position search =>
    cases selected
    obtain ⟨found, there, equal⟩ := search_ok search
    exact ⟨found, there, by simpa [compareBorrowed] using equal⟩
  next => cases selected

theorem trySelect_none (sorted : Sorted node) (monotone : Monotone borrow) {value : Q}
    (missed : trySelect borrow node value = none) : ∀ item ∈ node, borrow (key item) ≠ value := by
  simp only [trySelect] at missed
  split at missed
  next => cases missed
  next position search =>
    obtain ⟨_, smaller, greater⟩ := search_error (sorted.searchable monotone value) search
    intro item member equal
    rw [← List.take_append_drop position node] at member
    rcases List.mem_append.mp member with before | after
    · simpa [compareBorrowed, equal] using smaller item before
    · simpa [compareBorrowed, equal] using greater item after

theorem contains_iff (sorted : Sorted node) (monotone : Monotone borrow) (value : Q) :
    contains borrow node value = true ↔ ∃ item ∈ node, borrow (key item) = value := by
  simp only [contains]
  cases selected : trySelect borrow node value with
  | none => simpa using trySelect_none sorted monotone selected
  | some index =>
    obtain ⟨found, there, equal⟩ := trySelect_some selected
    simpa using ⟨found, List.mem_of_getElem? there, equal⟩

theorem insert_length (node : List α) (value : α) :
    (insert node value).2.2.length = node.length + (insert node value).1.toNat := by
  rw [insert]
  split
  next => rfl
  next missed => exact List.length_insertIdx_of_le_length (search_error_le missed) value

structure Gap (node : List α) (value : α) (index : Nat) : Prop where
  inside : index ≤ node.length
  smaller : ∀ item ∈ node.take index, key item < key value
  greater : ∀ item ∈ node.drop index, key value < key item

theorem insert_cases (sorted : Sorted node) (value : α) :
    (∃ index, insert node value = (true, index, node.insertIdx index value) ∧ Gap node value index) ∨
    ∃ index old, insert node value = (false, index, node) ∧ node[index]? = some old ∧ key old = key value := by
  cases search : search node (compareBorrowed id (key value)) with
  | ok index =>
    obtain ⟨old, there, equal⟩ := search_ok search
    exact Or.inr ⟨index, old, by simp [insert, search], there, by simpa [compareBorrowed] using equal⟩
  | error index =>
    obtain ⟨inside, smaller, greater⟩ := search_error (sorted.searchable monotone_id (key value)) search
    refine Or.inl ⟨index, by simp [insert, search], inside, ?_, ?_⟩
    · exact fun item member => compare_lt_iff_lt.mp (smaller item member)
    · exact fun item member => compare_gt_iff_gt.mp (greater item member)

theorem Gap.absent {value : α} {index : Nat} (gap : Gap node value index) : ∀ item ∈ node, key item ≠ key value := by
  intro item member
  rw [← List.take_append_drop index node] at member
  rcases List.mem_append.mp member with before | after
  · exact (gap.smaller item before).ne
  · exact (gap.greater item after).ne'

theorem Gap.sorted {value : α} {index : Nat} (gap : Gap node value index) (sorted : Sorted node) :
    Sorted (node.insertIdx index value) := by
  rw [insertIdx_eq gap.inside]
  rw [← List.take_append_drop index node] at sorted
  obtain ⟨before, after, across⟩ := sorted_append.mp sorted
  refine sorted_append.mpr ⟨before, List.pairwise_cons.mpr ⟨gap.greater, after⟩, ?_⟩
  intro first member second later
  rcases List.mem_cons.mp later with rfl | later
  · exact gap.smaller first member
  · exact across first member second later

theorem Gap.mem {value : α} {index : Nat} (gap : Gap node value index) (item : α) :
    item ∈ node.insertIdx index value ↔ item = value ∨ item ∈ node :=
  List.mem_insertIdx gap.inside

theorem set_sorted (sorted : Sorted node) {index : Nat} {old value : α} (there : node[index]? = some old)
    (same : key old = key value) : Sorted (node.set index value) := by
  rw [set_eq there]
  rw [split_at there] at sorted
  obtain ⟨before, rest, across⟩ := sorted_append.mp sorted
  obtain ⟨above, after⟩ := List.pairwise_cons.mp rest
  refine sorted_append.mpr ⟨before, List.pairwise_cons.mpr ⟨fun item member => same ▸ above item member, after⟩, ?_⟩
  intro first member second later
  rcases List.mem_cons.mp later with rfl | later
  · exact same ▸ across first member old List.mem_cons_self
  · exact across first member second (List.mem_cons_of_mem _ later)

theorem mem_set (sorted : Sorted node) {index : Nat} {old value : α} (there : node[index]? = some old)
    (same : key old = key value) (item : α) :
    item ∈ node.set index value ↔ item = value ∨ item ∈ node ∧ key item ≠ key value := by
  have members : item ∈ node ↔ item ∈ node.take index ∨ item = old ∨ item ∈ node.drop (index + 1) := by
    conv_lhs => rw [split_at there]
    rw [List.mem_append, List.mem_cons]
  rw [split_at there] at sorted
  obtain ⟨_, rest, across⟩ := sorted_append.mp sorted
  obtain ⟨above, _⟩ := List.pairwise_cons.mp rest
  rw [set_eq there, members, List.mem_append, List.mem_cons]
  constructor
  · rintro (before | rfl | after)
    · exact Or.inr ⟨Or.inl before, by rw [← same]; exact (across item before old List.mem_cons_self).ne⟩
    · exact Or.inl rfl
    · exact Or.inr ⟨Or.inr (Or.inr after), by rw [← same]; exact (above item after).ne'⟩
  · rintro (rfl | ⟨before | rfl | after, different⟩)
    · exact Or.inr (Or.inl rfl)
    · exact Or.inl before
    · exact absurd same different
    · exact Or.inr (Or.inr after)

theorem delete_cases (sorted : Sorted node) (monotone : Monotone borrow) (value : Q) :
    (∃ deleted index, delete borrow node value = some (deleted, index, node.eraseIdx index) ∧
      node[index]? = some deleted ∧ borrow (key deleted) = value) ∨
    delete borrow node value = none ∧ ∀ item ∈ node, borrow (key item) ≠ value := by
  cases search : search node (compareBorrowed borrow value) with
  | ok index =>
    obtain ⟨deleted, there, equal⟩ := search_ok search
    exact Or.inl ⟨deleted, index, by simp [delete, search, there], there, by simpa [compareBorrowed] using equal⟩
  | error index =>
    exact Or.inr ⟨by simp [delete, search], trySelect_none sorted monotone (by simp [trySelect, search])⟩

theorem mem_eraseIdx (sorted : Sorted node) {index : Nat} {deleted : α} (there : node[index]? = some deleted) (item : α) :
    item ∈ node.eraseIdx index ↔ item ∈ node ∧ key item ≠ key deleted := by
  have members : item ∈ node ↔ item ∈ node.take index ∨ item = deleted ∨ item ∈ node.drop (index + 1) := by
    conv_lhs => rw [split_at there]
    rw [List.mem_append, List.mem_cons]
  rw [split_at there] at sorted
  obtain ⟨_, rest, across⟩ := sorted_append.mp sorted
  obtain ⟨above, _⟩ := List.pairwise_cons.mp rest
  rw [List.eraseIdx_eq_take_drop_succ, List.mem_append, members]
  constructor
  · rintro (before | after)
    · exact ⟨Or.inl before, (across item before deleted List.mem_cons_self).ne⟩
    · exact ⟨Or.inr (Or.inr after), (above item after).ne'⟩
  · intro given
    obtain ⟨before | rfl | after, different⟩ := given
    · exact Or.inl before
    · exact absurd rfl different
    · exact Or.inr after

theorem eraseIdx_sorted (sorted : Sorted node) (index : Nat) : Sorted (node.eraseIdx index) :=
  sorted.sublist (List.eraseIdx_sublist node index)

/-- The value is stored, in place of an equal one if there was one. -/
structure Upserted (node : List α) (value : α) (after : List α) : Prop where
  sorted : Sorted after
  mem : ∀ item, item ∈ after ↔ item = value ∨ item ∈ node ∧ key item ≠ key value

structure Removed (node : List α) (gone : κ) (after : List α) : Prop where
  sorted : Sorted after
  mem : ∀ item, item ∈ after ↔ item ∈ node ∧ key item ≠ gone

theorem Gap.upserted {value : α} {index : Nat} (gap : Gap node value index) (sorted : Sorted node) :
    Upserted node value (node.insertIdx index value) := by
  refine ⟨gap.sorted sorted, fun item => ?_⟩
  rw [gap.mem item]
  constructor
  · intro member
    rcases member with same | stored
    · exact Or.inl same
    · exact Or.inr ⟨stored, gap.absent item stored⟩
  · intro member
    exact member.imp id And.left

theorem set_upserted (sorted : Sorted node) {index : Nat} {old value : α} (there : node[index]? = some old)
    (same : key old = key value) : Upserted node value (node.set index value) :=
  ⟨set_sorted sorted there same, mem_set sorted there same⟩

theorem eraseIdx_removed (sorted : Sorted node) {index : Nat} {deleted : α} (there : node[index]? = some deleted) :
    Removed node (key deleted) (node.eraseIdx index) :=
  ⟨eraseIdx_sorted sorted index, mem_eraseIdx sorted there⟩

theorem Sorted.ext {other : List α} (sorted : Sorted node) (ordered : Sorted other)
    (same : ∀ item, item ∈ node ↔ item ∈ other) : node = other := by
  have perm := (List.perm_ext_iff_of_nodup sorted.nodup ordered.nodup).mpr same
  apply perm.eq_of_pairwise _ sorted ordered
  intro first second _ _ below above
  exact absurd below above.asymm

theorem Upserted.append_right {left right after : List α} {value : α} (stored : Upserted left value after)
    (sorted : Sorted (left ++ right)) (below : ∀ item ∈ right, key value < key item) :
    Upserted (left ++ right) value (after ++ right) := by
  obtain ⟨_, rightSorted, across⟩ := sorted_append.mp sorted
  refine ⟨sorted_append.mpr ⟨stored.sorted, rightSorted, ?_⟩, fun item => ?_⟩
  · intro first member second later
    rcases (stored.mem first).mp member with rfl | ⟨earlier, _⟩
    · exact below second later
    · exact across first earlier second later
  · rw [List.mem_append, stored.mem, List.mem_append]
    constructor
    · intro member
      rcases member with (same | ⟨earlier, different⟩) | later
      · exact Or.inl same
      · exact Or.inr ⟨Or.inl earlier, different⟩
      · exact Or.inr ⟨Or.inr later, (below item later).ne'⟩
    · intro member
      rcases member with same | ⟨earlier | later, different⟩
      · exact Or.inl (Or.inl same)
      · exact Or.inl (Or.inr ⟨earlier, different⟩)
      · exact Or.inr later

theorem Upserted.append_left {left right after : List α} {value : α} (stored : Upserted right value after)
    (sorted : Sorted (left ++ right)) (above : ∀ item ∈ left, key item < key value) :
    Upserted (left ++ right) value (left ++ after) := by
  obtain ⟨leftSorted, _, across⟩ := sorted_append.mp sorted
  refine ⟨sorted_append.mpr ⟨leftSorted, stored.sorted, ?_⟩, fun item => ?_⟩
  · intro first member second later
    rcases (stored.mem second).mp later with rfl | ⟨there, _⟩
    · exact above first member
    · exact across first member second there
  · rw [List.mem_append, stored.mem, List.mem_append]
    constructor
    · intro member
      rcases member with earlier | same | ⟨later, different⟩
      · exact Or.inr ⟨Or.inl earlier, (above item earlier).ne⟩
      · exact Or.inl same
      · exact Or.inr ⟨Or.inr later, different⟩
    · intro member
      rcases member with same | ⟨earlier | later, different⟩
      · exact Or.inr (Or.inl same)
      · exact Or.inl earlier
      · exact Or.inr (Or.inr ⟨later, different⟩)

/-- The key under which a node that holds these values should be linked. -/
def maxKey (node : List α) : Option κ := (max node).map key

theorem max_eq_some (sorted : Sorted node) {value : α} :
    max node = some value ↔ value ∈ node ∧ ∀ item ∈ node, key item ≤ key value := by
  rcases List.eq_nil_or_concat node with rfl | ⟨rest, final, rfl⟩
  · simp [max]
  · rw [List.concat_eq_append] at sorted ⊢
    obtain ⟨_, _, below⟩ := sorted_append.mp sorted
    simp only [max, List.getLast?_append, List.getLast?_singleton, Option.some_or, Option.some.injEq]
    constructor
    · rintro rfl
      refine ⟨by simp, ?_⟩
      intro item member
      rcases List.mem_append.mp member with earlier | last
      · exact (below item earlier final (by simp)).le
      · rw [List.mem_singleton.mp last]
    · intro given
      obtain ⟨member, greatest⟩ := given
      rcases List.mem_append.mp member with earlier | last
      · exact absurd (below value earlier final (by simp)) (greatest final (by simp)).not_gt
      · exact (List.mem_singleton.mp last).symm

theorem maxKey_eq_some (sorted : Sorted node) {greatest : κ} :
    maxKey node = some greatest ↔ (∃ item ∈ node, key item = greatest) ∧ ∀ item ∈ node, key item ≤ greatest := by
  simp only [maxKey, Option.map_eq_some_iff, max_eq_some sorted]
  constructor
  · intro given
    obtain ⟨value, ⟨member, bound⟩, rfl⟩ := given
    exact ⟨⟨value, member, rfl⟩, bound⟩
  · intro given
    obtain ⟨⟨value, member, rfl⟩, bound⟩ := given
    exact ⟨value, ⟨member, bound⟩, rfl⟩

omit [LinearOrder κ] [Keyed α κ] in
@[simp] theorem max_eq_none : max node = none ↔ node = [] := List.getLast?_eq_none_iff

omit [LinearOrder κ] in
theorem maxKey_isSome (filled : node ≠ []) : ∃ greatest, maxKey node = some greatest := by
  cases seen : max node with
  | none => exact absurd (max_eq_none.mp seen) filled
  | some value => exact ⟨key value, by simp [maxKey, seen]⟩

theorem Sorted.position_unique (sorted : Sorted node) {first second : Nat} {left right : α} (atFirst : node[first]? = some left)
    (atSecond : node[second]? = some right) (same : key left = key right) : first = second := by
  obtain ⟨firstInside, rfl⟩ := List.getElem?_eq_some_iff.mp atFirst
  obtain ⟨secondInside, rfl⟩ := List.getElem?_eq_some_iff.mp atSecond
  rcases lt_trichotomy first second with before | here | beyond
  · exact absurd same (List.pairwise_iff_getElem.mp sorted first second firstInside secondInside before).ne
  · exact here
  · exact absurd same (List.pairwise_iff_getElem.mp sorted second first secondInside firstInside beyond).ne'

theorem Sorted.key_eq_max (sorted : Sorted node) {greatest item : α} (top : max node = some greatest) {position : Nat}
    (there : node[position]? = some item) : key item = key greatest ↔ position + 1 = node.length := by
  have inside := (List.getElem?_eq_some_iff.mp there).1
  have last : node[node.length - 1]? = some greatest := List.getLast?_eq_getElem?.symm.trans top
  constructor
  · intro same
    have := sorted.position_unique there last same
    omega
  · intro final
    have here : position = node.length - 1 := by omega
    rw [here, last] at there
    cases there
    rfl

omit [LinearOrder κ] in
theorem ne_nil_of_maxKey {greatest : κ} (top : maxKey node = some greatest) : node ≠ [] := by
  intro empty
  simp [empty, maxKey, max] at top

/-- Storing a value not above the maximum leaves the maximum where it was. -/
theorem Upserted.maxKey_of_le {after : List α} {value : α} {greatest : κ} (stored : Upserted node value after)
    (sorted : Sorted node) (max : maxKey node = some greatest) (below : key value ≤ greatest) :
    maxKey after = some greatest := by
  obtain ⟨⟨top, member, atTop⟩, bound⟩ := (maxKey_eq_some sorted).mp max
  apply (maxKey_eq_some stored.sorted).mpr
  constructor
  · by_cases same : key value = greatest
    · exact ⟨value, (stored.mem value).mpr (Or.inl rfl), same⟩
    · refine ⟨top, (stored.mem top).mpr (Or.inr ⟨member, ?_⟩), atTop⟩
      rw [atTop]
      exact Ne.symm same
  · intro item present
    rcases (stored.mem item).mp present with rfl | ⟨there, _⟩
    · exact below
    · exact bound item there

theorem Upserted.maxKey_of_lt {after : List α} {value : α} (stored : Upserted node value after)
    (above : ∀ item ∈ node, key item ≤ key value) : maxKey after = some (key value) := by
  apply (maxKey_eq_some stored.sorted).mpr
  refine ⟨⟨value, (stored.mem value).mpr (Or.inl rfl), rfl⟩, ?_⟩
  intro item present
  rcases (stored.mem item).mp present with rfl | ⟨there, _⟩
  · exact le_rfl
  · exact above item there

theorem Upserted.maxKey_eq {after : List α} {value : α} {greatest : κ} (stored : Upserted node value after)
    (sorted : Sorted node) (top : maxKey node = some greatest) :
    maxKey after = some (if greatest < key value then key value else greatest) := by
  split
  next beyond =>
    apply stored.maxKey_of_lt
    intro item there
    exact (((maxKey_eq_some sorted).mp top).2 item there).trans beyond.le
  next within => exact stored.maxKey_of_le sorted top (not_lt.mp within)

omit [LinearOrder κ] [Keyed α κ] in
theorem halve_append (node : List α) : (halve node).1 ++ (halve node).2 = node := List.take_append_drop _ _

omit [LinearOrder κ] [Keyed α κ] in
theorem halve_right_ne_nil (filled : node ≠ []) : (halve node).2 ≠ [] := by
  have := List.length_pos_iff.mpr filled
  simp only [halve, ne_eq, List.drop_eq_nil_iff]
  omega

private theorem skipped_eq (count : Nat) :
    ((match some count with | some (count + 1) => some count | _ => none : Option Nat).map (· + 1)).getD 0 = count := by
  cases count <;> rfl

omit [LinearOrder κ] in
theorem rank_included_start (value : Q) : ((rank borrow node (.included value) true).map (· + 1)).getD 0 =
    partitionPoint (fun item => decide (borrow (key item) < value)) node :=
  skipped_eq _

omit [LinearOrder κ] in
theorem rank_excluded_start (value : Q) : ((rank borrow node (.excluded value) true).map (· + 1)).getD 0 =
    partitionPoint (fun item => decide (borrow (key item) ≤ value)) node :=
  skipped_eq _

omit [LinearOrder κ] in
theorem rank_included_end (value : Q) : ((rank borrow node (.included value) false).map (· + 1)).getD 0 =
    node.length - partitionPoint (fun item => decide (borrow (key item) ≤ value)) node :=
  skipped_eq _

omit [LinearOrder κ] in
theorem rank_excluded_end (value : Q) : ((rank borrow node (.excluded value) false).map (· + 1)).getD 0 =
    node.length - partitionPoint (fun item => decide (borrow (key item) < value)) node :=
  skipped_eq _

end WorkTablesIndex.Node
