import Mathlib.Data.List.Basic
import Mathlib.Data.List.Pairwise
import Mathlib.Data.List.TakeWhile

/-! Slices of a vector: positional updates, the partition point of a predicate
that holds on a prefix, and binary search. -/

universe u

namespace Slice

variable {α : Type u}

theorem insertIdx_eq {items : List α} {index : Nat} (inside : index ≤ items.length) (value : α) :
    items.insertIdx index value = items.take index ++ value :: items.drop index := by
  induction items generalizing index with
  | nil => cases Nat.le_zero.mp inside; rfl
  | cons head rest ih =>
    cases index with
    | zero => rfl
    | succ index => simpa using ih (Nat.le_of_succ_le_succ inside)

theorem insertIdx_middle (before after : List α) (value : α) :
    (before ++ after).insertIdx before.length value = before ++ value :: after := by
  rw [insertIdx_eq (by simp)]
  simp

theorem split_at {items : List α} {index : Nat} {old : α} (there : items[index]? = some old) :
    items = items.take index ++ old :: items.drop (index + 1) := by
  obtain ⟨inside, rfl⟩ := List.getElem?_eq_some_iff.mp there
  rw [List.getElem_cons_drop, List.take_append_drop]

theorem set_eq {items : List α} {index : Nat} {old : α} (there : items[index]? = some old) (value : α) :
    items.set index value = items.take index ++ value :: items.drop (index + 1) := by
  obtain ⟨inside, _⟩ := List.getElem?_eq_some_iff.mp there
  exact List.set_eq_take_append_cons_drop.trans (if_pos inside)

/-- The predicate holds on an initial segment of the list and nowhere else. -/
def Prefixed (holds : α → Bool) (items : List α) : Prop :=
  items.Pairwise (fun first second => holds second = true → holds first = true)

def partitionPoint (holds : α → Bool) (items : List α) : Nat :=
  (items.takeWhile holds).length

/-- Search of a sorted slice by a comparison with the sought item: the position
of an equal item, or the position that keeps the slice sorted. -/
def binarySearchBy (cmp : α → Ordering) (items : List α) : Except Nat Nat :=
  let position := partitionPoint (fun item => cmp item == .lt) items
  match items[position]? with
  | some item => if cmp item = .eq then .ok position else .error position
  | none => .error position

variable {holds : α → Bool} {items : List α}

theorem partitionPoint_le : partitionPoint holds items ≤ items.length :=
  (List.takeWhile_prefix holds).length_le

theorem take_partitionPoint : items.take (partitionPoint holds items) = items.takeWhile holds :=
  (List.prefix_iff_eq_take.mp (List.takeWhile_prefix holds)).symm

theorem drop_partitionPoint : items.drop (partitionPoint holds items) = items.dropWhile holds := by
  calc items.drop (partitionPoint holds items)
      = (items.takeWhile holds ++ items.dropWhile holds).drop (items.takeWhile holds).length := by
        rw [List.takeWhile_append_dropWhile]
        rfl
    _ = items.dropWhile holds := List.drop_left

theorem before_partitionPoint {item : α} (member : item ∈ items.take (partitionPoint holds items)) :
    holds item = true := by
  rw [take_partitionPoint] at member
  exact List.mem_takeWhile_imp member

theorem after_partitionPoint (prefixed : Prefixed holds items) {item : α}
    (member : item ∈ items.drop (partitionPoint holds items)) : holds item = false := by
  rw [drop_partitionPoint] at member
  induction items with
  | nil => cases member
  | cons head rest ih =>
    obtain ⟨earlier, remaining⟩ := List.pairwise_cons.mp prefixed
    by_cases first : holds head = true
    · rw [List.dropWhile_cons_of_pos first] at member
      exact ih remaining member
    · rw [List.dropWhile_cons_of_neg first] at member
      rcases List.mem_cons.mp member with rfl | later
      · simpa using first
      · exact Bool.eq_false_iff.mpr (fun satisfied => first (earlier item later satisfied))

theorem drop_eq_filter (prefixed : Prefixed holds items) :
    items.drop (partitionPoint holds items) = items.filter (fun item => !holds item) := by
  conv_rhs => rw [← List.take_append_drop (partitionPoint holds items) items]
  rw [List.filter_append, List.filter_eq_nil_iff.mpr, List.nil_append, List.filter_eq_self.mpr]
  · intro item member
    simp [after_partitionPoint prefixed member]
  · intro item member
    simp [before_partitionPoint member]

theorem take_eq_filter (prefixed : Prefixed holds items) :
    items.take (partitionPoint holds items) = items.filter holds := by
  conv_rhs => rw [← List.take_append_drop (partitionPoint holds items) items]
  rw [List.filter_append, List.filter_eq_self.mpr, List.filter_eq_nil_iff.mpr, List.append_nil]
  · intro item member
    simp [after_partitionPoint prefixed member]
  · exact fun item member => before_partitionPoint member

theorem head_drop_partitionPoint (prefixed : Prefixed holds items) :
    (items.drop (partitionPoint holds items)).head? = items.find? (fun item => !holds item) := by
  rw [drop_eq_filter prefixed, List.head?_filter]

theorem getElem?_filter_length (prefixed : Prefixed holds items) :
    items[(items.filter holds).length]? = items.find? (fun item => !holds item) := by
  have length : (items.filter holds).length = partitionPoint holds items := by
    rw [← take_eq_filter prefixed, List.length_take, Nat.min_eq_left partitionPoint_le]
  rw [length, ← head_drop_partitionPoint prefixed, List.head?_drop]

/-- The search stops at the first item that is not below the sought one. -/
theorem binarySearchBy_cases (cmp : α → Ordering) (items : List α) :
    (∃ item, items[partitionPoint (fun item => cmp item == .lt) items]? = some item ∧ cmp item = .eq ∧
      binarySearchBy cmp items = .ok (partitionPoint (fun item => cmp item == .lt) items)) ∨
    (∀ item, items[partitionPoint (fun item => cmp item == .lt) items]? = some item → cmp item ≠ .eq) ∧
      binarySearchBy cmp items = .error (partitionPoint (fun item => cmp item == .lt) items) := by
  cases seen : items[partitionPoint (fun item => cmp item == .lt) items]? with
  | none => exact Or.inr ⟨by simp, by simp [binarySearchBy, seen]⟩
  | some item =>
    by_cases equal : cmp item = .eq
    · exact Or.inl ⟨item, rfl, equal, by simp [binarySearchBy, seen, equal]⟩
    · exact Or.inr ⟨fun other same => by cases same; exact equal, by simp [binarySearchBy, seen, equal]⟩

end Slice
