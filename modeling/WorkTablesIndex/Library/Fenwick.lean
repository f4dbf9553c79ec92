import Mathlib.Algebra.GroupWithZero.Nat
import WorkTablesIndex.Library.Slice

/-! A list of counters with positional updates, prefix sums and the inverse of a prefix sum,
as a Fenwick tree offers them. -/

universe u

open Slice

class FenwickTree (F : Type u) where
  fromIter : List Nat → F
  addAt : F → Nat → Nat → F
  subAt : F → Nat → Nat → F
  prefixSum : F → Nat → Nat → Nat
  indexOf : F → Nat → Nat

def sumsBelow (counts : List Nat) (sum index : Nat) : Bool := decide ((counts.take (index + 1)).sum < sum)

def countBelow (counts : List Nat) (sum : Nat) : Nat :=
  partitionPoint (sumsBelow counts sum) (List.range counts.length)

/-- What the operations mean for the counters of a tree. -/
class LawfulFenwickTree (F : Type u) [FenwickTree F] where
  slots : F → List Nat
  slots_fromIter (counts : List Nat) : slots (FenwickTree.fromIter counts) = counts
  slots_addAt (tree : F) (index count diff : Nat) : (slots tree)[index]? = some count →
    slots (FenwickTree.addAt tree index diff) = (slots tree).set index (count + diff)
  slots_subAt (tree : F) (index count diff : Nat) : (slots tree)[index]? = some count → diff ≤ count →
    slots (FenwickTree.subAt tree index diff) = (slots tree).set index (count - diff)
  prefixSum_eq (tree : F) (index sum : Nat) : index ≤ (slots tree).length →
    FenwickTree.prefixSum tree index sum = sum + ((slots tree).take index).sum
  indexOf_eq (tree : F) (sum : Nat) : FenwickTree.indexOf tree sum = countBelow (slots tree) sum

export LawfulFenwickTree (slots)

/-- Equality, order and hash of the trees, which depend on the counters alone. -/
class ComparedFenwickTree (F : Type u) [FenwickTree F] [LawfulFenwickTree F] where
  eq : F → F → Bool
  cmp : F → F → Ordering
  hash : F → List Nat
  eq_iff (first second : F) : eq first second = true ↔ slots first = slots second
  cmp_eq (first second : F) : slots first = slots second → cmp first second = .eq
  hash_eq (first second : F) : slots first = slots second → hash first = hash second

namespace FenwickTree

instance : FenwickTree (List Nat) where
  fromIter := id
  addAt counts index diff := counts.modify index (· + diff)
  subAt counts index diff := counts.modify index (· - diff)
  prefixSum counts index sum := sum + (counts.take index).sum
  indexOf := countBelow

private theorem modify_eq_set {counts : List Nat} {index count : Nat} (there : counts[index]? = some count) (change : Nat → Nat) :
    counts.modify index change = counts.set index (change count) := by
  obtain ⟨inside, rfl⟩ := List.getElem?_eq_some_iff.mp there
  exact List.modify_eq_set_get change inside

instance : LawfulFenwickTree (List Nat) where
  slots := id
  slots_fromIter _ := rfl
  slots_addAt _ _ _ _ there := modify_eq_set there _
  slots_subAt _ _ _ _ there _ := modify_eq_set there _
  prefixSum_eq _ _ _ _ := rfl
  indexOf_eq _ _ := rfl

instance : ComparedFenwickTree (List Nat) where
  eq := fun first second => decide (first = second)
  cmp := List.compareLex compare
  hash := id
  eq_iff first second := by simp [slots]
  cmp_eq first second same := by
    obtain rfl : first = second := same
    induction first with
    | nil => rfl
    | cons head rest ih => simp [List.compareLex]
  hash_eq _ _ same := same

end FenwickTree

theorem countBelow_le (counts : List Nat) (sum : Nat) : countBelow counts sum ≤ counts.length := by
  calc countBelow counts sum ≤ (List.range counts.length).length := partitionPoint_le
    _ = counts.length := List.length_range

private theorem sum_take_mono (counts : List Nat) {first second : Nat} (before : first ≤ second) :
    (counts.take first).sum ≤ (counts.take second).sum := by
  obtain ⟨rest, whole⟩ := List.take_prefix_take_left (l := counts) before
  rw [← whole, List.sum_append]
  exact Nat.le_add_right _ _

theorem countBelow_spec (counts : List Nat) (sum : Nat) :
    (0 < countBelow counts sum → (counts.take (countBelow counts sum)).sum < sum) ∧
      (countBelow counts sum < counts.length → sum ≤ (counts.take (countBelow counts sum + 1)).sum) := by
  have inside := countBelow_le counts sum
  constructor
  · intro positive
    have member : countBelow counts sum - 1 ∈ (List.range counts.length).take (countBelow counts sum) := by
      rw [List.take_range, List.mem_range]
      omega
    have holds : sumsBelow counts sum (countBelow counts sum - 1) = true := before_partitionPoint member
    have below := of_decide_eq_true holds
    rwa [Nat.sub_add_cancel positive] at below
  · intro further
    have prefixed : Prefixed (sumsBelow counts sum) (List.range counts.length) := by
      apply List.pairwise_lt_range.imp
      intro first second before
      simp only [sumsBelow, decide_eq_true_eq]
      intro below
      exact (sum_take_mono counts (by omega)).trans_lt below
    have member : countBelow counts sum ∈ (List.range counts.length).drop (countBelow counts sum) := by
      refine List.mem_drop_iff_getElem.mpr ⟨0, ?_, ?_⟩
      · rw [List.length_range]
        omega
      · simp
    have fails : sumsBelow counts sum (countBelow counts sum) = false := after_partitionPoint prefixed member
    exact not_lt.mp (of_decide_eq_false fails)
