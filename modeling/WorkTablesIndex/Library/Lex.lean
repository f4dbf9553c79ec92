import Mathlib.Order.Lattice
import Mathlib.Data.List.Lex
import Mathlib.Order.Compare

/-! Lexicographic comparison of lists of lists, against the comparison of what they flatten to. The
two differ where one list is cut before the other. -/

universe u

namespace Lex

variable {κ : Type u} [LinearOrder κ]

theorem append_lt_append_left (shared : List κ) {first second : List κ} : shared ++ first < shared ++ second ↔ first < second := by
  induction shared with
  | nil => rfl
  | cons head rest ih => simp only [List.cons_append, List.cons_lt_cons_iff, lt_self_iff_false, true_and, false_or, ih]

theorem lt_of_initial {first second : List κ} (begins : first <+: second) (different : first ≠ second) : first < second := by
  obtain ⟨rest, rfl⟩ := begins
  cases rest with
  | nil => exact absurd (List.append_nil first).symm different
  | cons item rest =>
    conv_lhs => rw [← List.append_nil first]
    exact (append_lt_append_left first).mpr (List.nil_lt_cons item rest)

theorem append_lt_append_of_parted {first second : List κ} (left : ¬first <+: second) (right : ¬second <+: first)
    (more further : List κ) :
    first ++ more < second ++ further ↔ first < second := by
  induction first generalizing second with
  | nil => exact absurd List.nil_prefix left
  | cons head rest ih =>
    cases second with
    | nil => exact absurd List.nil_prefix right
    | cons other others =>
      simp only [List.cons_append, List.cons_lt_cons_iff]
      by_cases same : head = other
      · subst same
        rw [ih (fun begins => left (List.prefix_cons_inj head |>.mpr begins))
          (fun begins => right (List.prefix_cons_inj head |>.mpr begins))]
      · simp only [same, false_and, or_false]

theorem parts {α : Type u} (first second : List α) : first <+: second ∨ second <+: first ∨ ∃ shared item other rest others,
    first = shared ++ item :: rest ∧ second = shared ++ other :: others ∧ item ≠ other := by
  classical
  induction first generalizing second with
  | nil => exact Or.inl List.nil_prefix
  | cons head rest ih =>
    cases second with
    | nil => exact Or.inr (Or.inl List.nil_prefix)
    | cons other others =>
      by_cases same : head = other
      · subst same
        rcases ih others with begins | begins | ⟨shared, item, another, tail, tails, rfl, rfl, different⟩
        · exact Or.inl (List.prefix_cons_inj head |>.mpr begins)
        · exact Or.inr (Or.inl (List.prefix_cons_inj head |>.mpr begins))
        · exact Or.inr (Or.inr ⟨head :: shared, item, another, tail, tails, rfl, rfl, different⟩)
      · exact Or.inr (Or.inr ⟨[], head, other, rest, others, rfl, rfl, same⟩)

/-- Where the two first part, a list that is the beginning of the other belongs to the smaller whole. -/
def Agreeing (first second : List (List κ)) : Prop := ∀ shared item other rest others,
  first = shared ++ item :: rest → second = shared ++ other :: others → item ≠ other →
    (item <+: other → first.flatten < second.flatten) ∧ (other <+: item → second.flatten < first.flatten)

variable {first second : List (List κ)}

private theorem lt_parted {shared rest others : List (List κ)} {item other : List κ} (different : item ≠ other) :
    shared ++ item :: rest < shared ++ other :: others ↔ item < other := by
  rw [append_lt_append_left, List.cons_lt_cons_iff]
  simp only [different, false_and, or_false]

private theorem flatten_initial {α : Type u} {first second : List (List α)} (begins : first <+: second) :
    first.flatten <+: second.flatten := by
  obtain ⟨rest, rfl⟩ := begins
  rw [List.flatten_append]
  exact List.prefix_append _ _

/-- The lists compare as what they flatten to exactly when they agree where they first part. -/
theorem lt_iff_flatten_lt (different : first.flatten ≠ second.flatten) :
    (first < second ↔ first.flatten < second.flatten) ↔ Agreeing first second := by
  have apart : first ≠ second := fun same => different (congrArg List.flatten same)
  constructor
  · rintro same shared item other rest others rfl rfl parted
    refine ⟨fun begins => same.mp ((lt_parted parted).mpr (lt_of_initial begins parted)), fun begins => ?_⟩
    have above : shared ++ other :: others < shared ++ item :: rest := (lt_parted parted.symm).mpr (lt_of_initial begins parted.symm)
    exact lt_of_le_of_ne (not_lt.mp fun below => absurd (same.mpr below) above.asymm) different.symm
  · intro agreeing
    rcases parts first second with begins | begins | ⟨shared, item, other, rest, others, whole, whole', parted⟩
    · exact iff_of_true (lt_of_initial begins apart) (lt_of_initial (flatten_initial begins) different)
    · exact iff_of_false (lt_of_initial begins apart.symm).asymm (lt_of_initial (flatten_initial begins) different.symm).asymm
    · obtain ⟨lower, upper⟩ := agreeing shared item other rest others whole whole' parted
      by_cases below : item <+: other
      · refine iff_of_true ?_ (lower below)
        rw [whole, whole']
        exact (lt_parted parted).mpr (lt_of_initial below parted)
      · by_cases above : other <+: item
        · refine iff_of_false ?_ (upper above).asymm
          rw [whole, whole']
          exact fun less => ((lt_parted parted).mp less).asymm (lt_of_initial above parted.symm)
        · rw [whole, whole', lt_parted parted, List.flatten_append, List.flatten_append, append_lt_append_left, List.flatten_cons,
            List.flatten_cons, append_lt_append_of_parted below above]

theorem compareLex_compares {α : Type u} [LinearOrder α] {cmp : α → α → Ordering} (lawful : ∀ a b, (cmp a b).Compares a b)
    (first second : List α) : (List.compareLex cmp first second).Compares first second := by
  induction first generalizing second with
  | nil =>
    cases second with
    | nil => rfl
    | cons other others => exact List.nil_lt_cons other others
  | cons head rest ih =>
    cases second with
    | nil => exact List.nil_lt_cons head rest
    | cons other others =>
      have heads := lawful head other
      simp only [List.compareLex]
      cases order : cmp head other with
      | lt =>
        rw [order] at heads
        exact List.cons_lt_cons_iff.mpr (Or.inl heads)
      | gt =>
        rw [order] at heads
        exact List.cons_lt_cons_iff.mpr (Or.inl heads)
      | eq =>
        rw [order] at heads
        obtain rfl : head = other := heads
        have tails := ih others
        cases further : List.compareLex cmp rest others with
        | lt =>
          rw [further] at tails
          exact List.cons_lt_cons_iff.mpr (Or.inr ⟨rfl, tails⟩)
        | gt =>
          rw [further] at tails
          exact List.cons_lt_cons_iff.mpr (Or.inr ⟨rfl, tails⟩)
        | eq =>
          rw [further] at tails
          exact congrArg (head :: ·) tails

theorem compare_compares (first second : κ) : (compare first second).Compares first second := by
  rw [← cmp_eq_compare]
  exact cmp_compares first second

theorem compares_eq_iff {α β : Type u} [LinearOrder α] [LinearOrder β] {left right : Ordering} {a b : α} {x y : β}
    (first : left.Compares a b) (second : right.Compares x y) (apart : a ≠ b) (different : x ≠ y) :
    left = right ↔ (a < b ↔ x < y) := by
  constructor
  · rintro rfl
    rw [← first.eq_lt, ← second.eq_lt]
  · intro same
    rcases lt_or_gt_of_ne apart with below | above
    · rw [first.eq_lt.mpr below, second.eq_lt.mpr (same.mp below)]
    · have reversed : y < x := lt_of_le_of_ne (not_lt.mp fun below => above.asymm (same.mpr below)) different.symm
      rw [first.eq_gt.mpr above, second.eq_gt.mpr reversed]

/-- Comparing the lists, or what they flatten to, is the same exactly when they agree where they part. -/
theorem compareLex_eq_flatten (different : first.flatten ≠ second.flatten) :
    List.compareLex (List.compareLex compare) first second = List.compareLex compare first.flatten second.flatten ↔
      Agreeing first second := by
  have apart : first ≠ second := fun same => different (congrArg List.flatten same)
  rw [compares_eq_iff (compareLex_compares (compareLex_compares compare_compares) first second)
    (compareLex_compares compare_compares _ _) apart different]
  exact lt_iff_flatten_lt different

end Lex
