import Mathlib.Order.Lattice
import Mathlib.Data.List.Basic
import Mathlib.Data.List.Pairwise

/-! The full outer join of two lists by their keys, as a merge of the two computes it: the smaller
head is taken, or both heads if they are equal. -/

universe u v

namespace Join

inductive Round (α : Type u) where
  | left (item : α)
  | right (item : α)
  | both (item other : α)

variable {α : Type u} {κ : Type v} [LinearOrder κ] (key : α → κ)

def advance : List α → List α → List α × List α
  | first :: left, second :: right =>
    match compare (key first) (key second) with
    | .lt => (left, second :: right)
    | .eq => (left, right)
    | .gt => (first :: left, right)
  | _ :: left, [] => (left, [])
  | [], _ :: right => ([], right)
  | [], [] => ([], [])

def round : Option α → Option α → Option (Round α)
  | some first, some second =>
    match compare (key first) (key second) with
    | .lt => some (.left first)
    | .eq => some (.both first second)
    | .gt => some (.right second)
  | some first, none => some (.left first)
  | none, some second => some (.right second)
  | none, none => none

theorem advance_length (left right : List α) (more : ¬(left = [] ∧ right = [])) :
    (advance key left right).1.length + (advance key left right).2.length < left.length + right.length := by
  cases left with
  | nil =>
    cases right with
    | nil => exact absurd ⟨rfl, rfl⟩ more
    | cons second right => simp [advance]
  | cons first left =>
    cases right with
    | nil => simp [advance]
    | cons second right =>
      simp only [advance]
      split
      · simp only [List.length_cons]
        omega
      · simp only [List.length_cons]
        omega
      · simp only [List.length_cons]
        omega

def join (left right : List α) : List (Round α) :=
  if left = [] ∧ right = [] then []
  else (round key left.head? right.head?).toList ++ join (advance key left right).1 (advance key left right).2
termination_by left.length + right.length
decreasing_by exact advance_length key left right (by assumption)

def keyOf : Round α → κ
  | .left item => key item
  | .right item => key item
  | .both item _ => key item

variable {key} {left right : List α} {first second : α}

@[simp] theorem join_nil : join key [] [] = [] := by
  rw [join, if_pos ⟨rfl, rfl⟩]

theorem join_step (left right : List α) : join key left right =
    (round key left.head? right.head?).toList ++ join key (advance key left right).1 (advance key left right).2 := by
  rw [join]
  split
  next none =>
    obtain ⟨rfl, rfl⟩ := none
    exact join_nil.symm
  next => rfl

theorem join_nil_left (right : List α) : join key [] right = right.map .right := by
  induction right with
  | nil => exact join_nil
  | cons second right ih =>
    rw [join, if_neg (by simp)]
    exact congrArg (Round.right second :: ·) ih

theorem join_nil_right (left : List α) : join key left [] = left.map .left := by
  induction left with
  | nil => exact join_nil
  | cons first left ih =>
    rw [join, if_neg (by simp)]
    exact congrArg (Round.left first :: ·) ih

theorem round_lt (below : key first < key second) : round key (some first) (some second) = some (.left first) := by
  simp [round, compare_lt_iff_lt.mpr below]

theorem round_eq (same : key first = key second) : round key (some first) (some second) = some (.both first second) := by
  simp [round, compare_eq_iff_eq.mpr same]

theorem round_gt (above : key second < key first) : round key (some first) (some second) = some (.right second) := by
  simp [round, compare_gt_iff_gt.mpr above]

theorem join_lt (below : key first < key second) :
    join key (first :: left) (second :: right) = .left first :: join key left (second :: right) := by
  rw [join, if_neg (by simp)]
  simp [round_lt below, advance, compare_lt_iff_lt.mpr below]

theorem join_eq (same : key first = key second) :
    join key (first :: left) (second :: right) = .both first second :: join key left right := by
  rw [join, if_neg (by simp)]
  simp [round_eq same, advance, compare_eq_iff_eq.mpr same]

theorem join_gt (above : key second < key first) :
    join key (first :: left) (second :: right) = .right second :: join key (first :: left) right := by
  rw [join, if_neg (by simp)]
  simp [round_gt above, advance, compare_gt_iff_gt.mpr above]

theorem rounds (key : α → κ) {motive : List α → List α → Prop} (nilLeft : ∀ right, motive [] right)
    (nilRight : ∀ left, motive left [])
    (lt : ∀ first left second right, key first < key second → motive left (second :: right) →
      motive (first :: left) (second :: right))
    (eq : ∀ first left second right, key first = key second → motive left right → motive (first :: left) (second :: right))
    (gt : ∀ first left second right, key second < key first → motive (first :: left) right →
      motive (first :: left) (second :: right)) (left right : List α) : motive left right := by
  induction left generalizing right with
  | nil => exact nilLeft right
  | cons first left ih =>
    induction right with
    | nil => exact nilRight _
    | cons second right further =>
      rcases lt_trichotomy (key first) (key second) with below | same | above
      · exact lt first left second right below (ih _)
      · exact eq first left second right same (ih _)
      · exact gt first left second right above further

/-- Every key of either list is the key of a round, in the order of the list. -/
theorem keys_sublist (left right : List α) :
    (left.map key).Sublist ((join key left right).map (keyOf key)) ∧
      (right.map key).Sublist ((join key left right).map (keyOf key)) := by
  induction left, right using rounds key with
  | nilLeft right =>
    rw [join_nil_left, List.map_map]
    exact ⟨List.nil_sublist _, List.Sublist.refl _⟩
  | nilRight left =>
    rw [join_nil_right, List.map_map]
    exact ⟨List.Sublist.refl _, List.nil_sublist _⟩
  | lt first left second right below ih =>
    rw [join_lt below]
    exact ⟨ih.1.cons_cons _, ih.2.cons _⟩
  | eq first left second right same ih =>
    rw [join_eq same, List.map_cons, List.map_cons, List.map_cons, ← same]
    exact ⟨ih.1.cons_cons _, ih.2.cons_cons _⟩
  | gt first left second right above ih =>
    rw [join_gt above]
    exact ⟨ih.1.cons _, ih.2.cons_cons _⟩

theorem keys_above {bound : κ} (lower : ∀ item ∈ left, bound < key item) (upper : ∀ item ∈ right, bound < key item) :
    ∀ round ∈ join key left right, bound < keyOf key round := by
  induction left, right using rounds key with
  | nilLeft right =>
    rw [join_nil_left, List.forall_mem_map]
    exact upper
  | nilRight left =>
    rw [join_nil_right, List.forall_mem_map]
    exact lower
  | lt first left second right below ih =>
    rw [join_lt below, List.forall_mem_cons]
    exact ⟨lower first List.mem_cons_self, ih (fun item member => lower item (List.mem_cons_of_mem _ member)) upper⟩
  | eq first left second right same ih =>
    rw [join_eq same, List.forall_mem_cons]
    exact ⟨lower first List.mem_cons_self, ih (fun item member => lower item (List.mem_cons_of_mem _ member))
      (fun item member => upper item (List.mem_cons_of_mem _ member))⟩
  | gt first left second right above ih =>
    rw [join_gt above, List.forall_mem_cons]
    exact ⟨upper second List.mem_cons_self, ih lower (fun item member => upper item (List.mem_cons_of_mem _ member))⟩

def Ascending (key : α → κ) (items : List α) : Prop := items.Pairwise (fun first second => key first < key second)

theorem Ascending.head {rest : List α} (ascending : Ascending key (first :: rest)) {bound : κ} (below : bound < key first) :
    ∀ item ∈ first :: rest, bound < key item := by
  rw [List.forall_mem_cons]
  exact ⟨below, fun item member => lt_trans below (List.rel_of_pairwise_cons ascending member)⟩

theorem keys_ascending (ascendingLeft : Ascending key left) (ascendingRight : Ascending key right) :
    Ascending (keyOf key) (join key left right) := by
  induction left, right using rounds key with
  | nilLeft right =>
    rw [join_nil_left]
    exact List.pairwise_map.mpr ascendingRight
  | nilRight left =>
    rw [join_nil_right]
    exact List.pairwise_map.mpr ascendingLeft
  | lt first left second right below ih =>
    obtain ⟨least, later⟩ := List.pairwise_cons.mp ascendingLeft
    rw [join_lt below]
    exact List.pairwise_cons.mpr ⟨keys_above least (ascendingRight.head below), ih later ascendingRight⟩
  | eq first left second right same ih =>
    obtain ⟨least, later⟩ := List.pairwise_cons.mp ascendingLeft
    obtain ⟨least', later'⟩ := List.pairwise_cons.mp ascendingRight
    rw [join_eq same]
    rw [← same] at least'
    exact List.pairwise_cons.mpr ⟨keys_above least least', ih later later'⟩
  | gt first left second right above ih =>
    obtain ⟨least, later⟩ := List.pairwise_cons.mp ascendingRight
    rw [join_gt above]
    exact List.pairwise_cons.mpr ⟨keys_above (ascendingLeft.head above) least, ih ascendingLeft later⟩

/-- Who takes part in a round: the items without an equal one on the other side, and the equal ones. -/
def Matches (key : α → κ) (left right : List α) : Round α → Prop
  | .left item => item ∈ left ∧ ∀ other ∈ right, key other ≠ key item
  | .right item => item ∈ right ∧ ∀ other ∈ left, key other ≠ key item
  | .both item other => item ∈ left ∧ other ∈ right ∧ key item = key other

theorem mem_join (ascendingLeft : Ascending key left) (ascendingRight : Ascending key right) (round : Round α) :
    round ∈ join key left right ↔ Matches key left right round := by
  induction left, right using rounds key with
  | nilLeft right =>
    rw [join_nil_left]
    cases round <;> simp [Matches]
  | nilRight left =>
    rw [join_nil_right]
    cases round <;> simp [Matches]
  | lt first left second right below ih =>
    obtain ⟨least, later⟩ := List.pairwise_cons.mp ascendingLeft
    have apart : ∀ item ∈ second :: right, key item ≠ key first := fun item member =>
      ne_of_gt (ascendingRight.head below item member)
    rw [join_lt below, List.mem_cons, ih later ascendingRight]
    cases round with
    | left item => simp only [Matches]; grind
    | right item => simp only [Matches]; grind
    | both item other => simp only [Matches]; grind
  | eq first left second right same ih =>
    obtain ⟨least, later⟩ := List.pairwise_cons.mp ascendingLeft
    obtain ⟨least', later'⟩ := List.pairwise_cons.mp ascendingRight
    have apart : ∀ item ∈ left, key item ≠ key second := fun item member => same ▸ ne_of_gt (least item member)
    have apart' : ∀ item ∈ right, key item ≠ key first := fun item member => same ▸ ne_of_gt (least' item member)
    rw [join_eq same, List.mem_cons, ih later later']
    cases round with
    | left item => simp only [Matches]; grind
    | right item => simp only [Matches]; grind
    | both item other => simp only [Matches]; grind
  | gt first left second right above ih =>
    obtain ⟨least, later⟩ := List.pairwise_cons.mp ascendingRight
    have apart : ∀ item ∈ first :: left, key item ≠ key second := fun item member =>
      ne_of_gt (ascendingLeft.head above item member)
    rw [join_gt above, List.mem_cons, ih ascendingLeft later]
    cases round with
    | left item => simp only [Matches]; grind
    | right item => simp only [Matches]; grind
    | both item other => simp only [Matches]; grind

end Join
