import Mathlib.Order.Lattice
import Mathlib.Order.Compare
import WorkTablesIndex.Library.Slice

/-! The sorted vector behind every B-tree node (`core/node.rs`). `Ord` sees a
value only through its key, so two values may be equal to the code and still
differ: a map entry is compared by key and carries a payload. -/

universe u v w

namespace WorkTablesIndex
open Slice

/-- `T: Ord`. Values with one key are `Ord`-equal. -/
class Keyed (α : Type u) (κ : outParam (Type v)) where
  key : α → κ

export Keyed (key)

instance : Keyed Nat Nat := ⟨id⟩

inductive Bound (Q : Type u) where
  | included (value : Q)
  | excluded (value : Q)
  | unbounded
  deriving DecidableEq, Repr

/-- Whether a key lies on the upper side of a lower bound over its borrowed form. -/
def Bound.admits {κ : Type v} {Q : Type w} [LinearOrder Q] (borrow : κ → Q) : Bound Q → κ → Bool
  | .included value, candidate => decide (value ≤ borrow candidate)
  | .excluded value, candidate => decide (value < borrow candidate)
  | .unbounded, _ => true

namespace Node

variable {α : Type u} {κ : Type v} {Q : Type w}

/-- The `while i != j` loop of the custom search. One unit of fuel pays for one
iteration; the interval never has more positions than the fuel it starts with. -/
def searchLoop (haystack : List α) (cmp : α → Ordering) : Nat → Nat → Nat → Nat → Except Nat Nat
  | 0, i, _, _ => .error i
  | fuel + 1, i, j, m =>
    if i = j then .error i
    else
      match haystack[m]? with
      | none => .error i
      | some candidate =>
        match cmp candidate with
        | .eq => .ok m
        | .lt => searchLoop haystack cmp fuel (m + 1) j ((m + 1 + j) / 2)
        | .gt => searchLoop haystack cmp fuel i m ((i + m) / 2)

/-- `search_backend::search`: the position of an equal entry, or where it would go. -/
def search (haystack : List α) (cmp : α → Ordering) : Except Nat Nat :=
  searchLoop haystack cmp haystack.length 0 haystack.length (haystack.length / 2)

section Functions
variable [LinearOrder κ] [Keyed α κ] [LinearOrder Q]

def compareBorrowed (borrow : κ → Q) (needle : Q) (candidate : α) : Ordering :=
  compare (borrow (key candidate)) needle

def getIth (node : List α) (index : Nat) : Option α := node[index]?

/-- `split_off(len / 2)`: what stays and what is split off. -/
def halve (node : List α) : List α × List α :=
  (node.take (node.length / 2), node.drop (node.length / 2))

def needToSplit (node : List α) (border : Nat) : Bool := decide (border ≤ node.length)

/-- Whether the value was new, its position, and the node afterwards. -/
def insert (node : List α) (value : α) : Bool × Nat × List α :=
  match search node (compareBorrowed id (key value)) with
  | .ok index => (false, index, node)
  | .error index => (true, index, node.insertIdx index value)

def trySelect (borrow : κ → Q) (node : List α) (value : Q) : Option Nat :=
  match search node (compareBorrowed borrow value) with
  | .ok index => some index
  | .error _ => none

def contains (borrow : κ → Q) (node : List α) (value : Q) : Bool := (trySelect borrow node value).isSome

def delete (borrow : κ → Q) (node : List α) (value : Q) : Option (α × Nat × List α) :=
  match search node (compareBorrowed borrow value) with
  | .ok index => (node[index]?).map fun deleted => (deleted, index, node.eraseIdx index)
  | .error _ => none

def replace (node : List α) (index : Nat) (value : α) : Option α × List α :=
  (node[index]?, node.set index value)

def max (node : List α) : Option α := node.getLast?

def min (node : List α) : Option α := node.head?

/-- `compute_positions_to_skip`: the index of the last value to skip. -/
def rank (borrow : κ → Q) (node : List α) (bound : Bound Q) (fromStart : Bool) : Option Nat :=
  let below (value : Q) := partitionPoint (fun item => decide (borrow (key item) < value)) node
  let upTo (value : Q) := partitionPoint (fun item => decide (borrow (key item) ≤ value)) node
  let skipped := match bound, fromStart with
    | .included value, true => some (below value)
    | .excluded value, true => some (upTo value)
    | .included value, false => some (node.length - upTo value)
    | .excluded value, false => some (node.length - below value)
    | .unbounded, _ => none
  match skipped with
  | some (count + 1) => some count
  | _ => none

end Functions

def Searchable (cmp : α → Ordering) (haystack : List α) : Prop :=
  haystack.Pairwise (fun first second =>
    (cmp second = .lt → cmp first = .lt) ∧ (cmp first = .gt → cmp second = .gt))

theorem search_ok {haystack : List α} {cmp : α → Ordering} {index : Nat} (found : search haystack cmp = .ok index) :
    ∃ candidate, haystack[index]? = some candidate ∧ cmp candidate = .eq := by
  have loop : ∀ fuel i j m, searchLoop haystack cmp fuel i j m = .ok index →
      ∃ candidate, haystack[index]? = some candidate ∧ cmp candidate = .eq := by
    intro fuel
    induction fuel with
    | zero => intro i j m found; cases found
    | succ fuel ih =>
      intro i j m found
      simp only [searchLoop] at found
      split at found
      · cases found
      · split at found
        · cases found
        next candidate seen =>
          split at found
          next equal => cases found; exact ⟨candidate, seen, equal⟩
          next => exact ih _ _ _ found
          next => exact ih _ _ _ found
  exact loop _ _ _ _ found

/-- Whatever the comparison does, a missed search stays inside the slice. -/
theorem search_error_le {haystack : List α} {cmp : α → Ordering} {index : Nat} (missed : search haystack cmp = .error index) :
    index ≤ haystack.length := by
  have loop : ∀ fuel i j m, m = (i + j) / 2 → i ≤ j → searchLoop haystack cmp fuel i j m = .error index → index ≤ j := by
    intro fuel
    induction fuel with
    | zero =>
      intro i j m _ ordered missed
      cases missed
      exact ordered
    | succ fuel ih =>
      intro i j m middle ordered missed
      simp only [searchLoop] at missed
      split at missed
      next => cases missed; exact ordered
      next different =>
        split at missed
        next => cases missed; exact ordered
        next =>
          split at missed
          next => cases missed
          next => exact ih _ _ _ rfl (by omega) missed
          next => exact (ih _ _ _ rfl (by omega) missed).trans (by omega)
  exact loop _ 0 _ _ (by rw [Nat.zero_add]) (Nat.zero_le _) missed

/-- What the loop has learnt: everything before `i` is smaller than the needle
and everything from `j` on is greater. -/
private structure Window (haystack : List α) (cmp : α → Ordering) (i j : Nat) : Prop where
  ordered : i ≤ j
  inside : j ≤ haystack.length
  smaller : ∀ (position : Nat) item, haystack[position]? = some item → position < i → cmp item = .lt
  greater : ∀ (position : Nat) item, haystack[position]? = some item → j ≤ position → cmp item = .gt

private theorem Searchable.at {haystack : List α} {cmp : α → Ordering} (ordered : Searchable cmp haystack)
    {first second : Nat} {left right : α} (atFirst : haystack[first]? = some left)
    (atSecond : haystack[second]? = some right) (before : first < second) :
    (cmp right = .lt → cmp left = .lt) ∧ (cmp left = .gt → cmp right = .gt) := by
  obtain ⟨firstInside, rfl⟩ := List.getElem?_eq_some_iff.mp atFirst
  obtain ⟨secondInside, rfl⟩ := List.getElem?_eq_some_iff.mp atSecond
  exact List.pairwise_iff_getElem.mp ordered first second firstInside secondInside before

private theorem searchLoop_error {haystack : List α} {cmp : α → Ordering} (ordered : Searchable cmp haystack)
    {index : Nat} : ∀ fuel i j m, m = (i + j) / 2 → j - i ≤ fuel → Window haystack cmp i j →
      searchLoop haystack cmp fuel i j m = .error index → Window haystack cmp index index := by
  intro fuel
  induction fuel with
  | zero =>
    intro i j m _ enough window missed
    have same : i = j := by have := window.ordered; omega
    cases missed
    exact same ▸ window
  | succ fuel ih =>
    intro i j m middle enough window missed
    have orderedWindow := window.ordered
    have insideWindow := window.inside
    simp only [searchLoop] at missed
    split at missed
    next same => cases missed; exact same ▸ window
    next different =>
      split at missed
      next outside =>
        have := List.getElem?_eq_none_iff.mp outside
        omega
      next candidate seen =>
        split at missed
        next => cases missed
        next less =>
          refine ih _ _ _ rfl (by omega) ⟨by omega, window.inside, ?_, window.greater⟩ missed
          intro position item there before
          by_cases here : position = m
          · subst here
            rw [seen] at there
            cases there
            exact less
          · exact (ordered.at there seen (by omega)).1 less
        next more =>
          refine ih _ _ _ rfl (by omega) ⟨by omega, by omega, window.smaller, ?_⟩ missed
          intro position item there after
          by_cases here : position = m
          · subst here
            rw [seen] at there
            cases there
            exact more
          · exact (ordered.at seen there (by omega)).2 more

theorem search_error {haystack : List α} {cmp : α → Ordering} (ordered : Searchable cmp haystack) {index : Nat}
    (missed : search haystack cmp = .error index) :
    index ≤ haystack.length ∧ (∀ item ∈ haystack.take index, cmp item = .lt) ∧
      ∀ item ∈ haystack.drop index, cmp item = .gt := by
  have window : Window haystack cmp index index :=
    searchLoop_error ordered _ _ _ _ (by omega) (by omega)
      ⟨Nat.zero_le _, le_rfl, fun _ _ _ impossible => absurd impossible (Nat.not_lt_zero _), by
        intro position item there beyond
        have := (List.getElem?_eq_some_iff.mp there).1
        omega⟩ missed
  refine ⟨window.inside, ?_, ?_⟩
  · intro item member
    obtain ⟨position, before, rfl⟩ := List.mem_take_iff_getElem.mp member
    exact window.smaller position _ (List.getElem?_eq_getElem _) (by omega)
  · intro item member
    obtain ⟨offset, inside, rfl⟩ := List.mem_drop_iff_getElem.mp member
    exact window.greater (index + offset) _ (List.getElem?_eq_getElem _) (by omega)

end Node
end WorkTablesIndex
