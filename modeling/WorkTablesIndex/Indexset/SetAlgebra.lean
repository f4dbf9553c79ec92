import WorkTablesIndex.Indexset.Iter

/-! Set algebra of the single-threaded set (`lib.rs`): four lazy iterators over one merge of the
two sets. Each of them wraps a merge and nothing else, so it is that merge. A call that would panic
returns nothing. -/

namespace WorkTablesIndex.Indexset

variable {F α κ : Type} [FenwickTree F] [LinearOrder κ] [Keyed α κ]

structure MergeIter (F α : Type) where
  start : Bool
  leftIter : Iter F α
  currentLeft : Option α
  rightIter : Iter F α
  currentRight : Option α

namespace MergeIter

def nextLeft (merge : MergeIter F α) : Option (MergeIter F α) :=
  merge.leftIter.next.map fun (currentLeft, leftIter) => { merge with leftIter, currentLeft }

def nextRight (merge : MergeIter F α) : Option (MergeIter F α) :=
  merge.rightIter.next.map fun (currentRight, rightIter) => { merge with rightIter, currentRight }

def shown (merge : MergeIter F α) : Option (Option α × Option α) × MergeIter F α :=
  (some (merge.currentLeft, merge.currentRight), merge)

def next (merge : MergeIter F α) : Option (Option (Option α × Option α) × MergeIter F α) := do
  if merge.start = false then
    match merge.currentLeft, merge.currentRight with
    | some left, some right =>
      match compare (key left) (key right) with
      | .lt => return shown (← merge.nextLeft)
      | .eq => return shown (← (← merge.nextLeft).nextRight)
      | .gt => return shown (← merge.nextRight)
    | some _, none => return shown (← merge.nextLeft)
    | none, some _ => return shown (← merge.nextRight)
    | none, none => return (none, merge)
  else return shown { ← (← merge.nextLeft).nextRight with start := false }

end MergeIter

/-- What an iterator makes of the two current values: it returns one, it goes on, or it returns `None`. -/
inductive Selection (α : Type) where
  | give (value : α)
  | skip
  | finish

def MergeIter.selectWithin (select : Option α → Option α → Selection α) :
    Nat → MergeIter F α → Option (Option α × MergeIter F α)
  | 0, _ => none
  | fuel + 1, merge => do
    match ← merge.next with
    | (some (currentLeft, currentRight), merge) =>
      match select currentLeft currentRight with
      | .give value => return (some value, merge)
      | .skip => selectWithin select fuel merge
      | .finish => return (none, merge)
    | (none, merge) => return (none, merge)

def Iter.left (iter : Iter F α) : Nat := iter.currentBackIdx - iter.currentFrontIdx

/-- Every round but the last takes a value from one of the sides. -/
def MergeIter.select (select : Option α → Option α → Selection α) (merge : MergeIter F α) :
    Option (Option α × MergeIter F α) :=
  merge.selectWithin select (merge.leftIter.left + merge.rightIter.left + 2)

def Union.select : Option α → Option α → Selection α
  | some left, some right => if key right < key left then .give right else .give left
  | some left, none => .give left
  | none, some right => .give right
  | none, none => .finish

def Difference.select : Option α → Option α → Selection α
  | some left, some right => if key left < key right then .give left else .skip
  | some left, none => .give left
  | none, _ => .finish

def SymmetricDifference.select : Option α → Option α → Selection α
  | some left, some right => if key left < key right then .give left else if key right < key left then .give right else .skip
  | some left, none => .give left
  | none, some right => .give right
  | none, none => .finish

def Intersection.select : Option α → Option α → Selection α
  | some left, some right => if key left = key right then .give left else .skip
  | none, _ | _, none => .finish

def Union.next (union : MergeIter F α) : Option (Option α × MergeIter F α) := union.select Union.select

def Difference.next (difference : MergeIter F α) : Option (Option α × MergeIter F α) := difference.select Difference.select

def SymmetricDifference.next (difference : MergeIter F α) : Option (Option α × MergeIter F α) :=
  difference.select SymmetricDifference.select

def Intersection.next (intersection : MergeIter F α) : Option (Option α × MergeIter F α) :=
  intersection.select Intersection.select

namespace BTreeSet

def merge (set other : BTreeSet F α) : Option (MergeIter F α) := do
  let leftIter ← set.iter
  let rightIter ← other.iter
  return { start := true, leftIter, currentLeft := none, rightIter, currentRight := none }

def union (set other : BTreeSet F α) : Option (MergeIter F α) := merge set other

def difference (set other : BTreeSet F α) : Option (MergeIter F α) := merge set other

def symmetricDifference (set other : BTreeSet F α) : Option (MergeIter F α) := merge set other

def intersection (set other : BTreeSet F α) : Option (MergeIter F α) := merge set other

def isSubset (set other : BTreeSet F α) : Option Bool := do
  let (first, _) ← Difference.next (← set.difference other)
  return !first.isSome

def isSuperset (set other : BTreeSet F α) : Option Bool := do
  let (first, _) ← Difference.next (← other.difference set)
  return !first.isSome

def isDisjoint (set other : BTreeSet F α) : Option Bool := do
  let (first, _) ← Intersection.next (← set.intersection other)
  return !first.isSome

end BTreeSet
end WorkTablesIndex.Indexset
