import WorkTablesIndex.Iter

/-! Range scans (`Range` in `concurrent/set.rs`). Construction reads the nodes at both
bounds, one at a time, and leaves two sentinels: the last value before the range and the
first one after it. The iterator then runs between them. -/

universe u v w

namespace WorkTablesIndex
open SortedMap

/-- Whether a key lies on the lower side of an upper bound over its borrowed form. -/
def Bound.permits {κ : Type v} {Q : Type w} [LinearOrder Q] (borrow : κ → Q) : Bound Q → κ → Bool
  | .included value, candidate => decide (borrow candidate ≤ value)
  | .excluded value, candidate => decide (borrow candidate < value)
  | .unbounded, _ => true

def Bound.isUnbounded {Q : Type w} : Bound Q → Bool
  | .unbounded => true
  | _ => false

namespace Range
variable {α : Type u} {κ : Type v} {Q : Type w} [LinearOrder κ] [Keyed α κ] [LinearOrder Q]

def inverted : Bound Q → Bound Q → Bool
  | .included start, .included last => decide (last < start)
  | .included start, .excluded last | .excluded start, .included last | .excluded start, .excluded last => decide (last ≤ start)
  | _, _ => false

/-- The last value before the start, from the front node or from the one before it. -/
def frontValue (borrow : κ → Q) (start : Bound Q) (set : BTreeSet α κ) : Option α :=
  match firstForBorrowedBound borrow set.index.index start with
  | none => none
  | some (frontKey, frontNode) =>
    let values := set.heap.cells frontNode
    match Node.rank borrow values start true with
    | some rank => values[rank]?
    | none => (set.index.index.below? frontKey).bind fun entry => (set.heap.cells entry.2).getLast?

def backEntry (borrow : κ → Q) (last : Bound Q) (set : BTreeSet α κ) : Option (κ × NodeId) :=
  match last with
  | .included value | .excluded value => nodeForBorrowedEnd borrow set.index.index value set.borrowOrderMatches
  | .unbounded => set.index.index.last?

def backValue (borrow : κ → Q) (last : Bound Q) (set : BTreeSet α κ) : Option α :=
  match backEntry borrow last set with
  | none => none
  | some (backKey, backNode) =>
    let values := set.heap.cells backNode
    match Node.rank borrow values last false with
    | some rank => values.reverse[rank]?
    | none => (set.index.index.find? fun entry => decide (backKey < entry)).bind fun entry => (set.heap.cells entry.2).head?

/-- Without a sentinel on either side, the range may still lie above or below every value. -/
def outside (borrow : κ → Q) (start last : Bound Q) (set : BTreeSet α κ) : Bool :=
  ((set.index.index.last?.bind fun entry => Node.max (set.heap.cells entry.2)).any fun max => !start.admits borrow (key max)) ||
    (set.index.index.first?.bind fun entry => Node.min (set.heap.cells entry.2)).any fun min => !last.permits borrow (key min)

def new (borrow : κ → Q) (start last : Bound Q) (set : BTreeSet α κ) : Iter α :=
  let front := frontValue borrow start set
  let back := backValue borrow last set
  let met := inverted start last || (front.isNone && back.isNone && !(start.isUnbounded && last.isUnbounded) &&
    outside borrow start last set)
  { Iter.new with currentFrontValue := front, currentBackValue := back, met }

end Range

def BTreeSet.range {α : Type u} {κ : Type v} {Q : Type w} [LinearOrder κ] [Keyed α κ] [LinearOrder Q] (borrow : κ → Q)
    (start last : Bound Q) (set : BTreeSet α κ) : Iter α := Range.new borrow start last set

end WorkTablesIndex
