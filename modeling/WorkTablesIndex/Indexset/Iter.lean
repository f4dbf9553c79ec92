import WorkTablesIndex.Indexset.Map
import WorkTablesIndex.Library.Deque
import WorkTablesIndex.Range

/-! Shared iteration of the single-threaded set and map (`lib.rs`). Either end walks the nodes
on its own; two global positions tell when they have met. A `Range` hands its calls on to the
iterator it wraps, so it is that iterator. A call that would panic returns nothing. -/

namespace WorkTablesIndex.Indexset

variable {F α : Type} [FenwickTree F]

/-- On each side: the node, the position of the next value among all of them (of the back, the
one after it), and the rest of the node. -/
structure Iter (F α : Type) where
  btree : BTreeSet F α
  currentFrontNodeIdx : Nat
  currentFrontIdx : Nat
  currentBackNodeIdx : Nat
  currentBackIdx : Nat
  currentFrontIterator : Option (List α)
  currentBackIterator : Option (List α)

namespace Iter

def new (btree : BTreeSet F α) : Option (Iter F α) := do
  let first ← btree.inner[0]?
  let last ← btree.inner[btree.inner.length - 1]?
  return {
    btree
    currentFrontNodeIdx := 0
    currentFrontIdx := 0
    currentBackNodeIdx := btree.inner.length - 1
    currentBackIdx := btree.len
    currentFrontIterator := some first
    currentBackIterator := some last }

def nextWithin : Nat → Iter F α → Option (Option α × Iter F α)
  | 0, _ => none
  | fuel + 1, iter =>
    if iter.currentFrontIdx = iter.currentBackIdx then some (none, iter)
    else
      match iter.currentFrontIterator.getD [] with
      | value :: rest =>
        some (some value, { iter with currentFrontIdx := iter.currentFrontIdx + 1, currentFrontIterator := some rest })
      | [] =>
        let currentFrontNodeIdx := iter.currentFrontNodeIdx + 1
        if iter.btree.inner.length ≤ currentFrontNodeIdx then some (none, { iter with currentFrontNodeIdx })
        else do
          let node ← iter.btree.inner[currentFrontNodeIdx]?
          nextWithin fuel { iter with currentFrontNodeIdx, currentFrontIterator := some node }

/-- Each call by itself opens a further node. -/
def next (iter : Iter F α) : Option (Option α × Iter F α) := nextWithin (iter.btree.inner.length + 1) iter

def nextBackWithin : Nat → Iter F α → Option (Option α × Iter F α)
  | 0, _ => none
  | fuel + 1, iter =>
    if iter.currentFrontIdx = iter.currentBackIdx then some (none, iter)
    else
      match (iter.currentBackIterator.getD []).getLast? with
      | some value =>
        if iter.currentBackIdx = 0 then none
        else
          some (some value, { iter with
            currentBackIdx := iter.currentBackIdx - 1
            currentBackIterator := some (iter.currentBackIterator.getD []).dropLast })
      | none =>
        if iter.currentBackNodeIdx = 0 then some (none, iter)
        else do
          let currentBackNodeIdx := iter.currentBackNodeIdx - 1
          let node ← iter.btree.inner[currentBackNodeIdx]?
          nextBackWithin fuel { iter with currentBackNodeIdx, currentBackIterator := some node }

def nextBack (iter : Iter F α) : Option (Option α × Iter F α) := nextBackWithin (iter.btree.inner.length + 1) iter

def draw : Deque.End → Iter F α → Option (Option α × Iter F α)
  | .front => next
  | .back => nextBack

end Iter

namespace BTreeSet

def iter (set : BTreeSet F α) : Option (Iter F α) := Iter.new set

def resolveRange (start last : Bound Nat) (set : BTreeSet F α) : Option ((Nat × Nat × Nat) × Nat × Nat × Nat) := do
  let globalFrontIdx := match start with
    | .included bound => bound
    | .excluded bound => bound + 1
    | .unbounded => 0
  let globalBackIdx ← match last with
    | .included bound => some bound
    | .excluded bound => if bound = 0 then none else some (bound - 1)
    | .unbounded => some (FenwickTree.prefixSum set.index set.inner.length 0 - 1)
  let (frontNodeIdx, frontStartIdx) := locateIth globalFrontIdx set
  let (backNodeIdx, backStartIdx) := locateIth globalBackIdx set
  return ((globalFrontIdx, frontNodeIdx, frontStartIdx), (globalBackIdx, backNodeIdx, backStartIdx))

def frontIter (nodeIdx startIdx : Nat) (set : BTreeSet F α) : Option (Option (List α)) :=
  match set.inner[nodeIdx]? with
  | some node => if startIdx ≤ node.length then some (some (node.drop startIdx)) else none
  | none => some none

def backIter (nodeIdx startIdx : Nat) (set : BTreeSet F α) : Option (Option (List α)) :=
  match set.inner[nodeIdx]? with
  | some node => if startIdx < node.length then some (some (node.take (startIdx + 1))) else none
  | none => some none

def rangeIdx (start last : Bound Nat) (set : BTreeSet F α) : Option (Iter F α) := do
  let ((globalFrontIdx, frontNodeIdx, frontStartIdx), (globalBackIdx, backNodeIdx, backStartIdx)) ←
    resolveRange start last set
  let currentFrontIterator ← frontIter frontNodeIdx frontStartIdx set
  let currentBackIterator ← backIter backNodeIdx backStartIdx set
  return {
    btree := set
    currentFrontNodeIdx := frontNodeIdx
    currentFrontIdx := globalFrontIdx
    currentBackNodeIdx := backNodeIdx
    currentBackIdx := globalBackIdx + 1
    currentFrontIterator
    currentBackIterator }

section Ordered
variable {κ Q : Type} [LinearOrder κ] [Keyed α κ] [LinearOrder Q] (borrow : κ → Q)

def rank (value : Q) (set : BTreeSet F α) : Option Nat := do
  let (nodeIdx, positionWithinNode) ← locateValue borrow value set
  return FenwickTree.prefixSum set.index nodeIdx 0 + positionWithinNode

def startIdx (set : BTreeSet F α) : Bound Q → Option Nat
  | .included bound => rank borrow bound set
  | .excluded bound => (rank borrow bound set).map (· + 1)
  | .unbounded => some 0

def endIdx (set : BTreeSet F α) : Bound Q → Option Nat
  | .included bound => rank borrow bound set
  | .excluded bound => (rank borrow bound set).map (· - 1)
  | .unbounded => some (set.len - 1)

def range (start last : Bound Q) (set : BTreeSet F α) : Option (Iter F α) := do
  let startIdx ← startIdx borrow set start
  let endIdx ← endIdx borrow set last
  rangeIdx (.included startIdx) (.included endIdx) set

end Ordered
end BTreeSet

namespace BTreeMap
variable {K V κ Q : Type} [LinearOrder κ] [Keyed K κ] [LinearOrder Q] (borrow : κ → Q)

def item (entry : Pair K V) : K × V := (entry.key, entry.value)

def iter (map : BTreeMap F K V) : Option (Iter F (Pair K V)) := map.set.iter

def draw : Deque.End → Iter F (Pair K V) → Option (Option (K × V) × Iter F (Pair K V)) := Deque.view item Iter.draw

def rangeIdx (start last : Bound Nat) (map : BTreeMap F K V) : Option (Iter F (Pair K V)) := map.set.rangeIdx start last

def keyUpTo (bound : Q) (entry : Pair K V) : Bool := decide (borrow (Keyed.key entry) ≤ bound)

def startIdx (map : BTreeMap F K V) : Bound Q → Option Nat
  | .included bound => map.set.rankCmp (keyBelow borrow bound)
  | .excluded bound => map.set.rankCmp (keyUpTo borrow bound)
  | .unbounded => some 0

def rangeToIdx (start last : Bound Q) (map : BTreeMap F K V) : Option (Nat × Nat) := do
  let startIdx ← startIdx borrow map start
  match last with
  | .included bound =>
    let endIdx ← map.set.rankCmp (keyBelow borrow bound)
    return (startIdx, endIdx)
  | .excluded bound =>
    let rank ← map.set.rankCmp (keyBelow borrow bound)
    return if rank = 0 then (1, 0) else (startIdx, rank - 1)
  | .unbounded => return if map.len = 0 then (1, 0) else (startIdx, map.len - 1)

def range (start last : Bound Q) (map : BTreeMap F K V) : Option (Iter F (Pair K V)) := do
  let (startIdx, endIdx) ← rangeToIdx borrow start last map
  map.set.rangeIdx (.included startIdx) (.included endIdx)

end BTreeMap
end WorkTablesIndex.Indexset
