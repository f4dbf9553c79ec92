import WorkTablesIndex.Set
import WorkTablesIndex.Library.Fenwick

/-! The single-threaded set (`lib.rs`): a vector of nodes and a tree of their lengths. A call
that would panic on an index returns nothing. -/

namespace WorkTablesIndex
open Slice

/-- `&mut T` into a collection: the value it points at, and the collection after a write through it. -/
structure RefMut (T S : Type) where
  current : T
  write : T → S

namespace Indexset

structure BTreeSet (F α : Type) where
  inner : List (List α)
  index : F
  nodeCapacity : Nat
  len : Nat

inductive NodeEntry where
  | exist (nodeIdx positionWithinNode : Nat)
  | empty (nodeIdx : Nat)

namespace BTreeSet

variable {F α κ Q : Type} [FenwickTree F]

def reindex (inner : List (List α)) : F := FenwickTree.fromIter (inner.map List.length)

def withMaximumNodeSize (maximumNodeSize : Nat) : BTreeSet F α :=
  { inner := [[]], index := FenwickTree.fromIter [0], nodeCapacity := maximumNodeSize, len := 0 }

def new : BTreeSet F α := withMaximumNodeSize defaultInnerSize

def clear (set : BTreeSet F α) : BTreeSet F α :=
  { set with inner := [[]], index := FenwickTree.fromIter [0], len := 0 }

/-- The first node whose maximum does not satisfy the comparison, or the last node. -/
def locateNodeBy (onEmpty : Bool) (cmp : α → Bool) (set : BTreeSet F α) : Nat :=
  let nodeIdx := partitionPoint (fun node => match node.getLast? with | some max => cmp max | none => onEmpty) set.inner
  if set.inner[nodeIdx]?.isNone then nodeIdx - 1 else nodeIdx

def locateNodeCmp (cmp : α → Bool) (set : BTreeSet F α) : Nat := locateNodeBy true cmp set

def locateValueBy (onEmpty : Bool) (cmp : α → Bool) (set : BTreeSet F α) : Option (Nat × Nat) := do
  let nodeIdx := locateNodeBy onEmpty cmp set
  let node ← set.inner[nodeIdx]?
  return (nodeIdx, partitionPoint cmp node)

def locateValueCmp (cmp : α → Bool) (set : BTreeSet F α) : Option (Nat × Nat) := locateValueBy true cmp set

def locateIth (idx : Nat) (set : BTreeSet F α) : Nat × Nat :=
  let nodeIndex := FenwickTree.indexOf set.index idx
  let offset := if nodeIndex ≠ 0 then FenwickTree.prefixSum set.index nodeIndex 0 else 0
  let positionWithinNode := idx - offset
  match set.inner[nodeIndex]? with
  | some node => if positionWithinNode = node.length then (nodeIndex + 1, 0) else (nodeIndex, positionWithinNode)
  | none => (nodeIndex, positionWithinNode)

def getIndex (idx : Nat) (set : BTreeSet F α) : Option α :=
  let (nodeIdx, positionWithinNode) := locateIth idx set
  (set.inner[nodeIdx]?).bind fun node => node[positionWithinNode]?

def refAt (nodeIdx positionWithinNode : Nat) (set : BTreeSet F α) : Option (RefMut α (BTreeSet F α)) := do
  let node ← set.inner[nodeIdx]?
  let current ← node[positionWithinNode]?
  return ⟨current, fun value => { set with inner := set.inner.set nodeIdx (node.set positionWithinNode value) }⟩

def getMutIndex (index : Nat) (set : BTreeSet F α) : Option (RefMut α (BTreeSet F α)) :=
  let (nodeIdx, positionWithinNode) := locateIth index set
  refAt nodeIdx positionWithinNode set

def rankCmp (cmp : α → Bool) (set : BTreeSet F α) : Option Nat := do
  let (nodeIdx, positionWithinNode) ← locateValueCmp cmp set
  return FenwickTree.prefixSum set.index nodeIdx 0 + positionWithinNode

def deleteAt (nodeIdx positionWithinNode : Nat) (set : BTreeSet F α) : Option (α × BTreeSet F α) := do
  let node ← set.inner[nodeIdx]?
  let removal ← node[positionWithinNode]?
  let remaining := node.eraseIdx positionWithinNode
  let inner := set.inner.set nodeIdx remaining
  if remaining = [] ∧ 1 < inner.length then
    let inner := inner.eraseIdx nodeIdx
    return (removal, { set with inner, index := reindex inner, len := set.len - 1 })
  else
    return (removal, { set with inner, index := FenwickTree.subAt set.index nodeIdx 1, len := set.len - 1 })

def popFirst (set : BTreeSet F α) : Option (Option α × BTreeSet F α) :=
  match (set.inner[0]?).bind fun node => node[0]? with
  | some _ => (deleteAt 0 0 set).map fun (removal, set) => (some removal, set)
  | none => some (none, set)

def popIndex (idx : Nat) (set : BTreeSet F α) : Option (α × BTreeSet F α) :=
  let (nodeIdx, positionWithinNode) := locateIth idx set
  deleteAt nodeIdx positionWithinNode set

def popLast (set : BTreeSet F α) : Option (Option α × BTreeSet F α) := do
  let lastNodeIdx := set.inner.length - 1
  let node ← set.inner[lastNodeIdx]?
  let lastPositionWithinNode := node.length - 1
  match node[lastPositionWithinNode]? with
  | some _ => (deleteAt lastNodeIdx lastPositionWithinNode set).map fun (removal, set) => (some removal, set)
  | none => some (none, set)

def first (set : BTreeSet F α) : Option α := (set.inner.head?).bind List.head?

def last (set : BTreeSet F α) : Option α := (set.inner.getLast?).bind List.getLast?

def candidateBy (onEmpty : Bool) (cmp : α → Bool) (set : BTreeSet F α) : Option (Option α) := do
  let (nodeIdx, positionWithinNode) ← locateValueBy onEmpty cmp set
  return (set.inner[nodeIdx]?).bind fun node => node[positionWithinNode]?

def containsCmp (cmp cmp2 : α → Bool) (set : BTreeSet F α) : Option Bool := do
  let candidate ← candidateBy true cmp set
  return candidate.any cmp2

def findCmp (cmp cmp2 : α → Bool) (set : BTreeSet F α) : Option NodeEntry := do
  let (nodeIdx, positionWithinNode) ← locateValueCmp cmp set
  match (set.inner[nodeIdx]?).bind fun node => node[positionWithinNode]? with
  | some candidate => return if cmp2 candidate then .exist nodeIdx positionWithinNode else .empty nodeIdx
  | none => return .empty nodeIdx

def deleteCmp (cmp cmp2 : α → Bool) (set : BTreeSet F α) : Option ((Option α × Bool) × BTreeSet F α) := do
  match ← findCmp cmp cmp2 set with
  | .exist nodeIdx positionWithinNode =>
    let (removal, set) ← deleteAt nodeIdx positionWithinNode set
    return ((some removal, true), set)
  | .empty _ => return ((none, false), set)

/-- The inner loop of `retain`, over the rest of a node: the state of the predicate, the positions
to delete, and the values it has seen, which a map's predicate may have rewritten. -/
def visitNode {σ : Type} (f : α → σ → Bool × α × σ) (nodeIdx : Nat) : Nat → List α → σ → σ × List (Nat × Nat) × List α
  | _, [], state => (state, [], [])
  | positionWithinNode, item :: rest, state =>
    let (keep, item, state) := f item state
    let (state, positions, rest) := visitNode f nodeIdx (positionWithinNode + 1) rest state
    (state, if keep then positions else (nodeIdx, positionWithinNode) :: positions, item :: rest)

def visitNodes {σ : Type} (f : α → σ → Bool × α × σ) : Nat → List (List α) → σ → σ × List (Nat × Nat) × List (List α)
  | _, [], state => (state, [], [])
  | nodeIdx, node :: rest, state =>
    let (state, positions, node) := visitNode f nodeIdx 0 node state
    let (state, further, rest) := visitNodes f (nodeIdx + 1) rest state
    (state, positions ++ further, node :: rest)

def retainMut {σ : Type} (f : α → σ → Bool × α × σ) (state : σ) (set : BTreeSet F α) : Option (σ × BTreeSet F α) := do
  let (state, positionsToDelete, inner) := visitNodes f 0 set.inner state
  let set ← positionsToDelete.reverse.foldlM (fun set (nodeIdx, positionWithinNode) =>
    (deleteAt nodeIdx positionWithinNode set).map Prod.snd) { set with inner }
  return (state, set)

def retain {σ : Type} (f : α → σ → Bool × σ) (state : σ) (set : BTreeSet F α) : Option (σ × BTreeSet F α) :=
  retainMut (fun item state => ((f item state).1, item, (f item state).2)) state set

/-- What both splitting functions do at the located position: the set that keeps the lower part,
and the one that is returned. -/
def splitOffAt (nodeIdx positionWithinNode : Nat) (set : BTreeSet F α) : Option (BTreeSet F α × BTreeSet F α) := do
  let node ← set.inner[nodeIdx]?
  let firstNode := node.drop positionWithinNode
  let remainingNodes := firstNode :: set.inner.drop (nodeIdx + 1)
  let latterHalf : BTreeSet F α :=
    { (new : BTreeSet F α) with
      inner := remainingNodes, index := reindex remainingNodes, len := (remainingNodes.map List.length).sum }
  let inner := (set.inner.take (nodeIdx + 1)).set nodeIdx (node.take positionWithinNode)
  let inner := if node.take positionWithinNode = [] ∧ 1 < inner.length then inner.eraseIdx nodeIdx else inner
  return ({ set with inner, index := reindex inner, len := (inner.map List.length).sum }, latterHalf)

def splitOffCmp (cmp : α → Bool) (set : BTreeSet F α) : Option (BTreeSet F α × BTreeSet F α) := do
  let (nodeIdx, positionWithinNode) ← locateValueCmp cmp set
  splitOffAt nodeIdx positionWithinNode set

section Ordered
variable [LinearOrder κ] [Keyed α κ] [LinearOrder Q] (borrow : κ → Q)

def below (value : Q) (item : α) : Bool := decide (borrow (key item) < value)

def equals (value : Q) (item : α) : Bool := decide (borrow (key item) = value)

def locateNode (value : Q) (set : BTreeSet F α) : Nat := locateNodeBy false (below borrow value) set

def locateValue (value : Q) (set : BTreeSet F α) : Option (Nat × Nat) := locateValueBy false (below borrow value) set

/-- As in the source, the value at the located position is not compared with the sought one. -/
def get (value : Q) (set : BTreeSet F α) : Option (Option α) := candidateBy false (below borrow value) set

def lowerBound (value : Q) (set : BTreeSet F α) : Option (Option α) := candidateBy false (below borrow value) set

def contains (value : Q) (set : BTreeSet F α) : Option Bool := do
  let candidate ← candidateBy false (below borrow value) set
  return candidate.any (equals borrow value)

def insertAt (nodeIdx : Nat) (value : α) (set : BTreeSet F α) : Option (Bool × BTreeSet F α) := do
  let node ← set.inner[nodeIdx]?
  if node.length = set.nodeCapacity then
    let (left, newNode) := Node.halve node
    let first ← newNode[0]?
    let insertNodeIdx := if key first ≤ key value then nodeIdx + 1 else nodeIdx
    let inner := (set.inner.set nodeIdx left).insertIdx (nodeIdx + 1) newNode
    let target ← inner[insertNodeIdx]?
    let (inserted, _, target) := Node.insert target value
    let inner := inner.set insertNodeIdx target
    if inserted then
      return (true, { set with inner, index := reindex inner, len := set.len + 1 })
    else
      return (false, { set with inner, index := reindex inner })
  else
    let (inserted, _, node) := Node.insert node value
    let inner := set.inner.set nodeIdx node
    if inserted then
      return (true, { set with inner, index := FenwickTree.addAt set.index nodeIdx 1, len := set.len + 1 })
    else
      return (false, { set with inner })

def insert (value : α) (set : BTreeSet F α) : Option (Bool × BTreeSet F α) :=
  insertAt (locateNode id (key value) set) value set

def delete (value : Q) (set : BTreeSet F α) : Option ((Option α × Bool) × BTreeSet F α) := do
  let (nodeIdx, positionWithinNode) ← locateValue borrow value set
  match (set.inner[nodeIdx]?).bind fun node => node[positionWithinNode]? with
  | some candidate =>
    if borrow (key candidate) = value then
      let (removal, set) ← deleteAt nodeIdx positionWithinNode set
      return ((some removal, true), set)
    else return ((none, false), set)
  | none => return ((none, false), set)

def remove (value : Q) (set : BTreeSet F α) : Option (Bool × BTreeSet F α) :=
  (delete borrow value set).map fun (result, set) => (result.2, set)

def take (value : Q) (set : BTreeSet F α) : Option (Option α × BTreeSet F α) :=
  (delete borrow value set).map fun (result, set) => (result.1, set)

def replace (value : α) (set : BTreeSet F α) : Option (Option α × BTreeSet F α) := do
  let (replacedElement, set) ← take id (key value) set
  let (_, set) ← insert value set
  return (replacedElement, set)

def splitOff (value : Q) (set : BTreeSet F α) : Option (BTreeSet F α × BTreeSet F α) := do
  let (nodeIdx, positionWithinNode) ← locateValue borrow value set
  splitOffAt nodeIdx positionWithinNode set

/-- `while let Some(value) = other.pop_first()`; one unit of fuel pays for one round. -/
def append : Nat → BTreeSet F α → BTreeSet F α → Option (BTreeSet F α × BTreeSet F α)
  | 0, _, _ => none
  | fuel + 1, set, other => do
    match ← popFirst other with
    | (some value, other) =>
      let (_, set) ← replace value set
      append fuel set other
    | (none, other) => return (set, other)

end Ordered

end BTreeSet

structure IntoIter (F α : Type) where
  btree : BTreeSet F α

namespace IntoIter
variable {F α : Type} [FenwickTree F]

def next (iter : IntoIter F α) : Option (Option α × IntoIter F α) :=
  (BTreeSet.popFirst iter.btree).map fun (item, btree) => (item, ⟨btree⟩)

def nextBack (iter : IntoIter F α) : Option (Option α × IntoIter F α) :=
  (BTreeSet.popLast iter.btree).map fun (item, btree) => (item, ⟨btree⟩)

end IntoIter
end Indexset
end WorkTablesIndex
