import WorkTablesIndex.Indexset.Iter

/-! Mutable iteration over the single-threaded map (`lib.rs`). Both ends take nodes out of one
iterator over the nodes between them. What a caller writes through the references does not
reach the iterator, so each is modelled by the key and the value it stands for. -/

namespace WorkTablesIndex.Indexset

variable {F K V : Type} [FenwickTree F]

/-- `inner` holds the nodes that neither end has opened. The back index is the position of the
back itself; `usize::MAX`, which wrapping gives for an empty map, is the integer `-1`. -/
structure IterMut (K V : Type) where
  inner : List (List (Pair K V))
  currentFrontNodeIdx : Nat
  currentFrontIdx : Nat
  currentBackNodeIdx : Nat
  currentBackIdx : Int
  currentFrontIterator : List (Pair K V)
  currentBackIterator : List (Pair K V)

namespace IterMut
def nextWithin : Nat → IterMut K V → Option (Option (K × V) × IterMut K V)
  | 0, _ => none
  | fuel + 1, iter =>
    if (iter.currentFrontIdx : Int) = iter.currentBackIdx + 1 then some (none, iter)
    else
      match iter.currentFrontIterator with
      | entry :: rest =>
        some (some (BTreeMap.item entry), { iter with
          currentFrontIdx := iter.currentFrontIdx + 1, currentFrontIterator := rest })
      | [] =>
        if iter.currentFrontNodeIdx = iter.inner.length then some (none, iter)
        else if iter.currentBackNodeIdx = 0 then none
        else if iter.currentFrontNodeIdx = iter.currentBackNodeIdx - 1 then
          -- take from the current back iter
          match iter.currentBackIterator with
          | entry :: rest =>
            some (some (BTreeMap.item entry), { iter with
              currentFrontIdx := iter.currentFrontIdx + 1, currentBackIterator := rest })
          | [] => some (none, iter)
        else
          -- advance front
          let currentFrontNodeIdx := iter.currentFrontNodeIdx + 1
          match iter.inner with
          | node :: inner => nextWithin fuel { iter with currentFrontNodeIdx, inner, currentFrontIterator := node }
          | [] => nextWithin fuel { iter with currentFrontNodeIdx }

/-- A call that is not over by then never is: there are no more nodes to open, and the front
has passed the node before the back. -/
def next (iter : IterMut K V) : Option (Option (K × V) × IterMut K V) :=
  nextWithin (iter.inner.length + iter.currentBackNodeIdx + 2) iter

def takeFront (iter : IterMut K V) : Option (K × V) × IterMut K V :=
  match iter.currentFrontIterator.getLast? with
  | some entry =>
    (some (BTreeMap.item entry), { iter with
      currentBackIdx := if iter.currentBackIdx ≠ 0 then iter.currentBackIdx - 1 else iter.currentBackIdx
      currentFrontIterator := iter.currentFrontIterator.dropLast })
  | none => (none, iter)

def nextBackWithin : Nat → IterMut K V → Option (Option (K × V) × IterMut K V)
  | 0, _ => none
  | fuel + 1, iter =>
    if (iter.currentFrontIdx : Int) = iter.currentBackIdx + 1 then some (none, iter)
    else
      match iter.currentBackIterator.getLast? with
      | some entry =>
        if iter.currentBackIdx = 0 then none
        else
          some (some (BTreeMap.item entry), { iter with
            currentBackIdx := iter.currentBackIdx - 1, currentBackIterator := iter.currentBackIterator.dropLast })
      | none =>
        if iter.currentBackNodeIdx = 0 ∧ iter.currentFrontNodeIdx ≠ 0 then some (none, iter)
        else if iter.currentFrontNodeIdx = iter.currentBackNodeIdx then some (takeFront iter)
        else if iter.currentBackNodeIdx = 0 then none
        else if iter.currentFrontNodeIdx = iter.currentBackNodeIdx - 1 then some (takeFront iter)
        else
          -- advance back
          let currentBackNodeIdx := iter.currentBackNodeIdx - 1
          match iter.inner.getLast? with
          | some node =>
            nextBackWithin fuel { iter with
              currentBackNodeIdx, inner := iter.inner.dropLast, currentBackIterator := node }
          | none => nextBackWithin fuel { iter with currentBackNodeIdx }

/-- The node of the back can only come down to the first one. -/
def nextBack (iter : IterMut K V) : Option (Option (K × V) × IterMut K V) :=
  nextBackWithin (iter.currentBackNodeIdx + 1) iter

def draw : Deque.End → IterMut K V → Option (Option (K × V) × IterMut K V)
  | .front => next
  | .back => nextBack

def drawValue : Deque.End → IterMut K V → Option (Option V × IterMut K V) := Deque.view Prod.snd draw

end IterMut

namespace BTreeMap
variable {κ Q : Type} [LinearOrder κ] [Keyed K κ] [LinearOrder Q] (borrow : κ → Q)

def iterMut (map : BTreeMap F K V) : Option (IterMut K V) :=
  match map.set.inner with
  | [] => none
  -- special handling for the single node
  | [node] => some {
      inner := []
      currentFrontNodeIdx := 0
      currentFrontIdx := 0
      currentBackNodeIdx := 0
      currentBackIdx := (map.set.len : Int) - 1
      currentFrontIterator := node
      currentBackIterator := [] }
  | node :: nodes => some {
      inner := nodes.dropLast
      currentFrontNodeIdx := 0
      currentFrontIdx := 0
      currentBackNodeIdx := nodes.length
      currentBackIdx := (map.set.len : Int) - 1
      currentFrontIterator := node
      currentBackIterator := nodes.getLast?.getD [] }

def valuesMut (map : BTreeMap F K V) : Option (IterMut K V) := iterMut map

def nth (index : Nat) (nodes : List (List (Pair K V))) : List (Pair K V) × List (List (Pair K V)) :=
  ((nodes[index]?).getD [], nodes.drop (index + 1))

def rangeMutIdx (start last : Bound Nat) (map : BTreeMap F K V) : Option (IterMut K V) := do
  let ((globalFrontIdx, frontNodeIdx, frontStartIdx), (globalBackIdx, backNodeIdx, backStartIdx)) ←
    map.set.resolveRange start last
  let backNode ← map.set.inner[backNodeIdx]?
  let (frontNode, inner) := nth frontNodeIdx map.set.inner
  if backNodeIdx < frontNodeIdx then none
  else
    let offset := backNodeIdx - frontNodeIdx
    let (backIter, inner) := nth offset inner
    let frontIter := frontNode.drop frontStartIdx
    -- the entries that `for _ in back_start_idx..end` takes off an end
    let trimmed := backNode.length - backStartIdx
    return {
      inner
      currentFrontNodeIdx := frontNodeIdx
      currentFrontIdx := globalFrontIdx
      currentBackNodeIdx := backNodeIdx
      currentBackIdx := (globalBackIdx : Int)
      currentFrontIterator := if 0 < offset then frontIter else frontIter.take (frontIter.length - trimmed)
      currentBackIterator := if 0 < offset then backIter.take (backIter.length - trimmed) else backIter }

def rangeMut (start last : Bound Q) (map : BTreeMap F K V) : Option (IterMut K V) := do
  let (startIdx, endIdx) ← rangeToIdx borrow start last map
  rangeMutIdx (.included startIdx) (.included endIdx) map

end BTreeMap
end WorkTablesIndex.Indexset
