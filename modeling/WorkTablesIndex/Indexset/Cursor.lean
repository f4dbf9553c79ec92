import WorkTablesIndex.Indexset.Iter

/-! Cursors over the single-threaded map (`lib.rs`): a position among the elements, or the ghost
position behind the last of them. -/

namespace WorkTablesIndex.Indexset

variable {F α K V κ Q : Type} [FenwickTree F] [LinearOrder κ] [Keyed K κ] [LinearOrder Q]

structure Cursor (F α : Type) where
  set : BTreeSet F α
  idx : Nat

namespace Cursor

def moveNext (cursor : Cursor F α) : Cursor F α :=
  if cursor.idx = cursor.set.len then { cursor with idx := 0 } else { cursor with idx := cursor.idx + 1 }

def moveIndex (index : Nat) (cursor : Cursor F α) : Cursor F α := { cursor with idx := index }

def movePrev (cursor : Cursor F α) : Cursor F α :=
  if cursor.idx = 0 then { cursor with idx := cursor.set.len } else { cursor with idx := cursor.idx - 1 }

def item (cursor : Cursor F α) : Option α := cursor.set.getIndex cursor.idx

def peekNext (cursor : Cursor F α) : Option α :=
  if cursor.idx = cursor.set.len then cursor.set.first else cursor.set.getIndex (cursor.idx + 1)

def peekIndex (index : Nat) (cursor : Cursor F α) : Option α := cursor.set.getIndex index

def peekPrev (cursor : Cursor F α) : Option α := if cursor.idx = 0 then none else cursor.set.getIndex (cursor.idx - 1)

end Cursor

structure CursorMap (F K V : Type) where
  cursor : Cursor F (Pair K V)

namespace CursorMap

def moveNext (map : CursorMap F K V) : CursorMap F K V := ⟨map.cursor.moveNext⟩

def moveIndex (index : Nat) (map : CursorMap F K V) : CursorMap F K V := ⟨map.cursor.moveIndex index⟩

def movePrev (map : CursorMap F K V) : CursorMap F K V := ⟨map.cursor.movePrev⟩

def key (map : CursorMap F K V) : Option K := map.cursor.item.map Pair.key

def value (map : CursorMap F K V) : Option V := map.cursor.item.map Pair.value

def keyValue (map : CursorMap F K V) : Option (K × V) := map.cursor.item.map BTreeMap.item

def peekNext (map : CursorMap F K V) : Option (K × V) := map.cursor.peekNext.map BTreeMap.item

def peekIndex (index : Nat) (map : CursorMap F K V) : Option (K × V) := (map.cursor.peekIndex index).map BTreeMap.item

def peekPrev (map : CursorMap F K V) : Option (K × V) := map.cursor.peekPrev.map BTreeMap.item

end CursorMap

namespace BTreeMap
variable (borrow : κ → Q)

def rank (value : Q) (map : BTreeMap F K V) : Option Nat := map.set.rankCmp (keyBelow borrow value)

/-- The rank counts the smaller keys only, also for an excluded bound. -/
def lowerBound (bound : Bound Q) (map : BTreeMap F K V) : Option (CursorMap F K V) := do
  let startIdx ← match bound with
    | .included start => map.set.rankCmp (keyBelow borrow start)
    | .excluded start => (map.set.rankCmp (keyBelow borrow start)).map (· + 1)
    | .unbounded => some 0
  return ⟨⟨map.set, startIdx⟩⟩

end BTreeMap
end WorkTablesIndex.Indexset
