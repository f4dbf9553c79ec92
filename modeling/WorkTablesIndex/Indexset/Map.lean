import WorkTablesIndex.Map
import WorkTablesIndex.Indexset.Set

/-! The single-threaded map (`lib.rs`): a set of pairs that are compared by their keys, and the
entry interface over it. Equal keys need not be the same, so a pair is ordered by what its key
is ordered by. An unwrapped `None` is a panic, so such a function returns nothing. -/

namespace WorkTablesIndex.Indexset
open Slice

variable {F K V κ Q : Type} [FenwickTree F] [LinearOrder κ] [Keyed K κ] [LinearOrder Q]

scoped instance : Keyed (Pair K V) κ := ⟨fun pair => Keyed.key pair.key⟩

structure BTreeMap (F K V : Type) where
  set : BTreeSet F (Pair K V)

def RefMut.value (ref : RefMut (Pair K V) (BTreeSet F (Pair K V))) : RefMut V (BTreeMap F K V) :=
  ⟨ref.current.value, fun value => ⟨ref.write { ref.current with value }⟩⟩

namespace BTreeMap

def withMaximumNodeSize (maximumNodeSize : Nat) : BTreeMap F K V := ⟨.withMaximumNodeSize maximumNodeSize⟩

def new : BTreeMap F K V := ⟨.new⟩

def clear (map : BTreeMap F K V) : BTreeMap F K V := ⟨map.set.clear⟩

def len (map : BTreeMap F K V) : Nat := map.set.len

def getIndex (idx : Nat) (map : BTreeMap F K V) : Option (K × V) :=
  (map.set.getIndex idx).map fun entry => (entry.key, entry.value)

def getMutIndex (index : Nat) (map : BTreeMap F K V) : Option (RefMut V (BTreeMap F K V)) :=
  (map.set.getMutIndex index).map RefMut.value

def popFirst (map : BTreeMap F K V) : Option (Option (K × V) × BTreeMap F K V) :=
  map.set.popFirst.map fun (popping, set) => (popping.map fun pop => (pop.key, pop.value), ⟨set⟩)

def popLast (map : BTreeMap F K V) : Option (Option (K × V) × BTreeMap F K V) :=
  map.set.popLast.map fun (popping, set) => (popping.map fun pop => (pop.key, pop.value), ⟨set⟩)

def popIndex (index : Nat) (map : BTreeMap F K V) : Option ((K × V) × BTreeMap F K V) :=
  (map.set.popIndex index).map fun (popping, set) => ((popping.key, popping.value), ⟨set⟩)

def visitPair {σ : Type} (f : K → V → σ → Bool × V × σ) (item : Pair K V) (state : σ) : Bool × Pair K V × σ :=
  let (keep, value, state) := f item.key item.value state
  (keep, { item with value }, state)

def retain {σ : Type} (f : K → V → σ → Bool × V × σ) (state : σ) (map : BTreeMap F K V) : Option (σ × BTreeMap F K V) :=
  (map.set.retainMut (visitPair f) state).map fun (state, set) => (state, ⟨set⟩)

section Keys
variable (borrow : κ → Q)

def keyBelow (key : Q) : Pair K V → Bool := BTreeSet.below borrow key

def keyEquals (key : Q) : Pair K V → Bool := BTreeSet.equals borrow key

def containsKey (key : Q) (map : BTreeMap F K V) : Option Bool := map.set.containsCmp (keyBelow borrow key) (keyEquals borrow key)

def getKeyValue (key : Q) (map : BTreeMap F K V) : Option (K × V) := do
  let nodeIdx := map.set.locateNodeCmp (keyBelow borrow key)
  let candidateNode ← map.set.inner[nodeIdx]?
  match binarySearchBy (fun candidate => compare (borrow (Keyed.key candidate)) key) candidateNode with
  | .ok position => (candidateNode[position]?).map fun candidate => (candidate.key, candidate.value)
  | .error _ => none

def get (key : Q) (map : BTreeMap F K V) : Option V := (getKeyValue borrow key map).map Prod.snd

/-- `Index::index`, which panics without an entry. -/
def index (key : Q) (map : BTreeMap F K V) : Option V := get borrow key map

def getMut (key : Q) (map : BTreeMap F K V) : Option (Option (RefMut V (BTreeMap F K V))) := do
  let (nodeIdx, positionWithinNode) ← map.set.locateValueCmp (keyBelow borrow key)
  match map.set.refAt nodeIdx positionWithinNode with
  | some entry => return if borrow (Keyed.key entry.current) = key then some (RefMut.value entry) else none
  | none => return none

def remove (key : Q) (map : BTreeMap F K V) : Option (Option V × BTreeMap F K V) :=
  (map.set.deleteCmp (keyBelow borrow key) (keyEquals borrow key)).map fun (oldEntry, set) =>
    (if oldEntry.2 then oldEntry.1.map Pair.value else none, ⟨set⟩)

def removeEntry (key : Q) (map : BTreeMap F K V) : Option (Option (K × V) × BTreeMap F K V) :=
  (map.set.deleteCmp (keyBelow borrow key) (keyEquals borrow key)).map fun (oldEntry, set) =>
    (if oldEntry.2 then oldEntry.1.map fun keyValue => (keyValue.key, keyValue.value) else none, ⟨set⟩)

def splitOff (key : Q) (map : BTreeMap F K V) : Option (BTreeMap F K V × BTreeMap F K V) :=
  (map.set.splitOffCmp (keyBelow borrow key)).map fun (set, latterHalf) => (⟨set⟩, ⟨latterHalf⟩)

end Keys

def insert (key : K) (value : V) (map : BTreeMap F K V) : Option (Option V × BTreeMap F K V) := do
  match ← map.set.findCmp (keyBelow id (Keyed.key key)) (keyEquals id (Keyed.key key)) with
  | .exist nodeIdx positionWithinNode =>
    let entry ← map.set.refAt nodeIdx positionWithinNode
    return (some entry.current.value, (RefMut.value entry).write value)
  | .empty nodeIdx =>
    let (_, set) ← map.set.insertAt nodeIdx ⟨key, value⟩
    return (none, ⟨set⟩)

def append (fuel : Nat) (map other : BTreeMap F K V) : Option (BTreeMap F K V × BTreeMap F K V) :=
  (BTreeSet.append fuel map.set other.set).map fun (set, other) => (⟨set⟩, ⟨other⟩)

end BTreeMap

structure VacantEntry (F K V : Type) where
  map : BTreeMap F K V
  key : K

structure OccupiedEntry (F K V : Type) where
  map : BTreeMap F K V
  idx : Nat

inductive Entry (F K V : Type) where
  | vacant (entry : VacantEntry F K V)
  | occupied (entry : OccupiedEntry F K V)

namespace OccupiedEntry

def key (entry : OccupiedEntry F K V) : Option K := (entry.map.set.getIndex entry.idx).map Pair.key

def removeEntry (entry : OccupiedEntry F K V) : Option ((K × V) × BTreeMap F K V) := entry.map.popIndex entry.idx

def get (entry : OccupiedEntry F K V) : Option V := (entry.map.getIndex entry.idx).map Prod.snd

/-- The reference, and the entry that is left after a write. -/
def getMut (entry : OccupiedEntry F K V) : Option (RefMut V (OccupiedEntry F K V)) :=
  (entry.map.getMutIndex entry.idx).map fun ref => ⟨ref.current, fun value => { entry with map := ref.write value }⟩

def intoMut (entry : OccupiedEntry F K V) : Option (RefMut V (BTreeMap F K V)) := entry.map.getMutIndex entry.idx

def insert (value : V) (entry : OccupiedEntry F K V) : Option (V × OccupiedEntry F K V) :=
  (getMut entry).map fun current => (current.current, current.write value)

def remove (entry : OccupiedEntry F K V) : Option (V × BTreeMap F K V) :=
  (entry.map.popIndex entry.idx).map fun (popped, map) => (popped.2, map)

end OccupiedEntry

def VacantEntry.insert (value : V) (entry : VacantEntry F K V) : Option (RefMut V (BTreeMap F K V)) := do
  let rank ← entry.map.set.rankCmp (BTreeMap.keyBelow id (Keyed.key entry.key))
  let (_, map) ← entry.map.insert entry.key value
  map.getMutIndex rank

namespace Entry

def orInsert (default : V) : Entry F K V → Option (RefMut V (BTreeMap F K V))
  | .vacant entry => entry.insert default
  | .occupied entry => entry.intoMut

def orInsertWith (default : Unit → V) : Entry F K V → Option (RefMut V (BTreeMap F K V))
  | .vacant entry => entry.insert (default ())
  | .occupied entry => entry.intoMut

def orInsertWithKey (default : K → V) : Entry F K V → Option (RefMut V (BTreeMap F K V))
  | .vacant entry => entry.insert (default entry.key)
  | .occupied entry => entry.intoMut

def orDefault [Inhabited V] : Entry F K V → Option (RefMut V (BTreeMap F K V))
  | .occupied entry => entry.intoMut
  | .vacant entry => entry.insert default

def key : Entry F K V → Option K
  | .vacant entry => some entry.key
  | .occupied entry => entry.key

def andModify (f : V → V) : Entry F K V → Option (Entry F K V)
  | .occupied entry => (entry.getMut).map fun ref => .occupied (ref.write (f ref.current))
  | .vacant entry => some (.vacant entry)

end Entry

namespace BTreeMap

def entry (key : K) (map : BTreeMap F K V) : Option (Entry F K V) := do
  if ← map.containsKey id (Keyed.key key) then
    let idx ← map.set.rankCmp (keyBelow id (Keyed.key key))
    return .occupied ⟨map, idx⟩
  else return .vacant ⟨map, key⟩

def firstEntry (map : BTreeMap F K V) : Option (OccupiedEntry F K V) := if map.len = 0 then none else some ⟨map, 0⟩

def lastEntry (map : BTreeMap F K V) : Option (OccupiedEntry F K V) := if 0 < map.len then some ⟨map, map.len - 1⟩ else none

end BTreeMap
end WorkTablesIndex.Indexset
