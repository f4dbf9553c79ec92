import Mathlib.Data.Prod.Lex
import WorkTablesIndex.Range

/-! The concurrent multimap (`concurrent/multimap.rs`): a set of pairs ordered by key and
then value (`core/multipair/ord.rs`), whose lookups borrow the key alone. -/

universe u v

namespace WorkTablesIndex

structure OrdMultiPair (K : Type u) (V : Type v) where
  key : K
  value : V
  deriving DecidableEq, Repr

/-- `self.key.cmp(&other.key).then(self.value.cmp(&other.value))`. -/
instance {K : Type u} {V : Type v} : Keyed (OrdMultiPair K V) (K ×ₗ V) := ⟨fun pair => toLex (pair.key, pair.value)⟩

namespace OrdMultiPair
variable {K : Type u} {V : Type v}

def borrow (pair : K ×ₗ V) : K := (ofLex pair).1

def intoTuple (pair : OrdMultiPair K V) : K × V := (pair.key, pair.value)

/-- There is no hidden state to carry over. -/
def adoptStoredIdentity : OrdMultiPair K V → OrdMultiPair K V → OrdMultiPair K V := noIdentityAdoption

end OrdMultiPair

abbrev BTreeMultiMap (K : Type u) (V : Type v) [LinearOrder K] [LinearOrder V] := BTreeSet (OrdMultiPair K V) (K ×ₗ V)

namespace BTreeMultiMap
variable {K : Type u} {V : Type v} [LinearOrder K] [LinearOrder V]
open OrdMultiPair

def withMaximumNodeSize (nodeCapacity : Nat) : BTreeMultiMap K V :=
  (BTreeSet.withMaximumNodeSize nodeCapacity).withGroupedBorrowRouting

def attachMultiNodes (nodes : List (List (OrdMultiPair K V))) (map : BTreeMultiMap K V) : Option (BTreeMultiMap K V) :=
  BTreeSet.attachNodes nodes map

def containsKey (key : K) (map : BTreeMultiMap K V) : Bool := BTreeSet.contains borrow key map

def range (start last : Bound K) (map : BTreeMultiMap K V) : Iter (OrdMultiPair K V) := BTreeSet.range borrow start last map

def get (key : K) (map : BTreeMultiMap K V) : Iter (OrdMultiPair K V) := range (.included key) (.included key) map

def insert (key : K) (value : V) (fuel : Nat) (map : BTreeMultiMap K V) : Option (Option V × BTreeMultiMap K V) :=
  (BTreeSet.putInner adoptStoredIdentity false ⟨key, value⟩ fuel map).map fun (result, map) => (result.1.map OrdMultiPair.value, map)

def remove (key : K) (value : V) (fuel : Nat) (map : BTreeMultiMap K V) : Option (Option (K × V) × BTreeMultiMap K V) :=
  (BTreeSet.remove id (toLex (key, value)) fuel map).map fun (deleted, map) => (deleted.map intoTuple, map)

def removeSome (key : K) (fuel : Nat) (map : BTreeMultiMap K V) : Option (Option (K × V) × BTreeMultiMap K V) :=
  (BTreeSet.remove borrow key fuel map).map fun (deleted, map) => (deleted.map intoTuple, map)

end BTreeMultiMap
end WorkTablesIndex
