import WorkTablesIndex.Set

/-! The concurrent map (`concurrent/map.rs`): a set of pairs that are compared by
their key alone (`core/pair.rs`). -/

universe u v

namespace WorkTablesIndex

structure Pair (K : Type u) (V : Type v) where
  key : K
  value : V
  deriving DecidableEq, Repr

instance {K : Type u} {V : Type v} : Keyed (Pair K V) K := ⟨Pair.key⟩

abbrev BTreeMap (K : Type u) (V : Type v) [LinearOrder K] := BTreeSet (Pair K V) K

namespace BTreeMap
variable {K : Type u} {V : Type v} [LinearOrder K]

def insert (key : K) (value : V) (fuel : Nat) (map : BTreeMap K V) : Option (Option V × BTreeMap K V) :=
  (BTreeSet.put ⟨key, value⟩ fuel map).map fun (old, map) => (old.map Pair.value, map)

def insertCdc (key : K) (value : V) (fuel : Nat) (map : BTreeMap K V) :
    Option ((Option V × List (ChangeEvent (Pair K V))) × BTreeMap K V) :=
  (BTreeSet.putCdc ⟨key, value⟩ fuel map).map fun (result, map) => ((result.1.map Pair.value, result.2), map)

/-- `.ok()` forgets where an equal key was found. -/
def checkedInsert (key : K) (value : V) (fuel : Nat) (map : BTreeMap K V) : Option (Option Unit × BTreeMap K V) :=
  (BTreeSet.putChecked ⟨key, value⟩ fuel map).map fun (result, map) => (result.toOption.map fun _ => (), map)

def checkedInsertCdc (key : K) (value : V) (fuel : Nat) (map : BTreeMap K V) :
    Option (Option (List (ChangeEvent (Pair K V))) × BTreeMap K V) :=
  (BTreeSet.putCdcChecked ⟨key, value⟩ fuel map).map fun (result, map) => (result.toOption.map Prod.snd, map)

def remove (key : K) (fuel : Nat) (map : BTreeMap K V) : Option (Option (K × V) × BTreeMap K V) :=
  (BTreeSet.remove id key fuel map).map fun (old, map) => (old.map fun pair => (pair.key, pair.value), map)

def removeCdc (key : K) (fuel : Nat) (map : BTreeMap K V) :
    Option ((Option (K × V) × List (ChangeEvent (Pair K V))) × BTreeMap K V) :=
  (BTreeSet.removeCdc id key fuel map).map fun (result, map) => ((result.1.map fun pair => (pair.key, pair.value), result.2), map)

def containsKey (key : K) (map : BTreeMap K V) : Bool := BTreeSet.contains id key map

def get (key : K) (map : BTreeMap K V) : Option (NodeId × Nat) := BTreeSet.get id key map

def lookupForSelect (key : K) (map : BTreeMap K V) : Option V := BTreeSet.getWith id key Pair.value map

end BTreeMap
end WorkTablesIndex
