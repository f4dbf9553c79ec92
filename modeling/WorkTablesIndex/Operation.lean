import Mathlib.Logic.Function.Basic
import WorkTablesIndex.Change
import WorkTablesIndex.Topology

/-! Deferred structural operations (`concurrent/operation.rs`). A writer decides
under the topology's read lock, releases it, and commits the operation later
under the write lock; the commit checks that the entry still names the node. -/

universe u v

namespace WorkTablesIndex

/-- The allocated nodes. A node keeps its identity while its values change. -/
structure Heap (α : Type u) where
  cells : NodeId → List α
  next : NodeId

namespace Heap
variable {α : Type u}

def empty : Heap α := ⟨fun _ => [], 0⟩

def write (heap : Heap α) (node : NodeId) (values : List α) : Heap α :=
  { heap with cells := Function.update heap.cells node values }

def alloc (heap : Heap α) (values : List α) : NodeId × Heap α :=
  (heap.next, ⟨Function.update heap.cells heap.next values, heap.next + 1⟩)

end Heap

inductive Operation (α : Type u) (κ : Type v) where
  | split (oldNode : NodeId) (oldMax : κ) (value : α)
  | updateMax (node : NodeId) (oldMax : κ)
  deriving DecidableEq, Repr

/-- `no_identity_adoption`. An adoption hook lets the incoming value take over
hidden ordering state of the equal value it replaces; sets and maps have none. -/
def noIdentityAdoption {α : Type u} (_stored incoming : α) : α := incoming

/-- What the insertion riding on a split did to one half of the node. -/
structure Half (α : Type u) where
  values : List α
  inserted : Bool
  oldValue : Option α
  events : List (ChangeEventUnassigned α)
  deriving DecidableEq

structure Committed (α : Type u) (κ : Type v) [LinearOrder κ] where
  oldValue : Option α
  events : List (ChangeEventUnassigned α)
  guard : TopologyWriteGuard κ
  heap : Heap α

variable {α : Type u} {κ : Type v} [LinearOrder κ] [Keyed α κ]

namespace Half

def untouched (values : List α) : Half α := ⟨values, false, none, []⟩

def put (adopt : α → α → α) (values : List α) (max value : α) : Half α :=
  let (inserted, index, grown) := Node.insert values value
  if inserted then ⟨grown, true, none, [.insertAt max value index]⟩
  else
    let committed := match Node.getIth values index with
      | some stored => adopt stored value
      | none => value
    let (oldValue, replaced) := Node.replace values index committed
    ⟨replaced, false, oldValue, (oldValue.toList.map fun old => .removeAt max old index) ++ [.insertAt max committed index]⟩

end Half

namespace Operation

/-- The left half of a split keeps the node; it takes the value when its maximum
reaches that far. The flag says whether it did. -/
def keepLeft (adopt : α → α → α) (left : List α) (value : α) : Half α × Bool :=
  match Node.max left with
  | none => (.untouched left, false)
  | some max => if key value ≤ key max then (.put adopt left max value, true) else (.untouched left, false)

/-- The left half is linked again, under the maximum it had when it was cut. -/
def linkLeft (guard : TopologyWriteGuard κ) (oldNode : NodeId) (left : List α) : TopologyWriteGuard κ :=
  match Node.max left with
  | none => guard
  | some max => (guard.insert (key max) oldNode).2

/-- The right half, which moves to a new node, with the key that node gets. -/
def moveRight (adopt : α → α → α) (attempted : Bool) (right : List α) (max value : α) : Half α × κ :=
  if attempted then (.untouched right, key max)
  else
    let half := Half.put adopt right max value
    (half, if half.inserted ∧ key max < key value then key value else key max)

def commitSplit (adopt : α → α → α) (guard : TopologyWriteGuard κ) (heap : Heap α) (oldNode : NodeId) (oldMax : κ)
    (value : α) : Option (Committed α κ) :=
  if guard.index.get? oldMax = some oldNode then
    match Node.max (heap.cells oldNode) with
    -- drained by a concurrent remove after the split was scheduled
    | none => none
    | some maxValue =>
      let guard := (guard.remove oldMax).2
      let (left, right) := Node.halve (heap.cells oldNode)
      let split := .splitNode maxValue left.length
      let (kept, attempted) := keepLeft adopt left value
      let guard := linkLeft guard oldNode left
      let heap := heap.write oldNode kept.values
      match Node.max right with
      | none => some ⟨kept.oldValue, split :: kept.events, guard, heap⟩
      | some max =>
        let (moved, newMax) := moveRight adopt attempted right max value
        let (newNode, heap) := heap.alloc moved.values
        some ⟨kept.oldValue.or moved.oldValue, split :: (kept.events ++ moved.events),
          (guard.insert newMax newNode).2, heap⟩
  else none

def commitUpdateMax (guard : TopologyWriteGuard κ) (heap : Heap α) (node : NodeId) (oldMax : κ) :
    Option (TopologyWriteGuard κ) :=
  if guard.index.get? oldMax = some node then
    match Node.max (heap.cells node) with
    | none => none
    | some newMax =>
      if key newMax ≠ oldMax then
        if guard.canRekeyLastNodeWithoutPublication node (key newMax) then
          some (guard.rekeyLastNode oldMax (key newMax) node)
        else
          let guard := guard.enablePublication
          let guard := (guard.remove oldMax).2
          some (guard.insert (key newMax) node).2
      else some guard
  else none

/-- `commit::<EMIT_CDC>`; `none` is `Err(())`, which leaves everything as it was. -/
def commit (adopt : α → α → α) (emitCdc : Bool) (guard : TopologyWriteGuard κ) (heap : Heap α) :
    Operation α κ → Option (Committed α κ)
  | .split oldNode oldMax value =>
    (commitSplit adopt guard heap oldNode oldMax value).map fun committed =>
      { committed with events := if emitCdc then committed.events else [] }
  | .updateMax node oldMax =>
    (commitUpdateMax guard heap node oldMax).map fun guard => ⟨none, [], guard, heap⟩

end Operation
end WorkTablesIndex
