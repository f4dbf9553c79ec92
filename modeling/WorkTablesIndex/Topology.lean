import WorkTablesIndex.PublishedIndex

/-! The structural state of a concurrent set and the writer's guard over it
(`Topology` and `TopologyWriteGuard` in `concurrent/set.rs`). A guard holds the
topology's write lock, so its methods mutate the index and the identity map in
place; the replacement route index stays private to the guard until it drops. -/

universe v

namespace WorkTablesIndex

/-- The canonical `BTreeMap` from boundary key to node. -/
abbrev NodeIndex (κ : Type v) [LinearOrder κ] := SortedMap κ NodeId

/-- The generation is a `u64` counter; that it wraps around after `2 ^ 64` steps is left out. -/
structure Topology (κ : Type v) [LinearOrder κ] where
  index : NodeIndex κ
  publishedKeys : SortedMap NodeId κ
  published : PublishedNodeIndex κ
  generation : Nat

structure TopologyWriteGuard (κ : Type v) [LinearOrder κ] where
  topology : Topology κ
  published : Option (PublishedNodeIndex κ)
  publish : Bool
  dirty : Bool

variable {κ : Type v} [LinearOrder κ]

namespace Topology

def new : Topology κ := ⟨.empty, .empty, .new, 0⟩

def write (topology : Topology κ) : TopologyWriteGuard κ :=
  { topology := { topology with generation := topology.generation + 1 }
    published := none
    publish := true
    dirty := false }

def writeRekey (topology : Topology κ) : TopologyWriteGuard κ :=
  { topology, published := none, publish := false, dirty := false }

def tryWrite (topology : Topology κ) (contended : Bool) : Option (TopologyWriteGuard κ) :=
  if contended then none
  else some
    { topology := { topology with generation := topology.generation + 1 }
      published := none
      publish := true
      dirty := false }

def publishedLastIs (topology : Topology κ) (node : NodeId) : Bool :=
  match topology.published.lastKeyValue with
  | some (_, last) => decide (last = node)
  | none => false

end Topology

namespace TopologyWriteGuard

abbrev index (guard : TopologyWriteGuard κ) : NodeIndex κ := guard.topology.index

def setIndex (guard : TopologyWriteGuard κ) (index : NodeIndex κ) : TopologyWriteGuard κ :=
  { guard with topology := { guard.topology with index } }

def setPublishedKeys (guard : TopologyWriteGuard κ) (publishedKeys : SortedMap NodeId κ) : TopologyWriteGuard κ :=
  { guard with topology := { guard.topology with publishedKeys } }

/-- The `debug_assert!` of `enable_publication`. -/
def enablePublicationAsserts (guard : TopologyWriteGuard κ) : Prop :=
  guard.publish = false → guard.dirty = false

def enablePublication (guard : TopologyWriteGuard κ) : TopologyWriteGuard κ :=
  if guard.publish then guard
  else { guard with
    topology := { guard.topology with generation := guard.topology.generation + 1 }
    publish := true }

/-- The guard's private copy of the routes, taken from the current root. -/
def snapshot (guard : TopologyWriteGuard κ) : PublishedNodeIndex κ :=
  guard.published.getD guard.topology.published

def ensurePublicationSnapshot (guard : TopologyWriteGuard κ) : TopologyWriteGuard κ :=
  { guard with published := some guard.snapshot }

def rebuildPublication (guard : TopologyWriteGuard κ) : TopologyWriteGuard κ :=
  { guard.setPublishedKeys (.ofEntries (guard.index.entries.map fun entry => (entry.2, entry.1))) with
    published := some (.fromCanonical guard.index)
    dirty := true }

def isLastNode (guard : TopologyWriteGuard κ) (node : NodeId) : Bool :=
  match guard.index.last? with
  | some (_, last) => decide (last = node)
  | none => false

def canRekeyLastNodeWithoutPublication (guard : TopologyWriteGuard κ) (node : NodeId) (newKey : κ) : Bool :=
  match guard.index.entries.reverse with
  | [] => false
  | (_, last) :: earlier =>
    if last ≠ node ∨ guard.topology.publishedLastIs node = false then false
    else
      match earlier with
      | (predecessor, _) :: _ => decide (predecessor < newKey)
      | [] => true

/-- The `debug_assert!`s of `rekey_last_node`, in source order. -/
structure RekeyAsserts (guard : TopologyWriteGuard κ) (oldKey newKey : κ) (node : NodeId) : Prop where
  optOut : guard.publish = false
  once : guard.dirty = false
  last : guard.isLastNode node = true
  removed : guard.index.get? oldKey = some node
  replaced : (guard.index.erase oldKey).get? newKey = none

def rekeyLastNode (guard : TopologyWriteGuard κ) (oldKey newKey : κ) (node : NodeId) : TopologyWriteGuard κ :=
  { guard.setIndex ((guard.index.erase oldKey).insert newKey node) with dirty := true }

def repairLastRouteBeforeInsert (guard : TopologyWriteGuard κ) : TopologyWriteGuard κ :=
  match guard.index.last? with
  | none => guard
  | some (canonicalKey, lastNode) =>
    let guard := guard.ensurePublicationSnapshot
    match guard.topology.publishedKeys.get? lastNode with
    | none => guard.rebuildPublication
    | some publishedKey =>
      if publishedKey = canonicalKey then guard
      else
        let (removed, shrunk) := guard.snapshot.remove publishedKey
        let (displaced, routes) := shrunk.insert canonicalKey lastNode
        let guard := { guard.setPublishedKeys (guard.topology.publishedKeys.insert lastNode canonicalKey) with
          published := some routes }
        if removed = some lastNode ∧ displaced = none then { guard with dirty := true }
        else guard.rebuildPublication

/-- The publishing half of `insert_after_last_route_repair`, once the canonical
entry is in place. -/
def publishRoute (guard : TopologyWriteGuard κ) (key : κ) (node : NodeId) : TopologyWriteGuard κ :=
  let (displaced, routes) := guard.snapshot.insert key node
  let guard := { guard.setPublishedKeys (guard.topology.publishedKeys.insert node key) with published := some routes }
  match displaced with
  | some oldNode => if oldNode ≠ node then guard.rebuildPublication else guard
  | none => guard

/-- Drops the route of a node that has left the canonical index: whether the
identity map and the routes agreed on it, and the guard afterwards. -/
def retractRoute (guard : TopologyWriteGuard κ) (node : NodeId) : Bool × TopologyWriteGuard κ :=
  match guard.topology.publishedKeys.get? node with
  | none => (false, guard)
  | some routeKey =>
    let (removed, routes) := guard.snapshot.remove routeKey
    (decide (removed = some node),
      { guard.setPublishedKeys (guard.topology.publishedKeys.erase node) with published := some routes })

def insertAfterLastRouteRepair (guard : TopologyWriteGuard κ) (key : κ) (node : NodeId) :
    Option NodeId × TopologyWriteGuard κ :=
  let replaced := guard.index.get? key
  let guard := { guard.setIndex (guard.index.insert key node) with dirty := true }
  if guard.publish then
    let guard := guard.ensurePublicationSnapshot
    match replaced with
    | none => (none, guard.publishRoute key node)
    | some replaced =>
      match guard.retractRoute replaced with
      | (true, guard) => (some replaced, guard.publishRoute key node)
      | (false, guard) => (some replaced, guard.rebuildPublication)
  else (replaced, guard)

def insert (guard : TopologyWriteGuard κ) (key : κ) (node : NodeId) : Option NodeId × TopologyWriteGuard κ :=
  guard.repairLastRouteBeforeInsert.insertAfterLastRouteRepair key node

def remove (guard : TopologyWriteGuard κ) (key : κ) : Option NodeId × TopologyWriteGuard κ :=
  match guard.index.get? key with
  | none => (none, guard)
  | some removed =>
    let guard := { guard.setIndex (guard.index.erase key) with dirty := true }
    if guard.publish then
      match guard.ensurePublicationSnapshot.retractRoute removed with
      | (true, guard) => (some removed, guard)
      | (false, guard) => (some removed, guard.rebuildPublication)
    else (some removed, guard)

/-- The `debug_assert!`s of `Drop`, and its `expect` of a replacement snapshot. -/
structure DropAsserts (guard : TopologyWriteGuard κ) (routes : PublishedNodeIndex κ) : Prop where
  carried : guard.published = some routes
  nodes : guard.index.entries.length = routes.len
  identities : guard.index.entries.length = guard.topology.publishedKeys.entries.length
  order : ∀ pair ∈ guard.index.entries.zip routes.routes, pair.2.2 = pair.1.2
  keys : ∀ pair ∈ guard.index.entries.zip routes.routes, guard.topology.publishedKeys.get? pair.1.2 = some pair.2.1

/-- The first half of `Drop`: a dirty publishing guard swaps the route root. -/
def swapRoot (guard : TopologyWriteGuard κ) : TopologyWriteGuard κ :=
  if guard.publish ∧ guard.dirty then
    { guard with topology := { guard.topology with published := guard.snapshot } }
  else guard

/-- The second half of `Drop`: a publishing guard enters the next even generation. -/
def finish (guard : TopologyWriteGuard κ) : Topology κ :=
  if guard.publish then { guard.topology with generation := guard.topology.generation + 1 } else guard.topology

def drop (guard : TopologyWriteGuard κ) : Topology κ := guard.swapRoot.finish

end TopologyWriteGuard
end WorkTablesIndex
