import Mathlib.Algebra.GroupWithZero.Nat
import WorkTablesIndex.Operation

/-! The concurrent set (`concurrent/set.rs`), cut into its critical sections. Each
section is one function from the set to what the thread learnt and the set
afterwards; a complete call runs its sections one after the other, with one unit
of fuel for each pass of a writer's loop, and concurrent callers interleave them. -/

universe u v w

namespace WorkTablesIndex

def rootPublicationSpinLimit : Nat := 16
def stableReadBlockingFallbackAfter : Nat := 2
def defaultInnerSize : Nat := 1024

structure BTreeSet (α : Type u) (κ : Type v) [LinearOrder κ] where
  index : Topology κ
  heap : Heap α
  nodeCapacity : Nat
  borrowOrderMatches : Bool
  eventId : Id

variable {α : Type u} {κ : Type v} {Q : Type w} [LinearOrder κ]

section Routing
variable [LinearOrder Q]

/-- `first_for_borrowed_bound`. The logarithmic lookup and the scan return the
same entry: the first one whose borrowed key the bound admits. -/
def firstForBorrowedBound (borrow : κ → Q) (index : NodeIndex κ) (bound : Bound Q) : Option (κ × NodeId) :=
  index.find? (bound.admits borrow)

def firstPublishedForBorrowedBound (borrow : κ → Q) (index : PublishedNodeIndex κ) (bound : Bound Q)
    (borrowOrderMatches : Bool) : Option (κ × NodeId) :=
  if borrowOrderMatches then index.firstForBound borrow bound
  else index.routes.find? fun entry => bound.admits borrow entry.1

def nodeForBorrowedEndLoop (borrow : κ → Q) (last : Q) : List (κ × NodeId) → Option (κ × NodeId) → Option (κ × NodeId)
  | [], lastEqual => lastEqual
  | entry :: rest, lastEqual =>
    match compare (borrow entry.1) last with
    | .lt => nodeForBorrowedEndLoop borrow last rest lastEqual
    | .eq => nodeForBorrowedEndLoop borrow last rest (some entry)
    | .gt => some entry

def nodeForBorrowedEnd (borrow : κ → Q) (index : NodeIndex κ) (last : Q) (borrowOrderMatches : Bool) :
    Option (κ × NodeId) :=
  if borrowOrderMatches then (firstForBorrowedBound borrow index (.included last)).or index.last?
  else (nodeForBorrowedEndLoop borrow last index.entries none).or index.last?

/-- The entry whose node owns a value: the first key not below it, else the last. -/
def route (borrow : κ → Q) (index : NodeIndex κ) (value : Q) : Option (κ × NodeId) :=
  (firstForBorrowedBound borrow index (.included value)).or index.last?

def publishedRoute (borrow : κ → Q) (index : PublishedNodeIndex κ) (value : Q) (borrowOrderMatches : Bool) :
    Option (κ × NodeId) :=
  ((firstPublishedForBorrowedBound borrow index (.included value) borrowOrderMatches).or index.lastKeyValue).or
    index.firstKeyValue

end Routing

/-- How one pass through `put_checked_inner` left its node section. -/
inductive PutStep (α : Type u) (κ : Type v) where
  | vacant
  | stored (cdc : List (ChangeEvent α))
  | occupied (node : NodeId) (position : Nat)
  | scheduled (operation : Operation α κ) (cdc : List (ChangeEvent α))
  deriving DecidableEq

/-- How one pass through `remove_inner` left its node section; a deletion that moved
the maximum still owes an `UpdateMax`. -/
inductive RemoveStep (α : Type u) (κ : Type v) where
  | absent
  | singleton
  | removed (deleted : α) (cdc : List (ChangeEvent α))
  | repair (deleted : α) (cdc : List (ChangeEvent α)) (node : NodeId) (oldMax : κ)
  deriving DecidableEq

inductive UnlinkStep (α : Type u) where
  | absent
  | retry
  | removed (deleted : α) (cdc : List (ChangeEvent α))
  deriving DecidableEq

namespace BTreeSet

def withMaximumNodeSize (nodeCapacity : Nat) : BTreeSet α κ := ⟨.new, .empty, nodeCapacity, true, 0⟩

def new : BTreeSet α κ := withMaximumNodeSize defaultInnerSize

def withGroupedBorrowRouting (set : BTreeSet α κ) : BTreeSet α κ := { set with borrowOrderMatches := false }

def emit (emitCdc : Bool) (events : List (ChangeEventUnassigned α)) (set : BTreeSet α κ) :
    List (ChangeEvent α) × BTreeSet α κ :=
  if emitCdc then (assignIds set.eventId events, { set with eventId := set.eventId + events.length }) else ([], set)

section Sections
variable [Keyed α κ] [LinearOrder Q]

/-- Route under the topology's read lock, then insert or schedule under the node lock. -/
def putNode (emitCdc : Bool) (value : α) (set : BTreeSet α κ) : PutStep α κ × BTreeSet α κ :=
  match route id set.index.index (key value) with
  | none => (.vacant, set)
  | some (routingKey, node) =>
    let values := set.heap.cells node
    if Node.needToSplit values set.nodeCapacity then (.scheduled (.split node routingKey value) [], set)
    else
      let oldMax := Node.max values
      let (inserted, index, grown) := Node.insert values value
      if inserted then
        let (cdc, set) := emit emitCdc (oldMax.toList.map fun oldMax => .insertAt oldMax value index)
          { set with heap := set.heap.write node grown }
        if (Node.max grown).map key = oldMax.map key then (.stored cdc, set)
        else (.scheduled (.updateMax node routingKey) cdc, set)
      else (.occupied node index, set)

/-- Root creation; `none` when another first writer was faster. -/
def createRoot (emitCdc : Bool) (value : α) (set : BTreeSet α κ) : Option (List (ChangeEvent α)) × BTreeSet α κ :=
  let guard := set.index.write
  if guard.index.entries.isEmpty then
    let (_, _, firstNode) := Node.insert [] value
    let (cdc, set) := emit emitCdc [.createNode value] set
    let (node, heap) := set.heap.alloc firstNode
    (some cdc, { set with index := (guard.insert (key value) node).2.drop, heap })
  else (none, { set with index := guard.drop })

def commitOperation (adopt : α → α → α) (emitCdc : Bool) (operation : Operation α κ) (set : BTreeSet α κ) :
    Option (Option α × List (ChangeEvent α)) × BTreeSet α κ :=
  let guard := match operation with
    | .split .. => set.index.write
    | .updateMax .. => set.index.writeRekey
  match operation.commit adopt emitCdc guard set.heap with
  | none => (none, { set with index := guard.drop })
  | some committed =>
    let (cdc, set) := emit emitCdc committed.events { set with index := committed.guard.drop, heap := committed.heap }
    (some (committed.oldValue, cdc), set)

/-- The events of a replacement: removal of the old value and insertion of the
new one, addressed by the maximum the node has at that moment. -/
def replaceEvents (values : List α) (position : Nat) (oldValue value : α) : List (ChangeEventUnassigned α) :=
  match Node.max values with
  | none => []
  | some max =>
    if values.length = 1 then [.removeNode max, .createNode value]
    else if position = values.length - 1 then
      .removeAt max oldValue position ::
        (Node.getIth values (values.length - 2)).toList.map fun newMax => .insertAt newMax value position
    else [.removeAt max oldValue position, .insertAt max value position]

/-- Replacement of an equal value by `put_inner`, under the node lock that
`put_checked_inner` returned. -/
def replaceNode (adopt : α → α → α) (emitCdc : Bool) (value : α) (node : NodeId) (position : Nat)
    (set : BTreeSet α κ) : (Option α × List (ChangeEvent α)) × BTreeSet α κ :=
  let values := set.heap.cells node
  match Node.getIth values position with
  | none => ((none, []), set)
  | some oldValue =>
    let value := adopt oldValue value
    let (cdc, set) := emit emitCdc (replaceEvents values position oldValue value) set
    let (replaced, grown) := Node.replace values position value
    ((replaced, cdc), { set with heap := set.heap.write node grown })

def removeNode (borrow : κ → Q) (emitCdc : Bool) (value : Q) (set : BTreeSet α κ) : RemoveStep α κ × BTreeSet α κ :=
  match route borrow set.index.index value with
  | none => (.absent, set)
  | some (routingKey, node) =>
    let values := set.heap.cells node
    if values.length ≤ 1 then
      if Node.contains borrow values value then (.singleton, set) else (.absent, set)
    else
      let oldMax := Node.max values
      match Node.delete borrow values value with
      | none => (.absent, set)
      | some (deleted, index, rest) =>
        let (cdc, set) := emit emitCdc (oldMax.toList.map fun oldMax => .removeAt oldMax deleted index)
          { set with heap := set.heap.write node rest }
        if oldMax.map key = (Node.max rest).map key then (.removed deleted cdc, set)
        else (.repair deleted cdc node routingKey, set)

/-- The unlink of a last element, which routes again under the write lock. -/
def unlinkNode (borrow : κ → Q) (emitCdc : Bool) (value : Q) (set : BTreeSet α κ) : UnlinkStep α × BTreeSet α κ :=
  let guard := set.index.write
  match route borrow guard.index value with
  | none => (.absent, { set with index := guard.drop })
  | some (routingKey, node) =>
    let values := set.heap.cells node
    if 1 < values.length then (.retry, { set with index := guard.drop })
    else
      match Node.delete borrow values value with
      | none => (.absent, { set with index := guard.drop })
      | some (deleted, _, rest) =>
        let guard := (guard.remove routingKey).2
        let (cdc, set) := emit emitCdc [.removeNode deleted]
          { set with index := guard.drop, heap := set.heap.write node rest }
        (.removed deleted cdc, set)

def removedPrefixLen (borrow : κ → Q) (values : List α) : Bound Q → Nat
  | .included last => ((Node.rank borrow values (.excluded last) true).map (· + 1)).getD 0
  | .excluded last => ((Node.rank borrow values (.included last) true).map (· + 1)).getD 0
  | .unbounded => values.length

def removeMiddle : List (κ × NodeId) → TopologyWriteGuard κ → Heap α → TopologyWriteGuard κ × Heap α
  | [], guard, heap => (guard, heap)
  | (middle, node) :: rest, guard, heap => removeMiddle rest (guard.remove middle).2 (heap.write node [])

def removeRange (borrow : κ → Q) (start last : Bound Q) (set : BTreeSet α κ) : BTreeSet α κ :=
  let guard := set.index.write
  let unchanged := { set with index := guard.drop }
  match firstForBorrowedBound borrow guard.index start with
  | none => unchanged
  | some (frontKey, frontNode) =>
    let backEntry := match last with
      | .included value | .excluded value => nodeForBorrowedEnd borrow guard.index value set.borrowOrderMatches
      | .unbounded => guard.index.last?
    match backEntry with
    | none => unchanged
    | some (backKey, backNode) =>
      if backKey < frontKey then unchanged
      else if frontNode = backNode then
        let values := set.heap.cells frontNode
        let frontPosition := ((Node.rank borrow values start true).map (· + 1)).getD 0
        let backPosition := removedPrefixLen borrow values last
        if backPosition ≤ frontPosition then unchanged
        else
          let rest := values.take frontPosition ++ values.drop backPosition
          let heap := set.heap.write frontNode rest
          if backPosition = values.length then
            let guard := (guard.remove frontKey).2
            let guard := match Node.max rest with
              | some newMax => (guard.insert (key newMax) frontNode).2
              | none => guard
            { set with index := guard.drop, heap }
          else { set with index := guard.drop, heap }
      else
        let frontPosition := ((Node.rank borrow (set.heap.cells frontNode) start true).map (· + 1)).getD 0
        let backPosition := removedPrefixLen borrow (set.heap.cells backNode) last
        let middle := guard.index.entries.filter fun entry => decide (frontKey < entry.1 ∧ entry.1 < backKey)
        let (guard, heap) := removeMiddle middle guard set.heap
        let guard := (guard.remove frontKey).2
        let front := (heap.cells frontNode).take frontPosition
        let heap := heap.write frontNode front
        let guard := match Node.max front with
          | some newFrontMax => (guard.insert (key newFrontMax) frontNode).2
          | none => guard
        let back := heap.cells backNode
        if back.length ≤ backPosition then
          { set with index := (guard.remove backKey).2.drop, heap := heap.write backNode [] }
        else { set with index := guard.drop, heap := heap.write backNode (back.drop backPosition) }

/-- The loop of `attach_nodes`; `none` is the `expect` on an empty node. -/
def attachLoop : List (List α) → TopologyWriteGuard κ → Heap α → Option (TopologyWriteGuard κ × Heap α)
  | [], guard, heap => some (guard, heap)
  | values :: rest, guard, heap =>
    match Node.max values with
    | none => none
    | some max =>
      let (node, heap) := heap.alloc values
      attachLoop rest (guard.insertAfterLastRouteRepair (key max) node).2 heap

def attachNodes (nodes : List (List α)) (set : BTreeSet α κ) : Option (BTreeSet α κ) :=
  if nodes.isEmpty then some set
  else (attachLoop nodes set.index.write.repairLastRouteBeforeInsert set.heap).map fun (guard, heap) =>
    { set with index := guard.drop, heap }

end Sections

section Calls
variable [Keyed α κ] [LinearOrder Q]

def putCheckedInner (adopt : α → α → α) (emitCdc : Bool) (value : α) :
    Nat → BTreeSet α κ → Option (Except (NodeId × Nat) (Option α × List (ChangeEvent α)) × BTreeSet α κ)
  | 0, _ => none
  | fuel + 1, set =>
    match putNode emitCdc value set with
    | (.vacant, set) =>
      match createRoot emitCdc value set with
      | (some cdc, set) => some (.ok (none, cdc), set)
      | (none, set) => putCheckedInner adopt emitCdc value fuel set
    | (.stored cdc, set) => some (.ok (none, cdc), set)
    | (.occupied node position, set) => some (.error (node, position), set)
    | (.scheduled (.split node oldMax value) cdc, set) =>
      match commitOperation adopt emitCdc (.split node oldMax value) set with
      | (some (oldValue, committed), set) => some (.ok (oldValue, cdc ++ committed), set)
      | (none, set) => putCheckedInner adopt emitCdc value fuel set
    | (.scheduled (.updateMax node oldMax) cdc, set) =>
      match commitOperation adopt emitCdc (.updateMax node oldMax) set with
      | (some (oldValue, committed), set) => some (.ok (oldValue, cdc ++ committed), set)
      | (none, set) => some (.ok (none, cdc), set)

def putInner (adopt : α → α → α) (emitCdc : Bool) (value : α) (fuel : Nat) (set : BTreeSet α κ) :
    Option ((Option α × List (ChangeEvent α)) × BTreeSet α κ) :=
  match putCheckedInner adopt emitCdc value fuel set with
  | none => none
  | some (.ok result, set) => some (result, set)
  | some (.error (node, position), set) => some (replaceNode adopt emitCdc value node position set)

def put (value : α) (fuel : Nat) (set : BTreeSet α κ) : Option (Option α × BTreeSet α κ) :=
  (putInner noIdentityAdoption false value fuel set).map fun (result, set) => (result.1, set)

def insert (value : α) (fuel : Nat) (set : BTreeSet α κ) : Option (Bool × BTreeSet α κ) :=
  (put value fuel set).map fun (old, set) => (old.isNone, set)

def putCdc (value : α) (fuel : Nat) (set : BTreeSet α κ) : Option ((Option α × List (ChangeEvent α)) × BTreeSet α κ) :=
  putInner noIdentityAdoption true value fuel set

def putChecked (value : α) (fuel : Nat) (set : BTreeSet α κ) :
    Option (Except (NodeId × Nat) (Option α × List (ChangeEvent α)) × BTreeSet α κ) :=
  putCheckedInner noIdentityAdoption false value fuel set

def putCdcChecked (value : α) (fuel : Nat) (set : BTreeSet α κ) :
    Option (Except (NodeId × Nat) (Option α × List (ChangeEvent α)) × BTreeSet α κ) :=
  putCheckedInner noIdentityAdoption true value fuel set

def removeInner (borrow : κ → Q) (emitCdc : Bool) (value : Q) :
    Nat → BTreeSet α κ → Option ((Option α × List (ChangeEvent α)) × BTreeSet α κ)
  | 0, _ => none
  | fuel + 1, set =>
    match removeNode borrow emitCdc value set with
    | (.absent, set) => some ((none, []), set)
    | (.singleton, set) =>
      match unlinkNode borrow emitCdc value set with
      | (.absent, set) => some ((none, []), set)
      | (.retry, set) => removeInner borrow emitCdc value fuel set
      | (.removed deleted cdc, set) => some ((some deleted, cdc), set)
    | (.removed deleted cdc, set) => some ((some deleted, cdc), set)
    | (.repair deleted cdc node oldMax, set) =>
      some ((some deleted, cdc), (commitOperation noIdentityAdoption false (.updateMax node oldMax) set).2)

def remove (borrow : κ → Q) (value : Q) (fuel : Nat) (set : BTreeSet α κ) : Option (Option α × BTreeSet α κ) :=
  (removeInner borrow false value fuel set).map fun (result, set) => (result.1, set)

def removeCdc (borrow : κ → Q) (value : Q) (fuel : Nat) (set : BTreeSet α κ) :
    Option ((Option α × List (ChangeEvent α)) × BTreeSet α κ) :=
  removeInner borrow true value fuel set

/-- The retry loop shared by `lock_node_for_value` and `get_with`. Without interference both
generation loads of an attempt agree. -/
def lockNodeLoop (borrow : κ → Q) (value : Q) (set : BTreeSet α κ) : Nat → Option NodeId
  | 0 => (route borrow set.index.index value).map Prod.snd
  | attempts + 1 =>
    if set.index.generation % 2 ≠ 0 then lockNodeLoop borrow value set attempts
    else (publishedRoute borrow set.index.published value set.borrowOrderMatches).map Prod.snd

def lockNodeForValue (borrow : κ → Q) (value : Q) (set : BTreeSet α κ) : Option NodeId :=
  lockNodeLoop borrow value set stableReadBlockingFallbackAfter

def getWith {β : Type*} (borrow : κ → Q) (value : Q) (read : α → β) (set : BTreeSet α κ) : Option β :=
  match lockNodeForValue borrow value set with
  | none => none
  | some node =>
    match Node.trySelect borrow (set.heap.cells node) value with
    | none => none
    | some position => (Node.getIth (set.heap.cells node) position).map read

def contains (borrow : κ → Q) (value : Q) (set : BTreeSet α κ) : Bool := (getWith borrow value (fun _ => ()) set).isSome

/-- `get`: the locked node and the position inside it. -/
def get (borrow : κ → Q) (value : Q) (set : BTreeSet α κ) : Option (NodeId × Nat) :=
  match lockNodeForValue borrow value set with
  | none => none
  | some node => (Node.trySelect borrow (set.heap.cells node) value).map fun position => (node, position)

def deref (set : BTreeSet α κ) (reference : NodeId × Nat) : Option α :=
  Node.getIth (set.heap.cells reference.1) reference.2

def len (set : BTreeSet α κ) : Nat := (set.index.index.entries.map fun entry => (set.heap.cells entry.2).length).sum

def isEmpty (set : BTreeSet α κ) : Bool := set.index.index.entries.all fun entry => (set.heap.cells entry.2).isEmpty

def nodes (set : BTreeSet α κ) : List (List α) := set.index.index.entries.map fun entry => set.heap.cells entry.2

end Calls
end BTreeSet
end WorkTablesIndex
