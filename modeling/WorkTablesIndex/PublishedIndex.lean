import WorkTablesIndex.Library.SortedMap
import WorkTablesIndex.Node

/-! The chunked route index that writers publish for point reads
(`PublishedNodeIndex` in `concurrent/set.rs`). A route maps the key under which
a node was published to the identity of that node. -/

universe v w

namespace WorkTablesIndex
open Slice

/-- `node_identity`: the address of the node's `Arc`, used as a token only. -/
abbrev NodeId := Nat

def publishedRoutesPerChunk : Nat := 128
def publishedRebuildRoutesPerChunk : Nat := publishedRoutesPerChunk * 2 / 3
def publishedRouteMergeThreshold : Nat := publishedRoutesPerChunk * 3 / 4

structure PublishedNodeIndex (κ : Type v) where
  chunks : List (List (κ × NodeId))
  len : Nat

namespace PublishedNodeIndex
variable {κ : Type v} {Q : Type w}

def new : PublishedNodeIndex κ := ⟨[], 0⟩

def routes (index : PublishedNodeIndex κ) : List (κ × NodeId) := index.chunks.flatten

def fromCanonicalLoop : List (κ × NodeId) → List (List (κ × NodeId)) → List (κ × NodeId) → List (List (κ × NodeId))
  | [], chunks, entries => if entries.isEmpty then chunks else chunks ++ [entries]
  | entry :: rest, chunks, entries =>
    if (entries ++ [entry]).length = publishedRebuildRoutesPerChunk then
      fromCanonicalLoop rest (chunks ++ [entries ++ [entry]]) []
    else fromCanonicalLoop rest chunks (entries ++ [entry])

def firstKeyValue (index : PublishedNodeIndex κ) : Option (κ × NodeId) := index.chunks.head?.bind List.head?

def lastKeyValue (index : PublishedNodeIndex κ) : Option (κ × NodeId) := index.chunks.getLast?.bind List.getLast?

section Ordered
variable [LinearOrder κ] [LinearOrder Q]

def fromCanonical (index : SortedMap κ NodeId) : PublishedNodeIndex κ :=
  ⟨fromCanonicalLoop index.entries [] [], index.entries.length⟩

def chunkBelow (borrow : κ → Q) (key : Q) (chunk : List (κ × NodeId)) : Bool :=
  match chunk.getLast? with
  | some max => decide (borrow max.1 < key)
  | none => false

def chunkFor (borrow : κ → Q) (index : PublishedNodeIndex κ) (key : Q) : Nat :=
  partitionPoint (chunkBelow borrow key) index.chunks

def firstForBoundLoop (skip : κ → Bool) : List (List (κ × NodeId)) → Option (κ × NodeId)
  | [] => none
  | chunk :: rest =>
    match chunk[partitionPoint (fun entry => skip entry.1) chunk]? with
    | some entry => some entry
    | none => firstForBoundLoop skip rest

def firstForBound (borrow : κ → Q) (index : PublishedNodeIndex κ) : Bound Q → Option (κ × NodeId)
  | .unbounded => index.firstKeyValue
  | .included key =>
    firstForBoundLoop (fun candidate => decide (borrow candidate < key)) (index.chunks.drop (chunkFor borrow index key))
  | .excluded key =>
    firstForBoundLoop (fun candidate => decide (borrow candidate ≤ key)) (index.chunks.drop (chunkFor borrow index key))

/-- The displaced node, and the index afterwards. -/
def insert (index : PublishedNodeIndex κ) (key : κ) (node : NodeId) : Option NodeId × PublishedNodeIndex κ :=
  if index.chunks.isEmpty then (none, ⟨[[(key, node)]], 1⟩)
  else
    let position := chunkFor id index key
    let chunkIndex := if position = index.chunks.length then position - 1 else position
    let chunk := index.chunks.getD chunkIndex []
    match binarySearchBy (fun candidate => compare candidate.1 key) chunk with
    | .ok found =>
      ((chunk[found]?).map Prod.snd, { index with chunks := index.chunks.set chunkIndex (chunk.set found (key, node)) })
    | .error gap =>
      let grown := chunk.insertIdx gap (key, node)
      if publishedRoutesPerChunk < grown.length then
        (none, ⟨(index.chunks.set chunkIndex (grown.take (grown.length / 2))).insertIdx (chunkIndex + 1)
          (grown.drop (grown.length / 2)), index.len + 1⟩)
      else (none, ⟨index.chunks.set chunkIndex grown, index.len + 1⟩)

/-- The chunk clean-up at the end of `remove`, for the chunk that lost a route. -/
def settle (chunks : List (List (κ × NodeId))) (chunkIndex : Nat) : List (List (κ × NodeId)) :=
  let size (position : Nat) := (chunks.getD position []).length
  if size chunkIndex = 0 then chunks.eraseIdx chunkIndex
  else if 0 < chunkIndex ∧ size (chunkIndex - 1) + size chunkIndex ≤ publishedRouteMergeThreshold then
    (chunks.eraseIdx chunkIndex).set (chunkIndex - 1) (chunks.getD (chunkIndex - 1) [] ++ chunks.getD chunkIndex [])
  else if chunkIndex + 1 < chunks.length ∧ size chunkIndex + size (chunkIndex + 1) ≤ publishedRouteMergeThreshold then
    (chunks.eraseIdx (chunkIndex + 1)).set chunkIndex (chunks.getD chunkIndex [] ++ chunks.getD (chunkIndex + 1) [])
  else chunks

def remove (index : PublishedNodeIndex κ) (key : κ) : Option NodeId × PublishedNodeIndex κ :=
  let chunkIndex := chunkFor id index key
  match index.chunks[chunkIndex]? with
  | none => (none, index)
  | some chunk =>
    match binarySearchBy (fun candidate => compare candidate.1 key) chunk with
    | .error _ => (none, index)
    | .ok found =>
      ((chunk[found]?).map Prod.snd,
        ⟨settle (index.chunks.set chunkIndex (chunk.eraseIdx found)) chunkIndex, index.len - 1⟩)

/-- `remove` called with a borrowed form of the key. The set only calls it with a whole key. -/
def removeBorrowed (borrow : κ → Q) (index : PublishedNodeIndex κ) (key : Q) : Option NodeId × PublishedNodeIndex κ :=
  let chunkIndex := chunkFor borrow index key
  match index.chunks[chunkIndex]? with
  | none => (none, index)
  | some chunk =>
    match binarySearchBy (fun candidate => compare (borrow candidate.1) key) chunk with
    | .error _ => (none, index)
    | .ok found =>
      ((chunk[found]?).map Prod.snd,
        ⟨settle (index.chunks.set chunkIndex (chunk.eraseIdx found)) chunkIndex, index.len - 1⟩)

end Ordered
end PublishedNodeIndex
end WorkTablesIndex
