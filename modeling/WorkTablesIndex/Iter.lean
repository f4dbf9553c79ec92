import WorkTablesIndex.Library.Deque
import WorkTablesIndex.Set

/-! The owned-yield iterator (`Iter` in `concurrent/set.rs`). It holds no lock between
calls: each direction remembers the last value it yielded and the node its last batch
came from, and positions itself again whenever it installs a batch. -/

universe u v

namespace WorkTablesIndex
open SortedMap

/-- The `tree` field is the set each call is given. A batch lists its values in node order. -/
structure Iter (α : Type u) where
  currentFrontBatch : Option (List α)
  currentBackBatch : Option (List α)
  exhaustedFrontNode : Option NodeId
  exhaustedBackNode : Option NodeId
  frontPartial : Option (NodeId × Nat)
  backPartial : Option (NodeId × Nat)
  frontBatchLimit : Nat
  backBatchLimit : Nat
  currentFrontValue : Option α
  currentBackValue : Option α
  met : Bool
  deriving DecidableEq, Repr

def initialBatch : Nat := 4
def maxBatch : Nat := 4096

namespace Iter

variable {α : Type u} {κ : Type v}

def new : Iter α := ⟨none, none, none, none, none, none, initialBatch, initialBatch, none, none, false⟩

/-- The candidate, or the entry beside it when the candidate's node is the exhausted one. -/
def stepPast (exhausted : Option NodeId) (beside : κ → Option (κ × NodeId)) : Option (κ × NodeId) → Option (κ × NodeId)
  | some (entry, node) => if some node = exhausted then beside entry else some (entry, node)
  | none => none

variable [LinearOrder κ] [Keyed α κ]

def frontCandidate (index : NodeIndex κ) (iter : Iter α) : Option (κ × NodeId) :=
  match iter.currentFrontValue with
  | some lastYielded => index.find? fun entry => decide (key lastYielded < entry)
  | none => index.first?

/-- The node the forward cursor lands on, or the one after it when it is exhausted. -/
def frontEntry (index : NodeIndex κ) (iter : Iter α) : Option (κ × NodeId) :=
  stepPast iter.exhaustedFrontNode (fun entry => index.find? fun other => decide (entry < other)) (iter.frontCandidate index)

def frontSkip (node : NodeId) (values : List α) (iter : Iter α) : Nat :=
  match iter.currentFrontValue with
  | some lastYielded => ((Node.rank id values (.excluded (key lastYielded)) true).map (· + 1)).getD 0
  | none =>
    match iter.frontPartial with
    | some (drawn, taken) => if drawn = node then taken else 0
    | none => 0

/-- Selection and clone are one section; `none` is the completed scan. -/
def installFrontBatch (set : BTreeSet α κ) (iter : Iter α) : Option (List α × Iter α) :=
  match iter.frontEntry set.index.index with
  | none => none
  | some (_, node) =>
    let values := set.heap.cells node
    let skip := iter.frontSkip node values
    let available := values.length - skip
    let take := min available iter.frontBatchLimit
    let batch := (values.drop skip).take take
    let iter := if take = available then { iter with exhaustedFrontNode := some node, frontPartial := none }
      else { iter with exhaustedFrontNode := none, frontPartial := some (node, skip + take) }
    some (batch, { iter with frontBatchLimit := min (iter.frontBatchLimit * 2) maxBatch, currentFrontBatch := some batch })

def backCandidate (index : NodeIndex κ) (iter : Iter α) : Option (κ × NodeId) :=
  match iter.currentBackValue with
  | some lastYielded => (index.find? fun entry => decide (key lastYielded ≤ entry)).or index.last?
  | none => index.last?

def backEntry (index : NodeIndex κ) (iter : Iter α) : Option (κ × NodeId) :=
  stepPast iter.exhaustedBackNode index.below? (iter.backCandidate index)

def backTruncate (node : NodeId) (values : List α) (iter : Iter α) : Nat :=
  match iter.currentBackValue with
  | some lastYielded => ((Node.rank id values (.excluded (key lastYielded)) false).map (· + 1)).getD 0
  | none =>
    match iter.backPartial with
    | some (drawn, taken) => if drawn = node then taken else 0
    | none => 0

def installBackBatch (set : BTreeSet α κ) (iter : Iter α) : Option (List α × Iter α) :=
  match iter.backEntry set.index.index with
  | none => none
  | some (_, node) =>
    let values := set.heap.cells node
    let truncate := iter.backTruncate node values
    let available := values.length - truncate
    let take := min available iter.backBatchLimit
    let batch := (values.drop (available - take)).take take
    let iter := if take = available then { iter with exhaustedBackNode := some node, backPartial := none }
      else { iter with exhaustedBackNode := none, backPartial := some (node, truncate + take) }
    some (batch, { iter with backBatchLimit := min (iter.backBatchLimit * 2) maxBatch, currentBackBatch := some batch })

def frontBatch (set : BTreeSet α κ) (iter : Iter α) : Option (List α × Iter α) :=
  match iter.currentFrontBatch with
  | some batch => some (batch, iter)
  | none => installFrontBatch set iter

def backBatch (set : BTreeSet α κ) (iter : Iter α) : Option (List α × Iter α) :=
  match iter.currentBackBatch with
  | some batch => some (batch, iter)
  | none => installBackBatch set iter

def next (set : BTreeSet α κ) : Nat → Iter α → Option (Option α × Iter α)
  | 0, _ => none
  | fuel + 1, iter =>
    if iter.met then some (none, iter)
    else
      match iter.frontBatch set with
      | none => some (none, iter)
      | some ([], iter) => next set fuel { iter with currentFrontBatch := none }
      | some (value :: rest, iter) =>
        let iter := { iter with currentFrontBatch := some rest }
        if iter.currentFrontValue.any fun last => decide (key value ≤ key last) then next set fuel iter
        else if iter.currentBackValue.any fun last => decide (key last ≤ key value) then some (none, { iter with met := true })
        else some (some value, { iter with currentFrontValue := some value })

/-- The loop of `next_back`; `IntoIter::next_back` draws from the end of the batch. -/
def nextBack (set : BTreeSet α κ) : Nat → Iter α → Option (Option α × Iter α)
  | 0, _ => none
  | fuel + 1, iter =>
    if iter.met then some (none, iter)
    else
      match iter.backBatch set with
      | none => some (none, iter)
      | some (batch, iter) =>
        match batch.getLast? with
        | none => nextBack set fuel { iter with currentBackBatch := none }
        | some value =>
          let iter := { iter with currentBackBatch := some batch.dropLast }
          if iter.currentBackValue.any fun last => decide (key last ≤ key value) then nextBack set fuel iter
          else if iter.currentFrontValue.any fun last => decide (key value ≤ key last) then some (none, { iter with met := true })
          else some (some value, { iter with currentBackValue := some value })

def draw (set : BTreeSet α κ) (fuel : Nat) : Deque.End → Iter α → Option (Option α × Iter α)
  | .front, iter => iter.next set fuel
  | .back, iter => iter.nextBack set fuel

/-- `collect` on the iterator. Three passes are enough for each call of `next`. -/
def collect (set : BTreeSet α κ) : Nat → Iter α → Option (List α)
  | 0, _ => none
  | fuel + 1, iter =>
    match iter.next set 3 with
    | none => none
    | some (none, _) => some []
    | some (some value, iter) => (collect set fuel iter).map (value :: ·)

end Iter

def BTreeSet.iter {α : Type u} {κ : Type v} [LinearOrder κ] (_ : BTreeSet α κ) : Iter α := .new

end WorkTablesIndex
