/-! Change-data-capture events (`cdc/change.rs`). A split builds its events
before it knows their identifiers, so that a failed commit consumes none. -/

universe u

namespace WorkTablesIndex

/-- `Id` is a newtype over `u64`; that it wraps around after `2 ^ 64` events is left out. -/
abbrev Id := Nat

inductive ChangeEvent (α : Type u) where
  | insertAt (eventId : Id) (maxValue value : α) (index : Nat)
  | removeAt (eventId : Id) (maxValue value : α) (index : Nat)
  | createNode (eventId : Id) (maxValue : α)
  | removeNode (eventId : Id) (maxValue : α)
  | splitNode (eventId : Id) (maxValue : α) (splitIndex : Nat)
  deriving DecidableEq, Repr

inductive ChangeEventUnassigned (α : Type u) where
  | insertAt (maxValue value : α) (index : Nat)
  | removeAt (maxValue value : α) (index : Nat)
  | createNode (maxValue : α)
  | removeNode (maxValue : α)
  | splitNode (maxValue : α) (splitIndex : Nat)
  deriving DecidableEq, Repr

variable {α : Type u}

def ChangeEvent.id : ChangeEvent α → Id
  | .insertAt eventId .. => eventId
  | .removeAt eventId .. => eventId
  | .createNode eventId _ => eventId
  | .removeNode eventId _ => eventId
  | .splitNode eventId .. => eventId

def ChangeEventUnassigned.assignId (eventId : Id) : ChangeEventUnassigned α → ChangeEvent α
  | .insertAt maxValue value index => .insertAt eventId maxValue value index
  | .removeAt maxValue value index => .removeAt eventId maxValue value index
  | .createNode maxValue => .createNode eventId maxValue
  | .removeNode maxValue => .removeNode eventId maxValue
  | .splitNode maxValue splitIndex => .splitNode eventId maxValue splitIndex

@[simp] theorem ChangeEventUnassigned.assignId_id (eventId : Id) (event : ChangeEventUnassigned α) :
    (event.assignId eventId).id = eventId := by
  cases event <;> rfl

/-- `fetch_add` on the event counter, once for each event in turn. -/
def assignIds (eventId : Id) : List (ChangeEventUnassigned α) → List (ChangeEvent α)
  | [] => []
  | event :: rest => event.assignId eventId :: assignIds (eventId + 1) rest

@[simp] theorem assignIds_length (eventId : Id) (events : List (ChangeEventUnassigned α)) :
    (assignIds eventId events).length = events.length := by
  induction events generalizing eventId with
  | nil => rfl
  | cons event rest ih => simp [assignIds, ih]

theorem assignIds_ids (eventId : Id) (events : List (ChangeEventUnassigned α)) :
    (assignIds eventId events).map ChangeEvent.id = List.range' eventId events.length := by
  induction events generalizing eventId with
  | nil => rfl
  | cons event rest ih => simp [assignIds, ih, List.range'_succ]

end WorkTablesIndex
