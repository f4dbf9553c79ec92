import WorkTablesIndex.Library.Confined
import WorkTablesIndex.Drawing
import WorkTablesIndex.Replay

/-! Which of the consumer's nodes an event concerns. It looks up one node by its maximum and
puts others under maxima of its own values, so the events of two sections on different
nodes can be consumed in either order. -/

universe u v

namespace WorkTablesIndex
open SortedMap

variable {α : Type u} {κ : Type v} [LinearOrder κ] [Keyed α κ]

def ChangeEventUnassigned.Within (places : Set κ) : ChangeEventUnassigned α → Prop
  | .insertAt maxValue value _ => key maxValue ∈ places ∧ key value ∈ places
  | .removeAt maxValue _ _ => key maxValue ∈ places
  | .createNode maxValue => key maxValue ∈ places
  | .removeNode maxValue => key maxValue ∈ places
  | .splitNode maxValue _ => key maxValue ∈ places

def ChangeEventUnassigned.maxKey : ChangeEventUnassigned α → κ
  | .insertAt maxValue .. | .removeAt maxValue .. | .createNode maxValue | .removeNode maxValue | .splitNode maxValue _ => key maxValue

namespace PersistedBTreeMap
variable {nodes after : PersistedBTreeMap α κ} {places : Set κ} {event : ChangeEventUnassigned α}

omit [LinearOrder κ] in
private theorem maxKey_mem (within : event.Within places) : event.maxKey (κ := κ) ∈ places := by
  cases event with
  | insertAt maxValue value index => exact within.1
  | _ => exact within

/-- What the event puts in the place of the node it names; `none` where it misses its node. -/
def change (held : Option (List α)) : ChangeEventUnassigned α → Option (List (κ × List α))
  | .createNode maxValue => some [(key maxValue, [maxValue])]
  | .removeNode _ => held.map fun _ => []
  | .insertAt maxValue value index => held.bind fun node =>
    if index ≤ node.length then
      some [(if key maxValue < key value then key value else key maxValue, node.insertIdx index value)]
    else none
  | .removeAt maxValue value index => held.bind fun node =>
    if index < node.length then
      if key maxValue = key value then
        some ((Node.max (node.eraseIdx index)).toList.map fun newMax => (key newMax, node.eraseIdx index))
      else some [(key maxValue, node.eraseIdx index)]
    else none
  | .splitNode _ splitIndex => held.bind fun node =>
    if splitIndex ≤ node.length then
      match Node.max (node.drop splitIndex), Node.max (node.take splitIndex) with
      | some newMax, some oldMax => some [(key newMax, node.drop splitIndex), (key oldMax, node.take splitIndex)]
      | _, _ => none
    else none

def putAll (news : List (κ × List α)) (nodes : PersistedBTreeMap α κ) : PersistedBTreeMap α κ :=
  news.foldl (fun nodes entry => nodes.insert entry.1 entry.2) nodes

def consume (nodes : PersistedBTreeMap α κ) (event : ChangeEventUnassigned α) : Option (PersistedBTreeMap α κ) :=
  (change (nodes.get? event.maxKey) event).map fun news => putAll news (nodes.erase event.maxKey)

theorem persist_consume (nodes : PersistedBTreeMap α κ) (event : ChangeEvent α) (after : PersistedBTreeMap α κ) :
    persist nodes event = some (true, after) ↔ consume nodes event.unassign = some after := by
  cases event with
  | createNode eventId maxValue => simp [persist, consume, change, putAll, ChangeEvent.unassign, ChangeEventUnassigned.maxKey, erase_insert]
  | removeNode eventId maxValue =>
    cases held : nodes.get? (key maxValue) <;>
      simp [persist, consume, change, putAll, ChangeEvent.unassign, ChangeEventUnassigned.maxKey, held]
  | insertAt eventId maxValue value index =>
    simp only [persist, consume, change, putAll, ChangeEvent.unassign, ChangeEventUnassigned.maxKey]
    cases nodes.get? (key maxValue) with
    | none => simp
    | some node =>
      by_cases inside : index ≤ node.length
      · by_cases above : key maxValue < key value <;> simp [inside, above, erase_insert]
      · simp [inside]
  | removeAt eventId maxValue value index =>
    simp only [persist, consume, change, putAll, ChangeEvent.unassign, ChangeEventUnassigned.maxKey]
    cases nodes.get? (key maxValue) with
    | none => simp
    | some node =>
      by_cases inside : index < node.length
      · by_cases last : key maxValue = key value
        · cases remaining : Node.max (node.eraseIdx index) <;> simp [inside, last, remaining]
        · simp [inside, last, erase_insert]
      · simp [inside]
  | splitNode eventId maxValue splitIndex =>
    simp only [persist, consume, change, putAll, ChangeEvent.unassign, ChangeEventUnassigned.maxKey]
    cases nodes.get? (key maxValue) with
    | none => simp
    | some node =>
      by_cases inside : splitIndex ≤ node.length
      · cases right : Node.max (node.drop splitIndex) <;> cases left : Node.max (node.take splitIndex) <;>
          simp [inside, right, left]
      · simp [inside]

theorem persistAll_consume (log : List (ChangeEvent α)) (nodes after : PersistedBTreeMap α κ) :
    persistAll log nodes = some (true, after) ↔ (log.map ChangeEvent.unassign).foldlM consume nodes = some after := by
  induction log generalizing nodes with
  | nil => simp [persistAll]
  | cons event rest ih =>
    rw [List.map_cons, List.foldlM_cons, Option.bind_eq_bind, Option.bind_eq_some_iff]
    simp only [persistAll]
    cases applied : persist nodes event with
    | none =>
      constructor
      · intro impossible
        cases impossible
      · intro found
        obtain ⟨middle, consumed, _⟩ := found
        cases applied.symm.trans ((persist_consume nodes event middle).mpr consumed)
    | some outcome =>
      obtain ⟨found, middle⟩ := outcome
      simp only [Option.map_eq_some_iff, Prod.mk.injEq, Bool.and_eq_true]
      constructor
      · intro ran
        obtain ⟨⟨others, final⟩, later, ⟨rfl, rfl⟩, rfl⟩ := ran
        exact ⟨middle, (persist_consume nodes event middle).mp applied, (ih middle).mp later⟩
      · intro ran
        obtain ⟨next, consumed, later⟩ := ran
        cases applied.symm.trans ((persist_consume nodes event next).mpr consumed)
        exact ⟨⟨true, after⟩, (ih middle).mpr later, ⟨rfl, rfl⟩, rfl⟩

/-- The nodes found in these places hold keys of these places only. -/
def Closed (places : Set κ) (nodes : PersistedBTreeMap α κ) : Prop :=
  ∀ top ∈ places, ∀ values, nodes.get? top = some values → ∀ value ∈ values, key value ∈ places

def claim (places : Set κ) : Claim (get? (κ := κ) (β := List α)) where
  places := places
  tame := Closed places
  reads closed agree top inside values found := closed top inside values ((agree top inside).trans found)

private theorem change_within (within : event.Within places) {held : Option (List α)}
    (closed : ∀ values, held = some values → ∀ value ∈ values, key value ∈ places) {news : List (κ × List α)}
    (changed : change held event = some news) : ∀ entry ∈ news, entry.1 ∈ places ∧ ∀ value ∈ entry.2, key value ∈ places := by
  have top {values : List α} {max : α} (inside : ∀ value ∈ values, key value ∈ places) (seen : Node.max values = some max) :
      key max ∈ places := inside max (List.mem_of_getLast? seen)
  cases event with
  | createNode maxValue =>
    cases changed
    intro entry member
    cases List.mem_singleton.mp member
    refine ⟨within, fun item there => ?_⟩
    cases List.mem_singleton.mp there
    exact within
  | removeNode maxValue =>
    obtain ⟨_, _, rfl⟩ := Option.map_eq_some_iff.mp changed
    simp
  | insertAt maxValue value index =>
    obtain ⟨node, found, changed⟩ := Option.bind_eq_some_iff.mp changed
    obtain ⟨atMax, atValue⟩ := within
    split at changed
    next =>
      cases changed
      intro entry member
      cases List.mem_singleton.mp member
      refine ⟨by dsimp only; split <;> assumption, fun item there => ?_⟩
      rcases List.eq_or_mem_of_mem_insertIdx there with rfl | old
      · exact atValue
      · exact closed node found item old
    next => cases changed
  | removeAt maxValue value index =>
    obtain ⟨node, found, changed⟩ := Option.bind_eq_some_iff.mp changed
    have rest : ∀ item ∈ node.eraseIdx index, key item ∈ places :=
      fun item there => closed node found item (List.mem_of_mem_eraseIdx there)
    split at changed
    next =>
      split at changed
      next =>
        cases changed
        intro entry member
        obtain ⟨newMax, remaining, rfl⟩ := List.mem_map.mp member
        exact ⟨top rest (Option.mem_toList.mp remaining), rest⟩
      next =>
        cases changed
        intro entry member
        cases List.mem_singleton.mp member
        exact ⟨within, rest⟩
    next => cases changed
  | splitNode maxValue splitIndex =>
    obtain ⟨node, found, changed⟩ := Option.bind_eq_some_iff.mp changed
    have right : ∀ item ∈ node.drop splitIndex, key item ∈ places := fun item there => closed node found item (List.mem_of_mem_drop there)
    have left : ∀ item ∈ node.take splitIndex, key item ∈ places := fun item there => closed node found item (List.mem_of_mem_take there)
    split at changed
    next =>
      split at changed
      next newMax oldMax atRight atLeft =>
        cases changed
        intro entry member
        rcases List.mem_cons.mp member with rfl | member
        · exact ⟨top right atRight, right⟩
        · cases List.mem_singleton.mp member
          exact ⟨top left atLeft, left⟩
      next => cases changed
    next => cases changed

omit [Keyed α κ] in
private theorem putAll_away {news : List (κ × List α)} (inside : ∀ entry ∈ news, entry.1 ∈ places) {top : κ} (away : top ∉ places) :
    (putAll news nodes).get? top = nodes.get? top := by
  induction news generalizing nodes with
  | nil => rfl
  | cons entry rest ih =>
    have apart : top ≠ entry.1 := fun same => away (same ▸ inside entry List.mem_cons_self)
    exact (ih fun other member => inside other (List.mem_cons_of_mem _ member)).trans (get?_insert_of_ne apart _)

omit [Keyed α κ] in
private theorem putAll_agree {news : List (κ × List α)} {other : PersistedBTreeMap α κ} (agree : AgreeOn get? places nodes other) :
    AgreeOn get? places (putAll news nodes) (putAll news other) := by
  induction news generalizing nodes other with
  | nil => exact agree
  | cons entry rest ih =>
    apply ih
    intro top inside
    by_cases same : top = entry.1
    · rw [same, get?_insert_self, get?_insert_self]
    · rw [get?_insert_of_ne same, get?_insert_of_ne same, agree top inside]

private theorem putAll_closed {news : List (κ × List α)} (inside : ∀ entry ∈ news, ∀ value ∈ entry.2, key value ∈ places)
    (closed : Closed places nodes) : Closed places (putAll news nodes) := by
  induction news generalizing nodes with
  | nil => exact closed
  | cons entry rest ih =>
    apply ih fun other member => inside other (List.mem_cons_of_mem _ member)
    intro top there values found
    by_cases same : top = entry.1
    · rw [same, get?_insert_self] at found
      cases found
      exact inside entry List.mem_cons_self
    · rw [get?_insert_of_ne same] at found
      exact closed top there values found

/-- Consumption of an event depends on the nodes under the keys it mentions, and on no other. -/
theorem consume_confined (within : event.Within places) : Confined consume (claim (α := α) places) event := by
  have named : event.maxKey (κ := κ) ∈ places := maxKey_mem within
  have news {before : PersistedBTreeMap α κ} (closed : Closed places before) {news : List (κ × List α)}
      (changed : change (before.get? event.maxKey) event = some news) :=
    change_within within (fun values found => closed _ named values found) changed
  have erased {before other : PersistedBTreeMap α κ} (agree : AgreeOn get? places before other) :
      AgreeOn get? places (before.erase event.maxKey) (other.erase event.maxKey) := by
    intro top inside
    by_cases same : top = event.maxKey
    · rw [same, get?_erase_self, get?_erase_self]
    · rw [get?_erase_of_ne same, get?_erase_of_ne same, agree top inside]
  refine ⟨fun {before after} closed ran => ?_, fun {before after} closed ran top away => ?_,
    fun {before after other} closed ran agree => ?_⟩
  · obtain ⟨put, changed, rfl⟩ := Option.map_eq_some_iff.mp ran
    apply putAll_closed fun entry member => (news closed changed entry member).2
    intro top inside values found
    by_cases same : top = event.maxKey
    · rw [same, get?_erase_self] at found
      cases found
    · rw [get?_erase_of_ne same] at found
      exact closed top inside values found
  · obtain ⟨put, changed, rfl⟩ := Option.map_eq_some_iff.mp ran
    rw [putAll_away (fun entry member => (news closed changed entry member).1) away,
      get?_erase_of_ne fun (same : top = event.maxKey) => away (same ▸ named)]
  · obtain ⟨put, changed, rfl⟩ := Option.map_eq_some_iff.mp ran
    refine ⟨putAll put (other.erase event.maxKey), ?_, putAll_agree (erased agree)⟩
    rw [consume, ← agree _ named, changed]
    rfl

end PersistedBTreeMap
end WorkTablesIndex
