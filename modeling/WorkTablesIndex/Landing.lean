import WorkTablesIndex.Reachability

/-! Where a complete insertion or removal leaves values. It rewrites the node its key leads
to, and what an insertion takes out of a full node, or puts into an empty set, goes to a new one. -/

universe u v

namespace WorkTablesIndex
open SortedMap

variable {α : Type u} {κ : Type v} [LinearOrder κ] [Keyed α κ]

inductive Write (α : Type u) (κ : Type v) where
  | insert (value : α)
  | remove (wanted : κ)

inductive Write.Runs (set after : BTreeSet α κ) : Write α κ → Prop where
  | insert {result} (emitCdc : Bool) (value : α) (fuel : Nat)
      (ran : BTreeSet.putInner noIdentityAdoption emitCdc value fuel set = some (result, after)) : Runs set after (.insert value)
  | remove {result} (emitCdc : Bool) (wanted : κ) (fuel : Nat)
      (ran : BTreeSet.removeInner id emitCdc wanted fuel set = some (result, after)) : Runs set after (.remove wanted)

/-- The node a call rewrites with its routing key, the values that may be in it afterwards, and those that go to a new node. -/
structure Landing (α : Type u) (κ : Type v) where
  target : Option (κ × NodeId)
  kept : List α
  moved : List α

def BTreeSet.landing (set : BTreeSet α κ) : Write α κ → Landing α κ
  | .insert value =>
    match route id set.index.index (key value) with
    | none => ⟨none, [], [value]⟩
    | some (entry, node) =>
      let values := set.heap.cells node
      if values.length < set.nodeCapacity then ⟨some (entry, node), value :: values, []⟩
      else ⟨some (entry, node), (Operation.leftHalf values value).values, (Operation.rightHalf values value).values⟩
  | .remove wanted =>
    match route id set.index.index wanted with
    | none => ⟨none, [], []⟩
    | some (entry, node) => ⟨some (entry, node), (set.heap.cells node).filter fun item => decide (key item ≠ wanted), []⟩

theorem BTreeSet.landing_target (set : BTreeSet α κ) (write : Write α κ) :
    ∃ wanted, (set.landing write).target = route id set.index.index wanted := by
  cases write with
  | insert value =>
    refine ⟨key value, ?_⟩
    cases found : route id set.index.index (key value) with
    | none => simp only [landing, found]
    | some pick =>
      simp only [landing, found]
      exact (apply_ite Landing.target ..).trans (ite_self _)
  | remove wanted =>
    refine ⟨wanted, ?_⟩
    cases found : route id set.index.index wanted with
    | none => simp only [landing, found]
    | some pick => simp only [landing, found]

namespace Landing
variable {before after : Layout α κ} {landing : Landing α κ}

/-- What an entry of the new index is: the rewritten node under a key of its interval, the new node under such
a key, or an entry the call has not touched. -/
inductive Origin (before after : Layout α κ) (landing : Landing α κ) (entry : κ) (node : NodeId) : Prop where
  | rewritten (old : κ) (target : landing.target = some (old, node)) (inside : Between before.index old entry)
      (values : ∀ item ∈ after.heap.cells node, item ∈ landing.kept) (bound : ∀ item ∈ landing.kept, key item ≤ entry)
  | added (inside : ∀ old other, landing.target = some (old, other) → Between before.index old entry)
      (values : ∀ item ∈ after.heap.cells node, item ∈ landing.moved)
  | untouched (linked : (entry, node) ∈ before.index) (other : ∀ old node, landing.target = some (old, node) → entry ≠ old)
      (values : after.heap.cells node = before.heap.cells node)

def Describes (before after : Layout α κ) (landing : Landing α κ) : Prop :=
  ∀ entry node, (entry, node) ∈ after.index → Origin before after landing entry node

private theorem describes_refit (tidy : before.Tidy) {old : κ} {node : NodeId} (linked : (old, node) ∈ before.index)
    (target : landing.target = some (old, node)) {values : List α} (sorted : Node.Sorted values)
    (inside : ∀ item ∈ values, Between before.index old (key item)) {top : κ} (greatest : Node.maxKey values = some top)
    (subset : ∀ item ∈ values, item ∈ landing.kept) (bound : ∀ item ∈ landing.kept, ∃ other ∈ values, key item = key other) :
    Describes before (before.refit node old values top) landing := by
  obtain ⟨⟨last, member, level⟩, above⟩ := (Node.maxKey_eq_some sorted).mp greatest
  intro entry other there
  rcases Layout.mem_rekey there with ⟨rfl, rfl⟩ | ⟨different, kept⟩
  · refine .rewritten old target (level ▸ inside last member) (fun item present => ?_) fun item present => ?_
    · exact subset item (by simpa [Layout.refit, Layout.rekey, Layout.rewrite] using present)
    · obtain ⟨equal, held, same⟩ := bound item present
      exact same ▸ above equal held
  · refine .untouched kept (fun key _ same => ?_) (Heap.write_other _ _ (tidy.sound.apart linked kept different))
    cases target.symm.trans same
    exact different

private theorem describes_upsert (tidy : before.Tidy) {old : κ} {node : NodeId} (linked : (old, node) ∈ before.index)
    {value : α} (inside : Between before.index old (key value)) {values : List α}
    (stored : Node.Upserted (before.heap.cells node) value values) {top : κ} (greatest : Node.maxKey values = some top) :
    Describes before (before.refit node old values top) ⟨some (old, node), value :: before.heap.cells node, []⟩ := by
  refine describes_refit tidy linked rfl stored.sorted (fun item member => ?_) greatest (fun item member => ?_) fun item member => ?_
  · rcases (stored.mem item).mp member with rfl | ⟨there, _⟩
    · exact inside
    · exact tidy.routed old node linked item there
  · rcases (stored.mem item).mp member with rfl | ⟨there, _⟩
    · exact List.mem_cons_self
    · exact List.mem_cons_of_mem _ there
  · by_cases same : key item = key value
    · exact ⟨value, (stored.mem value).mpr (Or.inl rfl), same⟩
    · have there : item ∈ before.heap.cells node := (List.mem_cons.mp member).resolve_left fun equal => same (equal ▸ rfl)
      exact ⟨item, (stored.mem item).mpr (Or.inr ⟨there, same⟩), rfl⟩

private theorem describes_split (tidy : before.Tidy) {old : κ} {node : NodeId} (linked : (old, node) ∈ before.index)
    {value : α} (inside : Between before.index old (key value)) {left right : List α}
    (stored : Node.Upserted (before.heap.cells node) value (left ++ right)) (filled : right ≠ []) :
    Describes before (before.split node old left right) ⟨some (old, node), left, right⟩ := by
  obtain ⟨leftSorted, rightSorted, _⟩ := Node.sorted_append.mp stored.sorted
  obtain ⟨_, _, _, belongs⟩ := Layout.split_replaced tidy.routed linked inside stored filled
  intro entry other there
  rcases Layout.mem_split there with ⟨rfl, greatest⟩ | ⟨rfl, greatest⟩ | ⟨different, kept⟩
  · obtain ⟨⟨last, member, level⟩, _⟩ := (Node.maxKey_eq_some rightSorted).mp greatest
    refine .added (fun key other same => ?_) fun item present => ?_
    · cases same
      exact level ▸ belongs last (List.mem_append_right _ member)
    · rwa [Layout.split_cells, if_pos rfl] at present
  · obtain ⟨⟨last, member, level⟩, above⟩ := (Node.maxKey_eq_some leftSorted).mp greatest
    refine .rewritten old rfl (level ▸ belongs last (List.mem_append_left _ member)) (fun item present => ?_) above
    rwa [Layout.split_cells, if_neg (tidy.sound.allocated old other linked).ne, if_pos rfl] at present
  · refine .untouched kept (fun key _ same => ?_) ?_
    · cases same
      exact different
    · rw [Layout.split_cells, if_neg (tidy.sound.allocated entry other kept).ne,
        if_neg (tidy.sound.apart linked kept different)]

private theorem describes_self (tidy : before.Tidy) (same : ∀ entry node, landing.target = some (entry, node) →
    (entry, node) ∈ before.index ∧ ∀ item, item ∈ landing.kept ↔ item ∈ before.heap.cells node) :
    Describes before before landing := by
  intro entry node linked
  cases target : landing.target with
  | none => exact .untouched linked (fun old other chosen => (by cases target.symm.trans chosen)) rfl
  | some pick =>
    obtain ⟨old, other⟩ := pick
    obtain ⟨there, values⟩ := same old other target
    by_cases here : entry = old
    · subst here
      obtain rfl : other = node := value_unique there linked
      exact .rewritten entry target ⟨fun _ _ less => less, fun _ _ _ => le_rfl⟩ (fun item member => (values item).mpr member)
        fun item member => tidy.le linked ((values item).mp member)
    · refine .untouched linked (fun key node chosen => ?_) rfl
      cases target.symm.trans chosen
      exact here

end Landing

open Landing in
theorem PutEffect.describes {set : BTreeSet α κ} {after : Layout α κ} {value : α} {result : Option α}
    {events : List (ChangeEventUnassigned α)} (effect : PutEffect set.nodeCapacity value set.layout result events after)
    (tidy : set.layout.Tidy) : Describes set.layout after (set.landing (.insert value)) := by
  cases effect with
  | root empty =>
    have missing : route id set.index.index (key value) = none := route_eq_none.mpr empty
    simp only [BTreeSet.landing, missing]
    intro entry node linked
    rcases (mem_insert ..).mp linked with same | ⟨_, kept⟩
    · cases same
      refine .added (fun _ _ chosen => (by cases chosen)) fun item member => ?_
      simpa [Layout.root] using member
    · exact absurd kept (empty _)
  | inserts oldMax position linked inside room gap max greatest =>
    have found : route id set.index.index (key value) = some _ := route_eq_some.mpr ⟨linked, inside⟩
    have fits : (set.heap.cells _).length < set.nodeCapacity := room
    simp only [BTreeSet.landing, found, fits, if_true]
    exact describes_upsert tidy linked inside (gap.upserted (tidy.sound.sorted _)) greatest
  | replaces position stored linked inside room there same =>
    have found : route id set.index.index (key value) = some _ := route_eq_some.mpr ⟨linked, inside⟩
    have fits : (set.heap.cells _).length < set.nodeCapacity := room
    obtain ⟨refitted, greatest⟩ := tidy.replaced linked there same
    simp only [BTreeSet.landing, found, fits, if_true]
    rw [refitted]
    exact describes_upsert tidy linked inside (Node.set_upserted (tidy.sound.sorted _) there same) greatest
  | splits linked inside full stored filled found =>
    have chosen : route id set.index.index (key value) = some _ := route_eq_some.mpr ⟨linked, inside⟩
    have packed : ¬ (set.heap.cells _).length < set.nodeCapacity := Nat.not_lt.mpr full
    simp only [BTreeSet.landing, chosen, packed, if_false]
    exact describes_split tidy linked inside stored filled

open Landing in
theorem RemoveEffect.describes {set : BTreeSet α κ} {after : Layout α κ} {wanted : κ} {result : Option α}
    {events : List (ChangeEventUnassigned α)} (effect : RemoveEffect wanted set.layout result events after)
    (tidy : set.layout.Tidy) : Describes set.layout after (set.landing (.remove wanted)) := by
  cases effect with
  | absent missing =>
    apply describes_self tidy
    intro entry node target
    cases found : route id set.index.index wanted with
    | none =>
      simp only [BTreeSet.landing, found] at target
      cases target
    | some pick =>
      simp only [BTreeSet.landing, found] at target ⊢
      cases target
      obtain ⟨linked, _⟩ := route_eq_some.mp found
      refine ⟨linked, fun item => List.mem_filter.trans ⟨And.left, fun member => ⟨member, ?_⟩⟩⟩
      simpa using missing item ⟨_, _, linked, member⟩
  | deletes deleted oldMax position linked inside many there same max greatest =>
    have found : route id set.index.index wanted = some _ := route_eq_some.mpr ⟨linked, inside⟩
    have removed := Node.eraseIdx_removed (tidy.sound.sorted _) there
    rw [same] at removed
    simp only [BTreeSet.landing, found]
    refine describes_refit tidy linked rfl removed.sorted (fun item member => ?_) greatest (fun item member => ?_) fun item member => ?_
    · exact tidy.routed _ _ linked item ((removed.mem item).mp member).1
    · obtain ⟨present, other⟩ := (removed.mem item).mp member
      exact List.mem_filter.mpr ⟨present, by simpa using other⟩
    · obtain ⟨present, other⟩ := List.mem_filter.mp member
      exact ⟨item, (removed.mem item).mpr ⟨present, by simpa using other⟩, rfl⟩
  | unlinks deleted linked inside only same =>
    have found : route id set.index.index wanted = some _ := route_eq_some.mpr ⟨linked, inside⟩
    simp only [BTreeSet.landing, found]
    intro entry node member
    obtain ⟨different, kept⟩ := (mem_erase ..).mp member
    refine .untouched kept (fun key _ chosen => ?_) (Heap.write_other _ _ (tidy.sound.apart linked kept different))
    cases chosen
    exact different

/-- A call leaves a tidy set, with its values where the landing says. -/
theorem Write.Runs.lands {set after : BTreeSet α κ} {write : Write α κ} (runs : write.Runs set after) (tidy : set.Tidy) :
    after.Tidy ∧ (set.landing write).Describes set.layout after.layout := by
  cases runs with
  | insert emitCdc value fuel ran =>
    cases fuel with
    | zero => cases ran
    | succ fuel =>
      obtain ⟨_, _, _, effect, left, result⟩ := BTreeSet.putInner_effect tidy emitCdc value fuel
      cases ran.symm.trans result
      exact ⟨⟨left.valid, (effect.tidy tidy.layout).1⟩, effect.describes tidy.layout⟩
  | remove emitCdc wanted fuel ran =>
    cases fuel with
    | zero => cases ran
    | succ fuel =>
      obtain ⟨_, _, _, effect, left, result⟩ := BTreeSet.removeInner_effect tidy emitCdc wanted fuel
      cases ran.symm.trans result
      exact ⟨⟨left.valid, (effect.tidy tidy.layout).1⟩, effect.describes tidy.layout⟩

end WorkTablesIndex
