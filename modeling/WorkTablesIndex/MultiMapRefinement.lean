import Mathlib.Data.Finset.Sort
import WorkTablesIndex.GroupedRouting
import WorkTablesIndex.MultiMap
import WorkTablesIndex.RangeLaws
import WorkTablesIndex.WeakConsistency

/-! One call at a time, the concurrent multimap is a finite set of pairs in the order of
their keys and then their values, however the pairs of one key fall across nodes. -/

universe u v

namespace WorkTablesIndex
open SortedMap

variable {K : Type u} {V : Type v}

inductive MultiMapCall (K : Type u) (V : Type v) where
  | insert (key : K) (value : V)
  | remove (key : K) (value : V)
  | removeSome (key : K)
  | containsKey (key : K)
  | get (key : K)
  | iter
  | len
  | isEmpty
  | attachMultiNodes (nodes : List (List (OrdMultiPair K V)))

inductive MultiMapReply (K : Type u) (V : Type v) where
  | value (old : Option V)
  | pair (deleted : Option (K × V))
  | pairs (yielded : List (K × V))
  | flag (answer : Bool)
  | count (total : Nat)
  | done
  deriving DecidableEq

variable [LinearOrder K] [LinearOrder V]

namespace MultiMapCall
open BTreeMultiMap OrdMultiPair

/-- An iterator is collected until it returns `None`, which the number of stored pairs bounds. -/
def run : MultiMapCall K V → Nat → BTreeMultiMap K V → Option (MultiMapReply K V × BTreeMultiMap K V)
  | .insert key value, fuel, map => (BTreeMultiMap.insert key value fuel map).map fun (old, map) => (.value old, map)
  | .remove key value, fuel, map => (BTreeMultiMap.remove key value fuel map).map fun (deleted, map) => (.pair deleted, map)
  | .removeSome key, fuel, map => (BTreeMultiMap.removeSome key fuel map).map fun (deleted, map) => (.pair deleted, map)
  | .containsKey key, _, map => some (.flag (BTreeMultiMap.containsKey key map), map)
  | .get key, fuel, map => ((BTreeMultiMap.get key map).collect map (map.len + fuel)).map fun values =>
    (.pairs (values.map intoTuple), map)
  | .iter, fuel, map => (map.iter.collect map (map.len + fuel)).map fun values => (.pairs (values.map intoTuple), map)
  | .len, _, map => some (.count map.len, map)
  | .isEmpty, _, map => some (.flag map.isEmpty, map)
  | .attachMultiNodes nodes, _, map => (BTreeMultiMap.attachMultiNodes nodes map).map fun map => (.done, map)

def Permitted : MultiMapCall K V → BTreeMultiMap K V → Prop
  | .attachMultiNodes nodes, map => BTreeSet.Attachable map.layout nodes
  | _, _ => True

/-- The replies a set of pairs may give; only `remove_some` has a choice. -/
def Answers (pairs : Finset (K ×ₗ V)) : MultiMapCall K V → MultiMapReply K V → Prop
  | .insert key value, reply => reply = .value (if toLex (key, value) ∈ pairs then some value else none)
  | .remove key value, reply => reply = .pair (if toLex (key, value) ∈ pairs then some (key, value) else none)
  | .removeSome key, reply => (∃ value, toLex (key, value) ∈ pairs ∧ reply = .pair (some (key, value))) ∨
      (∀ value, toLex (key, value) ∉ pairs) ∧ reply = .pair none
  | .containsKey key, reply => ∃ answer, reply = .flag answer ∧ (answer = true ↔ ∃ value, toLex (key, value) ∈ pairs)
  | .get key, reply => reply = .pairs (((pairs.filter fun pair => (ofLex pair).1 = key).sort (· ≤ ·)).map ofLex)
  | .iter, reply => reply = .pairs ((pairs.sort (· ≤ ·)).map ofLex)
  | .len, reply => reply = .count pairs.card
  | .isEmpty, reply => reply = .flag (decide (pairs = ∅))
  | .attachMultiNodes _, reply => reply = .done

def next (pairs : Finset (K ×ₗ V)) : MultiMapCall K V → MultiMapReply K V → Finset (K ×ₗ V)
  | .insert key value, _ => Insert.insert (toLex (key, value)) pairs
  | .remove key value, _ => pairs.erase (toLex (key, value))
  | .removeSome _, .pair (some deleted) => pairs.erase (toLex deleted)
  | .attachMultiNodes nodes, _ => pairs ∪ (nodes.flatten.map key).toFinset
  | _, _ => pairs

end MultiMapCall

namespace BTreeMultiMap

/-- The multimaps reached from an empty one by complete calls, beside the pairs that the
same calls with the same replies leave. -/
inductive Reached (nodeCapacity : Nat) : BTreeMultiMap K V → Finset (K ×ₗ V) → Prop where
  | start : Reached nodeCapacity (withMaximumNodeSize nodeCapacity) ∅
  | call {map after : BTreeMultiMap K V} {pairs : Finset (K ×ₗ V)} {reply : MultiMapReply K V}
      (earlier : Reached nodeCapacity map pairs)
      (call : MultiMapCall K V) (fuel : Nat) (allowed : call.Permitted map) (ran : call.run (fuel + 1) map = some (reply, after)) :
      Reached nodeCapacity after (call.next pairs reply)

/-- The nodes are filled, sorted and keyed by their maxima, and laid end to end they are
the pairs in order. -/
structure Refines (map : BTreeMultiMap K V) (pairs : Finset (K ×ₗ V)) : Prop where
  tidy : map.Tidy
  grouped : map.borrowOrderMatches = false
  contents : map.nodes.flatten.map key = pairs.sort (· ≤ ·)

end BTreeMultiMap

theorem OrdMultiPair.borrow_monotone : Monotone (OrdMultiPair.borrow : K ×ₗ V → K) := Prod.Lex.monotone_fst_ofLex

omit [LinearOrder K] [LinearOrder V] in
theorem OrdMultiPair.keyed_inj {first second : OrdMultiPair K V} : Keyed.key first = Keyed.key second ↔ first = second := by
  refine ⟨fun same => ?_, congrArg Keyed.key⟩
  obtain ⟨firstKey, firstValue⟩ := first
  obtain ⟨secondKey, secondValue⟩ := second
  obtain ⟨sameKey, sameValue⟩ : firstKey = secondKey ∧ firstValue = secondValue := Prod.mk.inj (toLex.injective same)
  rw [sameKey, sameValue]

theorem Node.Sorted.map_key {values : List (OrdMultiPair K V)} (sorted : Node.Sorted values) {pairs : Finset (K ×ₗ V)}
    (contents : ∀ pair, pair ∈ values ↔ key pair ∈ pairs) : values.map key = pairs.sort (· ≤ ·) := by
  have ascending : (values.map key).Pairwise (· < ·) := List.pairwise_map.mpr sorted
  have members : (values.map key).toFinset = pairs := by
    ext wanted
    rw [List.mem_toFinset, List.mem_map]
    constructor
    · intro given
      obtain ⟨pair, member, rfl⟩ := given
      exact (contents pair).mp member
    · exact fun member => ⟨⟨(ofLex wanted).1, (ofLex wanted).2⟩, (contents _).mpr member, rfl⟩
  rw [← members]
  exact ((List.toFinset_sort (· ≤ ·) (ascending.imp fun below => below.ne)).mpr (ascending.imp fun below => below.le)).symm

namespace BTreeMultiMap
variable {map after : BTreeMultiMap K V} {pairs : Finset (K ×ₗ V)}
open BTreeSet OrdMultiPair

structure Holding (map : BTreeMultiMap K V) (pairs : Finset (K ×ₗ V)) : Prop where
  tidy : map.Tidy
  grouped : map.borrowOrderMatches = false
  stored : ∀ pair, map.layout.Stored pair ↔ key pair ∈ pairs

theorem Holding.refines (holding : Holding map pairs) : Refines map pairs :=
  ⟨holding.tidy, holding.grouped, holding.tidy.sorted_contents.map_key fun pair =>
    (mem_flatten_nodes pair).trans (holding.stored pair)⟩

theorem holding_new (nodeCapacity : Nat) : Holding (withMaximumNodeSize nodeCapacity : BTreeMultiMap K V) ∅ := by
  obtain ⟨⟨publishes, sound⟩, layout⟩ := tidy_new (α := OrdMultiPair K V) (κ := K ×ₗ V) nodeCapacity
  refine ⟨⟨⟨publishes, sound⟩, layout⟩, rfl, fun pair => ?_⟩
  simp only [Finset.notMem_empty, iff_false]
  intro given
  obtain ⟨entry, node, member, _⟩ := given
  exact not_mem_empty _ member

private theorem Holding.found (holding : Holding map pairs) {key : K} {value : V} {result : Option (OrdMultiPair K V)}
    (held : map.layout.Holds (toLex (key, value)) result) :
    result = if toLex (key, value) ∈ pairs then some ⟨key, value⟩ else none := by
  split
  next member => exact (held _).mpr ⟨(holding.stored ⟨key, value⟩).mpr member, rfl⟩
  next absent =>
    cases result with
    | none => rfl
    | some pair =>
      obtain ⟨stored, same⟩ := (held pair).mp rfl
      exact absurd (same ▸ (holding.stored pair).mp stored) absent

theorem Holding.insert (holding : Holding map pairs) (key : K) (value : V) (fuel : Nat) :
    ∃ after, BTreeMultiMap.insert key value (fuel + 1) map = some (if toLex (key, value) ∈ pairs then some value else none, after) ∧
      Holding after (Insert.insert (toLex (key, value)) pairs) := by
  obtain ⟨old, events, after, effect, left, result⟩ := putInner_effect holding.tidy false ⟨key, value⟩ fuel
  obtain ⟨tidy, gains⟩ := effect.tidy holding.tidy.layout
  have found := holding.found (effect.holds holding.tidy.layout)
  refine ⟨after, ?_, ⟨left.valid, tidy⟩, (putInner_routing result).trans holding.grouped, fun pair => ?_⟩
  · have ran : putInner adoptStoredIdentity false ⟨key, value⟩ (fuel + 1) map = _ := result
    rw [BTreeMultiMap.insert, ran, found]
    simp only [Option.map_some]
    split <;> rfl
  · rw [gains pair, holding.stored, Finset.mem_insert, ← OrdMultiPair.keyed_inj]
    constructor
    · exact fun either => either.imp id And.left
    · intro either
      by_cases same : Keyed.key pair = Keyed.key (⟨key, value⟩ : OrdMultiPair K V)
      · exact Or.inl same
      · exact Or.inr ⟨either.resolve_left same, same⟩

private theorem Holding.erase (holding : Holding map pairs) (key : K) (value : V) (fuel : Nat) :
    ∃ cdc after, removeInner id false (toLex (key, value)) (fuel + 1) map =
        some ((if toLex (key, value) ∈ pairs then some ⟨key, value⟩ else none, cdc), after) ∧
      Holding after (pairs.erase (toLex (key, value))) := by
  obtain ⟨deleted, events, after, effect, left, result⟩ := removeInner_effect holding.tidy false (toLex (key, value)) fuel
  obtain ⟨tidy, loses⟩ := effect.tidy holding.tidy.layout
  have found := holding.found (effect.holds holding.tidy.layout)
  refine ⟨_, after, found ▸ result, ⟨left.valid, tidy⟩, (removeInner_routing result).trans holding.grouped, fun pair => ?_⟩
  rw [loses pair, holding.stored, Finset.mem_erase, and_comm]

theorem Holding.remove (holding : Holding map pairs) (key : K) (value : V) (fuel : Nat) :
    ∃ after, BTreeMultiMap.remove key value (fuel + 1) map = some
      (if toLex (key, value) ∈ pairs then some (key, value) else none, after) ∧
      Holding after (pairs.erase (toLex (key, value))) := by
  obtain ⟨cdc, after, result, next⟩ := holding.erase key value fuel
  refine ⟨after, ?_, next⟩
  rw [BTreeMultiMap.remove, BTreeSet.remove, result]
  simp only [Option.map_some]
  split <;> rfl

theorem Holding.removeSome (holding : Holding map pairs) (key : K) (fuel : Nat) :
    (∃ value after, toLex (key, value) ∈ pairs ∧ BTreeMultiMap.removeSome key (fuel + 1) map = some (some (key, value), after) ∧
      Holding after (pairs.erase (toLex (key, value)))) ∨
    (∀ value, toLex (key, value) ∉ pairs) ∧ BTreeMultiMap.removeSome key (fuel + 1) map = some (none, map) := by
  rcases holding.tidy.removeInner_borrowed borrow_monotone false key fuel with ⟨pair, stored, same, result⟩ | ⟨missing, result⟩
  · have member := (holding.stored pair).mp stored
    obtain ⟨first, value⟩ := pair
    have same : first = key := same
    subst same
    obtain ⟨cdc, after, removed, next⟩ := holding.erase first value fuel
    have result : removeInner borrow false first (fuel + 1) map =
      removeInner id false (toLex (first, value)) (fuel + 1) map := result
    refine Or.inl ⟨value, after, member, ?_, next⟩
    rw [BTreeMultiMap.removeSome, BTreeSet.remove, result, removed, if_pos (show toLex (first, value) ∈ pairs from member)]
    rfl
  · refine Or.inr ⟨fun value member => missing ⟨key, value⟩ ((holding.stored _).mpr member) rfl, ?_⟩
    rw [BTreeMultiMap.removeSome, BTreeSet.remove, result]
    rfl

theorem Holding.containsKey (holding : Holding map pairs) (key : K) :
    BTreeMultiMap.containsKey key map = true ↔ ∃ value, toLex (key, value) ∈ pairs := by
  rw [BTreeMultiMap.containsKey, holding.tidy.contains_iff borrow_monotone]
  constructor
  · intro given
    obtain ⟨⟨first, value⟩, stored, same⟩ := given
    have same : first = key := same
    subst same
    exact ⟨value, (holding.stored _).mp stored⟩
  · intro given
    obtain ⟨value, member⟩ := given
    exact ⟨⟨key, value⟩, (holding.stored _).mpr member, rfl⟩

theorem Holding.len (holding : Holding map pairs) : map.len = pairs.card := by
  have size := congrArg List.length holding.refines.contents
  rw [List.length_map, Finset.length_sort, List.length_flatten, nodes, List.map_map] at size
  exact size

theorem Holding.isEmpty (holding : Holding map pairs) : map.isEmpty = decide (pairs = ∅) := by
  have flat : map.isEmpty = map.nodes.flatten.isEmpty := by
    rw [Bool.eq_iff_iff, List.isEmpty_iff, List.flatten_eq_nil_iff]
    simp only [BTreeSet.isEmpty, nodes, List.all_eq_true, List.isEmpty_iff, List.forall_mem_map]
  have size := congrArg List.length holding.refines.contents
  rw [List.length_map, Finset.length_sort] at size
  rw [flat, Bool.eq_iff_iff, List.isEmpty_iff_length_eq_zero, size, Finset.card_eq_zero, decide_eq_true_eq]

/-- The number of stored pairs bounds a scan. -/
theorem scan_enough (map : BTreeMultiMap K V) (fuel : Nat) : map.nodes.flatten.length < map.len + (fuel + 1) := by
  have size : map.nodes.flatten.length = map.len := by
    rw [List.length_flatten, nodes, List.map_map]
    rfl
  omega

theorem Holding.iter (holding : Holding map pairs) (fuel : Nat) :
    ∃ values, map.iter.collect map (map.len + (fuel + 1)) = some values ∧ values.map intoTuple = (pairs.sort (· ≤ ·)).map ofLex := by
  refine ⟨_, holding.tidy.collect_eq (scan_enough map fuel), ?_⟩
  rw [← holding.refines.contents, List.map_map]
  rfl

theorem Holding.get (holding : Holding map pairs) (key : K) (fuel : Nat) :
    ∃ values, (BTreeMultiMap.get key map).collect map (map.len + (fuel + 1)) = some values ∧
      values.map intoTuple = ((pairs.filter fun pair => (ofLex pair).1 = key).sort (· ≤ ·)).map ofLex := by
  refine ⟨_, Range.collect_grouped holding.tidy borrow_monotone holding.grouped key (scan_enough map fuel), ?_⟩
  rw [within, ← (holding.tidy.sorted_contents.sublist List.filter_sublist).map_key fun pair => ?_, List.map_map]
  · rfl
  · rw [List.mem_filter, mem_flatten_nodes, holding.stored, Finset.mem_filter]
    apply and_congr_right
    intro _
    simp only [Bound.admits, Bound.permits, Bool.and_eq_true, decide_eq_true_eq]
    exact ⟨fun both => le_antisymm both.2 both.1, fun same => ⟨same.ge, same.le⟩⟩

theorem Holding.attach (holding : Holding map pairs) {nodes : List (List (OrdMultiPair K V))}
    (attachable : Attachable map.layout nodes) :
    ∃ after, attachMultiNodes nodes map = some after ∧ Holding after (pairs ∪ (nodes.flatten.map Keyed.key).toFinset) := by
  obtain ⟨after, result, tidy, _, linked⟩ := attachNodes_spec holding.tidy attachable
  refine ⟨after, result, tidy, (attachNodes_routing result).trans holding.grouped, fun pair => ?_⟩
  rw [attachNodes_stored attachable linked pair, holding.stored, Finset.mem_union, List.mem_toFinset, List.mem_map, or_comm]
  refine or_congr_right ⟨fun member => ⟨pair, member, rfl⟩, ?_⟩
  intro given
  obtain ⟨other, member, same⟩ := given
  exact OrdMultiPair.keyed_inj.mp same ▸ member

theorem Holding.answers (holding : Holding map pairs) (call : MultiMapCall K V) (allowed : call.Permitted map) (fuel : Nat) :
    ∃ reply after, call.run (fuel + 1) map = some (reply, after) ∧ call.Answers pairs reply ∧
      Holding after (call.next pairs reply) := by
  cases call with
  | insert key value =>
    obtain ⟨after, result, next⟩ := holding.insert key value fuel
    exact ⟨_, after, by simp only [MultiMapCall.run, result, Option.map_some], rfl, next⟩
  | remove key value =>
    obtain ⟨after, result, next⟩ := holding.remove key value fuel
    exact ⟨_, after, by simp only [MultiMapCall.run, result, Option.map_some], rfl, next⟩
  | removeSome key =>
    rcases holding.removeSome key fuel with ⟨value, after, member, result, next⟩ | ⟨missing, result⟩
    · exact ⟨_, after, by simp only [MultiMapCall.run, result, Option.map_some], Or.inl ⟨value, member, rfl⟩, next⟩
    · exact ⟨_, map, by simp only [MultiMapCall.run, result, Option.map_some], Or.inr ⟨missing, rfl⟩, holding⟩
  | containsKey key => exact ⟨_, map, rfl, ⟨_, rfl, holding.containsKey key⟩, holding⟩
  | get key =>
    obtain ⟨values, result, same⟩ := holding.get key fuel
    exact ⟨_, map, by simp only [MultiMapCall.run, result, Option.map_some], congrArg MultiMapReply.pairs same, holding⟩
  | iter =>
    obtain ⟨values, result, same⟩ := holding.iter fuel
    exact ⟨_, map, by simp only [MultiMapCall.run, result, Option.map_some], congrArg MultiMapReply.pairs same, holding⟩
  | len => exact ⟨_, map, rfl, congrArg MultiMapReply.count holding.len, holding⟩
  | isEmpty => exact ⟨_, map, rfl, congrArg MultiMapReply.flag holding.isEmpty, holding⟩
  | attachMultiNodes nodes =>
    obtain ⟨after, result, next⟩ := holding.attach allowed
    exact ⟨_, after, by simp only [MultiMapCall.run, result, Option.map_some], rfl, next⟩

theorem Reached.holding {nodeCapacity : Nat} (reached : Reached nodeCapacity map pairs) : Holding map pairs := by
  induction reached with
  | start => exact holding_new nodeCapacity
  | call earlier call fuel allowed ran ih =>
    obtain ⟨reply, after, returned, _, next⟩ := ih.answers call allowed fuel
    cases ran.symm.trans returned
    exact next

/-- Whatever complete calls came before, the multimap holds exactly the pairs its calls
left, in order, and every further call returns, answers as the set of pairs does and
leaves it so. -/
theorem refines_pairs {nodeCapacity : Nat} (reached : Reached nodeCapacity map pairs) : Refines map pairs ∧
    ∀ call : MultiMapCall K V, call.Permitted map → ∀ fuel, ∃ reply after, call.run (fuel + 1) map = some (reply, after) ∧
      call.Answers pairs reply ∧ Refines after (call.next pairs reply) := by
  refine ⟨reached.holding.refines, fun call allowed fuel => ?_⟩
  obtain ⟨reply, after, ran, answers, next⟩ := reached.holding.answers call allowed fuel
  exact ⟨reply, after, ran, answers, next.refines⟩

/-- The pairs of one key in three nodes. -/
theorem refines_pairs_spanning : ∃ (map : BTreeMultiMap Nat Nat) (pairs : Finset (Nat ×ₗ Nat)), Reached 2 map pairs ∧
    map.nodes = [[⟨1, 10⟩], [⟨1, 20⟩], [⟨1, 30⟩, ⟨1, 40⟩]] ∧ Refines map pairs ∧
    ∃ reply after, (MultiMapCall.get 1).run 1 map = some (reply, after) ∧ (MultiMapCall.get 1).Answers pairs reply := by
  obtain ⟨map, pairs, reached, nodes⟩ : ∃ (map : BTreeMultiMap Nat Nat) (pairs : Finset (Nat ×ₗ Nat)), Reached 2 map pairs ∧
      map.nodes = [[⟨1, 10⟩], [⟨1, 20⟩], [⟨1, 30⟩, ⟨1, 40⟩]] :=
    ⟨_, _, .call (.call (.call (.call .start (.insert 1 10) 0 trivial rfl) (.insert 1 20) 0 trivial rfl)
      (.insert 1 30) 0 trivial rfl)
      (.insert 1 40) 0 trivial rfl, by decide⟩
  obtain ⟨refines, answers⟩ := refines_pairs reached
  obtain ⟨reply, after, ran, answered, _⟩ := answers (.get 1) trivial 0
  exact ⟨map, pairs, reached, nodes, refines, reply, after, ran, answered⟩

end BTreeMultiMap
end WorkTablesIndex
