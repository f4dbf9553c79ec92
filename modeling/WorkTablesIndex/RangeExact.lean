import WorkTablesIndex.GroupedRouting
import WorkTablesIndex.Map
import WorkTablesIndex.RangeLaws

/-! Ranges of a set or a map that nobody changes, over a borrowed form with the order of the
elements: whatever their bounds, they are deques of the values within them. -/

universe u v w

namespace WorkTablesIndex
open SortedMap

variable {α : Type u} {κ : Type v} {Q : Type w} [LinearOrder κ] [Keyed α κ] [LinearOrder Q]

namespace BTreeSet
variable {set after : BTreeSet α κ} {nodeCapacity : Nat} {borrow : κ → Q}

theorem Reachable.matched (reachable : Reachable nodeCapacity set) : set.borrowOrderMatches = true := by
  induction reachable with
  | new => rfl
  | mutates earlier call ih =>
    cases call with
    | insert emitCdc value fuel ran => exact (putInner_routing ran).trans ih
    | checkedInsert emitCdc value fuel ran => exact (putCheckedInner_routing ran).trans ih
    | remove emitCdc wanted fuel ran => exact (removeInner_routing ran).trans ih
    | removeRange start last => exact (removeRange_routing ..).trans ih
  | attachNodes earlier nodes attachable ran ih => exact (attachNodes_routing ran).trans ih

/-- With no call on the set in between, every schedule of `next` and `next_back` draws the
values within the bounds from their two ends; there are none within inverted bounds. -/
theorem range_exact (reachable : Reachable nodeCapacity set) (strict : StrictMono borrow) (start last : Bound Q)
    (schedule : List Deque.End) (fuel : Nat) :
    (∃ after, Deque.run (Iter.draw set (fuel + 3)) schedule (set.range borrow start last) =
      some (Deque.takes schedule (set.within borrow start last), after)) ∧
    (Range.inverted start last = true → set.within borrow start last = []) := by
  obtain ⟨tidy, _⟩ := reachable.tidy
  have back := Range.backValue_matched tidy strict reachable.matched last
  refine ⟨(Iter.serves tidy fuel).run ⟨Range.quiet borrow start last set, ?_⟩ schedule, ?_⟩
  · exact Range.between_eq tidy strict.monotone back
  · intro crossed
    rw [List.eq_nil_iff_forall_not_mem]
    intro item member
    exact Range.not_within_inverted crossed (key item) ((Range.mem_within item).mp member).2

/-- Two nodes, a bound between two values and a bound at a node's maximum. -/
theorem range_exact_two_nodes : ∃ map : BTreeMap Nat Nat, Reachable 2 map ∧ map.nodes = [[⟨1, 0⟩], [⟨3, 0⟩, ⟨5, 0⟩]] ∧
    ∃ after, Deque.run (Iter.draw map 3) [.back, .front, .back] (map.range id (.excluded 1) (.included 4)) =
      some ([some ⟨3, 0⟩, none, none], after) := by
  obtain ⟨map, reachable, nodes⟩ : ∃ map : BTreeMap Nat Nat, Reachable 2 map ∧ map.nodes = [[⟨1, 0⟩], [⟨3, 0⟩, ⟨5, 0⟩]] :=
    ⟨_, .mutates (.mutates (.mutates .new (.insert false ⟨1, 0⟩ 1 rfl)) (.insert false ⟨3, 0⟩ 1 rfl))
      (.insert false ⟨5, 0⟩ 1 rfl), by decide⟩
  obtain ⟨⟨after, ran⟩, _⟩ := range_exact reachable strictMono_id (.excluded 1) (.included 4) [.back, .front, .back] 0
  refine ⟨map, reachable, nodes, after, ran.trans ?_⟩
  rw [within, nodes]
  rfl

end BTreeSet
end WorkTablesIndex
