import WorkTablesIndex.IterLaws

/-! Iteration over a set that nobody changes: the iterator is a deque of the stored values
between its two cursors. -/

universe u v

namespace WorkTablesIndex
open SortedMap

variable {α : Type u} {κ : Type v} [Keyed α κ] [LinearOrder κ]

def Layout.watch (layout : Layout α κ) : Watch α κ :=
  ⟨fun wanted => ∃ item, layout.Stored item ∧ key item = wanted, layout.Stored, layout.Stored⟩

theorem Layout.watch_present (layout : Layout α κ) : layout.watch.Present layout :=
  ⟨fun _ lives => lives, fun _ kept => kept, fun _ stored => stored⟩

/-- What a call in one direction finds in an unchanged set: nothing between the cursors, or the
value that comes first. -/
theorem Draws.quiet {r : κ → κ → Prop} [IsStrictTotalOrder κ r] {layout : Layout α κ} {heap : Heap α} {cursor other : Option α}
    {after : Direction α} {result : Option α} {met : Bool} (draws : Draws r layout.watch heap cursor other after result met) :
    (result = none ∧ (∀ item, layout.Stored item → Past r cursor (key item) →
      ¬ Past (fun first second => r second first) other (key item)) ∧
      (met = false → after.Ready r layout.watch heap ∧ after.cursor = cursor)) ∨
    ∃ value, result = some value ∧ met = false ∧ layout.Stored value ∧ Past r cursor (key value) ∧
      Past (fun first second => r second first) other (key value) ∧
      (∀ item, layout.Stored item → Past r cursor (key item) → item = value ∨ r (key value) (key item)) ∧
      after.Ready r layout.watch heap ∧ after.cursor = some value := by
  cases draws with
  | ended done ready same =>
    exact Or.inl ⟨rfl, fun item stored past => absurd past (done _ ⟨item, stored, rfl⟩), fun _ => ⟨ready, same⟩⟩
  | crossed value last least limit reaches =>
    refine Or.inl ⟨rfl, fun item stored past behind => ?_, fun unmet => by cases unmet⟩
    have short : r (key item) (key last) := behind last limit
    rcases trichotomous_of r (key item) (key value) with before | same | beyond
    · exact least _ ⟨item, stored, rfl⟩ past before
    · exact reaches (same ▸ short)
    · exact reaches (IsTrans.trans _ _ _ beyond short)
  | yields value past least known exact short ready moved =>
    refine Or.inr ⟨value, rfl, rfl, known, past, short, fun item stored ahead => ?_, ready, moved⟩
    rcases trichotomous_of r (key item) (key value) with before | same | beyond
    · exact absurd before (least _ ⟨item, stored, rfl⟩ ahead)
    · exact Or.inl (exact item stored same)
    · exact Or.inr beyond

namespace Node
variable {values : List α} {value : α}

theorem Sorted.take_front (sorted : Sorted values) (member : value ∈ values)
    (least : ∀ item ∈ values, item = value ∨ key value < key item) :
    values.head? = some value ∧ values.tail = values.filter fun item => decide (key value < key item) := by
  cases values with
  | nil => cases member
  | cons first rest =>
    obtain ⟨below, _⟩ := List.pairwise_cons.mp sorted
    have same : first = value := by
      rcases List.mem_cons.mp member with here | later
      · exact here.symm
      · exact (least first List.mem_cons_self).resolve_right (below value later).not_gt
    subst same
    refine ⟨rfl, ?_⟩
    rw [List.filter_cons_of_neg (by simp), List.tail_cons, eq_comm, List.filter_eq_self]
    exact fun item later => by simpa using below item later

theorem Sorted.take_back (sorted : Sorted values) (member : value ∈ values)
    (greatest : ∀ item ∈ values, item = value ∨ key item < key value) :
    values.getLast? = some value ∧ values.dropLast = values.filter fun item => decide (key item < key value) := by
  rcases List.eq_nil_or_concat values with rfl | ⟨earlier, last, rfl⟩
  · cases member
  · rw [List.concat_eq_append] at sorted member greatest ⊢
    obtain ⟨_, _, below⟩ := List.pairwise_append.mp sorted
    have same : last = value := by
      rcases List.mem_append.mp member with before | here
      · exact (greatest last (by simp)).resolve_right (below value before last (by simp)).not_gt
      · exact (List.mem_singleton.mp here).symm
    subst same
    refine ⟨List.getLast?_concat, ?_⟩
    have all : earlier.filter (fun item => decide (key item < key last)) = earlier :=
      List.filter_eq_self.mpr fun item before => by simpa using below item before last (by simp)
    rw [List.dropLast_concat, List.filter_append, all, List.filter_cons_of_neg (by simp), List.filter_nil, List.append_nil]

end Node

namespace Iter
variable {set : BTreeSet α κ} {iter after : Iter α}

/-- The stored values between the cursors; none once the ends have met. -/
def between (set : BTreeSet α κ) (iter : Iter α) : List α :=
  if iter.met then [] else set.nodes.flatten.filter fun item =>
    (iter.currentFrontValue.all fun last => decide (key last < key item)) &&
      iter.currentBackValue.all fun last => decide (key last > key item)

structure Quiet (set : BTreeSet α κ) (iter : Iter α) : Prop where
  forward : iter.met = false → iter.forward.Ready (· < ·) set.layout.watch set.heap
  backward : iter.met = false → iter.backward.Ready (· > ·) set.layout.watch set.heap

theorem mem_between (unmet : iter.met = false) (item : α) : item ∈ between set iter ↔ set.layout.Stored item ∧
    Past (· < ·) iter.currentFrontValue (key item) ∧ Past (· > ·) iter.currentBackValue (key item) := by
  rw [between, if_neg (Bool.eq_false_iff.mp unmet), List.mem_filter, BTreeSet.mem_flatten_nodes, Bool.and_eq_true]
  exact and_congr_right fun _ => and_congr (past_iff (r := (· < ·))) (past_iff (r := (· > ·)))

theorem between_met (met : iter.met = true) : between set iter = [] := if_pos met

theorem between_sorted (tidy : set.Tidy) : Node.Sorted (between set iter) := by
  unfold between
  split
  · exact List.Pairwise.nil
  · exact tidy.sorted_contents.sublist List.filter_sublist

theorem between_length_le (set : BTreeSet α κ) (iter : Iter α) : (between set iter).length ≤ set.nodes.flatten.length := by
  unfold between
  split
  · exact Nat.zero_le _
  · exact List.length_filter_le _ _

private theorem serves_front (tidy : set.Tidy) (quiet : Quiet set iter) (fuel : Nat) :
    ∃ after, next set (fuel + 3) iter = some ((Deque.take .front (between set iter)).1, after) ∧ Quiet set after ∧
      between set after = (Deque.take .front (between set iter)).2 := by
  cases met : iter.met with
  | true =>
    refine ⟨iter, ?_, quiet, ?_⟩
    · rw [next, if_pos met, between_met met]
      rfl
    · rw [between_met met]
      rfl
  | false =>
    obtain ⟨result, after, ran, frame, draws⟩ :=
      next_draws tidy.layout set.layout.watch_present (quiet.forward met) met (fuel + 1)
    have other : after.currentBackValue = iter.currentBackValue := congrArg Direction.cursor frame
    have backward (_ : after.met = false) : after.backward.Ready (· > ·) set.layout.watch set.heap := frame ▸ quiet.backward met
    rw [ran]
    rcases draws.quiet with ⟨rfl, nothing, open_⟩ | ⟨value, rfl, unmet, stored, past, short, least, ready, moved⟩
    · have empty : between set iter = [] := by
        rw [List.eq_nil_iff_forall_not_mem]
        intro item member
        obtain ⟨stored, past, behind⟩ := (mem_between met item).mp member
        exact nothing item stored past behind
      rw [empty]
      refine ⟨after, rfl, ⟨fun unmet => (open_ unmet).1, backward⟩, ?_⟩
      cases ended : after.met with
      | true => exact between_met ended
      | false =>
        have same : after.currentFrontValue = iter.currentFrontValue := (open_ ended).2
        rw [Deque.take, List.tail_nil, ← empty, between, between, ended, met, same, other]
    · have cursor : after.currentFrontValue = some value := moved
      have member : value ∈ between set iter := (mem_between met value).mpr ⟨stored, past, short⟩
      obtain ⟨first, rest⟩ := (between_sorted tidy).take_front member fun item there =>
        least item ((mem_between met item).mp there).1 ((mem_between met item).mp there).2.1
      refine ⟨after, by rw [Deque.take, first], ⟨fun _ => ready, backward⟩, ?_⟩
      rw [Deque.take, rest]
      apply (between_sorted tidy).ext ((between_sorted tidy).sublist List.filter_sublist)
      intro item
      rw [mem_between unmet, List.mem_filter, mem_between met, cursor, other, decide_eq_true_eq]
      constructor
      · intro both
        obtain ⟨held, beyond, behind⟩ := both
        exact ⟨⟨held, fun last same => (past last same).trans (beyond value rfl), behind⟩, beyond value rfl⟩
      · intro both
        obtain ⟨⟨held, _, behind⟩, above⟩ := both
        refine ⟨held, fun last same => ?_, behind⟩
        cases same
        exact above

private theorem serves_back (tidy : set.Tidy) (quiet : Quiet set iter) (fuel : Nat) :
    ∃ after, nextBack set (fuel + 3) iter = some ((Deque.take .back (between set iter)).1, after) ∧ Quiet set after ∧
      between set after = (Deque.take .back (between set iter)).2 := by
  cases met : iter.met with
  | true =>
    refine ⟨iter, ?_, quiet, ?_⟩
    · rw [nextBack, if_pos met, between_met met]
      rfl
    · rw [between_met met]
      rfl
  | false =>
    obtain ⟨result, after, ran, frame, draws⟩ :=
      nextBack_draws tidy.layout set.layout.watch_present (quiet.backward met) met fuel
    have other : after.currentFrontValue = iter.currentFrontValue := congrArg Direction.cursor frame
    have forward (_ : after.met = false) : after.forward.Ready (· < ·) set.layout.watch set.heap := frame ▸ quiet.forward met
    rw [ran]
    rcases draws.quiet with ⟨rfl, nothing, open_⟩ | ⟨value, rfl, unmet, stored, past, short, least, ready, moved⟩
    · have empty : between set iter = [] := by
        rw [List.eq_nil_iff_forall_not_mem]
        intro item member
        obtain ⟨stored, ahead, past⟩ := (mem_between met item).mp member
        exact nothing item stored past ahead
      rw [empty]
      refine ⟨after, rfl, ⟨forward, fun unmet => (open_ unmet).1⟩, ?_⟩
      cases ended : after.met with
      | true => exact between_met ended
      | false =>
        have same : after.currentBackValue = iter.currentBackValue := (open_ ended).2
        rw [Deque.take, List.dropLast_nil, ← empty, between, between, ended, met, same, other]
    · have cursor : after.currentBackValue = some value := moved
      have member : value ∈ between set iter := (mem_between met value).mpr ⟨stored, short, past⟩
      obtain ⟨last, rest⟩ := (between_sorted tidy).take_back member fun item there =>
        least item ((mem_between met item).mp there).1 ((mem_between met item).mp there).2.2
      refine ⟨after, by rw [Deque.take, last], ⟨forward, fun _ => ready⟩, ?_⟩
      rw [Deque.take, rest]
      apply (between_sorted tidy).ext ((between_sorted tidy).sublist List.filter_sublist)
      intro item
      rw [mem_between unmet, List.mem_filter, mem_between met, cursor, other, decide_eq_true_eq]
      constructor
      · intro both
        obtain ⟨held, ahead, beyond⟩ := both
        exact ⟨⟨held, ahead, fun last same => (beyond value rfl).trans (past last same)⟩, beyond value rfl⟩
      · intro both
        obtain ⟨⟨held, ahead, _⟩, below⟩ := both
        refine ⟨held, ahead, fun last same => ?_⟩
        cases same
        exact below

/-- The iterator is a deque of the values between its cursors. -/
theorem serves (tidy : set.Tidy) (fuel : Nat) :
    Deque.Serves (draw set (fuel + 3)) fun iter values => Quiet set iter ∧ between set iter = values := by
  intro side iter values held
  obtain ⟨quiet, rfl⟩ := held
  cases side with
  | front => exact serves_front tidy quiet fuel
  | back => exact serves_back tidy quiet fuel

theorem quiet_new (set : BTreeSet α κ) (front back : Option α) (met : Bool) :
    Quiet set { (new : Iter α) with currentFrontValue := front, currentBackValue := back, met } :=
  ⟨fun _ => ⟨.idle, fun _ => ⟨rfl, rfl, rfl⟩, Nat.zero_lt_succ 3⟩, fun _ => ⟨.idle, fun _ => ⟨rfl, rfl, rfl⟩, Nat.zero_lt_succ 3⟩⟩

private theorem collect_eq_drain (set : BTreeSet α κ) (fuel : Nat) (iter : Iter α) :
    collect set fuel iter = Deque.drain (draw set 3) .front fuel iter := by
  induction fuel generalizing iter with
  | zero => rfl
  | succ fuel ih =>
    simp only [collect, Deque.drain, draw, ih]
    rcases next set 3 iter with _ | ⟨_ | value, after⟩ <;> rfl

theorem collect_between (tidy : set.Tidy) {fuel : Nat} (quiet : Quiet set iter) (enough : (between set iter).length < fuel) :
    collect set fuel iter = some (between set iter) := by
  rw [collect_eq_drain]
  exact (serves tidy 0).drain ⟨quiet, rfl⟩ .front enough

end Iter

theorem BTreeSet.Tidy.collect_eq {set : BTreeSet α κ} (tidy : set.Tidy) {fuel : Nat} (enough : set.nodes.flatten.length < fuel) :
    set.iter.collect set fuel = some set.nodes.flatten := by
  have whole : Iter.between set set.iter = set.nodes.flatten := List.filter_eq_self.mpr fun _ _ => rfl
  have quiet : Iter.Quiet set set.iter := Iter.quiet_new set none none false
  rw [Iter.collect_between tidy quiet (whole ▸ enough), whole]

end WorkTablesIndex
