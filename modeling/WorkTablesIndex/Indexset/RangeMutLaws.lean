import WorkTablesIndex.Indexset.IterMutLaws
import WorkTablesIndex.Indexset.RangeLaws

/-! Mutable ranges by position. The entry at the end of a range is in none of the three parts that
its iterator draws from: counting the nodes goes on from the front, so the back opens the node
after the one it is meant for, and what is cut off an end includes the entry at the back. -/

namespace WorkTablesIndex.Indexset

variable {F K V κ : Type}

namespace IterMut
variable {iter after : IterMut K V} {result : Option (K × V)}

/-- A call gives only what is left, and leaves nothing new. -/
def Draws (iter : IterMut K V) (result : Option (K × V)) (after : IterMut K V) : Prop :=
  (∀ value, result = some value → ∃ entry ∈ iter.left, BTreeMap.item entry = value) ∧ after.left ⊆ iter.left

theorem Draws.none (iter : IterMut K V) : Draws iter Option.none iter := ⟨nofun, List.Subset.refl _⟩

theorem Draws.of_shrunk {middle : IterMut K V} (draws : Draws middle result after) (shrunk : middle.left ⊆ iter.left) :
    Draws iter result after := by
  refine ⟨fun value given => ?_, List.Subset.trans draws.2 shrunk⟩
  obtain ⟨entry, member, same⟩ := draws.1 value given
  exact ⟨entry, shrunk member, same⟩

theorem Draws.some {entry : Pair K V} (member : entry ∈ iter.left) (shrunk : after.left ⊆ iter.left) :
    Draws iter (Option.some (BTreeMap.item entry)) after :=
  ⟨fun _ given => ⟨entry, member, Option.some.inj given⟩, shrunk⟩

theorem left_subset {middle : IterMut K V} (front : middle.currentFrontIterator ⊆ iter.left)
    (inner : middle.inner ⊆ iter.inner) (back : middle.currentBackIterator ⊆ iter.left) : middle.left ⊆ iter.left := by
  refine List.append_subset.mpr ⟨front, List.append_subset.mpr ⟨fun entry member => ?_, back⟩⟩
  obtain ⟨node, there, held⟩ := List.mem_flatten.mp member
  exact List.mem_append_right _ (List.mem_append_left _ (List.mem_flatten.mpr ⟨node, inner there, held⟩))

theorem front_subset (iter : IterMut K V) : iter.currentFrontIterator ⊆ iter.left := List.subset_append_left _ _

theorem back_subset (iter : IterMut K V) : iter.currentBackIterator ⊆ iter.left :=
  List.Subset.trans (List.subset_append_right _ _) (List.subset_append_right _ _)

theorem node_subset {node : List (Pair K V)} (member : node ∈ iter.inner) : node ⊆ iter.left := fun _ held =>
  List.mem_append_right _ (List.mem_append_left _ (List.mem_flatten.mpr ⟨node, member, held⟩))

theorem nextWithin_draws {fuel : Nat} (drawn : nextWithin fuel iter = Option.some (result, after)) :
    Draws iter result after := by
  induction fuel generalizing iter with
  | zero => cases drawn
  | succ fuel ih =>
    rw [nextWithin] at drawn
    split at drawn
    next => cases drawn; exact Draws.none _
    next =>
      split at drawn
      next entry rest front =>
        cases drawn
        have whole : entry :: rest ⊆ iter.left := front ▸ iter.front_subset
        exact Draws.some (whole List.mem_cons_self) (left_subset (List.subset_of_cons_subset whole)
          (List.Subset.refl _) iter.back_subset)
      next front =>
        split at drawn
        next => cases drawn; exact Draws.none _
        next =>
          split at drawn
          next => cases drawn
          next =>
            split at drawn
            next =>
              split at drawn
              next entry rest back =>
                cases drawn
                have whole : entry :: rest ⊆ iter.left := back ▸ iter.back_subset
                exact Draws.some (whole List.mem_cons_self)
                  (left_subset iter.front_subset (List.Subset.refl _) (List.subset_of_cons_subset whole))
              next => cases drawn; exact Draws.none _
            next =>
              split at drawn
              next node inner nodes =>
                have opened : node :: inner ⊆ iter.inner := nodes ▸ List.Subset.refl _
                exact (ih drawn).of_shrunk (left_subset (node_subset (opened List.mem_cons_self))
                  (List.subset_of_cons_subset opened) iter.back_subset)
              next => exact (ih drawn).of_shrunk (left_subset iter.front_subset (List.Subset.refl _) iter.back_subset)

theorem takeFront_draws (drawn : takeFront iter = (result, after)) : Draws iter result after := by
  rw [takeFront] at drawn
  split at drawn
  next entry last =>
    cases drawn
    exact Draws.some (iter.front_subset (List.mem_of_getLast? last))
      (left_subset (List.Subset.trans (List.dropLast_subset _) iter.front_subset) (List.Subset.refl _) iter.back_subset)
  next => cases drawn; exact Draws.none _

theorem nextBackWithin_draws {fuel : Nat} (drawn : nextBackWithin fuel iter = Option.some (result, after)) :
    Draws iter result after := by
  induction fuel generalizing iter with
  | zero => cases drawn
  | succ fuel ih =>
    rw [nextBackWithin] at drawn
    split at drawn
    next => cases drawn; exact Draws.none _
    next =>
      split at drawn
      next entry last =>
        split at drawn
        next => cases drawn
        next =>
          cases drawn
          exact Draws.some (iter.back_subset (List.mem_of_getLast? last))
            (left_subset iter.front_subset (List.Subset.refl _)
              (List.Subset.trans (List.dropLast_subset _) iter.back_subset))
      next =>
        split at drawn
        next => cases drawn; exact Draws.none _
        next =>
          split at drawn
          next => exact takeFront_draws (Option.some.inj drawn)
          next =>
            split at drawn
            next => cases drawn
            next =>
              split at drawn
              next => exact takeFront_draws (Option.some.inj drawn)
              next =>
                split at drawn
                next node last =>
                  exact (ih drawn).of_shrunk (left_subset iter.front_subset (List.dropLast_subset _)
                    (node_subset (List.mem_of_getLast? last)))
                next => exact (ih drawn).of_shrunk (left_subset iter.front_subset (List.Subset.refl _) iter.back_subset)

theorem draw_draws {side : Deque.End} (drawn : draw side iter = Option.some (result, after)) :
    Draws iter result after := by
  cases side with
  | front => exact nextWithin_draws drawn
  | back => exact nextBackWithin_draws drawn

theorem drain_left {side : Deque.End} {fuel : Nat} {values : List (K × V)}
    (drained : Deque.drain draw side fuel iter = Option.some values)
    {value : K × V} (member : value ∈ values) : ∃ entry ∈ iter.left, BTreeMap.item entry = value := by
  induction fuel generalizing iter values with
  | zero => cases drained
  | succ fuel ih =>
    rw [Deque.drain] at drained
    split at drained
    next => cases drained
    next => cases drained; cases member
    next given after drawn =>
      obtain ⟨rest, more, rfl⟩ := Option.map_eq_some_iff.mp drained
      have draws := draw_draws drawn
      rcases List.mem_cons.mp member with rfl | later
      · exact draws.1 _ rfl
      · obtain ⟨entry, there, same⟩ := ih more later
        exact ⟨entry, draws.2 there, same⟩

end IterMut

namespace BTreeMap
variable [FenwickTree F] [LawfulFenwickTree F] [LinearOrder κ] [Keyed K κ] {map : BTreeMap F K V}

def selected (first last : Nat) (map : BTreeMap F K V) : List (K × V) := (map.set.selected first last).map item

/-- A mutable range is made without a panic, and gives the entries of the shared one from an end. -/
def RangeMutAgrees (side : Deque.End) (first last : Nat) (map : BTreeMap F K V) : Prop :=
  ∃ iter, map.rangeMutIdx (.included first) (.included last) = some iter ∧
    Deque.Gives IterMut.draw side iter (Deque.seen side (map.selected first last))

theorem rangeIdx_selected (valid : map.set.Valid) {first last : Nat} (ordered : first ≤ last)
    (inside : last < map.set.elements.length) : ∃ iter, map.rangeIdx (.included first) (.included last) = some iter ∧
      ∀ side, Deque.Gives draw side iter (Deque.seen side (map.selected first last)) := by
  obtain ⟨iter, made, ranges⟩ := BTreeSet.rangeIdx_spec valid first last
  refine ⟨iter, made, fun side => ?_⟩
  have seen : Deque.seen side (map.selected first last) = (Deque.seen side (map.set.selected first last)).map item := by
    cases side with
    | front => rfl
    | back => exact List.map_reverse.symm
  rw [seen, draw, Deque.gives_view item_injective]
  exact Iter.serves.gives (ranges.spans (Nat.le_succ_of_le ordered) inside) side

omit [FenwickTree F] [LawfulFenwickTree F] [LinearOrder κ] [Keyed K κ] in
private theorem getD_subset (nodes : List (List (Pair K V))) (index : Nat) : (nodes[index]?).getD [] ⊆ nodes.flatten := by
  intro entry member
  cases there : nodes[index]? with
  | none => simp [there] at member
  | some node =>
    rw [there, Option.getD_some] at member
    exact List.mem_flatten.mpr ⟨node, List.mem_of_getElem? there, member⟩

omit [LawfulFenwickTree F] in
/-- The parts that a mutable range draws from: what lies before its last entry, and the nodes after
the one that holds it. -/
private theorem rangeMutIdx_parts {first last fn fs bn bs : Nat} {iter : IterMut K V} {node : List (Pair K V)}
    (made : map.rangeMutIdx (.included first) (.included last) = some iter)
    (front : map.set.locateIth first = (fn, fs)) (back : map.set.locateIth last = (bn, bs))
    (there : map.set.inner[bn]? = some node)
    (inNode : bs ≤ node.length) :
    (iter.currentFrontIterator ⊆ (map.set.inner.take bn).flatten ∨ iter.currentFrontIterator ⊆ node.take bs) ∧
      iter.inner ⊆ map.set.inner.drop (bn + 1) ∧ iter.currentBackIterator ⊆ (map.set.inner.drop (bn + 1)).flatten := by
  simp only [rangeMutIdx, BTreeSet.resolveRange, front, back, there, nth, bind, Option.bind_some, pure] at made
  split at made
  next => cases made
  next before =>
    cases made
    refine ⟨?_, ?_, ?_⟩
    · simp only
      split
      next apart =>
        have within : fn < bn := by omega
        rw [← List.getElem?_take_of_lt within]
        exact Or.inl (List.Subset.trans (List.drop_subset _ _) (getD_subset _ _))
      next same =>
        obtain rfl : fn = bn := by omega
        have count : (node.drop fs).length - (node.length - bs) = bs - fs := by
          rw [List.length_drop]
          omega
        rw [there, Option.getD_some, count, ← List.drop_take]
        exact Or.inr (List.drop_subset _ _)
    · have onward : fn + 1 + (bn - fn + 1) = bn + 1 + 1 := by omega
      rw [List.drop_drop, onward, ← List.drop_drop]
      exact List.drop_subset _ _
    · -- counting from the node after the front, the offset of the back is one node too far
      have onward : fn + 1 + (bn - fn) = bn + 1 + 0 := by omega
      have opened : ((map.set.inner.drop (fn + 1))[bn - fn]?).getD [] ⊆ (map.set.inner.drop (bn + 1)).flatten := by
        rw [List.getElem?_drop, onward, ← List.getElem?_drop]
        exact getD_subset _ _
      simp only
      split
      next => exact List.Subset.trans (List.take_subset _ _) opened
      next => exact opened

private theorem rangeMutIdx_omits (valid : map.set.Valid) {first last : Nat} {iter : IterMut K V} {entry : Pair K V}
    (made : map.rangeMutIdx (.included first) (.included last) = some iter)
    (there : map.set.elements[last]? = some entry) :
    entry ∉ iter.left := by
  have inside : last < map.set.elements.length := (List.getElem?_eq_some_iff.mp there).1
  obtain ⟨before, low, target, high, after, opened, position, rank⟩ := BTreeSet.locateIth_spec valid inside
  have parts := opened.around_item
  obtain rfl : target = entry := by
    rw [parts, rank, ← List.length_append, List.getElem?_append_right le_rfl, Nat.sub_self] at there
    exact Option.some.inj there
  have unique := valid.sorted.nodup
  rw [parts, List.nodup_middle, List.nodup_cons] at unique
  have absent := unique.1
  obtain ⟨front, inner, back⟩ := rangeMutIdx_parts made rfl position opened.get (by simp)
  rw [opened.later] at inner back
  rw [opened.nodes, List.take_left, List.take_left] at front
  intro member
  apply absent
  simp only [List.mem_append]
  rcases List.mem_append.mp member with first | others
  · left
    exact front.imp (fun earlier => earlier first) fun here => here first
  · rcases List.mem_append.mp others with middle | last
    · obtain ⟨node, opened, held⟩ := List.mem_flatten.mp middle
      exact Or.inr (Or.inr (List.mem_flatten.mpr ⟨node, inner opened, held⟩))
    · exact Or.inr (Or.inr (back last))

/-- From neither end does a mutable range give the entries that the shared one does: it never
gives the last of them. -/
theorem rangeMutIdx_never_agrees (reached : Reached (.map map)) {first last : Nat} (ordered : first ≤ last)
    (inside : last < map.len) :
    (∃ iter, map.rangeIdx (.included first) (.included last) = some iter ∧
      ∀ side, Deque.Gives draw side iter (Deque.seen side (map.selected first last))) ∧
    ∀ side, ¬map.RangeMutAgrees side first last := by
  have valid : map.set.Valid := reached.sound
  have inside : last < map.set.elements.length := lt_of_lt_of_eq inside valid.counted
  refine ⟨rangeIdx_selected valid ordered inside, ?_⟩
  intro side given
  obtain ⟨iter, made, gives⟩ := given
  have there := List.getElem?_eq_getElem inside
  have wanted : item map.set.elements[last] ∈ Deque.seen side (map.selected first last) := by
    have member : map.set.elements[last] ∈ map.set.selected first last := by
      apply List.mem_of_getElem? (i := last - first)
      rw [BTreeSet.selected, List.getElem?_take_of_lt (by omega), List.getElem?_drop, Nat.add_sub_cancel' ordered, there]
    have listed : item map.set.elements[last] ∈ map.selected first last := List.mem_map_of_mem member
    cases side with
    | front => exact listed
    | back => exact List.mem_reverse.mpr listed
  obtain ⟨entry, held, same⟩ := IterMut.drain_left (gives _ (Nat.lt_succ_self _)) wanted
  rw [item_injective same] at held
  exact rangeMutIdx_omits valid made there held

/-- Three nodes, and a range over the last two of them. -/
theorem rangeMutIdx_never_agrees_three : ∃ map : BTreeMap (List Nat) Nat Nat, Reached (.map map) ∧
    map.set.inner = [[⟨1, 0⟩], [⟨2, 0⟩], [⟨3, 0⟩, ⟨4, 0⟩]] ∧ ∀ side, ¬map.RangeMutAgrees side 1 2 := by
  have reached : ∃ map : BTreeMap (List Nat) Nat Nat, Reached (.map map) ∧
      map = ⟨⟨[[⟨1, 0⟩], [⟨2, 0⟩], [⟨3, 0⟩, ⟨4, 0⟩]], [1, 1, 2], 2, 4⟩⟩ :=
    ⟨_, .insert (.insert (.insert (.insert (.withMaximumNodeSize (le_refl 2)) 1 0 rfl) 2 0 rfl) 3 0 rfl) 4 0 rfl, rfl⟩
  obtain ⟨_, reached, rfl⟩ := reached
  exact ⟨_, reached, rfl, (rangeMutIdx_never_agrees reached (by decide) (by decide)).2⟩

/-- Nor does a mutable range between keys give the entry that the shared one ends with. -/
theorem rangeMut_omits_last {Q : Type} [LinearOrder Q] {borrow : κ → Q} (reached : Reached (.map map)) {start last : Bound Q}
    {first final : Nat} (placed : map.rangeToIdx borrow start last = some (first, final)) {entry : Pair K V}
    (there : map.entries[final]? = some entry) {iter : IterMut K V} (made : map.rangeMut borrow start last = some iter)
    {side : Deque.End} {fuel : Nat} {values : List (K × V)} (drained : Deque.drain IterMut.draw side fuel iter = some values) :
    item entry ∉ values := by
  rw [rangeMut, placed] at made
  intro member
  obtain ⟨other, held, same⟩ := IterMut.drain_left drained member
  rw [item_injective same] at held
  exact rangeMutIdx_omits reached.sound made there held

/-- Both entries of a map are asked for, and only the first one is given. -/
theorem rangeMutIdx_misses_last : ∃ map : BTreeMap (List Nat) Nat Nat, ∃ iter, Reached (.map map) ∧
    map.entries = [⟨1, 0⟩, ⟨2, 0⟩] ∧ map.rangeMutIdx (.included 0) (.included 1) = some iter ∧
    Deque.drain IterMut.draw .front 3 iter = some [(1, 0)] ∧ Deque.drain IterMut.draw .back 3 iter = some [(1, 0)] ∧
    map.selected 0 1 = [(1, 0), (2, 0)] ∧ ¬map.RangeMutAgrees .front 0 1 := by
  have reached : ∃ map : BTreeMap (List Nat) Nat Nat, Reached (.map map) ∧ map = ⟨⟨[[⟨1, 0⟩, ⟨2, 0⟩]], [2], 2, 2⟩⟩ :=
    ⟨_, .insert (.insert (.withMaximumNodeSize (le_refl 2)) 1 0 rfl) 2 0 rfl, rfl⟩
  obtain ⟨_, reached, rfl⟩ := reached
  refine ⟨_, _, reached, rfl, rfl, by decide, by decide, rfl, ?_⟩
  intro given
  obtain ⟨iter, made, gives⟩ := given
  cases made
  exact absurd (gives 3 (by decide)) (by decide)

end BTreeMap
end WorkTablesIndex.Indexset
