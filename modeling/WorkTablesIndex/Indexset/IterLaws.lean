import WorkTablesIndex.Indexset.Iter
import WorkTablesIndex.Indexset.MapRefinement

/-! What the two ends of a shared iterator give. The front walks all elements from its position
on, the back all elements up to its position, and the two global positions cut both walks where
they meet. -/

namespace WorkTablesIndex.Indexset

variable {F α κ : Type}

namespace Iter

def ahead (iter : Iter F α) : List α :=
  iter.currentFrontIterator.getD [] ++ (iter.btree.inner.drop (iter.currentFrontNodeIdx + 1)).flatten

def behind (iter : Iter F α) : List α :=
  (iter.btree.inner.take iter.currentBackNodeIdx).flatten ++ iter.currentBackIterator.getD []

variable {iter : Iter F α} {value : α} {rest : List α}

private theorem nextWithin_ahead (iter : Iter F α) {fuel : Nat}
    (enough : iter.btree.inner.length ≤ fuel + (iter.currentFrontNodeIdx + 1))
    (apart : iter.currentFrontIdx ≠ iter.currentBackIdx) :
    (iter.ahead = [] → ∃ nodeIdx iterator,
      let after := { iter with currentFrontNodeIdx := nodeIdx, currentFrontIterator := iterator }
      nextWithin (fuel + 1) iter = some (none, after) ∧ after.ahead = []) ∧
    (∀ value rest, iter.ahead = value :: rest → ∃ nodeIdx iterator,
      let after := { iter with currentFrontNodeIdx := nodeIdx, currentFrontIdx := iter.currentFrontIdx + 1,
                               currentFrontIterator := iterator }
      nextWithin (fuel + 1) iter = some (some value, after) ∧ after.ahead = rest) := by
  rw [nextWithin, if_neg apart]
  cases here : iter.currentFrontIterator.getD [] with
  | cons first others =>
    simp only [ahead, here]
    refine ⟨?_, fun value rest parts => ?_⟩
    · intro given
      obtain ⟨⟩ := given
    · cases parts
      exact ⟨_, _, rfl, rfl⟩
  | nil =>
    simp only
    split
    next beyond =>
      have final : iter.btree.inner.drop (iter.currentFrontNodeIdx + 1) = [] := List.drop_of_length_le beyond
      have further : iter.btree.inner.drop (iter.currentFrontNodeIdx + 1 + 1) = [] :=
        List.drop_of_length_le (Nat.le_succ_of_le beyond)
      refine ⟨fun _ => ⟨_, iter.currentFrontIterator, rfl, ?_⟩, fun value rest parts => ?_⟩
      · simp only [ahead, here, further, List.flatten_nil, List.append_nil]
      · simp [ahead, here, final] at parts
    next within =>
      -- the front opens the next node and calls itself
      have there := List.getElem?_eq_getElem (not_le.mp within)
      have opened := List.drop_eq_getElem_cons (not_le.mp within)
      have same : iter.ahead = ahead { iter with
          currentFrontNodeIdx := iter.currentFrontNodeIdx + 1
          currentFrontIterator := some iter.btree.inner[iter.currentFrontNodeIdx + 1] } := by
        simp only [ahead, here, opened, List.flatten_cons, List.nil_append, Option.getD_some]
      rw [there, same]
      cases fuel with
      | zero => omega
      | succ fuel => exact nextWithin_ahead { iter with
          currentFrontNodeIdx := iter.currentFrontNodeIdx + 1
          currentFrontIterator := some iter.btree.inner[iter.currentFrontNodeIdx + 1] } (by simp only; omega) apart

theorem next_none (apart : iter.currentFrontIdx ≠ iter.currentBackIdx) (ended : iter.ahead = []) :
    ∃ nodeIdx iterator,
      let after := { iter with currentFrontNodeIdx := nodeIdx, currentFrontIterator := iterator }
      next iter = some (none, after) ∧ after.ahead = [] :=
  (nextWithin_ahead iter (by omega) apart).1 ended

theorem next_some (apart : iter.currentFrontIdx ≠ iter.currentBackIdx) (more : iter.ahead = value :: rest) :
    ∃ nodeIdx iterator,
      let after := { iter with currentFrontNodeIdx := nodeIdx, currentFrontIdx := iter.currentFrontIdx + 1,
                               currentFrontIterator := iterator }
      next iter = some (some value, after) ∧ after.ahead = rest :=
  (nextWithin_ahead iter (by omega) apart).2 value rest more

private theorem nextBackWithin_here {others : List α} (apart : iter.currentFrontIdx ≠ iter.currentBackIdx)
    (fits : iter.behind.length ≤ iter.currentBackIdx)
    (here : iter.currentBackIterator.getD [] = others ++ [value]) (fuel : Nat) :
    nextBackWithin (fuel + 1) iter = some (some value, { iter with
      currentBackIdx := iter.currentBackIdx - 1, currentBackIterator := some others }) := by
  have positive : iter.currentBackIdx ≠ 0 := by
    rw [behind, here, List.length_append, List.length_append, List.length_singleton] at fits
    omega
  rw [nextBackWithin, if_neg apart, here, List.getLast?_concat]
  simp only [if_neg positive, List.dropLast_concat]

private theorem nextBackWithin_behind (iter : Iter F α) {fuel : Nat} (enough : iter.currentBackNodeIdx ≤ fuel)
    (inside : iter.currentBackNodeIdx ≤ iter.btree.inner.length) (apart : iter.currentFrontIdx ≠ iter.currentBackIdx)
    (fits : iter.behind.length ≤ iter.currentBackIdx) :
    (iter.behind = [] → ∃ nodeIdx iterator,
      let after := { iter with currentBackNodeIdx := nodeIdx, currentBackIterator := iterator }
      nextBackWithin (fuel + 1) iter = some (none, after) ∧ after.behind = [] ∧ nodeIdx ≤ iter.currentBackNodeIdx) ∧
    (∀ rest value, iter.behind = rest ++ [value] → ∃ nodeIdx iterator,
      let after := { iter with currentBackNodeIdx := nodeIdx, currentBackIdx := iter.currentBackIdx - 1,
                               currentBackIterator := iterator }
      nextBackWithin (fuel + 1) iter = some (some value, after) ∧ after.behind = rest ∧
        nodeIdx ≤ iter.currentBackNodeIdx) := by
  rcases List.eq_nil_or_concat (iter.currentBackIterator.getD []) with here | ⟨others, last, here⟩
  · cases first : iter.currentBackNodeIdx with
    | zero =>
      have empty : iter.behind = [] := by rw [behind, first, here]; rfl
      rw [nextBackWithin, if_neg apart, here, empty]
      simp only [List.getLast?_nil, first, if_true]
      exact ⟨fun _ => ⟨0, iter.currentBackIterator, by rw [← first], by rw [behind, here]; rfl, le_rfl⟩,
        fun rest value parts => by simp at parts⟩
    | succ nodeIdx =>
      -- the back opens the node before and calls itself
      have within : nodeIdx < iter.btree.inner.length := by omega
      have there := List.getElem?_eq_getElem within
      have same : iter.behind = behind { iter with
          currentBackNodeIdx := nodeIdx, currentBackIterator := some iter.btree.inner[nodeIdx] } := by
        simp only [behind, here, first, List.append_nil, Option.getD_some]
        rw [List.take_succ_eq_append_getElem within, List.flatten_append, List.flatten_singleton]
      cases fuel with
      | zero => omega
      | succ fuel =>
        rw [nextBackWithin, if_neg apart, here]
        simp only [List.getLast?_nil, first, Nat.succ_ne_zero, if_false, Nat.add_sub_cancel, there, bind,
          Option.bind_some]
        rw [same] at fits ⊢
        have lower : nodeIdx ≤ fuel := by omega
        obtain ⟨ended, more⟩ := nextBackWithin_behind { iter with
          currentBackNodeIdx := nodeIdx
          currentBackIterator := some iter.btree.inner[nodeIdx] } lower within.le apart fits
        refine ⟨fun empty => ?_, fun rest value parts => ?_⟩
        · obtain ⟨opened, iterator, drawn, left, lower⟩ := ended empty
          exact ⟨opened, iterator, drawn, left, Nat.le_succ_of_le lower⟩
        · obtain ⟨opened, iterator, drawn, left, lower⟩ := more rest value parts
          exact ⟨opened, iterator, drawn, left, Nat.le_succ_of_le lower⟩
  · rw [List.concat_eq_append] at here
    rw [nextBackWithin_here apart fits here]
    simp only [behind, here, ← List.append_assoc]
    refine ⟨by simp, fun rest value parts => ?_⟩
    obtain ⟨rfl, same⟩ := List.append_inj' parts rfl
    cases same
    exact ⟨_, _, rfl, rfl, le_rfl⟩

theorem nextBack_none (inside : iter.currentBackNodeIdx ≤ iter.btree.inner.length)
    (apart : iter.currentFrontIdx ≠ iter.currentBackIdx) (ended : iter.behind = []) :
    ∃ nodeIdx iterator,
      let after := { iter with currentBackNodeIdx := nodeIdx, currentBackIterator := iterator }
      nextBack iter = some (none, after) ∧ after.behind = [] ∧ nodeIdx ≤ iter.currentBackNodeIdx :=
  (nextBackWithin_behind iter inside inside apart (by simp [ended])).1 ended

theorem nextBack_some (inside : iter.currentBackNodeIdx ≤ iter.btree.inner.length)
    (apart : iter.currentFrontIdx ≠ iter.currentBackIdx) (fits : iter.behind.length ≤ iter.currentBackIdx)
    (more : iter.behind = rest ++ [value]) :
    ∃ nodeIdx iterator,
      let after := { iter with currentBackNodeIdx := nodeIdx, currentBackIdx := iter.currentBackIdx - 1,
                               currentBackIterator := iterator }
      nextBack iter = some (some value, after) ∧ after.behind = rest ∧ nodeIdx ≤ iter.currentBackNodeIdx :=
  (nextBackWithin_behind iter inside inside apart fits).2 rest value more

/-- What is taken of a walk until the positions meet: all of it if the front has already passed
the back. -/
def cut (frontIdx backIdx : Nat) (walk : List α) : List α :=
  if frontIdx ≤ backIdx then walk.take (backIdx - frontIdx) else walk

private theorem cut_nil (frontIdx backIdx : Nat) : cut frontIdx backIdx ([] : List α) = [] := by
  unfold cut
  split <;> simp

private theorem cut_met (position : Nat) (walk : List α) : cut position position walk = [] := by simp [cut]

private theorem cut_cons {frontIdx backIdx frontAfter backAfter : Nat} (apart : frontIdx ≠ backIdx)
    (closer : frontAfter + backIdx = frontIdx + backAfter + 1) :
    cut frontIdx backIdx (value :: rest) = value :: cut frontAfter backAfter rest := by
  unfold cut
  by_cases ahead : frontIdx ≤ backIdx
  · obtain ⟨more, same⟩ : ∃ more, backIdx - frontIdx = more + 1 := ⟨backIdx - frontIdx - 1, by omega⟩
    rw [if_pos ahead, if_pos (by omega), same, List.take_succ_cons]
    congr 2
    omega
  · rw [if_neg ahead, if_neg (by omega)]

private theorem draw_met (side : Deque.End) (met : iter.currentFrontIdx = iter.currentBackIdx) :
    draw side iter = some (none, iter) := by
  cases side with
  | front => rw [draw, next, nextWithin, if_pos met]
  | back => rw [draw, nextBack, nextBackWithin, if_pos met]

theorem gives_front (iter : Iter F α) :
    Deque.Gives draw .front iter (cut iter.currentFrontIdx iter.currentBackIdx iter.ahead) := by
  generalize walk : iter.ahead = values
  induction values generalizing iter with
  | nil =>
    rw [cut_nil]
    by_cases met : iter.currentFrontIdx = iter.currentBackIdx
    · exact Deque.Gives.nil (draw_met .front met)
    · obtain ⟨_, _, drawn, _⟩ := next_none met walk
      exact Deque.Gives.nil drawn
  | cons value rest ih =>
    by_cases met : iter.currentFrontIdx = iter.currentBackIdx
    · rw [met, cut_met]
      exact Deque.Gives.nil (draw_met .front met)
    · obtain ⟨nodeIdx, iterator, drawn, left⟩ := next_some met walk
      have closer : iter.currentFrontIdx + 1 + iter.currentBackIdx = iter.currentFrontIdx + iter.currentBackIdx + 1 := by
        omega
      rw [cut_cons met closer]
      exact Deque.Gives.cons drawn (ih _ left)

theorem gives_back (iter : Iter F α) (inside : iter.currentBackNodeIdx ≤ iter.btree.inner.length)
    (fits : iter.behind.length ≤ iter.currentBackIdx) :
    Deque.Gives draw .back iter (cut iter.currentFrontIdx iter.currentBackIdx iter.behind.reverse) := by
  generalize walk : iter.behind.reverse = values
  induction values generalizing iter with
  | nil =>
    rw [cut_nil]
    by_cases met : iter.currentFrontIdx = iter.currentBackIdx
    · exact Deque.Gives.nil (draw_met .back met)
    · obtain ⟨_, _, drawn, _⟩ := nextBack_none inside met (List.reverse_eq_nil_iff.mp walk)
      exact Deque.Gives.nil drawn
  | cons value rest ih =>
    by_cases met : iter.currentFrontIdx = iter.currentBackIdx
    · rw [met, cut_met]
      exact Deque.Gives.nil (draw_met .back met)
    · have more : iter.behind = rest.reverse ++ [value] := by rw [← List.reverse_cons, ← walk, List.reverse_reverse]
      obtain ⟨nodeIdx, iterator, drawn, left, lower⟩ := nextBack_some inside met fits more
      have positive : rest.length + 1 ≤ iter.currentBackIdx := by
        rw [more, List.length_append, List.length_reverse] at fits
        exact fits
      have closer : iter.currentFrontIdx + iter.currentBackIdx =
          iter.currentFrontIdx + (iter.currentBackIdx - 1) + 1 := by omega
      rw [cut_cons met closer]
      apply Deque.Gives.cons drawn
      refine ih _ (lower.trans inside) ?_ (by rw [left, List.reverse_reverse])
      rw [left, List.length_reverse]
      simp only
      omega

/-- The next values of the front and of the back are one list. -/
structure Spans (iter : Iter F α) (values : List α) : Prop where
  inside : iter.currentBackNodeIdx ≤ iter.btree.inner.length
  counted : iter.currentBackIdx = iter.currentFrontIdx + values.length
  front : ∃ rest, iter.ahead = values ++ rest
  back : ∃ rest, iter.behind = rest ++ values
  fits : iter.behind.length ≤ iter.currentBackIdx

theorem serves : Deque.Serves (draw : Deque.End → Iter F α → _) Spans := by
  intro side iter values spans
  obtain ⟨inside, counted, ⟨later, front⟩, ⟨earlier, back⟩, fits⟩ := spans
  rcases List.eq_nil_or_concat values with rfl | ⟨others, last, parts⟩
  · refine ⟨iter, ?_, inside, ?_, ⟨later, ?_⟩, ⟨earlier, ?_⟩, fits⟩
    · rw [draw_met side counted.symm]
      cases side <;> rfl
    all_goals cases side <;> assumption
  have apart : iter.currentFrontIdx ≠ iter.currentBackIdx := by
    rw [parts, List.length_concat] at counted
    omega
  cases side with
  | front =>
    cases values with
    | nil => simp at parts
    | cons value values =>
      obtain ⟨nodeIdx, iterator, drawn, left⟩ := next_some apart front
      refine ⟨_, drawn, inside, ?_, ⟨later, left⟩, ⟨earlier ++ [value], ?_⟩, fits⟩
      · simp only [counted, List.length_cons, Deque.take, List.tail_cons]
        omega
      · exact back.trans (by simp [Deque.take])
  | back =>
    subst parts
    rw [List.concat_eq_append] at counted front back ⊢
    rw [← List.append_assoc] at back
    obtain ⟨nodeIdx, iterator, drawn, left, lower⟩ := nextBack_some inside apart fits back
    have length := fits
    rw [back, List.length_append, List.length_singleton] at length
    have same : Deque.take .back (others ++ [last]) = (some last, others) := by simp [Deque.take]
    rw [same]
    refine ⟨_, drawn, lower.trans inside, ?_, ⟨last :: later, ?_⟩, ⟨earlier, left⟩, ?_⟩
    · simp only [counted, List.length_append, List.length_singleton]
      omega
    · exact front.trans (by simp)
    · rw [left]
      simp only
      omega

/-- Neither end has anything to give, although the positions have not met. -/
structure Idle (iter : Iter F α) (values : List α) : Prop where
  none : values = []
  inside : iter.currentBackNodeIdx ≤ iter.btree.inner.length
  apart : iter.currentFrontIdx ≠ iter.currentBackIdx
  front : iter.ahead = []
  back : iter.behind = []

theorem serves_idle : Deque.Serves (draw : Deque.End → Iter F α → _) Idle := by
  intro side iter values idle
  obtain ⟨rfl, inside, apart, front, back⟩ := idle
  cases side with
  | front =>
    obtain ⟨nodeIdx, iterator, drawn, left⟩ := next_none apart front
    exact ⟨_, drawn, rfl, inside, apart, left, back⟩
  | back =>
    obtain ⟨nodeIdx, iterator, drawn, left, lower⟩ := nextBack_none inside apart back
    exact ⟨_, drawn, rfl, lower.trans inside, apart, front, left⟩

end Iter

namespace BTreeSet
variable [FenwickTree F] [LawfulFenwickTree F] [LinearOrder κ] [Keyed α κ] {set : BTreeSet F α}

omit [LinearOrder κ] [Keyed α κ] in
theorem iter_spans (consistent : Consistent set) : ∃ iter, set.iter = some iter ∧ iter.Spans set.elements := by
  have positive := List.length_pos_iff.mpr consistent.nonempty
  have last : set.inner.length - 1 < set.inner.length := by omega
  have first : set.elements = set.inner[0] ++ (set.inner.drop 1).flatten := by
    rw [elements, ← List.flatten_cons, ← List.drop_eq_getElem_cons positive, List.drop_zero]
  have final : set.elements = (set.inner.take (set.inner.length - 1)).flatten ++ set.inner[set.inner.length - 1] := by
    rw [← List.flatten_concat, ← List.take_succ_eq_append_getElem last, Nat.sub_add_cancel positive, List.take_length]
    rfl
  have whole : set.elements.length ≤ set.len := consistent.counted.ge
  simp only [iter, Iter.new, List.getElem?_eq_getElem positive, List.getElem?_eq_getElem last, bind, Option.bind_some,
    pure]
  refine ⟨_, rfl, last.le, ?_, ⟨[], ?_⟩, ⟨[], final.symm⟩, ?_⟩
  · simp only [consistent.counted, Nat.zero_add]
  · rw [List.append_nil]
    exact first.symm
  · rwa [final] at whole

/-- A range from one position to another: where its ends start, and what lies before them. -/
structure Ranges (set : BTreeSet F α) (front back : Nat) (iter : Iter F α) : Prop where
  ahead : iter.ahead = set.elements.drop front
  behind : iter.behind = set.elements.take (back + 1)
  frontIdx : iter.currentFrontIdx = front
  backIdx : iter.currentBackIdx = back + 1
  inside : iter.currentBackNodeIdx ≤ iter.btree.inner.length

omit [LinearOrder κ] [Keyed α κ] in
private theorem frontIter_within (consistent : Consistent set) {idx : Nat} (inside : idx ≤ set.elements.length) :
    ∃ iterator, frontIter (locateIth idx set).1 (locateIth idx set).2 set = some iterator ∧
      iterator.getD [] ++ (set.inner.drop ((locateIth idx set).1 + 1)).flatten = set.elements.drop idx := by
  rcases locateIth_opens consistent inside with ⟨before, low, high, after, opened, position, rank, _⟩ | ⟨position, ends, _⟩
  · refine ⟨some high, ?_, ?_⟩
    · rw [position, frontIter, opened.get]
      simp only [List.length_append, Nat.le_add_right, if_true, List.drop_left]
    · rw [position, opened.later, opened.elements, rank, ← List.drop_drop, List.drop_left, List.append_assoc, List.drop_left]
      rfl
  · refine ⟨none, ?_, ?_⟩
    · rw [position, frontIter, List.getElem?_eq_none le_rfl]
    · rw [position, List.drop_of_length_le (Nat.le_succ _), List.drop_of_length_le ends.ge]
      rfl

private theorem frontIter_spec (valid : Valid set) (idx : Nat) : ∃ iterator,
    frontIter (locateIth idx set).1 (locateIth idx set).2 set = some iterator ∧
      iterator.getD [] ++ (set.inner.drop ((locateIth idx set).1 + 1)).flatten = set.elements.drop idx := by
  rcases le_total idx set.elements.length with within | beyond
  · exact frontIter_within valid.consistent within
  · refine ⟨none, ?_, ?_⟩
    · rw [locateIth_beyond valid beyond, frontIter, List.getElem?_eq_none le_rfl]
    · rw [locateIth_beyond valid beyond, List.drop_of_length_le (Nat.le_succ _), List.drop_of_length_le beyond]
      rfl

omit [LinearOrder κ] [Keyed α κ] in
/-- The back takes the element at its position, which a gap does not have. -/
private theorem backIter_gap (consistent : Consistent set) {idx : Nat} (inside : idx ≤ set.elements.length)
    (gap : GapAt idx set.inner) : backIter (locateIth idx set).1 (locateIth idx set).2 set = none := by
  rcases locateIth_opens consistent inside with ⟨before, low, high, after, opened, position, _, same⟩ | ⟨_, _, none⟩
  · obtain rfl := same.mpr gap
    rw [List.append_nil] at opened
    rw [position, backIter, opened.get]
    exact if_neg (lt_irrefl _)
  · exact absurd gap none

omit [LinearOrder κ] [Keyed α κ] in
private theorem backIter_within (consistent : Consistent set) {idx : Nat} (inside : idx ≤ set.elements.length)
    (whole : ¬GapAt idx set.inner) : ∃ iterator,
    backIter (locateIth idx set).1 (locateIth idx set).2 set = some iterator ∧
      (set.inner.take (locateIth idx set).1).flatten ++ iterator.getD [] = set.elements.take (idx + 1) ∧
      (locateIth idx set).1 ≤ set.inner.length := by
  rcases locateIth_opens consistent inside with ⟨before, low, high, after, opened, position, rank, gap⟩ | ⟨position, ends, _⟩
  · cases high with
    | nil => exact absurd (gap.mp rfl) whole
    | cons item high =>
      have upTo : (low ++ item :: high).take (low.length + 1) = low ++ [item] := by
        rw [List.take_length_add_append, List.take_succ_cons, List.take_zero]
      refine ⟨some (low ++ [item]), ?_, ?_, ?_⟩
      · rw [position, backIter, opened.get]
        simp only [List.length_append, List.length_cons, upTo]
        rw [if_pos (by omega)]
      · rw [position, opened.elements, opened.nodes, List.take_left, rank, Nat.add_assoc, List.take_length_add_append,
          List.append_assoc, List.take_length_add_append, List.cons_append, List.take_succ_cons, List.take_zero]
        rfl
      · rw [position, opened.nodes, List.length_append]
        exact Nat.le_add_right _ _
  · refine ⟨none, ?_, ?_, ?_⟩
    · rw [position, backIter, List.getElem?_eq_none le_rfl]
    · rw [position, List.take_length, List.take_of_length_le (Nat.le_succ_of_le ends.ge)]
      exact List.append_nil _
    · rw [position]

private theorem backIter_spec (valid : Valid set) (idx : Nat) : ∃ iterator,
    backIter (locateIth idx set).1 (locateIth idx set).2 set = some iterator ∧
      (set.inner.take (locateIth idx set).1).flatten ++ iterator.getD [] = set.elements.take (idx + 1) ∧
      (locateIth idx set).1 ≤ set.inner.length := by
  rcases le_total idx set.elements.length with within | beyond
  · exact backIter_within valid.consistent within (valid.not_gapAt idx)
  · refine ⟨none, ?_, ?_, ?_⟩
    · rw [locateIth_beyond valid beyond, backIter, List.getElem?_eq_none le_rfl]
    · rw [locateIth_beyond valid beyond, List.take_length, List.take_of_length_le (Nat.le_succ_of_le beyond)]
      exact List.append_nil _
    · rw [locateIth_beyond valid beyond]

theorem rangeIdx_spec (valid : Valid set) (front back : Nat) :
    ∃ iter, set.rangeIdx (.included front) (.included back) = some iter ∧ Ranges set front back iter := by
  obtain ⟨first, opened, ahead⟩ := frontIter_spec valid front
  obtain ⟨last, closed, behind, inside⟩ := backIter_spec valid back
  simp only [rangeIdx, resolveRange, bind, Option.bind_some, pure, opened, closed]
  exact ⟨_, rfl, ahead, behind, rfl, rfl, inside⟩

omit [LinearOrder κ] [Keyed α κ] in
/-- Positions of stored elements, or the one behind them, whatever the nodes hold. -/
theorem rangeIdx_within (consistent : Consistent set) {front back : Nat} (starts : front ≤ set.elements.length)
    (ends : back ≤ set.elements.length) :
    (GapAt back set.inner → set.rangeIdx (.included front) (.included back) = none) ∧
    (¬GapAt back set.inner → ∃ iter, set.rangeIdx (.included front) (.included back) = some iter ∧
      Ranges set front back iter) := by
  obtain ⟨first, opened, ahead⟩ := frontIter_within consistent starts
  simp only [rangeIdx, resolveRange, bind, Option.bind_some, pure, opened]
  constructor
  · intro gap
    rw [backIter_gap consistent ends gap, Option.bind_none]
  · intro whole
    obtain ⟨last, closed, behind, inside⟩ := backIter_within consistent ends whole
    rw [closed]
    exact ⟨_, rfl, ahead, behind, rfl, rfl, inside⟩

def selected (first last : Nat) (set : BTreeSet F α) : List α := (set.elements.drop first).take (last + 1 - first)

omit [FenwickTree F] [LawfulFenwickTree F] in
theorem Ranges.spans {first last : Nat} {iter : Iter F α} (ranges : Ranges set first last iter)
    (ordered : first ≤ last + 1) (within : last < set.elements.length) : iter.Spans (set.selected first last) := by
  have length : (set.selected first last).length = last + 1 - first := by
    rw [selected, List.length_take, List.length_drop]
    omega
  refine ⟨ranges.inside, ?_, ⟨set.elements.drop (last + 1), ?_⟩, ⟨set.elements.take first, ?_⟩, ?_⟩
  · rw [ranges.backIdx, ranges.frontIdx, length]
    omega
  · rw [ranges.ahead, selected]
    calc set.elements.drop first
        = (set.elements.drop first).take (last + 1 - first) ++ (set.elements.drop first).drop (last + 1 - first) :=
          (List.take_append_drop _ _).symm
      _ = _ := by rw [List.drop_drop, Nat.add_sub_cancel' ordered]
  · rw [ranges.behind, selected]
    calc set.elements.take (last + 1)
        = set.elements.take (first + (last + 1 - first)) := by rw [Nat.add_sub_cancel' ordered]
      _ = _ := List.take_add
  · rw [ranges.behind, ranges.backIdx]
    exact List.length_take_le _ _

/-- Every interleaving of `next` and `next_back` shares the selected elements between the ends. -/
theorem shared_iteration_partitions (reached : Reachable set) : Node.Sorted set.elements ∧
    (∃ iter, set.iter = some iter ∧ Deque.Delivers Iter.draw iter set.elements) ∧
    ∀ first last, first ≤ last → last < set.len → ∃ iter, set.rangeIdx (.included first) (.included last) = some iter ∧
      Deque.Delivers Iter.draw iter (set.selected first last) := by
  have valid := reached.valid
  refine ⟨valid.sorted, ?_, ?_⟩
  · obtain ⟨iter, made, spans⟩ := iter_spans valid.consistent
    exact ⟨iter, made, Iter.serves.delivers spans⟩
  · intro first last ordered within
    obtain ⟨iter, made, ranges⟩ := rangeIdx_spec valid first last
    rw [valid.counted] at within
    exact ⟨iter, made, Iter.serves.delivers (ranges.spans (Nat.le_succ_of_le ordered) within)⟩

/-- Three nodes, and a range that starts in the middle of one and ends with another. -/
theorem shared_iteration_partitions_three :
    ∃ set : BTreeSet (List Nat) Nat, Reachable set ∧ set.inner = [[1], [2, 3], [4]] ∧
    ∃ iter, set.rangeIdx (.included 2) (.included 3) = some iter ∧ Deque.Delivers Iter.draw iter [3, 4] := by
  have reached : ∃ set : BTreeSet (List Nat) Nat, Reachable set ∧ set = ⟨[[1], [2, 3], [4]], [1, 2, 1], 2, 4⟩ :=
    ⟨_, .insert (.insert (.insert (.insert (.withMaximumNodeSize (le_refl 2)) 1 rfl) 3 rfl) 4 rfl) 2 rfl, rfl⟩
  obtain ⟨_, reached, rfl⟩ := reached
  exact ⟨_, reached, rfl, (shared_iteration_partitions reached).2.2 2 3 (by decide) (by decide)⟩

end BTreeSet
end WorkTablesIndex.Indexset
