import WorkTablesIndex.Indexset.IterMut
import WorkTablesIndex.Indexset.MapRefinement

/-! What mutable iteration visits. The back always gives the last entry that is left. The front
gives the first one, except that it stops where the index of its node is the number of nodes
that are still unopened. -/

namespace WorkTablesIndex.Indexset

variable {F K V κ : Type}

namespace IterMut

def left (iter : IterMut K V) : List (Pair K V) :=
  iter.currentFrontIterator ++ (iter.inner.flatten ++ iter.currentBackIterator)

/-- What holds between two calls. The second alternatives are those of a single node: the back
index stays at zero when the back takes the entry there. -/
structure Tracks (iter : IterMut K V) : Prop where
  filled : ∀ node ∈ iter.inner, node ≠ []
  between : iter.inner.length = iter.currentBackNodeIdx - iter.currentFrontNodeIdx - 1
  ordered : iter.currentFrontNodeIdx < iter.currentBackNodeIdx ∨
    iter.currentFrontNodeIdx = 0 ∧ iter.currentBackNodeIdx = 0 ∧ iter.currentBackIterator = []
  counted : iter.currentBackIdx + 1 = iter.currentFrontIdx + iter.left.length ∨
    iter.left = [] ∧ iter.currentFrontIdx = 0 ∧ iter.currentBackIdx = 0
  fresh : iter.currentFrontIdx = 0 → iter.currentFrontIterator = [] → iter.left = []

def Advances (iter after : IterMut K V) : Prop :=
  after.currentBackNodeIdx = iter.currentBackNodeIdx ∧ (iter.currentBackIterator = [] → after.currentBackIterator = []) ∧
    (after.currentFrontNodeIdx = iter.currentFrontNodeIdx ∧ after.inner = iter.inner ∧
        (after.currentBackIterator = iter.currentBackIterator ∨ iter.currentFrontIterator = [] ∧ iter.inner = []) ∨
      after.currentFrontNodeIdx = iter.currentFrontNodeIdx + 1 ∧ iter.currentFrontIterator = [] ∧
        ∃ node, iter.inner = node :: after.inner)

def Retreats (iter after : IterMut K V) : Prop :=
  after.currentFrontNodeIdx = iter.currentFrontNodeIdx ∧
    (after.currentBackNodeIdx = iter.currentBackNodeIdx ∧ after.inner = iter.inner ∧
        (iter.currentBackIterator = [] → after.currentBackIterator = []) ∨
      after.currentBackNodeIdx + 1 = iter.currentBackNodeIdx ∧ ∃ node, iter.inner = after.inner ++ [node] ∧
        after.currentBackIterator = node.dropLast)

variable {iter : IterMut K V} {entry : Pair K V} {rest : List (Pair K V)}

theorem Tracks.none_left (tracks : Tracks iter) (nothing : iter.left = []) :
    iter.currentFrontIterator = [] ∧ iter.inner = [] ∧ iter.currentBackIterator = [] := by
  obtain ⟨front, others⟩ := List.append_eq_nil_iff.mp nothing
  obtain ⟨middle, back⟩ := List.append_eq_nil_iff.mp others
  refine ⟨front, ?_, back⟩
  rw [List.eq_nil_iff_forall_not_mem]
  intro node member
  exact tracks.filled node member (List.flatten_eq_nil_iff.mp middle node member)

theorem Tracks.apart (tracks : Tracks iter) (more : iter.left ≠ []) :
    (iter.currentFrontIdx : Int) ≠ iter.currentBackIdx + 1 := by
  have some := List.length_pos_iff.mpr more
  rcases tracks.counted with counted | ⟨nothing, _⟩
  · omega
  · exact absurd nothing more

theorem nextWithin_front (apart : (iter.currentFrontIdx : Int) ≠ iter.currentBackIdx + 1)
    (front : iter.currentFrontIterator = entry :: rest) (fuel : Nat) :
    nextWithin (fuel + 1) iter = some (some (BTreeMap.item entry),
      { iter with currentFrontIdx := iter.currentFrontIdx + 1, currentFrontIterator := rest }) := by
  rw [nextWithin, if_neg apart, front]

theorem next_stops (apart : (iter.currentFrontIdx : Int) ≠ iter.currentBackIdx + 1)
    (front : iter.currentFrontIterator = [])
    (same : iter.currentFrontNodeIdx = iter.inner.length) : next iter = some (none, iter) := by
  rw [next, nextWithin, if_neg apart, front]
  simp only [if_pos same]

theorem next_opens (apart : (iter.currentFrontIdx : Int) ≠ iter.currentBackIdx + 1)
    (front : iter.currentFrontIterator = [])
    {inner : List (List (Pair K V))} (node : iter.inner = (entry :: rest) :: inner)
    (moves : iter.currentFrontNodeIdx ≠ iter.inner.length)
    (before : iter.currentFrontNodeIdx + 1 < iter.currentBackNodeIdx) :
    next iter = some (some (BTreeMap.item entry), { iter with
      inner, currentFrontNodeIdx := iter.currentFrontNodeIdx + 1, currentFrontIdx := iter.currentFrontIdx + 1,
      currentFrontIterator := rest }) := by
  obtain ⟨fuel, enough⟩ : ∃ fuel, iter.inner.length + iter.currentBackNodeIdx + 2 = fuel + 1 + 1 := ⟨_, rfl⟩
  rw [next, enough, nextWithin, if_neg apart, front]
  simp only [if_neg moves]
  rw [if_neg (by omega), if_neg (by omega), node]
  simp only [nextWithin, if_neg apart]

/-- The front has passed all nodes but the last one, which the back has open. -/
theorem next_borrows (apart : (iter.currentFrontIdx : Int) ≠ iter.currentBackIdx + 1)
    (front : iter.currentFrontIterator = [])
    (back : iter.currentBackIterator = entry :: rest) (moves : iter.currentFrontNodeIdx ≠ iter.inner.length)
    (adjacent : iter.currentFrontNodeIdx + 1 = iter.currentBackNodeIdx) :
    next iter = some (some (BTreeMap.item entry),
      { iter with currentFrontIdx := iter.currentFrontIdx + 1, currentBackIterator := rest }) := by
  rw [next, nextWithin, if_neg apart, front]
  simp only [if_neg moves]
  rw [if_neg (by omega), if_pos (by omega), back]

theorem Tracks.next_none (tracks : Tracks iter) (nothing : iter.left = []) : next iter = some (none, iter) := by
  obtain ⟨front, middle, back⟩ := tracks.none_left nothing
  have between := tracks.between
  rw [middle, List.length_nil] at between
  rw [next, nextWithin]
  split
  next => rfl
  next =>
    simp only [front, middle, List.length_nil, back]
    split
    next => rfl
    next later =>
      rcases tracks.ordered with before | ⟨first, _⟩
      · rw [if_neg (by omega), if_pos (by omega)]
      · exact absurd first later

theorem Tracks.given_front {after : IterMut K V} (tracks : Tracks iter) (parts : iter.left = entry :: after.left)
    (moved : after.currentFrontIdx = iter.currentFrontIdx + 1) (same : after.currentBackIdx = iter.currentBackIdx)
    (filled : ∀ node ∈ after.inner, node ≠ [])
    (between : after.inner.length = after.currentBackNodeIdx - after.currentFrontNodeIdx - 1)
    (ordered : after.currentFrontNodeIdx < after.currentBackNodeIdx ∨
      after.currentFrontNodeIdx = 0 ∧ after.currentBackNodeIdx = 0 ∧ after.currentBackIterator = []) : Tracks after := by
  refine ⟨filled, between, ordered, Or.inl ?_, fun first => ?_⟩
  · rcases tracks.counted with counted | ⟨nothing, _⟩
    · rw [parts, List.length_cons] at counted
      omega
    · exact absurd (parts.symm.trans nothing) (List.cons_ne_nil _ _)
  · omega

theorem Tracks.next_some (tracks : Tracks iter) (more : iter.left ≠ [])
    (moves : iter.currentFrontIterator = [] → iter.currentFrontNodeIdx ≠ iter.inner.length) :
    ∃ entry after, next iter = some (some (BTreeMap.item entry), after) ∧ iter.left = entry :: after.left ∧ Tracks after ∧
      Advances iter after := by
  have apart := tracks.apart more
  cases front : iter.currentFrontIterator with
  | cons entry rest =>
    have parts : iter.left = entry :: (rest ++ (iter.inner.flatten ++ iter.currentBackIterator)) := by
      rw [left, front]
      rfl
    exact ⟨entry, _, nextWithin_front apart front _, parts,
      tracks.given_front parts rfl rfl tracks.filled tracks.between tracks.ordered, rfl, id,
        Or.inl ⟨rfl, rfl, Or.inl rfl⟩⟩
  | nil =>
    have between := tracks.between
    rcases tracks.ordered with before | ⟨first, second, back⟩
    · cases middle : iter.inner with
      | nil =>
        cases back : iter.currentBackIterator with
        | nil => exact absurd (by rw [left, front, middle, back]; rfl) more
        | cons entry rest =>
          rw [middle, List.length_nil] at between
          have parts : iter.left = entry :: ([] ++ (iter.inner.flatten ++ rest)) := by
            rw [left, front, middle, back]
            rfl
          have drawn := next_borrows apart front back (moves front) (by omega)
          rw [front] at drawn
          exact ⟨entry, _, drawn, parts, tracks.given_front parts rfl rfl tracks.filled tracks.between (Or.inl before),
            rfl,
            fun empty => (List.cons_ne_nil _ _ (back.symm.trans empty)).elim, Or.inl ⟨rfl, rfl, Or.inr ⟨front, middle⟩⟩⟩
      | cons node inner =>
        have several : iter.inner.length = inner.length + 1 := by rw [middle, List.length_cons]
        obtain ⟨entry, rest, rfl⟩ := List.exists_cons_of_ne_nil
          (tracks.filled node (by rw [middle]; exact List.mem_cons_self))
        have parts : iter.left = entry :: (rest ++ (inner.flatten ++ iter.currentBackIterator)) := by
          rw [left, front, middle, List.flatten_cons]
          simp only [List.nil_append, List.cons_append, List.append_assoc]
        refine ⟨entry, _, next_opens apart front middle (moves front) (by omega), parts, ?_, rfl, id,
          Or.inr ⟨rfl, front, _, middle⟩⟩
        refine tracks.given_front parts rfl rfl (fun other member => tracks.filled other ?_) ?_ (Or.inl ?_)
        · rw [middle]
          exact List.mem_cons_of_mem _ member
        · simp only
          omega
        · simp only
          omega
    · have middle : iter.inner = [] := List.eq_nil_of_length_eq_zero (by omega)
      exact absurd (by rw [left, front, middle, back]; rfl) more

theorem nextBackWithin_back (apart : (iter.currentFrontIdx : Int) ≠ iter.currentBackIdx + 1)
    (back : iter.currentBackIterator = rest ++ [entry]) (positive : iter.currentBackIdx ≠ 0) (fuel : Nat) :
    nextBackWithin (fuel + 1) iter = some (some (BTreeMap.item entry),
      { iter with currentBackIdx := iter.currentBackIdx - 1, currentBackIterator := rest }) := by
  rw [nextBackWithin, if_neg apart, back, List.getLast?_concat]
  simp only [if_neg positive, List.dropLast_concat]

theorem nextBack_opens (apart : (iter.currentFrontIdx : Int) ≠ iter.currentBackIdx + 1)
    (back : iter.currentBackIterator = [])
    {inner : List (List (Pair K V))} (node : iter.inner = inner ++ [rest ++ [entry]]) (positive : iter.currentBackIdx ≠ 0)
    (before : iter.currentFrontNodeIdx + 1 < iter.currentBackNodeIdx) :
    nextBack iter = some (some (BTreeMap.item entry), { iter with
      inner, currentBackNodeIdx := iter.currentBackNodeIdx - 1, currentBackIdx := iter.currentBackIdx - 1,
      currentBackIterator := rest }) := by
  obtain ⟨fuel, enough⟩ : ∃ fuel, iter.currentBackNodeIdx + 1 = fuel + 1 + 1 := ⟨iter.currentBackNodeIdx - 1, by omega⟩
  rw [nextBack, enough, nextBackWithin, if_neg apart, back]
  simp only [List.getLast?_nil]
  rw [if_neg (by omega), if_neg (by omega), if_neg (by omega), if_neg (by omega), node, List.getLast?_concat]
  simp only [nextBackWithin, if_neg apart, List.dropLast_concat, List.getLast?_concat, if_neg positive]

/-- With no node between the ends, the back takes from the front. -/
theorem nextBack_takes (apart : (iter.currentFrontIdx : Int) ≠ iter.currentBackIdx + 1)
    (back : iter.currentBackIterator = [])
    (adjacent : iter.currentFrontNodeIdx + 1 = iter.currentBackNodeIdx ∨
      iter.currentFrontNodeIdx = 0 ∧ iter.currentBackNodeIdx = 0) : nextBack iter = some (takeFront iter) := by
  rw [nextBack, nextBackWithin, if_neg apart, back]
  simp only [List.getLast?_nil]
  rw [if_neg (by omega)]
  split
  next => rfl
  next => rw [if_neg (by omega), if_pos (by omega)]

theorem Tracks.nextBack_none (tracks : Tracks iter) (nothing : iter.left = []) : nextBack iter = some (none, iter) := by
  obtain ⟨front, middle, back⟩ := tracks.none_left nothing
  by_cases met : (iter.currentFrontIdx : Int) = iter.currentBackIdx + 1
  · rw [nextBack, nextBackWithin, if_pos met]
  · have between := tracks.between
    rw [middle, List.length_nil] at between
    have adjacent : iter.currentFrontNodeIdx + 1 = iter.currentBackNodeIdx ∨
        iter.currentFrontNodeIdx = 0 ∧ iter.currentBackNodeIdx = 0 := by
      rcases tracks.ordered with before | ⟨first, second, _⟩ <;> omega
    rw [nextBack_takes met back adjacent, takeFront, front]
    rfl

/-- The back index is above zero while the front of a map of several nodes has not been touched. -/
theorem Tracks.back_positive (tracks : Tracks iter) (more : iter.left ≠ [])
    (others : iter.inner.flatten ++ iter.currentBackIterator ≠ []) : iter.currentBackIdx ≠ 0 := by
  intro zero
  have counted := tracks.counted.resolve_right fun single => more single.1
  have length : iter.left.length =
      iter.currentFrontIterator.length + (iter.inner.flatten ++ iter.currentBackIterator).length :=
    List.length_append
  have some := List.length_pos_iff.mpr others
  have front : iter.currentFrontIterator = [] := List.eq_nil_of_length_eq_zero (by omega)
  exact more (tracks.fresh (by omega) front)

theorem Tracks.given_back {after : IterMut K V} (tracks : Tracks iter) (parts : iter.left = after.left ++ [entry])
    (moved : after.currentBackIdx = iter.currentBackIdx - 1) (same : after.currentFrontIdx = iter.currentFrontIdx)
    (front : after.currentFrontIterator = iter.currentFrontIterator) (filled : ∀ node ∈ after.inner, node ≠ [])
    (between : after.inner.length = after.currentBackNodeIdx - after.currentFrontNodeIdx - 1)
    (before : after.currentFrontNodeIdx < after.currentBackNodeIdx) : Tracks after := by
  have more : iter.left ≠ [] := by simp [parts]
  refine ⟨filled, between, Or.inl before, Or.inl ?_, fun first empty => ?_⟩
  · have counted := tracks.counted.resolve_right fun single => more single.1
    rw [parts, List.length_append, List.length_singleton] at counted
    omega
  · rw [same] at first
    rw [front] at empty
    exact absurd (tracks.fresh first empty) more

theorem Tracks.nextBack_some (tracks : Tracks iter) (more : iter.left ≠ []) :
    ∃ entry after, nextBack iter = some (some (BTreeMap.item entry), after) ∧ iter.left = after.left ++ [entry] ∧
      Tracks after ∧
      Retreats iter after := by
  have apart := tracks.apart more
  have between := tracks.between
  rcases List.eq_nil_or_concat iter.currentBackIterator with back | ⟨rest, entry, back⟩
  · rcases List.eq_nil_or_concat iter.inner with middle | ⟨inner, node, middle⟩
    · have whole : iter.left = iter.currentFrontIterator := by
        rw [left, middle, back]
        exact List.append_nil _
      rcases List.eq_nil_or_concat iter.currentFrontIterator with front | ⟨rest, entry, front⟩
      · exact absurd (whole.trans front) more
      rw [List.concat_eq_append] at front
      have counted := tracks.counted.resolve_right fun single => more single.1
      rw [whole, front, List.length_append, List.length_singleton] at counted
      rw [middle, List.length_nil] at between
      have adjacent : iter.currentFrontNodeIdx + 1 = iter.currentBackNodeIdx ∨
          iter.currentFrontNodeIdx = 0 ∧ iter.currentBackNodeIdx = 0 := by
        rcases tracks.ordered with before | ⟨first, second, _⟩ <;> omega
      have taken := nextBack_takes apart back adjacent
      rw [takeFront, front, List.getLast?_concat, List.dropLast_concat] at taken
      have remain (backIdx : Int) :
          left { iter with currentBackIdx := backIdx, currentFrontIterator := rest } = rest := by
        rw [left, middle, back]
        exact List.append_nil _
      refine ⟨entry, _, taken, ?_, ⟨tracks.filled, tracks.between, tracks.ordered, ?_, ?_⟩, rfl, Or.inl ⟨rfl, rfl, id⟩⟩
      · rw [remain, whole, front]
      · rw [remain]
        simp only
        split
        next => exact Or.inl (by omega)
        next zero => exact Or.inr ⟨List.eq_nil_of_length_eq_zero (by omega), by omega, not_not.mp zero⟩
      · intro _ empty
        rw [remain]
        exact empty
    · rw [List.concat_eq_append] at middle
      have several : iter.inner.length = inner.length + 1 := by rw [middle, List.length_append, List.length_singleton]
      rcases List.eq_nil_or_concat node with empty | ⟨rest, entry, rfl⟩
      · exact absurd empty (tracks.filled node (by simp [middle]))
      rw [List.concat_eq_append] at middle
      have parts : iter.left = (iter.currentFrontIterator ++ (inner.flatten ++ rest)) ++ [entry] := by
        rw [left, middle, back]
        simp only [List.flatten_append, List.flatten_singleton, List.append_nil, List.append_assoc]
      have positive := tracks.back_positive more (by simp [middle])
      refine ⟨entry, _, nextBack_opens apart back middle positive (by omega), parts, ?_, rfl,
        Or.inr ⟨?_, _, middle, List.dropLast_concat.symm⟩⟩
      · refine tracks.given_back parts rfl rfl rfl (fun other member => tracks.filled other ?_) ?_ ?_
        · rw [middle]
          exact List.mem_append_left _ member
        · simp only
          omega
        · simp only
          omega
      · exact Nat.sub_add_cancel (by omega)
  · rw [List.concat_eq_append] at back
    have parts : iter.left = (iter.currentFrontIterator ++ (iter.inner.flatten ++ rest)) ++ [entry] := by
      rw [left, back]
      simp only [List.append_assoc]
    have positive := tracks.back_positive more (by simp [back])
    have before := tracks.ordered.resolve_right fun single => by simp [single.2.2] at back
    refine ⟨entry, _, nextBackWithin_back apart back positive _, parts,
      tracks.given_back parts rfl rfl rfl tracks.filled tracks.between before, rfl, Or.inl ⟨rfl, rfl, ?_⟩⟩
    intro empty
    simp [empty] at back

/-- Some schedule of draws leads to a front that gives nothing although entries are left. -/
def Stuck (iter : IterMut K V) : Prop :=
  ∃ schedule results middle after, Deque.run draw schedule iter = some (results, middle) ∧
    schedule.length < iter.left.length ∧ draw .front middle = some (none, after)

theorem Stuck.later {side : Deque.End} {value : K × V} {after : IterMut K V}
    (drawn : draw side iter = some (some value, after))
    (fewer : iter.left.length = after.left.length + 1) (stuck : Stuck after) : Stuck iter := by
  obtain ⟨schedule, results, middle, final, ran, early, nothing⟩ := stuck
  refine ⟨side :: schedule, some value :: results, middle, final, ?_, ?_, nothing⟩
  · simp only [Deque.run, drawn, ran, Option.map_some]
  · rw [List.length_cons, fewer]
    omega

/-- Each node that the front opens raises its index and lowers the number of unopened nodes; from
an even distance the two meet before the last node. -/
theorem Tracks.stuck_even (tracks : Tracks iter) {rounds : Nat}
    (even : iter.inner.length = iter.currentFrontNodeIdx + 2 * rounds)
    (others : iter.inner.flatten ++ iter.currentBackIterator ≠ []) : Stuck iter := by
  generalize count : iter.left.length = remaining
  induction remaining generalizing iter rounds with
  | zero =>
    have nothing := List.eq_nil_of_length_eq_zero count
    exact absurd (List.append_eq_nil_iff.mp nothing).2 others
  | succ remaining ih =>
    have more : iter.left ≠ [] := by
      intro nothing
      simp [nothing] at count
    by_cases stops : iter.currentFrontIterator = [] ∧ iter.currentFrontNodeIdx = iter.inner.length
    · exact ⟨[], [], iter, iter, rfl, by rw [count]; exact Nat.succ_pos _, next_stops (tracks.apart more) stops.1 stops.2⟩
    · obtain ⟨entry, after, drawn, parts, tracked, sameBack, _, nodes⟩ :=
        tracks.next_some more fun front same => stops ⟨front, same⟩
      have length := congrArg List.length parts
      rw [List.length_cons] at length
      have drawn : draw .front iter = _ := drawn
      apply Stuck.later drawn length
      rcases nodes with ⟨sameFront, sameInner, kept | ⟨front, middle⟩⟩ | ⟨advanced, front, node, opened⟩
      · rw [← sameInner, ← sameFront] at even
        rw [← sameInner, ← kept] at others
        exact ih tracked even others (by omega)
      · rw [middle, List.length_nil] at even
        exact absurd ⟨front, by rw [middle, List.length_nil]; omega⟩ stops
      · rw [opened, List.length_cons] at even
        have apart : iter.currentFrontNodeIdx ≠ iter.inner.length := fun same => stops ⟨front, same⟩
        rw [opened, List.length_cons] at apart
        obtain ⟨rounds, rfl⟩ : ∃ fewer, rounds = fewer + 1 := ⟨rounds - 1, by omega⟩
        refine ih tracked (show _ = _ + 2 * rounds by omega) ?_ (by omega)
        obtain ⟨next, further⟩ := List.exists_mem_of_length_pos (show 0 < after.inner.length by omega)
        intro nothing
        exact tracked.filled next further (List.flatten_eq_nil_iff.mp (List.append_eq_nil_iff.mp nothing).1 next further)

/-- The back opens a node first, which makes an odd distance even. -/
theorem Tracks.stuck_odd (tracks : Tracks iter) {rounds : Nat} {inner : List (List (Pair K V))} {node : List (Pair K V)}
    (odd : inner.length = iter.currentFrontNodeIdx + 2 * rounds) (nodes : iter.inner = inner ++ [node])
    (others : inner.flatten ++ node.dropLast ≠ []) : Stuck iter := by
  generalize count : iter.left.length = remaining
  induction remaining generalizing iter with
  | zero =>
    have nothing := (tracks.none_left (List.eq_nil_of_length_eq_zero count)).2.1
    simp [nothing] at nodes
  | succ remaining ih =>
    have more : iter.left ≠ [] := by
      intro nothing
      simp [nothing] at count
    obtain ⟨entry, after, drawn, parts, tracked, sameFront, retreats⟩ := tracks.nextBack_some more
    have length := congrArg List.length parts
    rw [List.length_append, List.length_singleton] at length
    have drawn : draw .back iter = _ := drawn
    apply Stuck.later drawn length
    rcases retreats with ⟨_, sameInner, _⟩ | ⟨_, last, opened, rest⟩
    · exact ih tracked (by rw [sameFront]; exact odd) (sameInner.trans nodes) (by omega)
    · obtain ⟨rfl, same⟩ := List.append_inj' (nodes.symm.trans opened) rfl
      cases same
      rw [← rest] at others
      exact tracked.stuck_even (by rw [sameFront]; exact odd) others

/-- The states of a single node, or of three nodes with one entry in the middle one. -/
inductive Safe (iter : IterMut K V) : Prop where
  | single (only : iter.currentBackNodeIdx = 0)
  | untouched (entry : Pair K V) (front : iter.currentFrontNodeIdx = 0) (back : iter.currentBackNodeIdx = 2)
      (middle : iter.inner = [[entry]])
  | frontOpened (front : iter.currentFrontNodeIdx = 1) (back : iter.currentBackNodeIdx = 2)
  | backOpened (front : iter.currentFrontNodeIdx = 0) (back : iter.currentBackNodeIdx = 1)
      (taken : iter.currentBackIterator = [])

theorem Safe.moves (safe : Safe iter) (tracks : Tracks iter) (more : iter.left ≠ [])
    (front : iter.currentFrontIterator = []) :
    iter.currentFrontNodeIdx ≠ iter.inner.length := by
  have between := tracks.between
  intro stops
  -- with neither a middle nor a back there would be nothing left
  have alone (back : iter.currentBackIterator = []) (short : iter.inner.length = 0) : False :=
    more (by rw [left, front, back, List.eq_nil_of_length_eq_zero short]; rfl)
  cases safe with
  | single only =>
    rcases tracks.ordered with before | ⟨_, _, back⟩
    · omega
    · exact alone back (by omega)
  | untouched entry first last middle =>
    rw [middle, List.length_singleton] at stops
    omega
  | frontOpened first last => omega
  | backOpened first last taken => exact alone taken (by omega)

theorem Safe.advance (safe : Safe iter) {after : IterMut K V} (between : iter.inner.length =
    iter.currentBackNodeIdx - iter.currentFrontNodeIdx - 1) (advances : Advances iter after) : Safe after := by
  obtain ⟨sameBack, empty, nodes⟩ := advances
  cases safe with
  | single only => exact .single (sameBack.trans only)
  | untouched entry first last middle =>
    rcases nodes with ⟨sameFront, sameInner, _⟩ | ⟨advanced, _⟩
    · exact .untouched entry (sameFront.trans first) (sameBack.trans last) (sameInner.trans middle)
    · exact .frontOpened (by omega) (sameBack.trans last)
  | frontOpened first last =>
    rcases nodes with ⟨sameFront, _⟩ | ⟨_, _, node, opened⟩
    · exact .frontOpened (sameFront.trans first) (sameBack.trans last)
    · rw [opened, List.length_cons] at between
      omega
  | backOpened first last taken =>
    rcases nodes with ⟨sameFront, _⟩ | ⟨_, _, node, opened⟩
    · exact .backOpened (sameFront.trans first) (sameBack.trans last) (empty taken)
    · rw [opened, List.length_cons] at between
      omega

theorem Safe.retreat (safe : Safe iter) {after : IterMut K V} (between : iter.inner.length =
    iter.currentBackNodeIdx - iter.currentFrontNodeIdx - 1) (retreats : Retreats iter after) : Safe after := by
  obtain ⟨sameFront, ⟨sameBack, sameInner, empty⟩ | ⟨lower, node, opened, rest⟩⟩ := retreats
  · cases safe with
    | single only => exact .single (sameBack.trans only)
    | untouched entry first last middle =>
      exact .untouched entry (sameFront.trans first) (sameBack.trans last) (sameInner.trans middle)
    | frontOpened first last => exact .frontOpened (sameFront.trans first) (sameBack.trans last)
    | backOpened first last taken => exact .backOpened (sameFront.trans first) (sameBack.trans last) (empty taken)
  · cases safe with
    | untouched entry first last middle =>
      obtain ⟨_, same⟩ := List.append_inj' (opened.symm.trans (middle.trans (List.nil_append [[entry]]).symm)) rfl
      cases same
      exact .backOpened (sameFront.trans first) (by omega) rest
    | single | frontOpened | backOpened =>
      rw [opened, List.length_append, List.length_singleton] at between
      omega

theorem serves : Deque.Serves (draw : Deque.End → IterMut K V → _)
    fun iter values => Tracks iter ∧ Safe iter ∧ iter.left.map BTreeMap.item = values := by
  intro side iter _ given
  obtain ⟨tracks, safe, rfl⟩ := given
  by_cases more : iter.left = []
  · refine ⟨iter, ?_, tracks, safe, ?_⟩
    · cases side with
      | front => rw [draw, tracks.next_none more, more]; rfl
      | back => rw [draw, tracks.nextBack_none more, more]; rfl
    · rw [more]
      cases side <;> rfl
  cases side with
  | front =>
    obtain ⟨entry, after, drawn, parts, tracked, advances⟩ := tracks.next_some more (safe.moves tracks more)
    refine ⟨after, ?_, tracked, safe.advance tracks.between advances, ?_⟩
    · rw [draw, drawn, parts]
      rfl
    · rw [parts]
      rfl
  | back =>
    obtain ⟨entry, after, drawn, parts, tracked, retreats⟩ := tracks.nextBack_some more
    refine ⟨after, ?_, tracked, safe.retreat tracks.between retreats, ?_⟩
    · rw [draw, drawn, parts, Deque.take, List.map_append, List.map_singleton, List.getLast?_concat]
    · rw [parts, Deque.take, List.map_append, List.map_singleton, List.dropLast_concat]

end IterMut

namespace BTreeMap
variable [FenwickTree F] [LawfulFenwickTree F] [LinearOrder κ] [Keyed K κ] {map : BTreeMap F K V}

def Visits (map : BTreeMap F K V) : Prop :=
  ∃ iter, map.iterMut = some iter ∧ Deque.Delivers IterMut.draw iter (map.entries.map item)

def VisitsValues (map : BTreeMap F K V) : Prop :=
  ∃ iter, map.valuesMut = some iter ∧ Deque.Delivers IterMut.drawValue iter (map.entries.map Pair.value)

private theorem iterMut_single {node : List (Pair K V)} (valid : map.set.Valid) (nodes : map.set.inner = [node]) :
    ∃ iter, map.iterMut = some iter ∧ iter.Tracks ∧ iter.left = map.entries ∧ iter.currentBackNodeIdx = 0 := by
  have whole : map.entries = node := by rw [entries, BTreeSet.elements, nodes, List.flatten_singleton]
  have counted : map.set.len = map.entries.length := valid.counted
  simp only [iterMut, nodes]
  refine ⟨_, rfl, ⟨List.forall_mem_nil _, rfl, Or.inr ⟨rfl, rfl, rfl⟩, Or.inl ?_, fun _ empty => ?_⟩, ?_, rfl⟩
  · simp only [IterMut.left, List.flatten_nil, List.append_nil, counted, whole]
    omega
  · simp only [IterMut.left, List.flatten_nil, List.append_nil]
    exact empty
  · simp only [IterMut.left, List.flatten_nil, List.append_nil, whole]

private theorem iterMut_several {first last : List (Pair K V)} {middle : List (List (Pair K V))} (valid : map.set.Valid)
    (nodes : map.set.inner = first :: (middle ++ [last])) :
    ∃ iter, map.iterMut = some iter ∧ iter.Tracks ∧ iter.left = map.entries ∧ iter.inner = middle ∧
      iter.currentFrontNodeIdx = 0 ∧ iter.currentBackNodeIdx = middle.length + 1 ∧ iter.currentBackIterator = last := by
  have filled := valid.filled_of_several nodes (by simp)
  have counted : map.set.len = map.entries.length := valid.counted
  have whole : map.entries = first ++ (middle.flatten ++ last) := by
    rw [entries, BTreeSet.elements, nodes]
    simp only [List.flatten_cons, List.flatten_append, List.flatten_nil, List.append_nil]
  cases later : middle ++ [last] with
  | nil => simp at later
  | cons second others =>
    have inner : (second :: others).dropLast = middle := by rw [← later, List.dropLast_concat]
    have back : (second :: others).getLast?.getD [] = last := by rw [← later, List.getLast?_concat, Option.getD_some]
    have length : (second :: others).length = middle.length + 1 := by
      rw [← later, List.length_append, List.length_singleton]
    rw [later] at nodes
    simp only [iterMut, nodes, inner, back, length]
    refine ⟨_, rfl, ⟨?_, rfl, Or.inl (Nat.succ_pos _), Or.inl ?_, fun _ empty => ?_⟩, whole.symm, rfl, rfl, rfl, rfl⟩
    · intro node member
      apply filled node
      rw [nodes, ← later]
      exact List.mem_cons_of_mem _ (List.mem_append_left _ member)
    · simp only [IterMut.left, counted, whole]
      omega
    · exact absurd empty (filled first (by rw [nodes]; exact List.mem_cons_self))

/-- The maps whose nodes let no interleaving go wrong: one node, or three with one entry in the
middle one. -/
def EasyNodes (map : BTreeMap F K V) : Prop :=
  map.set.inner.length = 1 ∨ ∃ first entry last, map.set.inner = [first, [entry], last]

private theorem iterMut_safe (valid : map.set.Valid) (easy : map.EasyNodes) :
    ∃ iter, map.iterMut = some iter ∧ iter.Tracks ∧ iter.Safe ∧ iter.left = map.entries := by
  rcases easy with one | ⟨first, entry, last, nodes⟩
  · obtain ⟨node, nodes⟩ := List.length_eq_one_iff.mp one
    obtain ⟨iter, made, tracks, whole, only⟩ := iterMut_single valid nodes
    exact ⟨iter, made, tracks, .single only, whole⟩
  · have nodes : map.set.inner = first :: ([[entry]] ++ [last]) := nodes
    obtain ⟨iter, made, tracks, whole, middle, front, back, _⟩ := iterMut_several valid nodes
    exact ⟨iter, made, tracks, .untouched entry front back middle, whole⟩

private theorem iterMut_stuck (valid : map.set.Valid) (hard : ¬map.EasyNodes) :
    ∃ iter, map.iterMut = some iter ∧ iter.Stuck ∧ iter.left = map.entries := by
  obtain ⟨first, nodes, inner⟩ := List.exists_cons_of_ne_nil valid.nonempty
  rcases List.eq_nil_or_concat nodes with rfl | ⟨middle, last, rfl⟩
  · exact absurd (Or.inl (by rw [inner, List.length_singleton])) hard
  rw [List.concat_eq_append] at inner
  have filled := valid.filled_of_several inner (by simp)
  obtain ⟨iter, made, tracks, whole, rfl, front, back, rfl⟩ := iterMut_several valid inner
  refine ⟨iter, made, ?_, whole⟩
  rcases Nat.mod_two_eq_zero_or_one iter.inner.length with even | odd
  · apply tracks.stuck_even (show _ = _ + 2 * (iter.inner.length / 2) by omega)
    intro nothing
    exact filled _ (by simp [inner]) (List.append_eq_nil_iff.mp nothing).2
  · rcases List.eq_nil_or_concat iter.inner with none | ⟨earlier, node, parts⟩
    · rw [none, List.length_nil] at odd
      omega
    · rw [List.concat_eq_append] at parts
      have length : iter.inner.length = earlier.length + 1 := by rw [parts, List.length_append, List.length_singleton]
      refine tracks.stuck_odd (show _ = _ + 2 * (earlier.length / 2) by omega) parts fun nothing => hard (Or.inr ?_)
      obtain ⟨flat, short⟩ := List.append_eq_nil_iff.mp nothing
      have alone : earlier = [] := by
        rw [List.eq_nil_iff_forall_not_mem]
        intro other member
        exact filled other (by simp [inner, parts, member]) (List.flatten_eq_nil_iff.mp flat other member)
      obtain ⟨entry, rest, rfl⟩ := List.exists_cons_of_ne_nil (filled node (by simp [inner, parts]))
      cases rest with
      | nil => exact ⟨first, entry, _, by rw [inner, parts, alone]; rfl⟩
      | cons => cases short

/-- Mutable iteration over the entries, and over the values, is right in every order of calls
just for these maps. -/
theorem iterMut_visits_iff (reached : Reached (.map map)) :
    (map.Visits ↔ map.EasyNodes) ∧ (map.VisitsValues ↔ map.EasyNodes) := by
  have valid : map.set.Valid := reached.sound
  have values : map.entries.map Pair.value = (map.entries.map item).map Prod.snd := by
    rw [List.map_map]
    rfl
  by_cases easy : map.EasyNodes
  · obtain ⟨iter, made, tracks, safe, whole⟩ := iterMut_safe valid easy
    have delivers := IterMut.serves.delivers ⟨tracks, safe, congrArg (List.map item) whole⟩
    exact ⟨iff_of_true ⟨iter, made, delivers⟩ easy, iff_of_true ⟨iter, made, values ▸ delivers.view⟩ easy⟩
  · obtain ⟨iter, made, ⟨schedule, results, middle, after, ran, early, nothing⟩, whole⟩ := iterMut_stuck valid easy
    rw [whole] at early
    refine ⟨iff_of_false ?_ easy, iff_of_false ?_ easy⟩
    · intro given
      obtain ⟨other, same, delivers⟩ := given
      cases made.symm.trans same
      exact Deque.not_delivers ran (by rwa [List.length_map]) nothing delivers
    · intro given
      obtain ⟨other, same, delivers⟩ := given
      cases made.symm.trans same
      have ran : Deque.run IterMut.drawValue schedule iter = _ := (Deque.run_view schedule).trans (congrArg _ ran)
      have nothing : IterMut.drawValue .front middle = some (none, after) := by
        rw [IterMut.drawValue, Deque.view, nothing]
        rfl
      exact Deque.not_delivers ran (by rwa [List.length_map]) nothing delivers

/-- Three nodes with one entry in the middle one, and the same map without its first entry. -/
theorem iterMut_visits_iff_three : ∃ map after : BTreeMap (List Nat) Nat Nat, Reached (.map map) ∧ Reached (.map after) ∧
    map.set.inner = [[⟨1, 0⟩], [⟨2, 0⟩], [⟨3, 0⟩, ⟨4, 0⟩]] ∧ map.Visits ∧ map.VisitsValues ∧
    map.popFirst = some (some (1, 0), after) ∧ ¬after.Visits ∧ ¬after.VisitsValues := by
  have reached : ∃ map : BTreeMap (List Nat) Nat Nat, Reached (.map map) ∧
      map = ⟨⟨[[⟨1, 0⟩], [⟨2, 0⟩], [⟨3, 0⟩, ⟨4, 0⟩]], [1, 1, 2], 2, 4⟩⟩ :=
    ⟨_, .insert (.insert (.insert (.insert (.withMaximumNodeSize (le_refl 2)) 1 0 rfl) 2 0 rfl) 3 0 rfl) 4 0 rfl, rfl⟩
  obtain ⟨_, reached, rfl⟩ := reached
  have popped : Reached (.map _) := .popFirst reached rfl
  have easy := iterMut_visits_iff reached
  have hard := iterMut_visits_iff popped
  have nodes : EasyNodes (⟨⟨[[⟨1, 0⟩], [⟨2, 0⟩], [⟨3, 0⟩, ⟨4, 0⟩]], [1, 1, 2], 2, 4⟩⟩ : BTreeMap (List Nat) Nat Nat) :=
    Or.inr ⟨_, _, _, rfl⟩
  have others : ¬EasyNodes (⟨⟨[[⟨2, 0⟩], [⟨3, 0⟩, ⟨4, 0⟩]], [1, 2], 2, 3⟩⟩ : BTreeMap (List Nat) Nat Nat) := by
    simp [EasyNodes]
  exact ⟨_, _, reached, popped, rfl, easy.1.mpr nodes, easy.2.mpr nodes, rfl, mt hard.1.mp others, mt hard.2.mp others⟩

/-- The front of a map of two nodes stops after the first one. -/
theorem iterMut_stops_early : ∃ map : BTreeMap (List Nat) Nat Nat, ∃ iter, Reached (.map map) ∧
    map.set.inner = [[⟨1, 0⟩], [⟨2, 0⟩, ⟨3, 0⟩]] ∧ map.iterMut = some iter ∧
    Deque.drain IterMut.draw .front 2 iter = some [(1, 0)] ∧ ¬map.Visits := by
  have reached : ∃ map : BTreeMap (List Nat) Nat Nat, Reached (.map map) ∧
      map = ⟨⟨[[⟨1, 0⟩], [⟨2, 0⟩, ⟨3, 0⟩]], [1, 2], 2, 3⟩⟩ :=
    ⟨_, .insert (.insert (.insert (.withMaximumNodeSize (le_refl 2)) 1 0 rfl) 2 0 rfl) 3 0 rfl, rfl⟩
  obtain ⟨_, reached, rfl⟩ := reached
  refine ⟨_, _, reached, rfl, rfl, by decide, ?_⟩
  intro given
  obtain ⟨iter, made, delivers⟩ := given
  cases made
  obtain ⟨_, _, ran, partition⟩ := delivers [.front, .front]
  cases ran
  exact absurd ((partition.ends 1 none rfl).mp rfl) (by decide)

end BTreeMap
end WorkTablesIndex.Indexset
