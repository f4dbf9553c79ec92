import WorkTablesIndex.IterLaws
import WorkTablesIndex.Landing
import WorkTablesIndex.Range

/-! The end of a scan. A call that finds no node left returns `None` and leaves no trace of it, so a later
call returns `None` only while the values between the cursors are all in the exhausted node, which is
passed over. -/

universe u v w

namespace WorkTablesIndex
open SortedMap

variable {α : Type u} {κ : Type v} [LinearOrder κ] [Keyed α κ]

def Direction.Steady (direction : Direction α) : Prop :=
  0 < direction.limit ∧ (direction.cursor = none → direction.batch = none ∧ direction.drawn = none)

namespace Iter
variable {set : BTreeSet α κ} {iter after : Iter α} {result : Option α} {layout later : Layout α κ}

/-- What a call leaves of its direction, where `chosen` is the node it would read next. -/
structure Leaves (r : κ → κ → Prop) (before after : Direction α) (chosen : Option (κ × NodeId)) (met : Bool)
    (result : Option α) : Prop where
  further : ∀ wanted, Past r after.cursor wanted → Past r before.cursor wanted
  steady : before.Steady → met = true ∨ after.Steady
  ended : result = none → met = true ∨ after.batch = none ∧ chosen = none

omit [LinearOrder κ] in
private theorem Leaves.reframed {r : κ → κ → Prop} {before middle after : Direction α} {chosen : Option (κ × NodeId)} {met : Bool}
    (leaves : Leaves r middle after chosen met result) (cursor : middle.cursor = before.cursor)
    (steadily : before.Steady → middle.Steady) : Leaves r before after chosen met result where
  further wanted past last there := leaves.further wanted past last (cursor.trans there)
  steady before := leaves.steady (steadily before)
  ended := leaves.ended

theorem Nexts.leaves (nexts : Nexts set iter result after) : after.backward = iter.backward ∧
    (iter.met = true → after.met = true) ∧
    Leaves (· < ·) iter.forward after.forward (after.frontEntry set.index.index) after.met result := by
  induction nexts with
  | met met => exact ⟨rfl, id, fun _ past => past, fun _ => Or.inl met, fun _ => Or.inl met⟩
  | ended unmet ended => exact ⟨rfl, id, fun _ past => past, Or.inr, fun _ => Or.inr (frontBatch_none ended)⟩
  | empty unmet ready _ ih =>
    obtain ⟨frame, _, cursor, _, grown⟩ := frontBatch_frame ready
    obtain ⟨kept, _, leaves⟩ := ih
    refine ⟨kept.trans frame, fun met => (by cases unmet.symm.trans met), leaves.reframed cursor ?_⟩
    intro before
    obtain ⟨limit, fresh⟩ := grown before.1
    exact ⟨limit, fun missing => ⟨rfl, fresh rfl (before.2 (cursor.symm.trans missing)).2⟩⟩
  | skipped unmet ready behind _ ih =>
    obtain ⟨frame, _, cursor, _, grown⟩ := frontBatch_frame ready
    obtain ⟨kept, _, leaves⟩ := ih
    refine ⟨kept.trans frame, fun met => (by cases unmet.symm.trans met), leaves.reframed cursor ?_⟩
    intro before
    refine ⟨(grown before.1).1, fun missing => absurd (fun last there => ?_) behind⟩
    cases missing.symm.trans there
  | crossed unmet ready past reached =>
    obtain ⟨frame, _, cursor, _⟩ := frontBatch_frame ready
    exact ⟨frame, fun _ => rfl, fun wanted past last there => past last (cursor.trans there), fun _ => Or.inl rfl, fun _ => Or.inl rfl⟩
  | @yields _ later value _ unmet ready past short =>
    obtain ⟨frame, _, cursor, _, grown⟩ := frontBatch_frame ready
    refine ⟨frame, fun met => (by cases unmet.symm.trans met), fun wanted beyond last there => ?_,
      fun before => Or.inr ⟨(grown before.1).1, fun missing => (by cases missing)⟩,
      fun missing => (by cases missing)⟩
    exact (past last (cursor.trans there)).trans (beyond value rfl)

theorem NextBacks.leaves (nexts : NextBacks set iter result after) : after.forward = iter.forward ∧
    (iter.met = true → after.met = true) ∧
    Leaves (· > ·) iter.backward after.backward (after.backEntry set.index.index) after.met result := by
  induction nexts with
  | met met => exact ⟨rfl, id, fun _ past => past, fun _ => Or.inl met, fun _ => Or.inl met⟩
  | ended unmet ended =>
    obtain ⟨idle, found⟩ := backBatch_none ended
    exact ⟨rfl, id, fun _ past => past, Or.inr, fun _ => Or.inr ⟨Option.map_eq_none_iff.mpr idle, found⟩⟩
  | empty unmet ready _ ih =>
    obtain ⟨frame, _, cursor, _, grown⟩ := backBatch_frame ready
    obtain ⟨kept, _, leaves⟩ := ih
    refine ⟨kept.trans frame, fun met => (by cases unmet.symm.trans met), leaves.reframed cursor ?_⟩
    intro before
    obtain ⟨limit, fresh⟩ := grown before.1
    exact ⟨limit, fun missing => ⟨rfl, fresh rfl (before.2 (cursor.symm.trans missing)).2⟩⟩
  | skipped unmet ready behind _ ih =>
    obtain ⟨frame, _, cursor, _, grown⟩ := backBatch_frame ready
    obtain ⟨kept, _, leaves⟩ := ih
    refine ⟨kept.trans frame, fun met => (by cases unmet.symm.trans met), leaves.reframed cursor ?_⟩
    intro before
    refine ⟨(grown before.1).1, fun missing => absurd (fun last there => ?_) behind⟩
    cases missing.symm.trans there
  | crossed unmet ready past reached =>
    obtain ⟨frame, _, cursor, _⟩ := backBatch_frame ready
    exact ⟨frame, fun _ => rfl, fun wanted past last there => past last (cursor.trans there), fun _ => Or.inl rfl, fun _ => Or.inl rfl⟩
  | @yields _ later value _ unmet ready past short =>
    obtain ⟨frame, _, cursor, _, grown⟩ := backBatch_frame ready
    refine ⟨frame, fun met => (by cases unmet.symm.trans met), fun wanted beyond last there => ?_,
      fun before => Or.inr ⟨(grown before.1).1, fun missing => (by cases missing)⟩,
      fun missing => (by cases missing)⟩
    exact lt_trans (beyond value rfl) (past last (cursor.trans there))

def Open (iter : Iter α) (wanted : κ) : Prop := Past (· < ·) iter.currentFrontValue wanted ∧ Past (· > ·) iter.currentBackValue wanted

/-- What the front could still yield is in the node it has exhausted. -/
def FrontHidden (layout : Layout α κ) (iter : Iter α) : Prop :=
  ∀ entry node, (entry, node) ∈ layout.index → ∀ item ∈ layout.heap.cells node, iter.Open (key item) →
    iter.exhaustedFrontNode = some node

/-- What the back could still yield is in the node it has exhausted, and the back cursor leads to that node. -/
def BackHidden (layout : Layout α κ) (iter : Iter α) : Prop :=
  ∀ entry node, (entry, node) ∈ layout.index → ∀ item ∈ layout.heap.cells node, iter.Open (key item) →
    iter.exhaustedBackNode = some node ∧ (¬ Past (· > ·) iter.currentBackValue entry ∨ ∀ other ∈ layout.index, other.1 ≤ entry)

private theorem frontHidden_of_none (tidy : layout.Tidy) (ended : iter.frontEntry layout.index = none) :
    FrontHidden layout iter := by
  intro entry node linked item member ahead
  have past : Past (· < ·) iter.currentFrontValue entry :=
    fun last there => lt_of_lt_of_le (ahead.1 last there) (tidy.le linked member)
  cases found : iter.frontCandidate layout.index with
  | none =>
    rw [frontCandidate_eq] at found
    have missed := find?_eq_none.mp found (entry, node) linked
    rw [past_iff.mpr past] at missed
    cases missed
  | some first =>
    obtain ⟨least, drained⟩ := first
    have minimal : least ≤ entry := by
      rw [frontCandidate_eq] at found
      exact (find?_eq_some.mp found).2.2 (entry, node) linked (past_iff.mpr past)
    simp only [frontEntry, found, stepPast] at ended
    split at ended
    next marked =>
      have greatest := find?_eq_none.mp ended (entry, node) linked
      obtain rfl : least = entry := le_antisymm minimal (by simpa using greatest)
      rw [← marked, value_unique (frontCandidate_some found).1 linked]
    next => cases ended

/-- The back cursor leads to a node that reaches it, unless that is the last one. -/
private theorem backCandidate_reaches {index : NodeIndex κ} {entry : κ} {node : NodeId}
    (found : iter.backCandidate index = some (entry, node)) :
    ¬ Past (· > ·) iter.currentBackValue entry ∨ ∀ other ∈ index, other.1 ≤ entry := by
  unfold backCandidate at found
  split at found
  next last same =>
    obtain ⟨_, between⟩ := ceiling?_eq_some.mp found
    by_cases reaches : key last ≤ entry
    · exact Or.inl fun past => (past last same).not_ge reaches
    · exact Or.inr fun other there => not_lt.mp fun above => reaches (between.within other there above)
  next => exact Or.inr (last?_eq_some.mp found).2

private theorem backHidden_of_none (tidy : layout.Tidy) (ended : iter.backEntry layout.index = none) :
    BackHidden layout iter := by
  intro entry node linked item member ahead
  cases found : iter.backCandidate layout.index with
  | none =>
    unfold backCandidate at found
    split at found
    next => exact absurd linked (ceiling?_eq_none.mp found _)
    next => exact absurd linked (last?_eq_none.mp found _)
  | some pick =>
    obtain ⟨first, drained⟩ := pick
    obtain ⟨there, _⟩ := backCandidate_some found
    have reaches := backCandidate_reaches found
    simp only [backEntry, found, stepPast] at ended
    split at ended
    next marked =>
      have least : first ≤ entry := below?_eq_none.mp ended (entry, node) linked
      have greatest : entry ≤ first := by
        rcases reaches with short | last
        · refine not_lt.mp fun above => short fun value same => ?_
          exact (tidy.lt linked member there above).trans (ahead.2 value same)
        · exact last (entry, node) linked
      obtain rfl : first = entry := le_antisymm least greatest
      exact ⟨marked.symm.trans (congrArg some (value_unique there linked)), reaches⟩
    next => cases ended

private theorem stepPast_unmarked {index : NodeIndex κ} (once : LinkedOnce index) {exhausted : Option NodeId}
    {beside : κ → Option (κ × NodeId)} {candidate : Option (κ × NodeId)} {entry : κ} {node : NodeId}
    (linked : ∀ first, candidate = some first → first ∈ index)
    (other : ∀ first next, beside first = some next → next ∈ index ∧ next.1 ≠ first)
    (chosen : stepPast exhausted beside candidate = some (entry, node)) : exhausted ≠ some node := by
  cases candidate with
  | none => cases chosen
  | some first =>
    simp only [stepPast] at chosen
    split at chosen
    next marked =>
      obtain ⟨there, different⟩ := other first.1 _ chosen
      intro same
      obtain rfl : first.2 = node := Option.some.inj (marked.trans same)
      exact different (once entry first.1 first.2 there (linked first rfl))
    next unmarked =>
      cases chosen
      exact fun same => unmarked same.symm

private theorem next_crosses {value : α} {rest : List α} {middle : Iter α} (unmet : iter.met = false)
    (ready : iter.frontBatch set = some (value :: rest, middle)) (past : Past (· < ·) middle.currentFrontValue (key value))
    (reached : ¬ Past (· > ·) middle.currentBackValue (key value)) (fuel : Nat) :
    ∃ after, next set (fuel + 1) iter = some (none, after) := by
  have unseen := front_unseen.mpr past
  have meets : (middle.currentBackValue.any fun last => decide (key last ≤ key value)) = true := by
    rw [← Bool.not_eq_false]
    exact fun short => reached (back_unseen.mp short)
  refine ⟨{ middle with currentFrontBatch := some rest, met := true }, ?_⟩
  simp only [next, unmet, ready, unseen, meets, Bool.false_eq_true, if_false, if_true]

private theorem nextBack_crosses {value : α} {rest : List α} {middle : Iter α} (unmet : iter.met = false)
    (ready : iter.backBatch set = some (rest ++ [value], middle)) (past : Past (· > ·) middle.currentBackValue (key value))
    (reached : ¬ Past (· < ·) middle.currentFrontValue (key value)) (fuel : Nat) :
    ∃ after, nextBack set (fuel + 1) iter = some (none, after) := by
  have unseen := back_unseen.mpr past
  have meets : (middle.currentFrontValue.any fun last => decide (key value ≤ key last)) = true := by
    rw [← Bool.not_eq_false]
    exact fun short => reached (front_unseen.mp short)
  refine ⟨{ middle with currentBackBatch := some rest, met := true }, ?_⟩
  simp only [nextBack, unmet, ready, List.getLast?_concat, List.dropLast_concat, unseen, meets, Bool.false_eq_true, if_false,
    if_true]

/-- The first value beyond the cursor that the front can read is not between the cursors: the ends have met. -/
private theorem next_hidden (tidy : set.layout.Tidy) (unmet : iter.met = false) (idle : iter.currentFrontBatch = none)
    (steady : iter.forward.Steady) (hidden : FrontHidden set.layout iter) (fuel : Nat) :
    ∃ after, next set (fuel + 1) iter = some (none, after) := by
  cases found : iter.frontEntry set.index.index with
  | none => exact ⟨iter, by simp [next, unmet, frontBatch, idle, installFrontBatch, found]⟩
  | some pick =>
    obtain ⟨entry, node⟩ := pick
    have linked := frontEntry_mem found
    have unmarked : iter.exhaustedFrontNode ≠ some node := by
      apply stepPast_unmarked tidy.sound.once (fun first same => (frontCandidate_some same).1) (fun first next same => ?_) found
      obtain ⟨there, above, _⟩ := find?_eq_some.mp same
      exact ⟨there, (of_decide_eq_true above).ne'⟩
    have sorted : Node.Sorted (set.heap.cells node) := tidy.sound.sorted node
    have ahead : ∀ item, item ∈ (set.heap.cells node).drop (iter.frontSkip node (set.heap.cells node)) ↔ _ :=
      mem_drop_frontSkip sorted fun missing => (steady.2 missing).2
    generalize same : (set.heap.cells node).drop (iter.frontSkip node (set.heap.cells node)) = available at ahead
    obtain ⟨middle, ran, frame, _, cursor, _⟩ := installFrontBatch_eq set found same
    obtain ⟨⟨top, member, level⟩, _⟩ := (Node.maxKey_eq_some sorted).mp (tidy.tight entry node linked)
    have first := (ahead top).mpr ⟨member, level ▸ frontEntry_past found⟩
    cases available with
    | nil => cases first
    | cons value rest =>
      obtain ⟨bound, positive⟩ := Nat.exists_eq_add_one.mpr steady.1
      have other : middle.currentBackValue = iter.currentBackValue := congrArg Direction.cursor frame
      obtain ⟨held, past⟩ := (ahead value).mp List.mem_cons_self
      have ready : iter.frontBatch set = some (value :: rest.take bound, middle) := by
        have limit : iter.frontBatchLimit = bound + 1 := positive
        simp only [frontBatch, idle, ran, limit, List.take_succ_cons]
      apply next_crosses unmet ready (cursor ▸ past) (fun short => ?_) fuel
      exact unmarked (hidden entry node linked value held ⟨past, other ▸ short⟩)

/-- One pass at the back over a node without a value between the cursors: the ends meet, or the node has nothing below
the cursor and is the exhausted one from then on. -/
private theorem backBatch_shut (tidy : set.layout.Tidy) (unmet : iter.met = false) (idle : iter.currentBackBatch = none)
    (steady : iter.backward.Steady) {entry : κ} {node : NodeId} (found : iter.backEntry set.index.index = some (entry, node))
    (shut : ∀ item ∈ set.heap.cells node, ¬ iter.Open (key item)) :
    (∀ fuel, ∃ after, nextBack set (fuel + 1) iter = some (none, after)) ∨
    ¬ Past (· > ·) iter.currentBackValue entry ∧ ∃ middle, iter.backBatch set = some ([], middle) ∧
      middle.exhaustedBackNode = some node := by
  have linked := backEntry_mem found
  have sorted : Node.Sorted (set.heap.cells node) := tidy.sound.sorted node
  have ahead : ∀ item, item ∈ (set.heap.cells node).take
      ((set.heap.cells node).length - iter.backTruncate node (set.heap.cells node)) ↔ _ :=
    mem_take_backTruncate sorted fun missing => (steady.2 missing).2
  generalize same : (set.heap.cells node).take ((set.heap.cells node).length - iter.backTruncate node (set.heap.cells node)) =
    available at ahead
  obtain ⟨batch, middle, ran, reversed, frame, _, cursor, _, exhausted, _⟩ := installBackBatch_eq set found same
  have there : iter.backBatch set = some (batch, middle) := by simp only [backBatch, idle, ran]
  rcases List.eq_nil_or_concat batch with rfl | ⟨rest, value, rfl⟩
  · have drained : available = [] := by
      rw [List.reverse_nil, eq_comm, List.take_eq_nil_iff, List.reverse_eq_nil_iff] at reversed
      exact reversed.resolve_left steady.1.ne'
    refine Or.inr ⟨fun past => ?_, middle, there, ?_⟩
    · obtain ⟨⟨top, member, level⟩, _⟩ := (Node.maxKey_eq_some sorted).mp (tidy.tight entry node linked)
      have first := (ahead top).mpr ⟨member, level ▸ past⟩
      rw [drained] at first
      cases first
    · rw [exhausted, drained]
      rfl
  · rw [List.concat_eq_append] at there reversed
    have drawn : value ∈ available := by
      have first : value ∈ (rest ++ [value]).reverse := by simp
      rw [reversed] at first
      exact List.mem_reverse.mp (List.mem_of_mem_take first)
    obtain ⟨held, past⟩ := (ahead value).mp drawn
    have other : middle.currentFrontValue = iter.currentFrontValue := congrArg Direction.cursor frame
    exact Or.inl (nextBack_crosses unmet there (cursor ▸ past) fun short => shut value held ⟨other ▸ short, past⟩)

private theorem nextBack_stepped (tidy : set.layout.Tidy) (unmet : iter.met = false) (idle : iter.currentBackBatch = none)
    (steady : iter.backward.Steady) {entry : κ} {node : NodeId} (candidate : iter.backCandidate set.index.index = some (entry, node))
    (exhausted : iter.exhaustedBackNode = some node) (nowhere : ∀ item, set.layout.Stored item → ¬ iter.Open (key item)) (fuel : Nat) :
    ∃ after, nextBack set (fuel + 1) iter = some (none, after) := by
  cases found : iter.backEntry set.index.index with
  | none => exact ⟨iter, by simp [nextBack, unmet, backBatch, idle, installBackBatch, found]⟩
  | some pick =>
    obtain ⟨lower, place⟩ := pick
    have beyond : Past (· > ·) iter.currentBackValue lower := by
      simp only [backEntry, candidate, stepPast, exhausted, if_true] at found
      obtain ⟨there, below, _⟩ := below?_eq_some.mp found
      exact (backCandidate_some candidate).2 _ there below
    have shut : ∀ item ∈ set.heap.cells place, ¬ iter.Open (key item) :=
      fun item member => nowhere item ⟨lower, place, backEntry_mem found, member⟩
    rcases backBatch_shut tidy unmet idle steady found shut with ends | ⟨short, _⟩
    · exact ends fuel
    · exact absurd beyond short

private theorem nextBack_hidden (tidy : set.layout.Tidy) (unmet : iter.met = false) (idle : iter.currentBackBatch = none)
    (steady : iter.backward.Steady) (hidden : BackHidden set.layout iter) (fuel : Nat) :
    ∃ after, nextBack set (fuel + 2) iter = some (none, after) := by
  cases found : iter.backEntry set.index.index with
  | none => exact ⟨iter, by simp [nextBack, unmet, backBatch, idle, installBackBatch, found]⟩
  | some pick =>
    obtain ⟨entry, node⟩ := pick
    have linked := backEntry_mem found
    have unmarked : iter.exhaustedBackNode ≠ some node := by
      apply stepPast_unmarked tidy.sound.once (fun first same => (backCandidate_some same).1) (fun first next same => ?_) found
      obtain ⟨there, below, _⟩ := below?_eq_some.mp same
      exact ⟨there, below.ne⟩
    have shut : ∀ item ∈ set.heap.cells node, ¬ iter.Open (key item) :=
      fun item member ahead => unmarked (hidden entry node linked item member ahead).1
    rcases backBatch_shut tidy unmet idle steady found shut with ends | ⟨short, middle, ready, exhausted⟩
    · exact ends (fuel + 1)
    have candidate : iter.backCandidate set.index.index = some (entry, node) := by
      rcases stepPast_eq_some found with first | ⟨first, drained, before, _, next⟩
      · exact first
      · exact absurd ((backCandidate_some before).2 _ linked (below?_eq_some.mp next).2.1) short
    -- the node of the cursor was not the exhausted one, so there is nothing left between the cursors
    have nowhere : ∀ item, set.layout.Stored item → ¬ iter.Open (key item) := by
      intro item stored ahead
      obtain ⟨other, place, there, member⟩ := stored
      obtain ⟨marked, leads⟩ := hidden other place there item member ahead
      rcases lt_trichotomy other entry with before | rfl | behind
      · rcases leads with reaches | last
        · exact reaches ((backCandidate_some candidate).2 _ there before)
        · exact before.not_ge (last (entry, node) linked)
      · exact unmarked (marked.trans (congrArg some (value_unique there linked)))
      · exact short fun last same => (tidy.lt there member linked behind).trans (ahead.2 last same)
    obtain ⟨_, met, cursor, across, grown⟩ := backBatch_frame ready
    have dropped : nextBack set (fuel + 2) iter = nextBack set (fuel + 1) { middle with currentBackBatch := none } := by
      rw [nextBack]
      simp only [unmet, Bool.false_eq_true, if_false, ready, List.getLast?_nil]
    have rest : ({ middle with currentBackBatch := none } : Iter α).backward.Steady := by
      refine ⟨(grown steady.1).1, fun missing => absurd (fun last same => ?_) short⟩
      cases (cursor.symm.trans missing).symm.trans same
    have again : ({ middle with currentBackBatch := none } : Iter α).backCandidate set.index.index = some (entry, node) := by
      simpa only [backCandidate, cursor] using candidate
    rw [dropped]
    refine nextBack_stepped tidy ?_ rfl rest again exhausted ?_ fuel
    · exact met.trans unmet
    · simpa only [Open, cursor, across] using nowhere

variable {landing : Landing α κ}

/-- A write leaves nothing between the cursors outside the node that the front has exhausted. -/
def FrontSpared (landing : Landing α κ) (iter : Iter α) : Prop :=
  (∀ item ∈ landing.moved, ¬ iter.Open (key item)) ∧
    ∀ item ∈ landing.kept, iter.Open (key item) → iter.exhaustedFrontNode = landing.target.map Prod.snd

/-- Likewise for the back, whose cursor must go on leading to that node: it keeps a value at or above the
cursor, or it stays the last one. -/
def BackSpared (index : NodeIndex κ) (landing : Landing α κ) (iter : Iter α) : Prop :=
  (∀ item ∈ landing.moved, ¬ iter.Open (key item)) ∧
    ∀ item ∈ landing.kept, iter.Open (key item) → iter.exhaustedBackNode = landing.target.map Prod.snd ∧
      ((∃ other ∈ landing.kept, ¬ Past (· > ·) iter.currentBackValue (key other)) ∨
        landing.moved = [] ∧ ∀ old node, landing.target = some (old, node) → ∀ other ∈ index, other.1 ≤ old)

private theorem FrontHidden.write (hidden : FrontHidden layout iter) (describes : landing.Describes layout later)
    (spared : FrontSpared landing iter) : FrontHidden later iter := by
  intro entry node linked item member ahead
  cases describes entry node linked with
  | rewritten old target inside values bound =>
    have marked := spared.2 item (values item member) ahead
    rwa [target] at marked
  | added inside values => exact absurd ahead (spared.1 item (values item member))
  | untouched linked other values => exact hidden entry node linked item (values ▸ member) ahead

/-- The last node stays the last one when it is rewritten and nothing goes to a new node. -/
private theorem last_of_describes (tidy : later.Tidy) (describes : landing.Describes layout later) (still : landing.moved = [])
    {old entry : κ} {node : NodeId} (target : landing.target = some (old, node)) (linked : (entry, node) ∈ later.index)
    (inside : Between layout.index old entry) (last : ∀ other ∈ layout.index, other.1 ≤ old) :
    ∀ other ∈ later.index, other.1 ≤ entry := by
  intro other there
  cases describes other.1 other.2 there with
  | rewritten key same _ _ _ =>
    cases target.symm.trans same
    exact (tidy.sound.once _ _ _ there linked).le
  | added _ values =>
    obtain ⟨item, member⟩ := List.exists_mem_of_ne_nil _ (tidy.sound.filled _ _ there)
    have moved := values item member
    rw [still] at moved
    cases moved
  | untouched kept different _ =>
    exact (inside.above other kept (lt_of_le_of_ne (last other kept) (different old node target))).le

/-- The new keys are in the interval of the rewritten entry, so none of them comes after the last one. -/
private theorem le_of_describes (describes : landing.Describes layout later) {wanted : κ}
    (target : landing.target = route id layout.index wanted) {entry : κ} {node : NodeId} (linked : (entry, node) ∈ layout.index)
    (different : ∀ old node, landing.target = some (old, node) → entry ≠ old) (last : ∀ other ∈ layout.index, other.1 ≤ entry) :
    ∀ other ∈ later.index, other.1 ≤ entry := by
  intro other there
  have bounded : ∀ old place, landing.target = some (old, place) → Between layout.index old other.1 → other.1 ≤ entry := by
    intro old place chosen inside
    have before : old ≤ entry := last (old, place) (route_eq_some.mp (target.symm.trans chosen)).1
    exact (inside.within _ linked (lt_of_le_of_ne before (different old place chosen).symm)).trans before
  cases describes other.1 other.2 there with
  | rewritten old chosen inside _ _ => exact bounded old _ chosen inside
  | added inside _ =>
    cases chosen : landing.target with
    | none => exact absurd linked (route_eq_none.mp (target.symm.trans chosen) _)
    | some pick => exact bounded pick.1 pick.2 chosen (inside pick.1 pick.2 chosen)
  | untouched before _ _ => exact last other before

private theorem BackHidden.write (hidden : BackHidden layout iter) (tidy : later.Tidy) (describes : landing.Describes layout later)
    {wanted : κ} (target : landing.target = route id layout.index wanted) (spared : BackSpared layout.index landing iter) :
    BackHidden later iter := by
  intro entry node linked item member ahead
  cases describes entry node linked with
  | rewritten old chosen inside values bound =>
    obtain ⟨marked, leads⟩ := spared.2 item (values item member) ahead
    rw [chosen] at marked
    refine ⟨marked, leads.imp (fun reaches past => ?_) fun last => ?_⟩
    · obtain ⟨other, kept, short⟩ := reaches
      exact short fun value same => (bound other kept).trans_lt (past value same)
    · exact last_of_describes tidy describes last.1 chosen linked inside (last.2 old node chosen)
  | added inside values => exact absurd ahead (spared.1 item (values item member))
  | untouched kept different values =>
    obtain ⟨marked, leads⟩ := hidden entry node kept item (values ▸ member) ahead
    exact ⟨marked, leads.imp id (le_of_describes describes target kept different)⟩

private theorem FrontHidden.narrow (hidden : FrontHidden layout iter) (frame : after.forward = iter.forward)
    (further : ∀ wanted, Past (· > ·) after.backward.cursor wanted → Past (· > ·) iter.backward.cursor wanted) :
    FrontHidden layout after := by
  have cursor : after.currentFrontValue = iter.currentFrontValue := congrArg Direction.cursor frame
  have marked : after.exhaustedFrontNode = iter.exhaustedFrontNode := congrArg Direction.exhausted frame
  intro entry node linked item member ahead
  rw [marked]
  exact hidden entry node linked item member ⟨cursor ▸ ahead.1, further _ ahead.2⟩

private theorem BackHidden.narrow (hidden : BackHidden layout iter) (frame : after.backward = iter.backward)
    (further : ∀ wanted, Past (· < ·) after.forward.cursor wanted → Past (· < ·) iter.forward.cursor wanted) :
    BackHidden layout after := by
  have cursor : after.currentBackValue = iter.currentBackValue := congrArg Direction.cursor frame
  have marked : after.exhaustedBackNode = iter.exhaustedBackNode := congrArg Direction.exhausted frame
  intro entry node linked item member ahead
  rw [marked, cursor]
  exact hidden entry node linked item member ⟨further _ ahead.1, cursor ▸ ahead.2⟩

end Iter

structure Interleaving (α : Type u) (κ : Type v) [LinearOrder κ] where
  set : BTreeSet α κ
  iter : Iter α
  front : List (Option α)
  back : List (Option α)

/-- Complete calls on a set and on an iterator of it, in any order, with the writes that `permitted` lets through. -/
inductive Interleaved (nodeCapacity : Nat) (permitted : Interleaving α κ → Write α κ → Prop) : Interleaving α κ → Prop where
  | iter {set : BTreeSet α κ} (reachable : BTreeSet.Reachable nodeCapacity set) :
      Interleaved nodeCapacity permitted ⟨set, set.iter, [], []⟩
  | range {Q : Type w} [LinearOrder Q] {set : BTreeSet α κ} (reachable : BTreeSet.Reachable nodeCapacity set) (borrow : κ → Q)
      (start last : Bound Q) : Interleaved nodeCapacity permitted ⟨set, set.range borrow start last, [], []⟩
  | write {run : Interleaving α κ} {after : BTreeSet α κ} (earlier : Interleaved nodeCapacity permitted run) (write : Write α κ)
      (allowed : permitted run write) (runs : write.Runs run.set after) :
      Interleaved nodeCapacity permitted { run with set := after }
  | next {run : Interleaving α κ} {result : Option α} {iter : Iter α} (earlier : Interleaved nodeCapacity permitted run) (fuel : Nat)
      (ran : run.iter.next run.set fuel = some (result, iter)) :
      Interleaved nodeCapacity permitted { run with iter, front := run.front ++ [result] }
  | nextBack {run : Interleaving α κ} {result : Option α} {iter : Iter α} (earlier : Interleaved nodeCapacity permitted run)
      (fuel : Nat) (ran : run.iter.nextBack run.set fuel = some (result, iter)) :
      Interleaved nodeCapacity permitted { run with iter, back := run.back ++ [result] }

namespace Interleaving
variable {run : Interleaving α κ} {result : Option α} {iter : Iter α}

/-- Once an end has returned `None` it returns nothing else: all its later calls did so, and the next one will. -/
structure Fused (run : Interleaving α κ) : Prop where
  front : run.front.Pairwise fun earlier later => earlier = none → later = none
  back : run.back.Pairwise fun earlier later => earlier = none → later = none
  next : none ∈ run.front → ∀ fuel, 3 ≤ fuel → ∃ iter, run.iter.next run.set fuel = some (none, iter)
  nextBack : none ∈ run.back → ∀ fuel, 3 ≤ fuel → ∃ iter, run.iter.nextBack run.set fuel = some (none, iter)

/-- The writes that bring nothing back: an end that has returned `None` before the cursors met does not get to see a value
between them. -/
def Spares (run : Interleaving α κ) (write : Write α κ) : Prop :=
  run.iter.met = false →
    (none ∈ run.front → run.iter.FrontSpared (run.set.landing write)) ∧
    (none ∈ run.back → run.iter.BackSpared run.set.index.index (run.set.landing write))

private structure Silent (run : Interleaving α κ) : Prop where
  tidy : run.set.Tidy
  steady : run.iter.met = true ∨ run.iter.forward.Steady ∧ run.iter.backward.Steady
  front : none ∈ run.front → run.iter.met = true ∨ run.iter.currentFrontBatch = none ∧ run.iter.FrontHidden run.set.layout
  back : none ∈ run.back → run.iter.met = true ∨ run.iter.currentBackBatch = none ∧ run.iter.BackHidden run.set.layout
  fronts : run.front.Pairwise fun earlier later => earlier = none → later = none
  backs : run.back.Pairwise fun earlier later => earlier = none → later = none

private theorem Silent.created {set : BTreeSet α κ} (tidy : set.Tidy) {iter : Iter α} (forward : iter.forward.Steady)
    (backward : iter.backward.Steady) : Silent ⟨set, iter, [], []⟩ :=
  ⟨tidy, Or.inr ⟨forward, backward⟩, fun ended => (by cases ended), fun ended => (by cases ended), List.Pairwise.nil, List.Pairwise.nil⟩

private theorem Silent.write (silent : Silent run) {write : Write α κ} (spares : run.Spares write) {after : BTreeSet α κ}
    (runs : write.Runs run.set after) : Silent { run with set := after } := by
  obtain ⟨tidy, describes⟩ := runs.lands silent.tidy
  obtain ⟨wanted, target⟩ := run.set.landing_target write
  refine ⟨tidy, silent.steady, fun ended => ?_, fun ended => ?_, silent.fronts, silent.backs⟩
  · cases met : run.iter.met with
    | true => exact Or.inl rfl
    | false =>
      obtain ⟨idle, hidden⟩ := (silent.front ended).resolve_left (by simp [met])
      exact Or.inr ⟨idle, hidden.write describes ((spares met).1 ended)⟩
  · cases met : run.iter.met with
    | true => exact Or.inl rfl
    | false =>
      obtain ⟨idle, hidden⟩ := (silent.back ended).resolve_left (by simp [met])
      exact Or.inr ⟨idle, hidden.write tidy.layout describes target ((spares met).2 ended)⟩

omit [LinearOrder κ] [Keyed α κ] in
private theorem pairwise_concat {results : List (Option α)} (fused : results.Pairwise fun earlier later => earlier = none → later = none)
    (quiet : none ∈ results → result = none) : (results ++ [result]).Pairwise fun earlier later => earlier = none → later = none := by
  refine List.pairwise_append.mpr ⟨fused, List.pairwise_singleton .., fun earlier member later last same => ?_⟩
  rw [List.mem_singleton.mp last]
  exact quiet (same ▸ member)

private theorem Silent.quiet (silent : Silent run) (ended : none ∈ run.front) (fuel : Nat) :
    ∃ after, run.iter.next run.set (fuel + 1) = some (none, after) := by
  cases met : run.iter.met with
  | true => exact ⟨run.iter, by simp [Iter.next, met]⟩
  | false =>
    have unmet : run.iter.met ≠ true := by simp [met]
    obtain ⟨idle, hidden⟩ := (silent.front ended).resolve_left unmet
    exact Iter.next_hidden silent.tidy.layout met idle (silent.steady.resolve_left unmet).1 hidden fuel

private theorem Silent.quietBack (silent : Silent run) (ended : none ∈ run.back) (fuel : Nat) :
    ∃ after, run.iter.nextBack run.set (fuel + 2) = some (none, after) := by
  cases met : run.iter.met with
  | true => exact ⟨run.iter, by simp [Iter.nextBack, met]⟩
  | false =>
    have unmet : run.iter.met ≠ true := by simp [met]
    obtain ⟨idle, hidden⟩ := (silent.back ended).resolve_left unmet
    exact Iter.nextBack_hidden silent.tidy.layout met idle (silent.steady.resolve_left unmet).2 hidden fuel

private theorem Silent.next (silent : Silent run) {fuel : Nat} (ran : run.iter.next run.set fuel = some (result, iter)) :
    Silent { run with iter, front := run.front ++ [result] } := by
  have quiet : none ∈ run.front → result = none := by
    intro ended
    obtain ⟨after, returns⟩ := silent.quiet ended fuel
    cases (Iter.next_fuel ran 1).symm.trans returns
    rfl
  have last : none ∈ run.front ++ [result] → result = none := fun ended =>
    (List.mem_append.mp ended).elim quiet fun same => (List.mem_singleton.mp same).symm
  obtain ⟨frame, kept, leaves⟩ := (Iter.next_nexts ran).leaves
  refine ⟨silent.tidy, ?_, fun ended => ?_, fun ended => ?_, pairwise_concat silent.fronts quiet, silent.backs⟩
  · rcases silent.steady with met | ⟨forward, backward⟩
    · exact Or.inl (kept met)
    · exact (leaves.steady forward).imp id fun steady => ⟨steady, frame ▸ backward⟩
  · exact (leaves.ended (last ended)).imp id fun idle => ⟨idle.1, Iter.frontHidden_of_none silent.tidy.layout idle.2⟩
  · rcases silent.back ended with met | ⟨idle, hidden⟩
    · exact Or.inl (kept met)
    · refine Or.inr ⟨?_, hidden.narrow frame leaves.further⟩
      have same : iter.currentBackBatch.map List.reverse = none :=
        (congrArg Direction.batch frame).trans (Option.map_eq_none_iff.mpr idle)
      exact Option.map_eq_none_iff.mp same

private theorem Silent.nextBack (silent : Silent run) {fuel : Nat} (ran : run.iter.nextBack run.set fuel = some (result, iter)) :
    Silent { run with iter, back := run.back ++ [result] } := by
  have quiet : none ∈ run.back → result = none := by
    intro ended
    obtain ⟨after, returns⟩ := silent.quietBack ended fuel
    cases (Iter.nextBack_fuel ran 2).symm.trans returns
    rfl
  have last : none ∈ run.back ++ [result] → result = none := fun ended =>
    (List.mem_append.mp ended).elim quiet fun same => (List.mem_singleton.mp same).symm
  obtain ⟨frame, kept, leaves⟩ := (Iter.nextBack_nextBacks ran).leaves
  refine ⟨silent.tidy, ?_, fun ended => ?_, fun ended => ?_, silent.fronts, pairwise_concat silent.backs quiet⟩
  · rcases silent.steady with met | ⟨forward, backward⟩
    · exact Or.inl (kept met)
    · exact (leaves.steady backward).imp id fun steady => ⟨frame ▸ forward, steady⟩
  · rcases silent.front ended with met | ⟨idle, hidden⟩
    · exact Or.inl (kept met)
    · exact Or.inr ⟨(congrArg Direction.batch frame).trans idle, hidden.narrow frame leaves.further⟩
  · refine (leaves.ended (last ended)).imp id fun idle => ⟨?_, Iter.backHidden_of_none silent.tidy.layout idle.2⟩
    exact Option.map_eq_none_iff.mp idle.1

private theorem Silent.fused (silent : Silent run) : Fused run := by
  refine ⟨silent.fronts, silent.backs, fun ended fuel enough => ?_, fun ended fuel enough => ?_⟩
  · obtain ⟨more, rfl⟩ := Nat.exists_eq_add_of_le' enough
    exact silent.quiet ended (more + 2)
  · obtain ⟨more, rfl⟩ := Nat.exists_eq_add_of_le' enough
    exact silent.quietBack ended (more + 1)

end Interleaving

private theorem Interleaved.silent {nodeCapacity : Nat} {run : Interleaving α κ}
    (interleaved : Interleaved.{u, v, w} nodeCapacity Interleaving.Spares run) : run.Silent := by
  induction interleaved with
  | iter reachable =>
    exact .created reachable.tidy.1 ⟨Nat.succ_pos 3, fun _ => ⟨rfl, rfl⟩⟩ ⟨Nat.succ_pos 3, fun _ => ⟨rfl, rfl⟩⟩
  | range reachable borrow start last =>
    exact .created reachable.tidy.1 ⟨Nat.succ_pos 3, fun _ => ⟨rfl, rfl⟩⟩ ⟨Nat.succ_pos 3, fun _ => ⟨rfl, rfl⟩⟩
  | write earlier write allowed runs silent => exact silent.write allowed runs
  | next earlier fuel ran silent => exact silent.next ran
  | nextBack earlier fuel ran silent => exact silent.nextBack ran

/-- Iterators and ranges are fused as long as no write lets an end that has returned `None` see a value between the cursors
again. -/
theorem Interleaved.fused_of_spared {nodeCapacity : Nat} {run : Interleaving α κ}
    (interleaved : Interleaved.{u, v, w} nodeCapacity Interleaving.Spares run) : run.Fused :=
  interleaved.silent.fused

/-- After `None` a value comes into the exhausted node and another one leaves it. -/
theorem Interleaving.fused_of_spared_writes : ∃ run : Interleaving Nat Nat, Interleaved.{0, 0, 0} 3 Interleaving.Spares run ∧
    run.front = [some 10, some 20, none, none] ∧ run.set.nodes = [[20, 25]] ∧ run.Fused := by
  obtain ⟨run, interleaved, front, nodes⟩ : ∃ run : Interleaving Nat Nat, Interleaved.{0, 0, 0} 3 Interleaving.Spares run ∧
      run.front = [some 10, some 20, none, none] ∧ run.set.nodes = [[20, 25]] := by
    refine ⟨_, .next (.write (.write (.next (.next (.next (.iter (.mutates (.mutates .new (.insert false 10 1 rfl))
      (.insert false 20 1 rfl))) 3 rfl) 3 rfl) 3 rfl) (.insert 25) ?_ (.insert false 25 1 rfl)) (.remove 10) ?_
      (.remove false 10 1 rfl)) 3 rfl, rfl, by decide⟩
    · exact fun _ => ⟨fun _ => ⟨fun item member => (by cases member), fun _ _ _ => rfl⟩, fun ended => (by cases ended)⟩
    · exact fun _ => ⟨fun _ => ⟨fun item member => (by cases member), fun _ _ _ => rfl⟩, fun ended => (by cases ended)⟩
  exact ⟨run, interleaved, front, nodes, interleaved.fused_of_spared⟩

/-- A value that comes in beyond the cursor is returned after `None`, at either end. -/
theorem Interleaving.none_then_some : ∃ first second : Interleaving Nat Nat,
    Interleaved.{0, 0, 0} 2 (fun _ _ => True) first ∧ first.front = [none, some 1] ∧ ¬ first.Fused ∧
      Interleaved.{0, 0, 0} 2 (fun _ _ => True) second ∧ second.back = [none, some 1] ∧ ¬ second.Fused := by
  obtain ⟨first, forwards, front⟩ : ∃ run : Interleaving Nat Nat, Interleaved.{0, 0, 0} 2 (fun _ _ => True) run ∧
      run.front = [none, some 1] :=
    ⟨_, .next (.write (.next (.iter .new) 3 rfl) (.insert 1) trivial (.insert false 1 1 rfl)) 3 rfl, rfl⟩
  obtain ⟨second, backwards, back⟩ : ∃ run : Interleaving Nat Nat, Interleaved.{0, 0, 0} 2 (fun _ _ => True) run ∧
      run.back = [none, some 1] :=
    ⟨_, .nextBack (.write (.nextBack (.iter .new) 3 rfl) (.insert 1) trivial (.insert false 1 1 rfl)) 3 rfl, rfl⟩
  refine ⟨first, second, forwards, front, fun fused => ?_, backwards, back, fun fused => ?_⟩
  · have pairs := fused.front
    rw [front] at pairs
    exact absurd pairs (by decide)
  · have pairs := fused.back
    rw [back] at pairs
    exact absurd pairs (by decide)

end WorkTablesIndex
