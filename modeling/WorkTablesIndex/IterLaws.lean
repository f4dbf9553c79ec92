import Mathlib.Order.MinMax
import WorkTablesIndex.Scan

/-! What `next` and `next_back` do to their direction of a scan. -/

universe u v

namespace WorkTablesIndex
open SortedMap

variable {α : Type u} {κ : Type v} [Keyed α κ] [LinearOrder κ]

namespace Iter
variable {watch : Watch α κ} {layout : Layout α κ} {set : BTreeSet α κ} {iter : Iter α} {index : NodeIndex κ}
  {entry : κ} {node : NodeId}

def forward (iter : Iter α) : Direction α :=
  ⟨iter.currentFrontValue, iter.currentFrontBatch, iter.exhaustedFrontNode, iter.frontPartial, iter.frontBatchLimit⟩

/-- The batch is drawn from its end. -/
def backward (iter : Iter α) : Direction α :=
  ⟨iter.currentBackValue, iter.currentBackBatch.map List.reverse, iter.exhaustedBackNode, iter.backPartial, iter.backBatchLimit⟩

omit [Keyed α κ] [LinearOrder κ] in
theorem stepPast_eq_some {exhausted : Option NodeId} {beside : κ → Option (κ × NodeId)} {candidate : Option (κ × NodeId)}
    {entry : κ × NodeId} (chosen : stepPast exhausted beside candidate = some entry) :
    candidate = some entry ∨
      ∃ first drained, candidate = some (first, drained) ∧ exhausted = some drained ∧ beside first = some entry := by
  cases candidate with
  | none => cases chosen
  | some first =>
    simp only [stepPast] at chosen
    split at chosen
    next same => exact Or.inr ⟨first.1, first.2, rfl, same.symm, chosen⟩
    next => exact Or.inl chosen

theorem frontCandidate_eq (index : NodeIndex κ) (iter : Iter α) : iter.frontCandidate index =
    index.find? fun entry => iter.currentFrontValue.all fun last => decide (key last < entry) := by
  unfold frontCandidate
  split
  next last same => simp only [same, Option.all_some]
  next same => simp only [same, Option.all_none, first?_eq_find?]

omit [LinearOrder κ] in
theorem past_iff {r : κ → κ → Prop} [DecidableRel r] {cursor : Option α} {wanted : κ} :
    (cursor.all fun last => decide (r (key last) wanted)) = true ↔ Past r cursor wanted := by
  cases cursor <;> simp [Past]

theorem front_unseen {cursor : Option α} {wanted : κ} :
    (cursor.any fun last => decide (wanted ≤ key last)) = false ↔ Past (· < ·) cursor wanted := by
  cases cursor <;> simp [Past]

theorem back_unseen {cursor : Option α} {wanted : κ} :
    (cursor.any fun last => decide (key last ≤ wanted)) = false ↔ Past (· > ·) cursor wanted := by
  cases cursor <;> simp [Past]

private theorem frontEntry_spec (fit : layout.Fit watch)
    (side : Side (· < ·) watch layout.heap iter.currentFrontValue [] iter.exhaustedFrontNode) :
    (iter.frontEntry layout.index = none → ∀ wanted, watch.live wanted → ¬ Past (· < ·) iter.currentFrontValue wanted) ∧
    ∀ entry node, iter.frontEntry layout.index = some (entry, node) → (entry, node) ∈ layout.index ∧
      ∀ wanted, watch.live wanted → Past (· < ·) iter.currentFrontValue wanted →
        (∃ item ∈ layout.heap.cells node, key item = wanted) ∨ ∀ item ∈ layout.heap.cells node, key item < wanted := by
  refine stepPast_spec fit.routed.separated fit.present side (fun entry found => ?_) (fun other there awaits => ?_)
    (fun entry next found => (find?_eq_some.mp found).1) fun entry other there after => ?_
  · rw [frontCandidate_eq] at found
    exact (find?_eq_some.mp found).1
  · obtain ⟨item, member, lives, past⟩ := awaits
    have bound : Past (· < ·) iter.currentFrontValue other.1 := fun last same =>
      (past last same).trans_le (fit.le there member lives)
    rw [frontCandidate_eq]
    cases found : layout.index.find? fun entry => iter.currentFrontValue.all fun last => decide (key last < entry) with
    | none => exact absurd (past_iff.mpr bound) (by simpa using find?_eq_none.mp found other there)
    | some entry => exact ⟨entry, rfl, ((find?_eq_some.mp found).2.2 other there (past_iff.mpr bound)).not_gt⟩
  · cases found : layout.index.find? fun other => decide (entry < other) with
    | none => exact absurd after (by simpa using find?_eq_none.mp found other there)
    | some next => exact ⟨next, rfl, ((find?_eq_some.mp found).2.2 other there (by simpa using after)).not_gt⟩

theorem frontCandidate_some {entry : κ × NodeId} (found : iter.frontCandidate index = some entry) :
    entry ∈ index ∧ Past (· < ·) iter.currentFrontValue entry.1 := by
  rw [frontCandidate_eq] at found
  obtain ⟨member, past, _⟩ := find?_eq_some.mp found
  exact ⟨member, past_iff.mp past⟩

theorem frontEntry_mem {entry : κ × NodeId} (chosen : iter.frontEntry index = some entry) : entry ∈ index := by
  rcases stepPast_eq_some chosen with found | ⟨_, _, _, _, next⟩
  · exact (frontCandidate_some found).1
  · exact (find?_eq_some.mp next).1

theorem frontEntry_past (chosen : iter.frontEntry index = some (entry, node)) :
    Past (· < ·) iter.currentFrontValue entry := by
  rcases stepPast_eq_some chosen with found | ⟨first, _, found, _, next⟩
  · exact (frontCandidate_some found).2
  · have above : first < entry := by simpa using (find?_eq_some.mp next).2.1
    exact fun last same => ((frontCandidate_some found).2 last same).trans above

theorem mem_drop_frontSkip {values : List α} (sorted : Node.Sorted values)
    (fresh : iter.currentFrontValue = none → iter.frontPartial = none) (item : α) :
    item ∈ values.drop (iter.frontSkip node values) ↔ item ∈ values ∧ Past (· < ·) iter.currentFrontValue (key item) := by
  unfold frontSkip
  split
  next last same =>
    have ordered : Slice.Prefixed (fun item => decide (key item ≤ key last)) values :=
      sorted.imp fun below reached => by simpa using below.le.trans (by simpa using reached)
    rw [Node.rank_excluded_start]
    simp only [id, Slice.drop_eq_filter ordered, List.mem_filter, same, Past, Option.some.injEq, forall_eq']
    simp
  next same =>
    rw [fresh same]
    simp [same, Past]

theorem installFrontBatch_eq (set : BTreeSet α κ) (found : iter.frontEntry set.index.index = some (entry, node))
    {available : List α} (same : (set.heap.cells node).drop (iter.frontSkip node (set.heap.cells node)) = available) :
    ∃ later, installFrontBatch set iter = some (available.take iter.frontBatchLimit, later) ∧ later.backward = iter.backward ∧
      later.met = iter.met ∧ later.currentFrontValue = iter.currentFrontValue ∧
      later.frontBatchLimit = min (iter.frontBatchLimit * 2) maxBatch ∧
      later.exhaustedFrontNode = (if available.length ≤ iter.frontBatchLimit then some node else none) ∧
      (available.length ≤ iter.frontBatchLimit → later.frontPartial = none) := by
  subst same
  have size := List.length_drop (i := iter.frontSkip node (set.heap.cells node)) (l := set.heap.cells node)
  simp only [installFrontBatch, found, ← size, min_comm _ iter.frontBatchLimit, ← List.take_eq_take_min, min_eq_right_iff]
  refine ⟨_, rfl, ?_⟩
  split
  next whole => exact ⟨rfl, rfl, rfl, rfl, rfl, fun _ => rfl⟩
  next more => exact ⟨rfl, rfl, rfl, rfl, rfl, fun whole => absurd whole more⟩

/-- An installed batch covers what is live beyond the cursor. It is empty only if its node holds
nothing beyond it, and the node is finished then. -/
theorem installFrontBatch_fit (fit : set.layout.Fit watch)
    (side : Side (· < ·) watch set.heap iter.currentFrontValue [] iter.exhaustedFrontNode)
    (fresh : iter.currentFrontValue = none → iter.frontPartial = none) (limit : 0 < iter.frontBatchLimit) :
    (installFrontBatch set iter = none ∧ ∀ wanted, watch.live wanted → ¬ Past (· < ·) iter.currentFrontValue wanted) ∨
    ∃ batch later, installFrontBatch set iter = some (batch, later) ∧ later.backward = iter.backward ∧
      later.met = iter.met ∧ later.currentFrontValue = iter.currentFrontValue ∧ 0 < later.frontBatchLimit ∧
      Side (· < ·) watch set.heap later.currentFrontValue batch later.exhaustedFrontNode ∧
      (batch = [] → ∃ entry node, iter.frontEntry set.index.index = some (entry, node) ∧ (entry, node) ∈ set.layout.index ∧
        later.exhaustedFrontNode = some node ∧ ∀ item ∈ set.heap.cells node, ¬ Past (· < ·) iter.currentFrontValue (key item)) := by
  obtain ⟨ended, chosen⟩ := frontEntry_spec fit side
  cases found : iter.frontEntry set.index.index with
  | none => exact Or.inl ⟨by simp only [installFrontBatch, found], ended found⟩
  | some pick =>
    obtain ⟨entry, node⟩ := pick
    obtain ⟨linked, next⟩ := chosen entry node found
    have sorted : Node.Sorted (set.heap.cells node) := fit.sound.sorted node
    have ahead : ∀ item, item ∈ (set.heap.cells node).drop (iter.frontSkip node (set.heap.cells node)) ↔ _ :=
      mem_drop_frontSkip sorted fresh
    have ordered := sorted.drop (i := iter.frontSkip node (set.heap.cells node))
    generalize same : (set.heap.cells node).drop (iter.frontSkip node (set.heap.cells node)) = available at ahead ordered
    obtain ⟨later, result, frame, met, cursor, grown, exhausted, _⟩ := installFrontBatch_eq set found same
    have installed : Side (· < ·) watch set.heap _ _ _ := Side.install (fit.sound.allocated entry node linked) ordered ahead
      (fun item member => fit.present.seen item ⟨entry, node, linked, member⟩) (fit.exact linked) next iter.frontBatchLimit
    refine Or.inr ⟨_, later, result, frame, met, cursor, ?_, ?_, fun empty => ?_⟩
    · rw [grown]
      exact lt_min (by omega) (by decide)
    · rw [cursor, exhausted]
      exact installed
    · have drained : available = [] := (List.take_eq_nil_iff.mp empty).resolve_left limit.ne'
      refine ⟨entry, node, rfl, linked, ?_, fun item member past => ?_⟩
      · rw [exhausted, drained]
        rfl
      · exact List.not_mem_nil (drained ▸ (ahead item).mpr ⟨member, past⟩)

/-- An installed batch starts with a value, and its node is finished only when the batch reaches the end. -/
private theorem installFrontBatch_spec (tidy : set.layout.Tidy) (present : watch.Present set.layout)
    (side : Side (· < ·) watch set.heap iter.currentFrontValue [] iter.exhaustedFrontNode)
    (fresh : iter.currentFrontValue = none → iter.frontPartial = none) (limit : 0 < iter.frontBatchLimit) :
    (installFrontBatch set iter = none ∧ ∀ wanted, watch.live wanted → ¬ Past (· < ·) iter.currentFrontValue wanted) ∨
    ∃ value rest later, installFrontBatch set iter = some (value :: rest, later) ∧ later.backward = iter.backward ∧
      later.met = iter.met ∧ later.currentFrontValue = iter.currentFrontValue ∧ 0 < later.frontBatchLimit ∧
      Side (· < ·) watch set.heap later.currentFrontValue (value :: rest) later.exhaustedFrontNode := by
  rcases installFrontBatch_fit (tidy.fit present) side fresh limit with
    ended | ⟨batch, later, result, frame, met, cursor, limit, installed, empty⟩
  · exact Or.inl ended
  · cases batch with
    | nil =>
      -- the key of the node is the key of a value beyond the cursor
      obtain ⟨entry, node, found, linked, _, behind⟩ := empty rfl
      obtain ⟨⟨top, member, level⟩, _⟩ := (Node.maxKey_eq_some (tidy.sound.sorted node)).mp (tidy.tight entry node linked)
      exact absurd (level ▸ frontEntry_past found) (behind top member)
    | cons value rest => exact Or.inr ⟨value, rest, later, result, frame, met, cursor, limit, installed⟩

theorem next_cons {heap : Heap α} {value : α} {rest : List α} {later : Iter α} (unmet : iter.met = false)
    (ready : iter.frontBatch set = some (value :: rest, later)) (same : later.met = iter.met)
    (side : Side (· < ·) watch heap later.currentFrontValue (value :: rest) later.exhaustedFrontNode)
    (limit : 0 < later.frontBatchLimit) (fuel : Nat) :
    ∃ result after, next set (fuel + 1) iter = some (result, after) ∧ after.backward = later.backward ∧
      Draws (· < ·) watch heap later.currentFrontValue later.currentBackValue after.forward result after.met := by
  have unseen : (later.currentFrontValue.any fun last => decide (key value ≤ key last)) = false :=
    front_unseen.mpr (side.beyond value List.mem_cons_self)
  have least : ∀ wanted, watch.live wanted → Past (· < ·) later.currentFrontValue wanted → ¬ wanted < key value :=
    fun _ lives past => side.least lives past
  simp only [next, unmet, ready, unseen, Bool.false_eq_true, if_false]
  split
  next reached =>
    obtain ⟨last, there, beyond⟩ := (Option.any_eq_true ..).mp reached
    exact ⟨_, _, rfl, rfl, .crossed value last least there (by simpa using beyond)⟩
  next short =>
    refine ⟨_, _, rfl, rfl, ?_⟩
    rw [same.trans unmet]
    exact .yields value (side.beyond value List.mem_cons_self) least (side.known value List.mem_cons_self)
      (side.exact value List.mem_cons_self) (back_unseen.mp (Bool.eq_false_iff.mpr short))
      ⟨side.pop, fun missing => (by cases missing), limit⟩ rfl

private theorem next_install (tidy : set.layout.Tidy) (present : watch.Present set.layout)
    (ready : iter.forward.Ready (· < ·) watch set.heap) (unmet : iter.met = false) (idle : iter.currentFrontBatch = none)
    (fuel : Nat) : ∃ result after, next set (fuel + 1) iter = some (result, after) ∧ after.backward = iter.backward ∧
      Draws (· < ·) watch set.heap iter.currentFrontValue iter.currentBackValue after.forward result after.met := by
  have side : Side (· < ·) watch set.heap iter.currentFrontValue [] iter.exhaustedFrontNode := by
    simpa only [forward, idle, Option.getD_none] using ready.side
  rcases installFrontBatch_spec tidy present side (fun missing => (ready.fresh missing).2.2) ready.limit with
    ⟨ended, done⟩ | ⟨value, rest, later, result, frame, same, cursor, limit, side⟩
  · refine ⟨none, iter, by simp [next, unmet, frontBatch, idle, ended], rfl, ?_⟩
    rw [unmet]
    exact .ended done ready rfl
  · have there : iter.frontBatch set = some (value :: rest, later) := by simp only [frontBatch, idle, result]
    obtain ⟨result, after, ran, kept, draws⟩ := next_cons unmet there same side limit fuel
    have other : later.currentBackValue = iter.currentBackValue := congrArg Direction.cursor frame
    exact ⟨result, after, ran, kept.trans frame, cursor ▸ other ▸ draws⟩

/-- Two passes of the loop are enough: one to drop an empty batch and one to draw. -/
theorem next_draws (tidy : set.layout.Tidy) (present : watch.Present set.layout)
    (ready : iter.forward.Ready (· < ·) watch set.heap) (unmet : iter.met = false) (fuel : Nat) :
    ∃ result after, next set (fuel + 2) iter = some (result, after) ∧ after.backward = iter.backward ∧
      Draws (· < ·) watch set.heap iter.currentFrontValue iter.currentBackValue after.forward result after.met := by
  cases held : iter.currentFrontBatch with
  | none => exact next_install tidy present ready unmet held (fuel + 1)
  | some batch =>
    cases batch with
    | nil =>
      have side := ready.side
      simp only [forward, held, Option.getD_some] at side
      have dropped : next set (fuel + 2) iter = next set (fuel + 1) { iter with currentFrontBatch := none } := by
        rw [next]
        simp only [unmet, Bool.false_eq_true, if_false, frontBatch, held]
      rw [dropped]
      have rest : ({ iter with currentFrontBatch := none } : Iter α).forward.Ready (· < ·) watch set.heap :=
        ⟨side, fun missing => ⟨rfl, (ready.fresh missing).2⟩, ready.limit⟩
      exact next_install tidy present rest unmet rfl fuel
    | cons value rest =>
      have side := ready.side
      simp only [forward, held, Option.getD_some] at side
      exact next_cons unmet (by simp only [frontBatch, held]) rfl side ready.limit (fuel + 1)

/-- The candidate is the node the cursor routes to: every key below it lies beyond the cursor. -/
theorem backCandidate_some (found : iter.backCandidate index = some (entry, node)) :
    (entry, node) ∈ index ∧ ∀ other ∈ index, other.1 < entry → Past (· > ·) iter.currentBackValue other.1 := by
  unfold backCandidate at found
  split at found
  next last same =>
    obtain ⟨member, between⟩ := ceiling?_eq_some.mp found
    refine ⟨member, fun other there before value equal => ?_⟩
    cases same.symm.trans equal
    exact between.above other there before
  next missing =>
    exact ⟨(last?_eq_some.mp found).1, fun other _ _ last same => by cases missing.symm.trans same⟩

private theorem backCandidate_nearest (routed : layout.Routed) {other : κ × NodeId} (there : other ∈ layout.index)
    (awaits : Awaits (· > ·) watch iter.currentBackValue (layout.heap.cells other.2)) :
    ∃ entry, iter.backCandidate layout.index = some entry ∧ ¬ other.1 > entry.1 := by
  unfold backCandidate
  split
  next last same =>
    cases found : layout.index.ceiling? (key last) with
    | none => exact absurd there (ceiling?_eq_none.mp found other)
    | some entry =>
      obtain ⟨linked, between⟩ := ceiling?_eq_some.mp found
      obtain ⟨item, member, _, past⟩ := awaits
      refine ⟨entry, found, fun after => ?_⟩
      have above : entry.1 < key item := (routed other.1 other.2 there item member).above entry linked after
      exact absurd (between.within other there after) ((above.trans (past last same)).not_ge)
  next =>
    cases found : layout.index.last? with
    | none => exact absurd there (last?_eq_none.mp found other)
    | some entry => exact ⟨entry, rfl, ((last?_eq_some.mp found).2 other there).not_gt⟩

private theorem backEntry_spec (fit : layout.Fit watch)
    (side : Side (· > ·) watch layout.heap iter.currentBackValue [] iter.exhaustedBackNode) :
    (iter.backEntry layout.index = none → ∀ wanted, watch.live wanted → ¬ Past (· > ·) iter.currentBackValue wanted) ∧
    ∀ entry node, iter.backEntry layout.index = some (entry, node) → (entry, node) ∈ layout.index ∧
      ∀ wanted, watch.live wanted → Past (· > ·) iter.currentBackValue wanted →
        (∃ item ∈ layout.heap.cells node, key item = wanted) ∨ ∀ item ∈ layout.heap.cells node, key item > wanted := by
  refine stepPast_spec fit.routed.separated_back fit.present side (fun entry found => (backCandidate_some found).1)
    (fun other there awaits => backCandidate_nearest fit.routed there awaits)
    (fun entry next found => (below?_eq_some.mp found).1) fun entry other there before => ?_
  cases found : layout.index.below? entry with
  | none => exact absurd before (below?_eq_none.mp found other there).not_gt
  | some next => exact ⟨next, rfl, ((below?_eq_some.mp found).2.2 other there before).not_gt⟩

/-- The node the cursor routes to has been read to its end. -/
def Stepped (index : NodeIndex κ) (iter : Iter α) : Prop :=
  ∃ entry node, iter.backCandidate index = some (entry, node) ∧ iter.exhaustedBackNode = some node

theorem Stepped.past (stepped : Stepped index iter) (chosen : iter.backEntry index = some (entry, node)) :
    Past (· > ·) iter.currentBackValue entry := by
  obtain ⟨candidate, drained, found, exhausted⟩ := stepped
  simp only [backEntry, found, stepPast, exhausted, if_true] at chosen
  obtain ⟨member, before, _⟩ := below?_eq_some.mp chosen
  exact (backCandidate_some found).2 _ member before

theorem stepped_of_ne (chosen : iter.backEntry index = some (entry, node)) (fresh : ¬ Stepped index iter) :
    iter.backCandidate index = some (entry, node) := by
  rcases stepPast_eq_some chosen with found | ⟨first, drained, found, exhausted, _⟩
  · exact found
  · exact absurd ⟨first, drained, found, exhausted⟩ fresh

theorem backEntry_mem {entry : κ × NodeId} (chosen : iter.backEntry index = some entry) : entry ∈ index := by
  rcases stepPast_eq_some chosen with found | ⟨_, _, _, _, next⟩
  · exact (backCandidate_some found).1
  · exact (below?_eq_some.mp next).1

theorem mem_take_backTruncate {values : List α} (sorted : Node.Sorted values)
    (fresh : iter.currentBackValue = none → iter.backPartial = none) (item : α) :
    item ∈ values.take (values.length - iter.backTruncate node values) ↔
      item ∈ values ∧ Past (· > ·) iter.currentBackValue (key item) := by
  unfold backTruncate
  split
  next last same =>
    have ordered : Slice.Prefixed (fun item => decide (key item < key last)) values :=
      sorted.imp fun below reached => by simpa using below.trans (by simpa using reached)
    rw [Node.rank_excluded_end, Nat.sub_sub_self Slice.partitionPoint_le]
    simp only [id, Slice.take_eq_filter ordered, List.mem_filter, same, Past, Option.some.injEq, forall_eq']
    simp
  next same =>
    rw [fresh same]
    simp [same, Past]

private theorem reverse_slice {values : List α} {count : Nat} (inside : count ≤ values.length) (limit : Nat) :
    ((values.drop (count - min count limit)).take (min count limit)).reverse = (values.take count).reverse.take limit := by
  have size : (values.take count).reverse.length = count := by simpa using inside
  have slice : (values.drop (count - min count limit)).take (min count limit) =
      (values.take count).drop (count - min count limit) := by
    rw [List.drop_take, Nat.sub_sub_self (Nat.min_le_left ..)]
  have rest : (values.take count).length - (count - min count limit) = min count limit := by
    rw [List.length_take, Nat.min_eq_left inside, Nat.sub_sub_self (Nat.min_le_left ..)]
  rw [slice, List.reverse_drop, rest, List.take_eq_take_min (i := limit), size, Nat.min_comm]

theorem installBackBatch_eq (set : BTreeSet α κ) (found : iter.backEntry set.index.index = some (entry, node))
    {available : List α}
    (same : (set.heap.cells node).take ((set.heap.cells node).length - iter.backTruncate node (set.heap.cells node)) = available) :
    ∃ batch later, installBackBatch set iter = some (batch, later) ∧ batch.reverse = available.reverse.take iter.backBatchLimit ∧
      later.forward = iter.forward ∧ later.met = iter.met ∧ later.currentBackValue = iter.currentBackValue ∧
      later.backBatchLimit = min (iter.backBatchLimit * 2) maxBatch ∧
      later.exhaustedBackNode = (if available.length ≤ iter.backBatchLimit then some node else none) ∧
      (available.length ≤ iter.backBatchLimit → later.backPartial = none) := by
  subst same
  have size : ((set.heap.cells node).take ((set.heap.cells node).length - iter.backTruncate node (set.heap.cells node))).length =
      (set.heap.cells node).length - iter.backTruncate node (set.heap.cells node) := by
    simp
  simp only [installBackBatch, found, size, min_eq_left_iff]
  refine ⟨_, _, rfl, reverse_slice (Nat.sub_le ..) _, ?_⟩
  split
  next whole => exact ⟨rfl, rfl, rfl, rfl, rfl, fun _ => rfl⟩
  next more => exact ⟨rfl, rfl, rfl, rfl, rfl, fun whole => absurd whole more⟩

/-- An installed batch covers what is live beyond the cursor. It is empty only if its node holds
nothing beyond it, and the node is finished then. -/
theorem installBackBatch_fit (fit : set.layout.Fit watch)
    (side : Side (· > ·) watch set.heap iter.currentBackValue [] iter.exhaustedBackNode)
    (fresh : iter.currentBackValue = none → iter.backPartial = none) (limit : 0 < iter.backBatchLimit) :
    (installBackBatch set iter = none ∧ ∀ wanted, watch.live wanted → ¬ Past (· > ·) iter.currentBackValue wanted) ∨
    ∃ batch later, installBackBatch set iter = some (batch, later) ∧ later.forward = iter.forward ∧ later.met = iter.met ∧
      later.currentBackValue = iter.currentBackValue ∧ 0 < later.backBatchLimit ∧
      Side (· > ·) watch set.heap later.currentBackValue batch.reverse later.exhaustedBackNode ∧
      (batch = [] → ∃ entry node, iter.backEntry set.index.index = some (entry, node) ∧ (entry, node) ∈ set.layout.index ∧
        later.exhaustedBackNode = some node ∧ ∀ item ∈ set.heap.cells node, ¬ Past (· > ·) iter.currentBackValue (key item)) := by
  obtain ⟨ended, chosen⟩ := backEntry_spec fit side
  cases found : iter.backEntry set.index.index with
  | none => exact Or.inl ⟨by simp only [installBackBatch, found], ended found⟩
  | some pick =>
    obtain ⟨entry, node⟩ := pick
    obtain ⟨linked, next⟩ := chosen entry node found
    have sorted : Node.Sorted (set.heap.cells node) := fit.sound.sorted node
    have ahead : ∀ item, item ∈ (set.heap.cells node).take
        ((set.heap.cells node).length - iter.backTruncate node (set.heap.cells node)) ↔ _ := mem_take_backTruncate sorted fresh
    have ordered := sorted.take (i := (set.heap.cells node).length - iter.backTruncate node (set.heap.cells node))
    generalize same : (set.heap.cells node).take ((set.heap.cells node).length - iter.backTruncate node (set.heap.cells node)) =
      available at ahead ordered
    obtain ⟨batch, later, result, reversed, frame, met, cursor, grown, exhausted, _⟩ := installBackBatch_eq set found same
    have installed : Side (· > ·) watch set.heap _ _ _ := Side.install (fit.sound.allocated entry node linked)
      (List.pairwise_reverse.mpr ordered) (fun item => List.mem_reverse.trans (ahead item))
      (fun item member => fit.present.seen item ⟨entry, node, linked, member⟩) (fit.exact linked) next iter.backBatchLimit
    refine Or.inr ⟨batch, later, result, frame, met, cursor, ?_, ?_, fun empty => ?_⟩
    · rw [grown]
      exact lt_min (by omega) (by decide)
    · rw [cursor, exhausted, reversed]
      simpa only [List.length_reverse] using installed
    · have drained : available = [] := by
        rw [empty, List.reverse_nil, eq_comm, List.take_eq_nil_iff] at reversed
        exact List.reverse_eq_nil_iff.mp (reversed.resolve_left limit.ne')
      refine ⟨entry, node, rfl, linked, ?_, fun item member past => ?_⟩
      · rw [exhausted, drained]
        rfl
      · exact List.not_mem_nil (drained ▸ (ahead item).mpr ⟨member, past⟩)

/-- An installed batch may be empty, but then the node the cursor routes to is finished
and the next one is read. -/
private theorem installBackBatch_spec (tidy : set.layout.Tidy) (present : watch.Present set.layout)
    (side : Side (· > ·) watch set.heap iter.currentBackValue [] iter.exhaustedBackNode)
    (fresh : iter.currentBackValue = none → iter.backPartial = none) (limit : 0 < iter.backBatchLimit) :
    (installBackBatch set iter = none ∧ ∀ wanted, watch.live wanted → ¬ Past (· > ·) iter.currentBackValue wanted) ∨
    ∃ batch later, installBackBatch set iter = some (batch, later) ∧ later.forward = iter.forward ∧ later.met = iter.met ∧
      later.currentBackValue = iter.currentBackValue ∧ 0 < later.backBatchLimit ∧
      Side (· > ·) watch set.heap later.currentBackValue batch.reverse later.exhaustedBackNode ∧
      (batch = [] → iter.currentBackValue ≠ none ∧ ¬ Stepped set.index.index iter ∧ Stepped set.index.index later) := by
  rcases installBackBatch_fit (tidy.fit present) side fresh limit with
    ended | ⟨batch, later, result, frame, met, cursor, limit, installed, drained⟩
  · exact Or.inl ended
  · refine Or.inr ⟨batch, later, result, frame, met, cursor, limit, installed, fun empty => ?_⟩
    obtain ⟨entry, node, found, linked, exhausted, spent⟩ := drained empty
    -- no value of the node lies beyond the cursor, so neither does its key
    have behind : ¬ Past (· > ·) iter.currentBackValue entry := by
      obtain ⟨⟨top, member, level⟩, _⟩ := (Node.maxKey_eq_some (tidy.sound.sorted node)).mp (tidy.tight entry node linked)
      exact level ▸ spent top member
    have fixed : ¬ Stepped set.index.index iter := fun stepped => behind (stepped.past found)
    refine ⟨fun missing => behind fun last there => (by cases missing.symm.trans there), fixed, entry, node, ?_, exhausted⟩
    have candidate := stepped_of_ne found fixed
    simpa only [backCandidate, cursor] using candidate

theorem nextBack_concat {heap : Heap α} {value : α} {earlier : List α} {later : Iter α} (unmet : iter.met = false)
    (ready : iter.backBatch set = some (earlier ++ [value], later)) (same : later.met = iter.met)
    (side : Side (· > ·) watch heap later.currentBackValue (earlier ++ [value]).reverse later.exhaustedBackNode)
    (limit : 0 < later.backBatchLimit) (fuel : Nat) :
    ∃ result after, nextBack set (fuel + 1) iter = some (result, after) ∧ after.forward = later.forward ∧
      Draws (· > ·) watch heap later.currentBackValue later.currentFrontValue after.backward result after.met := by
  rw [List.reverse_append, List.reverse_singleton, List.singleton_append] at side
  have unseen : (later.currentBackValue.any fun last => decide (key last ≤ key value)) = false :=
    back_unseen.mpr (side.beyond value List.mem_cons_self)
  have least : ∀ wanted, watch.live wanted → Past (· > ·) later.currentBackValue wanted → ¬ wanted > key value :=
    fun _ lives past => side.least lives past
  simp only [nextBack, unmet, ready, List.getLast?_concat, List.dropLast_concat, unseen, Bool.false_eq_true, if_false]
  split
  next reached =>
    obtain ⟨last, there, beyond⟩ := (Option.any_eq_true ..).mp reached
    exact ⟨_, _, rfl, rfl, .crossed value last least there (by simpa using beyond)⟩
  next short =>
    refine ⟨_, _, rfl, rfl, ?_⟩
    rw [same.trans unmet]
    exact .yields value (side.beyond value List.mem_cons_self) least (side.known value List.mem_cons_self)
      (side.exact value List.mem_cons_self) (front_unseen.mp (Bool.eq_false_iff.mpr short))
      ⟨side.pop, fun missing => (by cases missing), limit⟩ rfl

private theorem nextBack_install (tidy : set.layout.Tidy) (present : watch.Present set.layout) (fuel : Nat)
    (ready : iter.backward.Ready (· > ·) watch set.heap) (unmet : iter.met = false) (idle : iter.currentBackBatch = none)
    (passes : Stepped set.index.index iter ∨ 0 < fuel) :
    ∃ result after, nextBack set (fuel + 1) iter = some (result, after) ∧ after.forward = iter.forward ∧
      Draws (· > ·) watch set.heap iter.currentBackValue iter.currentFrontValue after.backward result after.met := by
  induction fuel using Nat.strong_induction_on generalizing iter with
  | _ fuel ih =>
    have side : Side (· > ·) watch set.heap iter.currentBackValue [] iter.exhaustedBackNode := by
      simpa only [backward, idle, Option.map_none, Option.getD_none] using ready.side
    rcases installBackBatch_spec tidy present side (fun missing => (ready.fresh missing).2.2) ready.limit with
      ⟨ended, done⟩ | ⟨batch, later, result, frame, same, cursor, limit, side, empty⟩
    · refine ⟨none, iter, by simp [nextBack, unmet, backBatch, idle, ended], rfl, ?_⟩
      rw [unmet]
      exact .ended done ready rfl
    have there : iter.backBatch set = some (batch, later) := by simp only [backBatch, idle, result]
    have other : later.currentFrontValue = iter.currentFrontValue := congrArg Direction.cursor frame
    rcases List.eq_nil_or_concat batch with rfl | ⟨earlier, value, rfl⟩
    · obtain ⟨moved, fixed, stepped⟩ := empty rfl
      obtain ⟨less, rfl⟩ := Nat.exists_eq_add_one.mpr (passes.resolve_left fixed)
      have rest : ({ later with currentBackBatch := none } : Iter α).backward.Ready (· > ·) watch set.heap :=
        ⟨side, fun missing => absurd (cursor.symm.trans missing) moved, limit⟩
      have dropped : nextBack set (less + 2) iter = nextBack set (less + 1) { later with currentBackBatch := none } := by
        rw [nextBack]
        simp only [unmet, Bool.false_eq_true, if_false, there, List.getLast?_nil]
      obtain ⟨result, after, ran, kept, draws⟩ := ih less (Nat.lt_succ_self less) rest (same.trans unmet) rfl (Or.inl stepped)
      exact ⟨result, after, dropped.trans ran, kept.trans frame, cursor ▸ other ▸ draws⟩
    · rw [List.concat_eq_append] at there side
      obtain ⟨result, after, ran, kept, draws⟩ := nextBack_concat unmet there same side limit fuel
      exact ⟨result, after, ran, kept.trans frame, cursor ▸ other ▸ draws⟩

/-- Three passes of the loop are enough: an empty batch is dropped, and the node of the
cursor may hold nothing below it. -/
theorem nextBack_draws (tidy : set.layout.Tidy) (present : watch.Present set.layout)
    (ready : iter.backward.Ready (· > ·) watch set.heap) (unmet : iter.met = false) (fuel : Nat) :
    ∃ result after, nextBack set (fuel + 3) iter = some (result, after) ∧ after.forward = iter.forward ∧
      Draws (· > ·) watch set.heap iter.currentBackValue iter.currentFrontValue after.backward result after.met := by
  cases held : iter.currentBackBatch with
  | none => exact nextBack_install tidy present (fuel + 2) ready unmet held (Or.inr (Nat.succ_pos _))
  | some batch =>
    have side := ready.side
    simp only [backward, held, Option.map_some, Option.getD_some] at side
    rcases List.eq_nil_or_concat batch with rfl | ⟨earlier, value, rfl⟩
    · have dropped : nextBack set (fuel + 3) iter = nextBack set (fuel + 2) { iter with currentBackBatch := none } := by
        rw [nextBack]
        simp only [unmet, Bool.false_eq_true, if_false, backBatch, held, List.getLast?_nil]
      rw [dropped]
      have rest : ({ iter with currentBackBatch := none } : Iter α).backward.Ready (· > ·) watch set.heap :=
        ⟨side, fun missing => ⟨rfl, (ready.fresh missing).2⟩, ready.limit⟩
      exact nextBack_install tidy present (fuel + 1) rest unmet rfl (Or.inr (Nat.succ_pos _))
    · rw [List.concat_eq_append] at held side
      exact nextBack_concat unmet (by simp only [backBatch, held]) rfl side ready.limit (fuel + 2)

theorem next_fuel {fuel : Nat} {outcome : Option α × Iter α} (ran : next set fuel iter = some outcome) (more : Nat) :
    next set (fuel + more) iter = some outcome := by
  induction fuel generalizing iter with
  | zero => cases ran
  | succ fuel ih =>
    rw [Nat.add_right_comm, next]
    rw [next] at ran
    split
    next met => rwa [if_pos met] at ran
    next unmet =>
      rw [if_neg unmet] at ran
      split <;> simp only [*] at ran
      · exact ran
      · exact ih ran
      · simp only
        split
        next seen =>
          rw [if_pos seen] at ran
          exact ih ran
        next fresh => rwa [if_neg fresh] at ran

theorem nextBack_fuel {fuel : Nat} {outcome : Option α × Iter α} (ran : nextBack set fuel iter = some outcome) (more : Nat) :
    nextBack set (fuel + more) iter = some outcome := by
  induction fuel generalizing iter with
  | zero => cases ran
  | succ fuel ih =>
    rw [Nat.add_right_comm, nextBack]
    rw [nextBack] at ran
    split
    next met => rwa [if_pos met] at ran
    next unmet =>
      rw [if_neg unmet] at ran
      split <;> simp only [*] at ran
      · exact ran
      · split <;> simp only [*] at ran
        · exact ih ran
        · simp only
          split
          next seen =>
            rw [if_pos seen] at ran
            exact ih ran
          next fresh => rwa [if_neg fresh] at ran

/-- A call as the passes of its loop, one constructor for each way a pass goes. -/
inductive Nexts (set : BTreeSet α κ) : Iter α → Option α → Iter α → Prop where
  | met {iter : Iter α} (met : iter.met = true) : Nexts set iter none iter
  | ended {iter : Iter α} (unmet : iter.met = false) (ended : iter.frontBatch set = none) : Nexts set iter none iter
  | empty {iter later after : Iter α} {result : Option α} (unmet : iter.met = false)
      (ready : iter.frontBatch set = some ([], later)) (further : Nexts set { later with currentFrontBatch := none } result after) :
      Nexts set iter result after
  | skipped {iter later after : Iter α} {result : Option α} {value : α} {rest : List α} (unmet : iter.met = false)
      (ready : iter.frontBatch set = some (value :: rest, later)) (behind : ¬ Past (· < ·) later.currentFrontValue (key value))
      (further : Nexts set { later with currentFrontBatch := some rest } result after) : Nexts set iter result after
  | crossed {iter later : Iter α} {value : α} {rest : List α} (unmet : iter.met = false)
      (ready : iter.frontBatch set = some (value :: rest, later)) (past : Past (· < ·) later.currentFrontValue (key value))
      (reached : ¬ Past (· > ·) later.currentBackValue (key value)) :
      Nexts set iter none { later with currentFrontBatch := some rest, met := true }
  | yields {iter later : Iter α} {value : α} {rest : List α} (unmet : iter.met = false)
      (ready : iter.frontBatch set = some (value :: rest, later)) (past : Past (· < ·) later.currentFrontValue (key value))
      (short : Past (· > ·) later.currentBackValue (key value)) :
      Nexts set iter (some value) { later with currentFrontBatch := some rest, currentFrontValue := some value }

theorem next_nexts {fuel : Nat} {result : Option α} {after : Iter α} (ran : next set fuel iter = some (result, after)) :
    Nexts set iter result after := by
  induction fuel generalizing iter with
  | zero => cases ran
  | succ fuel ih =>
    rw [next] at ran
    split at ran
    next met =>
      cases ran
      exact .met met
    next unmet =>
      have unmet := Bool.eq_false_iff.mpr unmet
      split at ran
      next ended =>
        cases ran
        exact .ended unmet ended
      next ready => exact .empty unmet ready (ih ran)
      next value rest later ready =>
        simp only at ran
        split at ran
        next seen =>
          refine .skipped unmet ready (fun past => ?_) (ih ran)
          cases seen.symm.trans (front_unseen.mpr past)
        next fresh =>
          have past : Past (· < ·) later.currentFrontValue (key value) := front_unseen.mp (Bool.eq_false_iff.mpr fresh)
          split at ran
          next reached =>
            cases ran
            refine .crossed unmet ready past fun short => ?_
            cases reached.symm.trans (back_unseen.mpr short)
          next short =>
            cases ran
            exact .yields unmet ready past (back_unseen.mp (Bool.eq_false_iff.mpr short))

theorem frontBatch_none (ended : iter.frontBatch set = none) :
    iter.currentFrontBatch = none ∧ iter.frontEntry set.index.index = none := by
  unfold frontBatch at ended
  split at ended
  next => cases ended
  next idle =>
    refine ⟨idle, ?_⟩
    unfold installFrontBatch at ended
    split at ended
    next found => exact found
    next => cases ended

theorem frontBatch_frame {batch : List α} {later : Iter α} (ready : iter.frontBatch set = some (batch, later)) :
    later.backward = iter.backward ∧ later.met = iter.met ∧ later.currentFrontValue = iter.currentFrontValue ∧
      later.currentBackValue = iter.currentBackValue ∧
      (0 < iter.frontBatchLimit → 0 < later.frontBatchLimit ∧ (batch = [] → iter.frontPartial = none → later.frontPartial = none)) := by
  unfold frontBatch at ready
  split at ready
  next =>
    cases ready
    exact ⟨rfl, rfl, rfl, rfl, fun positive => ⟨positive, fun _ fresh => fresh⟩⟩
  next =>
    cases found : iter.frontEntry set.index.index with
    | none =>
      simp only [installFrontBatch, found] at ready
      cases ready
    | some pick =>
      obtain ⟨later, ran, frame, met, cursor, grown, _, fresh⟩ := installFrontBatch_eq set found rfl
      cases ready.symm.trans ran
      refine ⟨frame, met, cursor, congrArg Direction.cursor frame, fun positive => ⟨?_, fun empty _ => fresh ?_⟩⟩
      · rw [grown]
        exact lt_min (by omega) (by decide)
      · rw [(List.take_eq_nil_iff.mp empty).resolve_left positive.ne']
        exact Nat.zero_le _

inductive NextBacks (set : BTreeSet α κ) : Iter α → Option α → Iter α → Prop where
  | met {iter : Iter α} (met : iter.met = true) : NextBacks set iter none iter
  | ended {iter : Iter α} (unmet : iter.met = false) (ended : iter.backBatch set = none) : NextBacks set iter none iter
  | empty {iter later after : Iter α} {result : Option α} (unmet : iter.met = false)
      (ready : iter.backBatch set = some ([], later)) (further : NextBacks set { later with currentBackBatch := none } result after) :
      NextBacks set iter result after
  | skipped {iter later after : Iter α} {result : Option α} {value : α} {rest : List α} (unmet : iter.met = false)
      (ready : iter.backBatch set = some (rest ++ [value], later)) (behind : ¬ Past (· > ·) later.currentBackValue (key value))
      (further : NextBacks set { later with currentBackBatch := some rest } result after) : NextBacks set iter result after
  | crossed {iter later : Iter α} {value : α} {rest : List α} (unmet : iter.met = false)
      (ready : iter.backBatch set = some (rest ++ [value], later)) (past : Past (· > ·) later.currentBackValue (key value))
      (reached : ¬ Past (· < ·) later.currentFrontValue (key value)) :
      NextBacks set iter none { later with currentBackBatch := some rest, met := true }
  | yields {iter later : Iter α} {value : α} {rest : List α} (unmet : iter.met = false)
      (ready : iter.backBatch set = some (rest ++ [value], later)) (past : Past (· > ·) later.currentBackValue (key value))
      (short : Past (· < ·) later.currentFrontValue (key value)) :
      NextBacks set iter (some value) { later with currentBackBatch := some rest, currentBackValue := some value }

theorem nextBack_nextBacks {fuel : Nat} {result : Option α} {after : Iter α} (ran : nextBack set fuel iter = some (result, after)) :
    NextBacks set iter result after := by
  induction fuel generalizing iter with
  | zero => cases ran
  | succ fuel ih =>
    rw [nextBack] at ran
    split at ran
    next met =>
      cases ran
      exact .met met
    next unmet =>
      have unmet := Bool.eq_false_iff.mpr unmet
      split at ran
      next ended =>
        cases ran
        exact .ended unmet ended
      next batch later ready =>
        rcases List.eq_nil_or_concat batch with rfl | ⟨rest, value, rfl⟩
        · exact .empty unmet ready (ih ran)
        · rw [List.concat_eq_append] at ready ran
          simp only [List.getLast?_concat, List.dropLast_concat] at ran
          split at ran
          next seen =>
            refine .skipped unmet ready (fun past => ?_) (ih ran)
            cases seen.symm.trans (back_unseen.mpr past)
          next fresh =>
            have past : Past (· > ·) later.currentBackValue (key value) := back_unseen.mp (Bool.eq_false_iff.mpr fresh)
            split at ran
            next reached =>
              cases ran
              refine .crossed unmet ready past fun short => ?_
              cases reached.symm.trans (front_unseen.mpr short)
            next short =>
              cases ran
              exact .yields unmet ready past (front_unseen.mp (Bool.eq_false_iff.mpr short))

theorem backBatch_none (ended : iter.backBatch set = none) :
    iter.currentBackBatch = none ∧ iter.backEntry set.index.index = none := by
  unfold backBatch at ended
  split at ended
  next => cases ended
  next idle =>
    refine ⟨idle, ?_⟩
    unfold installBackBatch at ended
    split at ended
    next found => exact found
    next => cases ended

theorem backBatch_frame {batch : List α} {later : Iter α} (ready : iter.backBatch set = some (batch, later)) :
    later.forward = iter.forward ∧ later.met = iter.met ∧ later.currentBackValue = iter.currentBackValue ∧
      later.currentFrontValue = iter.currentFrontValue ∧
      (0 < iter.backBatchLimit → 0 < later.backBatchLimit ∧ (batch = [] → iter.backPartial = none → later.backPartial = none)) := by
  unfold backBatch at ready
  split at ready
  next =>
    cases ready
    exact ⟨rfl, rfl, rfl, rfl, fun positive => ⟨positive, fun _ fresh => fresh⟩⟩
  next =>
    cases found : iter.backEntry set.index.index with
    | none =>
      simp only [installBackBatch, found] at ready
      cases ready
    | some pick =>
      obtain ⟨batch, later, ran, reversed, frame, met, cursor, grown, _, fresh⟩ := installBackBatch_eq set found rfl
      cases ready.symm.trans ran
      refine ⟨frame, met, cursor, congrArg Direction.cursor frame, fun positive => ⟨?_, fun empty _ => fresh ?_⟩⟩
      · rw [grown]
        exact lt_min (by omega) (by decide)
      · rw [empty, List.reverse_nil, eq_comm, List.take_eq_nil_iff, List.reverse_eq_nil_iff] at reversed
        rw [reversed.resolve_left positive.ne']
        exact Nat.zero_le _

end Iter

end WorkTablesIndex
