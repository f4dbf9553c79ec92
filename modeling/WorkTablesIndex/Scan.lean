import WorkTablesIndex.Iter
import WorkTablesIndex.Reachability

/-! Scans over a set that complete calls keep changing. Both directions follow one
argument, for an order `r` that is `<` forwards and `>` backwards: a batch misses no
key that has been stored since the scan began, and a node that was exhausted holds
no such key beyond the cursor, because no call moves a stored key into an old node. -/

universe u v

namespace WorkTablesIndex
open SortedMap

variable {α : Type u} {κ : Type v} [Keyed α κ]

/-- The key lies beyond the last value the direction yielded. -/
def Past (r : κ → κ → Prop) (cursor : Option α) (wanted : κ) : Prop := ∀ last, cursor = some last → r (key last) wanted

/-- What is known of the set since the scan began: `live` are the keys, and `kept` the
values, that were stored all along, and `seen` the values that were stored at some time. -/
structure Watch (α : Type u) (κ : Type v) where
  live : κ → Prop
  kept : α → Prop
  seen : α → Prop

structure Watch.Continues (before after : Watch α κ) : Prop where
  live : ∀ wanted, after.live wanted → before.live wanted
  kept : ∀ value, after.kept value → before.kept value
  seen : ∀ value, before.seen value → after.seen value

structure Watch.Present [LinearOrder κ] (watch : Watch α κ) (layout : Layout α κ) : Prop where
  live : ∀ wanted, watch.live wanted → ∃ item, layout.Stored item ∧ key item = wanted
  kept : ∀ value, watch.kept value → layout.Stored value
  seen : ∀ value, layout.Stored value → watch.seen value

/-- One direction of a scan. The batch is in the order it is yielded in. -/
structure Side (r : κ → κ → Prop) (watch : Watch α κ) (heap : Heap α) (cursor : Option α) (batch : List α)
    (exhausted : Option NodeId) : Prop where
  sorted : batch.Pairwise fun first second => r (key first) (key second)
  beyond : ∀ item ∈ batch, Past r cursor (key item)
  known : ∀ item ∈ batch, watch.seen item
  exact : ∀ item ∈ batch, ∀ value, watch.kept value → key value = key item → value = item
  covers : ∀ wanted, watch.live wanted → Past r cursor wanted → ∀ item ∈ batch, ¬ r (key item) wanted →
    ∃ found ∈ batch, key found = wanted
  exhausted : ∀ node, exhausted = some node → node < heap.next ∧
    ∀ item ∈ heap.cells node, watch.live (key item) → Past r cursor (key item) → ∃ found ∈ batch, key found = key item

namespace Side
variable {r : κ → κ → Prop} {watch watch' : Watch α κ} {heap : Heap α} {cursor : Option α}
  {batch rest : List α} {exhausted : Option NodeId} {value : α}

theorem idle : Side r watch heap cursor [] none :=
  ⟨List.Pairwise.nil, by simp, by simp, by simp, by simp, by simp⟩

theorem mutate [LinearOrder κ] {before after : Layout α κ} (side : Side r watch before.heap cursor batch exhausted)
    (stays : before.Stays after) (present : watch.Present before) (continues : watch.Continues watch') :
    Side r watch' after.heap cursor batch exhausted := by
  refine ⟨side.sorted, side.beyond, fun item member => continues.seen item (side.known item member),
    fun item member other keeps => side.exact item member other (continues.kept other keeps),
    fun wanted lives => side.covers wanted (continues.live wanted lives), fun node same => ?_⟩
  obtain ⟨old, missing⟩ := side.exhausted node same
  refine ⟨old.trans_le stays.next, fun item member lives past => ?_⟩
  obtain ⟨earlier, there, level⟩ := stays.keys node old item member (present.live _ (continues.live _ lives))
  rw [← level] at lives past ⊢
  exact missing earlier there (continues.live _ lives) past

theorem least [IsStrictTotalOrder κ r] (side : Side r watch heap cursor (value :: rest) exhausted) {wanted : κ}
    (lives : watch.live wanted)
    (past : Past r cursor wanted) : ¬ r wanted (key value) := by
  intro before
  obtain ⟨found, member, rfl⟩ := side.covers wanted lives past value List.mem_cons_self (asymm before)
  rcases List.mem_cons.mp member with rfl | later
  · exact irrefl _ before
  · exact asymm before ((List.pairwise_cons.mp side.sorted).1 found later)

theorem pop [IsStrictTotalOrder κ r] (side : Side r watch heap cursor (value :: rest) exhausted) :
    Side r watch heap (some value) rest exhausted := by
  obtain ⟨above, ordered⟩ := List.pairwise_cons.mp side.sorted
  have further : ∀ wanted, Past r (some value) wanted → Past r cursor wanted := fun wanted past last same =>
    IsTrans.trans _ _ _ (side.beyond value List.mem_cons_self last same) (past value rfl)
  have remains : ∀ wanted, Past r (some value) wanted → (∃ found ∈ value :: rest, key found = wanted) →
      ∃ found ∈ rest, key found = wanted := by
    intro wanted past present
    obtain ⟨found, member, rfl⟩ := present
    rcases List.mem_cons.mp member with rfl | later
    · exact absurd (past found rfl) (irrefl _)
    · exact ⟨found, later, rfl⟩
  refine ⟨ordered, fun item member last same => ?_, fun item member => side.known item (List.mem_cons_of_mem _ member),
    fun item member => side.exact item (List.mem_cons_of_mem _ member),
    fun wanted lives past item member reaches => ?_, fun node same => ?_⟩
  · cases same
    exact above item member
  · exact remains wanted past (side.covers wanted lives (further wanted past) item (List.mem_cons_of_mem _ member) reaches)
  · obtain ⟨old, missing⟩ := side.exhausted node same
    exact ⟨old, fun item member lives past => remains _ past (missing item member lives (further _ past))⟩

/-- A batch cloned from a node: the first values of it that lie beyond the cursor. -/
theorem install {node : NodeId} {available : List α} (old : node < heap.next)
    (ordered : available.Pairwise fun first second => r (key first) (key second))
    (ahead : ∀ item, item ∈ available ↔ item ∈ heap.cells node ∧ Past r cursor (key item))
    (known : ∀ item ∈ heap.cells node, watch.seen item)
    (exact : ∀ item ∈ heap.cells node, ∀ value, watch.kept value → key value = key item → value = item)
    (next : ∀ wanted, watch.live wanted → Past r cursor wanted →
      (∃ item ∈ heap.cells node, key item = wanted) ∨ ∀ item ∈ heap.cells node, r (key item) wanted) (limit : Nat) :
    Side r watch heap cursor (available.take limit) (if available.length ≤ limit then some node else none) := by
  have inside : ∀ item ∈ available.take limit, item ∈ available := fun item => List.mem_of_mem_take
  refine ⟨ordered.sublist (List.take_sublist limit available), fun item member => ((ahead item).mp (inside item member)).2,
    fun item member => known item ((ahead item).mp (inside item member)).1,
    fun item member => exact item ((ahead item).mp (inside item member)).1, fun wanted lives past item member reaches => ?_,
    fun other same => ?_⟩
  · rcases next wanted lives past with ⟨found, present, rfl⟩ | beyond
    · have there : found ∈ available := (ahead found).mpr ⟨present, past⟩
      rw [← List.take_append_drop limit available] at there
      rcases List.mem_append.mp there with early | late
      · exact ⟨found, early, rfl⟩
      · rw [← List.take_append_drop limit available] at ordered
        exact absurd ((List.pairwise_append.mp ordered).2.2 item member found late) reaches
    · exact absurd (beyond item ((ahead item).mp (inside item member)).1) reaches
  · split at same
    next whole =>
      cases same
      rw [List.take_of_length_le whole]
      exact ⟨old, fun item member _ past => ⟨item, (ahead item).mpr ⟨member, past⟩, rfl⟩⟩
    next => cases same

end Side

structure Direction (α : Type u) where
  cursor : Option α
  batch : Option (List α)
  exhausted : Option NodeId
  drawn : Option (NodeId × Nat)
  limit : Nat

/-- What holds between calls. Before the first value, a direction has not touched the set. -/
structure Direction.Ready (r : κ → κ → Prop) (watch : Watch α κ) (heap : Heap α) (direction : Direction α) : Prop where
  side : Side r watch heap direction.cursor (direction.batch.getD []) direction.exhausted
  fresh : direction.cursor = none → direction.batch = none ∧ direction.exhausted = none ∧ direction.drawn = none
  limit : 0 < direction.limit

/-- The outcomes of a call: the direction has ended, it met the other one, or it yields
the next value. No live key is passed over in any of them. -/
inductive Draws (r : κ → κ → Prop) (watch : Watch α κ) (heap : Heap α) (cursor other : Option α)
    (after : Direction α) : Option α → Bool → Prop where
  | ended (done : ∀ wanted, watch.live wanted → ¬ Past r cursor wanted) (ready : after.Ready r watch heap)
      (same : after.cursor = cursor) : Draws r watch heap cursor other after none false
  | crossed (value last : α) (least : ∀ wanted, watch.live wanted → Past r cursor wanted → ¬ r wanted (key value))
      (limit : other = some last) (reaches : ¬ r (key value) (key last)) : Draws r watch heap cursor other after none true
  | yields (value : α) (past : Past r cursor (key value))
      (least : ∀ wanted, watch.live wanted → Past r cursor wanted → ¬ r wanted (key value))
      (known : watch.seen value) (exact : ∀ item, watch.kept item → key item = key value → item = value)
      (short : ∀ last, other = some last → r (key value) (key last)) (ready : after.Ready r watch heap)
      (moved : after.cursor = some value) : Draws r watch heap cursor other after (some value) false

/-- A scan under way, seen from one of its directions: `front` are the values this
direction has yielded and `back` those of the other. -/
structure Progress (r : κ → κ → Prop) (watch : Watch α κ) (heap : Heap α) (own other : Direction α)
    (front back : List α) (met : Bool) : Prop where
  ordered : front.Pairwise fun first second => r (key first) (key second)
  reversed : back.Pairwise fun first second => r (key second) (key first)
  apart : ∀ first ∈ front, ∀ second ∈ back, r (key first) (key second)
  known : ∀ item, item ∈ front ∨ item ∈ back → watch.seen item
  exact : ∀ item, item ∈ front ∨ item ∈ back → ∀ value, watch.kept value → key value = key item → value = item
  yielded : ∀ wanted, watch.live wanted → (∃ item, (item ∈ front ∨ item ∈ back) ∧ key item = wanted) ∨
    met = false ∧ Past r own.cursor wanted ∧ Past (fun first second => r second first) other.cursor wanted
  own : met = false → own.cursor = front.getLast? ∧ own.Ready r watch heap
  other : met = false → other.cursor = back.getLast? ∧ other.Ready (fun first second => r second first) watch heap

namespace Progress
variable {r : κ → κ → Prop} {watch watch' : Watch α κ} {heap : Heap α} {own own' other : Direction α}
  {front back : List α} {met met' : Bool} {result : Option α}

theorem flip (progress : Progress r watch heap own other front back met) :
    Progress (fun first second => r second first) watch heap other own back front met := by
  refine ⟨progress.reversed, progress.ordered, fun first there second here => progress.apart second here first there,
    fun item member => progress.known item member.symm, fun item member => progress.exact item member.symm, fun wanted lives => ?_,
    progress.other, progress.own⟩
  rcases progress.yielded wanted lives with ⟨item, member, same⟩ | ⟨unmet, ahead, behind⟩
  · exact Or.inl ⟨item, member.symm, same⟩
  · exact Or.inr ⟨unmet, behind, ahead⟩

private theorem past_all [IsStrictTotalOrder κ r] {values : List α}
    (ordered : values.Pairwise fun first second => r (key first) (key second)) {wanted : κ}
    (past : Past r values.getLast? wanted) : ∀ item ∈ values, r (key item) wanted := by
  intro item member
  rcases List.eq_nil_or_concat values with rfl | ⟨earlier, last, rfl⟩
  · cases member
  · rw [List.concat_eq_append] at ordered past member
    have final : r (key last) wanted := past last (by simp)
    rcases List.mem_append.mp member with before | here
    · exact IsTrans.trans _ _ _ ((List.pairwise_append.mp ordered).2.2 item before last (by simp)) final
    · rw [List.mem_singleton.mp here]
      exact final

theorem draw [IsStrictTotalOrder κ r] (progress : Progress r watch heap own other front back false)
    (draws : Draws r watch heap own.cursor other.cursor own' result met') :
    Progress r watch heap own' other (front ++ result.toList) back met' := by
  cases draws with
  | ended done ready same =>
    rw [Option.toList_none, List.append_nil]
    refine ⟨progress.ordered, progress.reversed, progress.apart, progress.known, progress.exact, fun wanted lives => ?_,
      fun unmet => ⟨same.trans (progress.own unmet).1, ready⟩, progress.other⟩
    rw [same]
    exact progress.yielded wanted lives
  | crossed value last least limit reaches =>
    rw [Option.toList_none, List.append_nil]
    refine ⟨progress.ordered, progress.reversed, progress.apart, progress.known, progress.exact, fun wanted lives => ?_,
      fun unmet => (by cases unmet), fun unmet => (by cases unmet)⟩
    rcases progress.yielded wanted lives with present | ⟨_, ahead, behind⟩
    · exact Or.inl present
    · have short : r wanted (key last) := behind last limit
      rcases trichotomous_of r wanted (key value) with before | rfl | after
      · exact absurd before (least wanted lives ahead)
      · exact absurd short reaches
      · exact absurd (IsTrans.trans _ _ _ after short) reaches
  | yields value past least known exact short ready moved =>
    obtain ⟨atFront, _⟩ := progress.own rfl
    obtain ⟨atBack, _⟩ := progress.other rfl
    have above : ∀ item ∈ front, r (key item) (key value) := past_all progress.ordered (atFront ▸ past)
    have below : ∀ item ∈ back, r (key value) (key item) :=
      past_all (r := Function.swap r) progress.reversed fun last same => short last (atBack.trans same)
    rw [Option.toList_some]
    refine ⟨List.pairwise_append.mpr ⟨progress.ordered, List.pairwise_singleton _ _, ?_⟩, progress.reversed, ?_, ?_, ?_, ?_, ?_,
      progress.other⟩
    · intro first member second single
      cases List.mem_singleton.mp single
      exact above first member
    · intro first member
      rcases List.mem_append.mp member with earlier | here
      · exact progress.apart first earlier
      · cases List.mem_singleton.mp here
        exact below
    · intro item member
      rw [List.mem_append, List.mem_singleton] at member
      rcases member with (earlier | rfl) | there
      · exact progress.known item (Or.inl earlier)
      · exact known
      · exact progress.known item (Or.inr there)
    · intro item member
      rw [List.mem_append, List.mem_singleton] at member
      rcases member with (earlier | rfl) | there
      · exact progress.exact item (Or.inl earlier)
      · exact exact
      · exact progress.exact item (Or.inr there)
    · intro wanted lives
      rcases progress.yielded wanted lives with ⟨item, member, same⟩ | ⟨_, ahead, behind⟩
      · exact Or.inl ⟨item, member.imp_left (List.mem_append_left _), same⟩
      · rcases trichotomous_of r wanted (key value) with before | rfl | after
        · exact absurd before (least wanted lives ahead)
        · exact Or.inl ⟨value, Or.inl (by simp), rfl⟩
        · refine Or.inr ⟨rfl, ?_, behind⟩
          rw [moved]
          intro last same
          cases same
          exact after
    · exact fun _ => ⟨by rw [moved, List.getLast?_append]; rfl, ready⟩

/-- Once a direction has nothing left to yield, every live key has been yielded. -/
theorem complete [IsStrictTotalOrder κ r] (progress : Progress r watch heap own other front back false)
    (draws : Draws r watch heap own.cursor other.cursor own' none met') {wanted : κ} (lives : watch.live wanted) :
    ∃ item, (item ∈ front ∨ item ∈ back) ∧ key item = wanted := by
  cases draws with
  | ended done ready same =>
    rcases progress.yielded wanted lives with present | ⟨_, ahead, _⟩
    · exact present
    · exact absurd ahead (done wanted lives)
  | crossed value last least limit reaches =>
    have after : Progress r watch heap own' other (front ++ Option.toList none) back true :=
      progress.draw (.crossed value last least limit reaches)
    rw [Option.toList_none, List.append_nil] at after
    rcases after.yielded wanted lives with present | ⟨unmet, _⟩
    · exact present
    · cases unmet

theorem mutate [LinearOrder κ] {before after : Layout α κ} (progress : Progress r watch before.heap own other front back met)
    (stays : before.Stays after) (present : watch.Present before) (continues : watch.Continues watch') :
    Progress r watch' after.heap own other front back met := by
  refine ⟨progress.ordered, progress.reversed, progress.apart, fun item member => continues.seen item (progress.known item member),
    fun item member value keeps => progress.exact item member value (continues.kept value keeps),
    fun wanted lives => progress.yielded wanted (continues.live wanted lives), fun unmet => ?_, fun unmet => ?_⟩
  · obtain ⟨cursor, ready⟩ := progress.own unmet
    exact ⟨cursor, ready.side.mutate stays present continues, ready.fresh, ready.limit⟩
  · obtain ⟨cursor, ready⟩ := progress.other unmet
    exact ⟨cursor, ready.side.mutate stays present continues, ready.fresh, ready.limit⟩

end Progress

variable [LinearOrder κ]

def Separated (r : κ → κ → Prop) (layout : Layout α κ) : Prop :=
  ∀ first ∈ layout.index, ∀ second ∈ layout.index, r first.1 second.1 →
    ∀ left ∈ layout.heap.cells first.2, ∀ right ∈ layout.heap.cells second.2, r (key left) (key right)

def Awaits (r : κ → κ → Prop) (watch : Watch α κ) (cursor : Option α) (values : List α) : Prop :=
  ∃ item ∈ values, watch.live (key item) ∧ Past r cursor (key item)

section Choice
variable {r : κ → κ → Prop} {watch : Watch α κ} {layout : Layout α κ} {cursor : Option α} {exhausted : Option NodeId}
  {entry : κ} {node : NodeId}

theorem Layout.Routed.separated (routed : layout.Routed) : Separated (· < ·) layout := by
  intro first member second there before left leftIn right rightIn
  have low : key left ≤ first.1 := (routed first.1 first.2 member left leftIn).within second there before
  exact low.trans_lt ((routed second.1 second.2 there right rightIn).above first member before)

theorem Layout.Routed.separated_back (routed : layout.Routed) : Separated (· > ·) layout :=
  fun first member second there after left leftIn right rightIn =>
    routed.separated second there first member after right rightIn left leftIn

theorem Layout.Tidy.separated (tidy : layout.Tidy) : Separated (· < ·) layout := tidy.routed.separated

/-- The key is stored, in a node whose boundary is not below it. -/
def Layout.Settled (layout : Layout α κ) (wanted : κ) : Prop :=
  ∃ entry node item, (entry, node) ∈ layout.index ∧ item ∈ layout.heap.cells node ∧ key item = wanted ∧ wanted ≤ entry

/-- What a scan relies on whenever it reads the set. -/
structure Layout.Fit (watch : Watch α κ) (layout : Layout α κ) : Prop where
  sound : layout.Sound
  routed : layout.Routed
  present : watch.Present layout
  settled : ∀ wanted, watch.live wanted → layout.Settled wanted

theorem Layout.Tidy.fit (tidy : layout.Tidy) (present : watch.Present layout) : layout.Fit watch := by
  refine ⟨tidy.sound, tidy.routed, present, fun wanted lives => ?_⟩
  obtain ⟨item, ⟨entry, node, linked, member⟩, rfl⟩ := present.live wanted lives
  exact ⟨entry, node, item, linked, member, rfl, tidy.le linked member⟩

theorem Layout.Fit.le (fit : layout.Fit watch) (linked : (entry, node) ∈ layout.index) {item : α}
    (member : item ∈ layout.heap.cells node) (lives : watch.live (key item)) : key item ≤ entry := by
  obtain ⟨other, target, held, there, present, same, below⟩ := fit.settled _ lives
  have here := fit.routed entry node linked item member
  have beside := fit.routed other target there held present
  rw [same] at beside
  cases beside.unique there linked here
  exact below

theorem Layout.Fit.exact (fit : layout.Fit watch) (linked : (entry, node) ∈ layout.index) :
    ∀ item ∈ layout.heap.cells node, ∀ value, watch.kept value → key value = key item → value = item := by
  intro item member value keeps same
  have inside := fit.routed entry node linked item member
  have there := fit.routed.stored_here linked (same ▸ inside) (fit.present.kept value keeps)
  exact (fit.sound.sorted node).key_unique there member same

/-- A linked node that no awaiting node precedes holds each live key beyond the cursor,
or lies wholly before it. -/
private theorem reaches [IsStrictTotalOrder κ r] (separated : Separated r layout) (present : watch.Present layout)
    (linked : (entry, node) ∈ layout.index)
    (first : ∀ other ∈ layout.index, Awaits r watch cursor (layout.heap.cells other.2) → ¬ r other.1 entry) :
    ∀ wanted, watch.live wanted → Past r cursor wanted →
      (∃ item ∈ layout.heap.cells node, key item = wanted) ∨ ∀ item ∈ layout.heap.cells node, r (key item) wanted := by
  intro wanted lives past
  obtain ⟨item, ⟨other, target, there, member⟩, rfl⟩ := present.live wanted lives
  rcases trichotomous_of r other entry with before | rfl | after
  · exact absurd before (first (other, target) there ⟨item, member, lives, past⟩)
  · exact Or.inl ⟨item, value_unique linked there ▸ member, rfl⟩
  · exact Or.inr fun left leftIn => separated (entry, node) linked (other, target) there after left leftIn item member

/-- The two ways to reach the next node both pass over no awaiting one. -/
theorem stepPast_spec [IsStrictTotalOrder κ r] (separated : Separated r layout) (present : watch.Present layout)
    (side : Side r watch layout.heap cursor [] exhausted) {candidate : Option (κ × NodeId)} {beside : κ → Option (κ × NodeId)}
    (linked : ∀ entry, candidate = some entry → entry ∈ layout.index)
    (nearest : ∀ other ∈ layout.index, Awaits r watch cursor (layout.heap.cells other.2) →
      ∃ entry, candidate = some entry ∧ ¬ r other.1 entry.1)
    (besideLinked : ∀ entry next, beside entry = some next → next ∈ layout.index)
    (adjacent : ∀ entry, ∀ other ∈ layout.index, r entry other.1 → ∃ next, beside entry = some next ∧ ¬ r other.1 next.1) :
    (Iter.stepPast exhausted beside candidate = none → ∀ wanted, watch.live wanted → ¬ Past r cursor wanted) ∧
    ∀ entry node, Iter.stepPast exhausted beside candidate = some (entry, node) → (entry, node) ∈ layout.index ∧
      ∀ wanted, watch.live wanted → Past r cursor wanted →
        (∃ item ∈ layout.heap.cells node, key item = wanted) ∨ ∀ item ∈ layout.heap.cells node, r (key item) wanted := by
  -- the choice precedes or is every awaiting node
  have ahead : ∀ other ∈ layout.index, Awaits r watch cursor (layout.heap.cells other.2) →
      ∃ entry, Iter.stepPast exhausted beside candidate = some entry ∧ ¬ r other.1 entry.1 := by
    intro other there awaits
    obtain ⟨⟨entry, node⟩, rfl, before⟩ := nearest other there awaits
    simp only [Iter.stepPast]
    split
    next drained =>
      apply adjacent entry other there
      rcases trichotomous_of r other.1 entry with earlier | same | later
      · exact absurd earlier before
      · obtain ⟨item, member, lives, past⟩ := awaits
        have here : other.2 = node := value_unique (show (entry, other.2) ∈ layout.index from same ▸ there) (linked _ rfl)
        obtain ⟨_, gone, _⟩ := (side.exhausted node drained.symm).2 item (here ▸ member) lives past
        cases gone
      · exact later
    next => exact ⟨(entry, node), rfl, before⟩
  refine ⟨fun ended wanted lives past => ?_, fun entry node chosen => ?_⟩
  · obtain ⟨item, ⟨other, target, there, member⟩, rfl⟩ := present.live wanted lives
    obtain ⟨_, chosen, _⟩ := ahead (other, target) there ⟨item, member, lives, past⟩
    cases ended.symm.trans chosen
  · have member : (entry, node) ∈ layout.index := by
      cases candidate with
      | none => cases chosen
      | some first =>
        simp only [Iter.stepPast] at chosen
        split at chosen
        · exact besideLinked _ _ chosen
        · cases chosen
          exact linked _ rfl
    refine ⟨member, reaches separated present member fun other there awaits => ?_⟩
    obtain ⟨found, same, before⟩ := ahead other there awaits
    cases chosen.symm.trans same
    exact before

end Choice

end WorkTablesIndex
