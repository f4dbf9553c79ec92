import Mathlib.Data.List.Induction
import WorkTablesIndex.Range
import WorkTablesIndex.IterLaws

/-! One call of a scan where routing keys may be stale. A node whose key is behind its contents can be
chosen with nothing left to yield, but only once: it is then the exhausted one, and its neighbour has
elements beyond the cursor. -/

universe u v

namespace WorkTablesIndex
open SortedMap

variable {α : Type u} {κ : Type v} [LinearOrder κ] [Keyed α κ]

/-- The linked nodes hold sorted elements, each of them in the node it routes to: above the keys before
the node's own and, unless the node is the last one, at most its own. -/
structure Layout.Scannable (layout : Layout α κ) : Prop where
  filled : ∀ entry node, (entry, node) ∈ layout.index → layout.heap.cells node ≠ []
  sorted : ∀ entry node, (entry, node) ∈ layout.index → Node.Sorted (layout.heap.cells node)
  routed : layout.Routed

theorem Layout.Sound.scannable {layout : Layout α κ} (sound : layout.Sound) (routed : layout.Routed) : layout.Scannable :=
  ⟨sound.filled, fun _ node _ => sound.sorted node, routed⟩

theorem BTreeSet.Tidy.removeNode_scannable {set : BTreeSet α κ} (tidy : Tidy set) (emitCdc : Bool) (wanted : κ) :
    (removeNode id emitCdc wanted set).2.layout.Scannable := by
  have unchanged : set.layout.Scannable := tidy.valid.sound.scannable tidy.layout.routed
  have erased : ∀ {entry node} (position : Nat), (entry, node) ∈ set.index.index → 1 < (set.heap.cells node).length →
      (set.layout.rewrite node ((set.heap.cells node).eraseIdx position)).Scannable := by
    intro entry node position linked many
    have sorted : Node.Sorted (set.heap.cells node) := tidy.valid.sound.sorted node
    apply (tidy.valid.sound.rewrite (Node.eraseIdx_sorted sorted position) (eraseIdx_ne_nil many position)).scannable
    apply tidy.layout.routed.rewrite tidy.valid.sound linked
    exact fun item member => tidy.layout.routed entry node linked item (List.mem_of_mem_eraseIdx member)
  rcases removeNode_cases tidy.valid emitCdc wanted with ⟨_, result⟩ | ⟨entry, node, linked, _, removal⟩
  · rw [result]
    exact unchanged
  · generalize removeNode id emitCdc wanted set = outcome at removal
    cases removal with
    | absent missing => exact unchanged
    | singleton single => exact unchanged
    | inner deleted oldMax position many =>
      rw [deleteAt_layout]
      exact erased position linked many
    | shrinks deleted oldMax position many =>
      rw [deleteAt_layout]
      exact erased position linked many

namespace Iter
variable {set : BTreeSet α κ} {iter : Iter α}

def installing (installs : Nat) (outcome : Option ((Option α × Iter α) × Nat)) : Option ((Option α × Iter α) × Nat) :=
  outcome.map fun (result, further) => (result, installs + further)

def nextCounted (set : BTreeSet α κ) : Nat → Iter α → Option ((Option α × Iter α) × Nat)
  | 0, _ => none
  | fuel + 1, iter =>
    if iter.met then some ((none, iter), 0)
    else
      let installs := iter.currentFrontBatch.elim 1 fun _ => 0
      match iter.frontBatch set with
      | none => some ((none, iter), installs)
      | some ([], iter) => installing installs (nextCounted set fuel { iter with currentFrontBatch := none })
      | some (value :: rest, iter) =>
        let iter := { iter with currentFrontBatch := some rest }
        if iter.currentFrontValue.any fun last => decide (key value ≤ key last) then
          installing installs (nextCounted set fuel iter)
        else if iter.currentBackValue.any fun last => decide (key last ≤ key value) then
          some ((none, { iter with met := true }), installs)
        else some ((some value, { iter with currentFrontValue := some value }), installs)

def nextBackCounted (set : BTreeSet α κ) : Nat → Iter α → Option ((Option α × Iter α) × Nat)
  | 0, _ => none
  | fuel + 1, iter =>
    if iter.met then some ((none, iter), 0)
    else
      let installs := iter.currentBackBatch.elim 1 fun _ => 0
      match iter.backBatch set with
      | none => some ((none, iter), installs)
      | some (batch, iter) =>
        match batch.getLast? with
        | none => installing installs (nextBackCounted set fuel { iter with currentBackBatch := none })
        | some value =>
          let iter := { iter with currentBackBatch := some batch.dropLast }
          if iter.currentBackValue.any fun last => decide (key last ≤ key value) then
            installing installs (nextBackCounted set fuel iter)
          else if iter.currentFrontValue.any fun last => decide (key value ≤ key last) then
            some ((none, { iter with met := true }), installs)
          else some ((some value, { iter with currentBackValue := some value }), installs)

private theorem installing_fst (installs : Nat) (outcome : Option ((Option α × Iter α) × Nat)) :
    (installing installs outcome).map Prod.fst = outcome.map Prod.fst := by
  rw [installing, Option.map_map]
  rfl

theorem nextCounted_fst (fuel : Nat) (iter : Iter α) : (nextCounted set fuel iter).map Prod.fst = next set fuel iter := by
  induction fuel generalizing iter with
  | zero => rfl
  | succ fuel ih =>
    rw [nextCounted, next]
    split
    next => rfl
    next =>
      cases iter.frontBatch set with
      | none => rfl
      | some batch =>
        obtain ⟨values, later⟩ := batch
        cases values with
        | nil => exact (installing_fst _ _).trans (ih _)
        | cons value rest =>
          simp only
          cases later.currentFrontValue.any fun last => decide (key value ≤ key last) with
          | true => exact (installing_fst _ _).trans (ih _)
          | false =>
            cases later.currentBackValue.any fun last => decide (key last ≤ key value) with
            | true => rfl
            | false => rfl

theorem nextBackCounted_fst (fuel : Nat) (iter : Iter α) :
    (nextBackCounted set fuel iter).map Prod.fst = nextBack set fuel iter := by
  induction fuel generalizing iter with
  | zero => rfl
  | succ fuel ih =>
    rw [nextBackCounted, nextBack]
    split
    next => rfl
    next =>
      cases iter.backBatch set with
      | none => rfl
      | some batch =>
        obtain ⟨values, later⟩ := batch
        simp only
        cases values.getLast? with
        | none => exact (installing_fst _ _).trans (ih _)
        | some value =>
          simp only
          cases later.currentBackValue.any fun last => decide (key last ≤ key value) with
          | true => exact (installing_fst _ _).trans (ih _)
          | false =>
            cases later.currentFrontValue.any fun last => decide (key value ≤ key last) with
            | true => rfl
            | false => rfl

/-- With so many passes or more the call returns, and it installs at most so many batches. -/
def Settles (run : Nat → Option ((Option α × Iter α) × Nat)) (passes installs : Nat) : Prop :=
  ∃ result after count, count ≤ installs ∧ ∀ fuel, passes ≤ fuel → run fuel = some ((result, after), count)

theorem Settles.now {run : Nat → Option ((Option α × Iter α) × Nat)} {installs : Nat} (result : Option α) (after : Iter α)
    (passes : Nat) (returns : ∀ fuel, run (fuel + 1) = some ((result, after), installs)) :
    Settles run (passes + 1) installs := by
  refine ⟨result, after, installs, le_rfl, fun fuel enough => ?_⟩
  obtain ⟨less, rfl⟩ := Nat.exists_eq_add_one.mpr (Nat.lt_of_lt_of_le (Nat.succ_pos _) enough)
  exact returns less

theorem Settles.later {run further : Nat → Option ((Option α × Iter α) × Nat)} {passes installs : Nat}
    (settles : Settles further passes installs) (here : Nat) (goesOn : ∀ fuel, run (fuel + 1) = installing here (further fuel)) :
    Settles run (passes + 1) (installs + here) := by
  obtain ⟨result, after, count, bound, returns⟩ := settles
  refine ⟨result, after, here + count, by omega, fun fuel enough => ?_⟩
  obtain ⟨less, rfl⟩ := Nat.exists_eq_add_one.mpr (Nat.lt_of_lt_of_le (Nat.succ_pos _) enough)
  rw [goesOn, returns less (Nat.le_of_succ_le_succ enough)]
  rfl

/-- The next installation finds no node, or a batch that starts beyond the cursor. -/
inductive FrontOpens (set : BTreeSet α κ) (iter : Iter α) : Prop where
  | ended (none : installFrontBatch set iter = none)
  | drawn {value : α} {rest : List α} {later : Iter α} (ran : installFrontBatch set iter = some (value :: rest, later))
      (met : later.met = iter.met) (past : Past (· < ·) later.currentFrontValue (key value))

theorem next_passes {value : α} {rest : List α} {later : Iter α} (unmet : iter.met = false)
    (ready : iter.frontBatch set = some (value :: rest, later)) (past : Past (· < ·) later.currentFrontValue (key value))
    (passes : Nat) : Settles (nextCounted set · iter) (passes + 1) (iter.currentFrontBatch.elim 1 fun _ => 0) := by
  have unseen := front_unseen.mpr past
  cases reached : later.currentBackValue.any fun last => decide (key last ≤ key value) with
  | true =>
    apply Settles.now none { later with currentFrontBatch := some rest, met := true }
    intro fuel
    simp only [nextCounted, unmet, ready, unseen, reached, Bool.false_eq_true, if_false, if_true]
  | false =>
    apply Settles.now (some value) { later with currentFrontBatch := some rest, currentFrontValue := some value }
    intro fuel
    simp only [nextCounted, unmet, ready, unseen, reached, Bool.false_eq_true, if_false]

private theorem FrontOpens.settles (opens : FrontOpens set iter) (unmet : iter.met = false) (idle : iter.currentFrontBatch = none)
    (passes : Nat) : Settles (nextCounted set · iter) (passes + 1) 1 := by
  cases opens with
  | ended none =>
    apply Settles.now Option.none iter
    intro fuel
    simp [nextCounted, unmet, frontBatch, idle, none]
  | @drawn value rest later ran met past =>
    have ready : iter.frontBatch set = some (value :: rest, later) := by simp only [frontBatch, idle, ran]
    have settles := next_passes unmet ready past passes
    rwa [idle] at settles

private theorem opens_of_mem (scannable : set.layout.Scannable) {entry : κ} {node : NodeId}
    (linked : (entry, node) ∈ set.index.index) (found : iter.frontEntry set.index.index = some (entry, node))
    (limit : 0 < iter.frontBatchLimit) (fresh : iter.currentFrontValue = none → iter.frontPartial = none) {item : α}
    (member : item ∈ set.heap.cells node) (past : Past (· < ·) iter.currentFrontValue (key item)) : FrontOpens set iter := by
  have ahead : ∀ item, item ∈ (set.heap.cells node).drop (iter.frontSkip node (set.heap.cells node)) ↔ _ :=
    mem_drop_frontSkip (scannable.sorted entry node linked) fresh
  generalize same : (set.heap.cells node).drop (iter.frontSkip node (set.heap.cells node)) = available at ahead
  obtain ⟨later, ran, _, met, cursor, _⟩ := installFrontBatch_eq set found same
  cases available with
  | nil => cases (ahead item).mpr ⟨member, past⟩
  | cons value rest =>
    obtain ⟨bound, positive⟩ := Nat.exists_eq_add_one.mpr limit
    rw [positive, List.take_succ_cons] at ran
    exact .drawn ran met (cursor ▸ ((ahead value).mp List.mem_cons_self).2)

/-- After an empty batch from the node the cursor leads to, the next node is read. -/
private theorem opens_beside (scannable : set.layout.Scannable) {entry : κ} {node : NodeId}
    (first : iter.frontCandidate set.index.index = some (entry, node)) (exhausted : iter.exhaustedFrontNode = some node)
    (limit : 0 < iter.frontBatchLimit) (fresh : iter.frontPartial = none) : FrontOpens set iter := by
  have chosen : iter.frontEntry set.index.index = set.index.index.find? fun other => decide (entry < other) := by
    simp only [frontEntry, first, stepPast, exhausted, if_true]
  obtain ⟨linked, past⟩ := frontCandidate_some first
  cases found : set.index.index.find? fun other => decide (entry < other) with
  | none =>
    rw [found] at chosen
    exact .ended (by simp only [installFrontBatch, chosen])
  | some next =>
    obtain ⟨there, above, _⟩ := find?_eq_some.mp found
    obtain ⟨item, member⟩ := List.exists_mem_of_ne_nil _ (scannable.filled next.1 next.2 there)
    refine opens_of_mem scannable there (chosen.trans found) limit (fun _ => fresh) member ?_
    have beyond := (scannable.routed next.1 next.2 there item member).above (entry, node) linked (by simpa using above)
    exact fun last same => (past last same).trans beyond

/-- After an empty batch from the node behind the exhausted one there is no cursor, and the first node is read. -/
private theorem opens_again (scannable : set.layout.Scannable) {first entry : κ} {drained node : NodeId}
    (found : iter.frontCandidate set.index.index = some (first, drained)) (linked : (entry, node) ∈ set.index.index)
    (behind : first < entry) (idle : iter.currentFrontValue = none) (exhausted : iter.exhaustedFrontNode = some node)
    (limit : 0 < iter.frontBatchLimit) (fresh : iter.frontPartial = none) : FrontOpens set iter := by
  obtain ⟨there, _⟩ := frontCandidate_some found
  obtain ⟨item, member⟩ := List.exists_mem_of_ne_nil _ (scannable.filled first drained there)
  have apart : drained ≠ node := by
    rintro rfl
    have within := (scannable.routed first drained there item member).within (entry, drained) linked behind
    have above := (scannable.routed entry drained linked item member).above (first, drained) there behind
    exact above.not_ge within
  have chosen : iter.frontEntry set.index.index = some (first, drained) := by
    simp [frontEntry, found, stepPast, exhausted, apart]
  refine opens_of_mem scannable there chosen limit (fun _ => fresh) member ?_
  exact fun last same => absurd (idle.symm.trans same) (by simp)

/-- An empty batch is followed by one that starts beyond the cursor, or by none. -/
private theorem front_twice (scannable : set.layout.Scannable) (limit : 0 < iter.frontBatchLimit) : FrontOpens set iter ∨
    ∃ later, installFrontBatch set iter = some ([], later) ∧ later.met = iter.met ∧
      FrontOpens set { later with currentFrontBatch := none } := by
  cases found : iter.frontEntry set.index.index with
  | none => exact Or.inl (.ended (by simp only [installFrontBatch, found]))
  | some pick =>
    obtain ⟨entry, node⟩ := pick
    have linked := frontEntry_mem found
    have sorted := scannable.sorted entry node linked
    generalize same : (set.heap.cells node).drop (iter.frontSkip node (set.heap.cells node)) = available
    obtain ⟨later, ran, _, met, cursor, grown, exhausted, fresh⟩ := installFrontBatch_eq set found same
    cases available with
    | cons value rest =>
      obtain ⟨bound, positive⟩ := Nat.exists_eq_add_one.mpr limit
      rw [positive, List.take_succ_cons] at ran
      refine Or.inl (.drawn ran met ?_)
      rw [cursor]
      intro last there
      have drawn : value ∈ (set.heap.cells node).drop (iter.frontSkip node (set.heap.cells node)) := same ▸ List.mem_cons_self
      exact ((mem_drop_frontSkip sorted (fun none => absurd (none.symm.trans there) (by simp)) value).mp drawn).2 last there
    | nil =>
      rw [List.take_nil] at ran
      rw [List.length_nil, if_pos (Nat.zero_le _)] at exhausted
      have more : 0 < later.frontBatchLimit := grown ▸ lt_min (by omega) (by decide)
      have again : ({ later with currentFrontBatch := none } : Iter α).frontCandidate set.index.index =
          iter.frontCandidate set.index.index := by
        simp only [frontCandidate, cursor]
      rcases stepPast_eq_some found with first | ⟨first, drained, before, _, next⟩
      · exact Or.inr ⟨later, ran, met, opens_beside scannable (again.trans first) exhausted more (fresh (Nat.zero_le _))⟩
      · have behind : first < entry := by simpa using (find?_eq_some.mp next).2.1
        by_cases idle : iter.currentFrontValue = none
        · exact Or.inr ⟨later, ran, met, opens_again scannable (again.trans before) linked behind (cursor.trans idle) exhausted more
            (fresh (Nat.zero_le _))⟩
        · -- the elements of the node are beyond the exhausted one's key, and so beyond the cursor
          obtain ⟨there, past⟩ := frontCandidate_some before
          obtain ⟨item, member⟩ := List.exists_mem_of_ne_nil _ (scannable.filled entry node linked)
          have beyond := (scannable.routed entry node linked item member).above (first, drained) there behind
          exact Or.inl (opens_of_mem scannable linked found limit (fun none => absurd none idle) member
            fun last held => (past last held).trans beyond)

private theorem front_idle (scannable : set.layout.Scannable) (limit : 0 < iter.frontBatchLimit) (unmet : iter.met = false)
    (idle : iter.currentFrontBatch = none) (passes : Nat) : Settles (nextCounted set · iter) (passes + 2) 2 := by
  rcases front_twice scannable limit with opens | ⟨later, ran, met, opens⟩
  · obtain ⟨result, after, count, bound, returns⟩ := opens.settles unmet idle (passes + 1)
    exact ⟨result, after, count, bound.trans (by decide), returns⟩
  · apply (opens.settles (met.trans unmet) rfl passes).later 1
    intro fuel
    simp [nextCounted, unmet, frontBatch, idle, ran]

private theorem front_settles (scannable : set.layout.Scannable) (limit : 0 < iter.frontBatchLimit) (unmet : iter.met = false)
    {batch : List α} (held : iter.currentFrontBatch = some batch) : Settles (nextCounted set · iter) (batch.length + 3) 2 := by
  induction batch generalizing iter with
  | nil =>
    have further : Settles (nextCounted set · { iter with currentFrontBatch := none }) 2 2 := by
      apply front_idle scannable
      · exact limit
      · exact unmet
      · rfl
    apply further.later 0
    intro fuel
    simp only [nextCounted, unmet, frontBatch, held, Bool.false_eq_true, if_false, Option.elim_some]
  | cons value rest ih =>
    have ready : iter.frontBatch set = some (value :: rest, iter) := by simp only [frontBatch, held]
    by_cases past : Past (· < ·) iter.currentFrontValue (key value)
    · obtain ⟨result, after, count, bound, returns⟩ := next_passes unmet ready past (rest.length + 3)
      rw [held] at bound
      exact ⟨result, after, count, bound.trans (Nat.zero_le _), returns⟩
    · have seen : (iter.currentFrontValue.any fun last => decide (key value ≤ key last)) = true := by
        rw [Option.any_eq_true]
        simpa [Past] using past
      have further : Settles (nextCounted set · { iter with currentFrontBatch := some rest }) (rest.length + 3) 2 :=
        ih limit unmet rfl
      apply further.later 0
      intro fuel
      simp only [nextCounted, unmet, ready, seen, held, Bool.false_eq_true, if_false, if_true, Option.elim_some]

inductive BackOpens (set : BTreeSet α κ) (iter : Iter α) : Prop where
  | ended (none : installBackBatch set iter = none)
  | drawn {value : α} {earlier : List α} {later : Iter α} (ran : installBackBatch set iter = some (earlier ++ [value], later))
      (met : later.met = iter.met) (past : Past (· > ·) later.currentBackValue (key value))

theorem nextBack_passes {value : α} {earlier : List α} {later : Iter α} (unmet : iter.met = false)
    (ready : iter.backBatch set = some (earlier ++ [value], later)) (past : Past (· > ·) later.currentBackValue (key value))
    (passes : Nat) : Settles (nextBackCounted set · iter) (passes + 1) (iter.currentBackBatch.elim 1 fun _ => 0) := by
  have unseen := back_unseen.mpr past
  cases reached : later.currentFrontValue.any fun last => decide (key value ≤ key last) with
  | true =>
    apply Settles.now none { later with currentBackBatch := some earlier, met := true }
    intro fuel
    simp only [nextBackCounted, unmet, ready, List.getLast?_concat, List.dropLast_concat, unseen, reached,
      Bool.false_eq_true, if_false, if_true]
  | false =>
    apply Settles.now (some value) { later with currentBackBatch := some earlier, currentBackValue := some value }
    intro fuel
    simp only [nextBackCounted, unmet, ready, List.getLast?_concat, List.dropLast_concat, unseen, reached,
      Bool.false_eq_true, if_false]

private theorem BackOpens.settles (opens : BackOpens set iter) (unmet : iter.met = false) (idle : iter.currentBackBatch = none)
    (passes : Nat) : Settles (nextBackCounted set · iter) (passes + 1) 1 := by
  cases opens with
  | ended none =>
    apply Settles.now Option.none iter
    intro fuel
    simp [nextBackCounted, unmet, backBatch, idle, none]
  | @drawn value earlier later ran met past =>
    have ready : iter.backBatch set = some (earlier ++ [value], later) := by simp only [backBatch, idle, ran]
    have settles := nextBack_passes unmet ready past passes
    rwa [idle] at settles

private theorem batch_eq {batch available : List α} {limit : Nat} (positive : 0 < limit)
    (reversed : batch.reverse = available.reverse.take limit) (filled : available ≠ []) :
    ∃ earlier value, batch = earlier ++ [value] ∧ value ∈ available := by
  obtain ⟨value, rest, whole⟩ := List.exists_cons_of_ne_nil (List.reverse_ne_nil_iff.mpr filled)
  obtain ⟨bound, rfl⟩ := Nat.exists_eq_add_one.mpr positive
  rw [whole, List.take_succ_cons, List.reverse_eq_cons_iff] at reversed
  exact ⟨_, value, reversed, List.mem_reverse.mp (whole ▸ List.mem_cons_self)⟩

private theorem back_opens_of_mem (scannable : set.layout.Scannable) {entry : κ} {node : NodeId}
    (linked : (entry, node) ∈ set.index.index) (found : iter.backEntry set.index.index = some (entry, node))
    (limit : 0 < iter.backBatchLimit) (fresh : iter.currentBackValue = none → iter.backPartial = none) {item : α}
    (member : item ∈ set.heap.cells node) (past : Past (· > ·) iter.currentBackValue (key item)) : BackOpens set iter := by
  have ahead : ∀ item, item ∈ (set.heap.cells node).take
      ((set.heap.cells node).length - iter.backTruncate node (set.heap.cells node)) ↔ _ :=
    mem_take_backTruncate (scannable.sorted entry node linked) fresh
  generalize same : (set.heap.cells node).take
    ((set.heap.cells node).length - iter.backTruncate node (set.heap.cells node)) = available at ahead
  obtain ⟨batch, later, ran, reversed, _, met, cursor, _⟩ := installBackBatch_eq set found same
  obtain ⟨earlier, value, rfl, drawn⟩ := batch_eq limit reversed (List.ne_nil_of_mem ((ahead item).mpr ⟨member, past⟩))
  exact .drawn ran met (cursor ▸ ((ahead value).mp drawn).2)

private theorem back_opens_beside (scannable : set.layout.Scannable) {entry : κ} {node : NodeId}
    (first : iter.backCandidate set.index.index = some (entry, node)) (exhausted : iter.exhaustedBackNode = some node)
    (limit : 0 < iter.backBatchLimit) (fresh : iter.backPartial = none) : BackOpens set iter := by
  have chosen : iter.backEntry set.index.index = set.index.index.below? entry := by
    simp only [backEntry, first, stepPast, exhausted, if_true]
  obtain ⟨linked, beyond⟩ := backCandidate_some first
  cases found : set.index.index.below? entry with
  | none =>
    rw [found] at chosen
    exact .ended (by simp only [installBackBatch, chosen])
  | some next =>
    obtain ⟨there, below, _⟩ := below?_eq_some.mp found
    obtain ⟨item, member⟩ := List.exists_mem_of_ne_nil _ (scannable.filled next.1 next.2 there)
    refine back_opens_of_mem scannable there (chosen.trans found) limit (fun _ => fresh) member ?_
    have within := (scannable.routed next.1 next.2 there item member).within (entry, node) linked below
    exact fun last same => lt_of_le_of_lt within (beyond next there below last same)

private theorem back_opens_again (scannable : set.layout.Scannable) {first entry : κ} {drained node : NodeId}
    (found : iter.backCandidate set.index.index = some (first, drained)) (linked : (entry, node) ∈ set.index.index)
    (behind : entry < first) (idle : iter.currentBackValue = none) (exhausted : iter.exhaustedBackNode = some node)
    (limit : 0 < iter.backBatchLimit) (fresh : iter.backPartial = none) : BackOpens set iter := by
  obtain ⟨there, _⟩ := backCandidate_some found
  obtain ⟨item, member⟩ := List.exists_mem_of_ne_nil _ (scannable.filled first drained there)
  have apart : drained ≠ node := by
    rintro rfl
    have within := (scannable.routed entry drained linked item member).within (first, drained) there behind
    have above := (scannable.routed first drained there item member).above (entry, drained) linked behind
    exact above.not_ge within
  have chosen : iter.backEntry set.index.index = some (first, drained) := by
    simp [backEntry, found, stepPast, exhausted, apart]
  refine back_opens_of_mem scannable there chosen limit (fun _ => fresh) member ?_
  exact fun last same => absurd (idle.symm.trans same) (by simp)

private theorem back_twice (scannable : set.layout.Scannable) (limit : 0 < iter.backBatchLimit) : BackOpens set iter ∨
    ∃ later, installBackBatch set iter = some ([], later) ∧ later.met = iter.met ∧
      BackOpens set { later with currentBackBatch := none } := by
  cases found : iter.backEntry set.index.index with
  | none => exact Or.inl (.ended (by simp only [installBackBatch, found]))
  | some pick =>
    obtain ⟨entry, node⟩ := pick
    have linked := backEntry_mem found
    have sorted := scannable.sorted entry node linked
    generalize same : (set.heap.cells node).take
      ((set.heap.cells node).length - iter.backTruncate node (set.heap.cells node)) = available
    obtain ⟨batch, later, ran, reversed, _, met, cursor, grown, exhausted, fresh⟩ := installBackBatch_eq set found same
    by_cases filled : available = []
    · obtain rfl : batch = [] := by simpa [filled] using reversed
      rw [filled, List.length_nil, if_pos (Nat.zero_le _)] at exhausted
      have unmarked : later.backPartial = none := fresh (by simp [filled])
      have more : 0 < later.backBatchLimit := grown ▸ lt_min (by omega) (by decide)
      have again : ({ later with currentBackBatch := none } : Iter α).backCandidate set.index.index =
          iter.backCandidate set.index.index := by
        simp only [backCandidate, cursor]
      rcases stepPast_eq_some found with first | ⟨first, drained, before, _, next⟩
      · exact Or.inr ⟨later, ran, met, back_opens_beside scannable (again.trans first) exhausted more unmarked⟩
      · have behind : entry < first := (below?_eq_some.mp next).2.1
        by_cases idle : iter.currentBackValue = none
        · exact Or.inr ⟨later, ran, met,
            back_opens_again scannable (again.trans before) linked behind (cursor.trans idle) exhausted more unmarked⟩
        · -- the elements of the node are at most its key, which is beyond the cursor
          obtain ⟨there, beyond⟩ := backCandidate_some before
          obtain ⟨item, member⟩ := List.exists_mem_of_ne_nil _ (scannable.filled entry node linked)
          have within := (scannable.routed entry node linked item member).within (first, drained) there behind
          exact Or.inl (back_opens_of_mem scannable linked found limit (fun none => absurd none idle) member
            fun last held => lt_of_le_of_lt within (beyond (entry, node) linked behind last held))
    · obtain ⟨earlier, value, rfl, drawn⟩ := batch_eq limit reversed filled
      refine Or.inl (.drawn ran met ?_)
      rw [cursor]
      intro last there
      rw [← same] at drawn
      exact ((mem_take_backTruncate sorted (fun none => absurd (none.symm.trans there) (by simp)) value).mp drawn).2 last there

private theorem back_idle (scannable : set.layout.Scannable) (limit : 0 < iter.backBatchLimit) (unmet : iter.met = false)
    (idle : iter.currentBackBatch = none) (passes : Nat) : Settles (nextBackCounted set · iter) (passes + 2) 2 := by
  rcases back_twice scannable limit with opens | ⟨later, ran, met, opens⟩
  · obtain ⟨result, after, count, bound, returns⟩ := opens.settles unmet idle (passes + 1)
    exact ⟨result, after, count, bound.trans (by decide), returns⟩
  · apply (opens.settles (met.trans unmet) rfl passes).later 1
    intro fuel
    simp [nextBackCounted, unmet, backBatch, idle, ran]

private theorem back_settles (scannable : set.layout.Scannable) (limit : 0 < iter.backBatchLimit) (unmet : iter.met = false)
    {batch : List α} (held : iter.currentBackBatch = some batch) :
    Settles (nextBackCounted set · iter) (batch.length + 3) 2 := by
  induction batch using List.reverseRecOn generalizing iter with
  | nil =>
    have further : Settles (nextBackCounted set · { iter with currentBackBatch := none }) 2 2 := by
      apply back_idle scannable
      · exact limit
      · exact unmet
      · rfl
    apply further.later 0
    intro fuel
    simp only [nextBackCounted, unmet, backBatch, held, List.getLast?_nil, Bool.false_eq_true, if_false, Option.elim_some]
  | append_singleton rest value ih =>
    rw [List.length_append, List.length_singleton]
    have ready : iter.backBatch set = some (rest ++ [value], iter) := by simp only [backBatch, held]
    by_cases past : Past (· > ·) iter.currentBackValue (key value)
    · obtain ⟨result, after, count, bound, returns⟩ := nextBack_passes unmet ready past (rest.length + 3)
      rw [held] at bound
      exact ⟨result, after, count, bound.trans (Nat.zero_le _), returns⟩
    · have seen : (iter.currentBackValue.any fun last => decide (key last ≤ key value)) = true := by
        rw [Option.any_eq_true]
        simpa [Past] using past
      have further : Settles (nextBackCounted set · { iter with currentBackBatch := some rest }) (rest.length + 3) 2 :=
        ih limit unmet rfl
      apply further.later 0
      intro fuel
      simp only [nextBackCounted, unmet, ready, List.getLast?_concat, List.dropLast_concat, seen, held, Bool.false_eq_true,
        if_false, if_true, Option.elim_some]

def Limited (iter : Iter α) : Prop := 0 < iter.frontBatchLimit ∧ 0 < iter.backBatchLimit

theorem limited_new : (Iter.new : Iter α).Limited := ⟨Nat.succ_pos 3, Nat.succ_pos 3⟩

theorem limited_range {Q : Type*} [LinearOrder Q] (borrow : κ → Q) (start last : Bound Q) (set : BTreeSet α κ) :
    (set.range borrow start last).Limited := ⟨Nat.succ_pos 3, Nat.succ_pos 3⟩

private theorem frontBatch_limited (limited : iter.Limited) {batch : List α} {later : Iter α}
    (ready : iter.frontBatch set = some (batch, later)) : later.Limited := by
  obtain ⟨frame, _, _, _, grown⟩ := frontBatch_frame ready
  exact ⟨(grown limited.1).1, lt_of_lt_of_eq limited.2 (congrArg Direction.limit frame).symm⟩

private theorem backBatch_limited (limited : iter.Limited) {batch : List α} {later : Iter α}
    (ready : iter.backBatch set = some (batch, later)) : later.Limited := by
  obtain ⟨frame, _, _, _, grown⟩ := backBatch_frame ready
  exact ⟨lt_of_lt_of_eq limited.1 (congrArg Direction.limit frame).symm, (grown limited.2).1⟩

theorem next_limited {fuel : Nat} {result : Option α} {after : Iter α} (limited : iter.Limited)
    (ran : next set fuel iter = some (result, after)) : after.Limited := by
  have nexts := next_nexts ran
  clear ran
  induction nexts with
  | met => exact limited
  | ended => exact limited
  | empty unmet ready further ih =>
    have kept := frontBatch_limited limited ready
    exact ih kept
  | skipped unmet ready behind further ih =>
    have kept := frontBatch_limited limited ready
    exact ih kept
  | crossed unmet ready past reached =>
    have kept := frontBatch_limited limited ready
    exact kept
  | yields unmet ready past short =>
    have kept := frontBatch_limited limited ready
    exact kept

theorem nextBack_limited {fuel : Nat} {result : Option α} {after : Iter α} (limited : iter.Limited)
    (ran : nextBack set fuel iter = some (result, after)) : after.Limited := by
  have nexts := nextBack_nextBacks ran
  clear ran
  induction nexts with
  | met => exact limited
  | ended => exact limited
  | empty unmet ready further ih =>
    have kept := backBatch_limited limited ready
    exact ih kept
  | skipped unmet ready behind further ih =>
    have kept := backBatch_limited limited ready
    exact ih kept
  | crossed unmet ready past reached =>
    have kept := backBatch_limited limited ready
    exact kept
  | yields unmet ready past short =>
    have kept := backBatch_limited limited ready
    exact kept

/-- On nodes that are filled, sorted and routed by keys of whatever age, a call in either direction returns,
and it installs at most two batches, none of them before the batch it starts with is drained. -/
theorem scan_step_settles (scannable : set.layout.Scannable) (limited : iter.Limited) :
    Settles (nextCounted set · iter) ((iter.currentFrontBatch.getD []).length + 3) 2 ∧
      Settles (nextBackCounted set · iter) ((iter.currentBackBatch.getD []).length + 3) 2 ∧
      (∀ fuel, (nextCounted set fuel iter).map Prod.fst = next set fuel iter ∧
        (nextBackCounted set fuel iter).map Prod.fst = nextBack set fuel iter) ∧
      ∀ fuel result after, next set fuel iter = some (result, after) ∨ nextBack set fuel iter = some (result, after) →
        after.Limited := by
  refine ⟨?_, ?_, fun fuel => ⟨nextCounted_fst fuel iter, nextBackCounted_fst fuel iter⟩, fun fuel result after ran =>
    ran.elim (next_limited limited) (nextBack_limited limited)⟩
  · cases met : iter.met with
    | true =>
      obtain ⟨result, after, count, bound, returns⟩ : Settles (nextCounted set · iter) _ 0 :=
        Settles.now none iter ((iter.currentFrontBatch.getD []).length + 2) (fun fuel => by simp [nextCounted, met])
      exact ⟨result, after, count, bound.trans (Nat.zero_le _), returns⟩
    | false =>
      cases held : iter.currentFrontBatch with
      | none => exact front_idle scannable limited.1 met held 1
      | some batch => exact front_settles scannable limited.1 met held
  · cases met : iter.met with
    | true =>
      obtain ⟨result, after, count, bound, returns⟩ : Settles (nextBackCounted set · iter) _ 0 :=
        Settles.now none iter ((iter.currentBackBatch.getD []).length + 2) (fun fuel => by simp [nextBackCounted, met])
      exact ⟨result, after, count, bound.trans (Nat.zero_le _), returns⟩
    | false =>
      cases held : iter.currentBackBatch with
      | none => exact back_idle scannable limited.2 met held 1
      | some batch => exact back_settles scannable limited.2 met held

/-- A removal has taken the last value of a node above a cursor, and the key waits for the repair. -/
theorem scan_step_settles_stale : ∃ before set : BTreeSet Nat Nat, BTreeSet.Reachable 2 before ∧
    (∃ step, BTreeSet.removeNode id false 3 before = (step, set)) ∧ set.index.index.entries = [(1, 0), (3, 1)] ∧
      set.nodes = [[1], [2]] ∧
      Settles (nextCounted set · { Iter.new with currentFrontValue := some 2, currentFrontBatch := some [1] }) 4 2 := by
  obtain ⟨before, set, reachable, removed, entries, left, right⟩ : ∃ before set : BTreeSet Nat Nat, BTreeSet.Reachable 2 before ∧
      (∃ step, BTreeSet.removeNode id false 3 before = (step, set)) ∧ set.index.index.entries = [(1, 0), (3, 1)] ∧
        set.heap.cells 0 = [1] ∧ set.heap.cells 1 = [2] :=
    ⟨_, _, .mutates (.mutates (.mutates .new (.insert false 1 1 rfl)) (.insert false 2 1 rfl)) (.insert false 3 1 rfl),
      ⟨_, rfl⟩, by decide, by decide, by decide⟩
  have scannable : set.layout.Scannable := by
    obtain ⟨step, ran⟩ := removed
    have pending := reachable.tidy.1.removeNode_scannable false 3
    rwa [ran] at pending
  refine ⟨before, set, reachable, removed, entries, ?_, (scan_step_settles scannable ⟨Nat.succ_pos 3, Nat.succ_pos 3⟩).1⟩
  rw [BTreeSet.nodes, entries]
  simp [left, right]

end Iter
end WorkTablesIndex
