import WorkTablesIndex.RangeExact

/-! Ranges over a set that complete calls keep changing. A range forgets its bounds once it is
made: it keeps the values next to them, and a value that is later inserted between a bound and
the value that stands for it is yielded. -/

universe u v w

namespace WorkTablesIndex
open SortedMap

variable {α : Type u} {κ : Type v} {Q : Type w} [LinearOrder κ]

/-- A range scan under way: the set it was made on, the set now, and what each end has yielded. -/
structure RangeScan (α : Type u) (κ : Type v) [LinearOrder κ] where
  origin : BTreeSet α κ
  set : BTreeSet α κ
  iter : Iter α
  front : List α
  back : List α

variable [Keyed α κ] [LinearOrder Q]

inductive RangeScanned (nodeCapacity : Nat) (borrow : κ → Q) (start last : Bound Q) (allowed : RangeScan α κ → α → Prop) :
    RangeScan α κ → Prop where
  | created {set : BTreeSet α κ} (reachable : set.Reachable nodeCapacity) :
      RangeScanned nodeCapacity borrow start last allowed ⟨set, set, set.range borrow start last, [], []⟩
  | insert {scan : RangeScan α κ} {after : BTreeSet α κ} {result : Option α × List (ChangeEvent α)}
      (earlier : RangeScanned nodeCapacity borrow start last allowed scan) (emitCdc : Bool) (value : α) (fuel : Nat)
      (harmless : allowed scan value)
      (ran : BTreeSet.putInner noIdentityAdoption emitCdc value fuel scan.set = some (result, after)) :
      RangeScanned nodeCapacity borrow start last allowed { scan with set := after }
  | remove {scan : RangeScan α κ} {after : BTreeSet α κ} {result : Option α × List (ChangeEvent α)}
      (earlier : RangeScanned nodeCapacity borrow start last allowed scan) (emitCdc : Bool) (wanted : κ) (fuel : Nat)
      (ran : BTreeSet.removeInner id emitCdc wanted fuel scan.set = some (result, after)) :
      RangeScanned nodeCapacity borrow start last allowed { scan with set := after }
  | next {scan : RangeScan α κ} {result : Option α} {iter : Iter α}
      (earlier : RangeScanned nodeCapacity borrow start last allowed scan) (fuel : Nat)
      (ran : scan.iter.next scan.set fuel = some (result, iter)) :
      RangeScanned nodeCapacity borrow start last allowed { scan with iter, front := scan.front ++ result.toList }
  | nextBack {scan : RangeScan α κ} {result : Option α} {iter : Iter α}
      (earlier : RangeScanned nodeCapacity borrow start last allowed scan) (fuel : Nat)
      (ran : scan.iter.nextBack scan.set fuel = some (result, iter)) :
      RangeScanned nodeCapacity borrow start last allowed { scan with iter, back := scan.back ++ result.toList }

def Within (borrow : κ → Q) (start last : Bound Q) (value : α) : Prop :=
  start.admits borrow (key value) = true ∧ last.permits borrow (key value) = true

namespace RangeScan
variable {scan : RangeScan α κ} {borrow : κ → Q} {start last : Bound Q}

/-- The range is closed from the beginning: its bounds leave no room, or the set had values and
none of them reached the start. -/
def Closed (borrow : κ → Q) (start last : Bound Q) (scan : RangeScan α κ) : Prop :=
  Range.inverted start last = true ∨
    (∃ item, scan.origin.layout.Stored item) ∧ ∀ item, scan.origin.layout.Stored item →
      start.admits borrow (key item) = false

/-- The value lies within the bounds, or not beyond a value below them that was there when the
range was made or that the front has yielded, or likewise at the back. -/
def Shielded (borrow : κ → Q) (start last : Bound Q) (scan : RangeScan α κ) (value : α) : Prop :=
  Within borrow start last value ∨
  (∃ item, (scan.origin.layout.Stored item ∧ start.admits borrow (key item) = false ∨ item ∈ scan.front) ∧
    key value ≤ key item) ∨
  ∃ item, (scan.origin.layout.Stored item ∧ last.permits borrow (key item) = false ∨ item ∈ scan.back) ∧
    key item ≤ key value

/-- The inserts that cannot make a range leave its bounds. -/
def Harmless (borrow : κ → Q) (start last : Bound Q) (scan : RangeScan α κ) (value : α) : Prop :=
  Closed borrow start last scan ∨ Shielded borrow start last scan value

end RangeScan

namespace Iter
variable {set : BTreeSet α κ} {iter after : Iter α} {holds : α → Prop} {result : Option α} {fuel : Nat}

inductive Yields (holds : α → Prop) (r : κ → κ → Prop) (cursor other after : Option α) : Option α → Prop where
  | nothing (same : after = cursor) : Yields holds r cursor other after none
  | value (value : α) (fine : holds value) (past : Past r cursor (key value))
      (short : Past (fun first second => r second first) other (key value)) (moved : after = some value) :
      Yields holds r cursor other after (some value)

omit [LinearOrder κ] [LinearOrder Q] in
private theorem Yields.behind {r : κ → κ → Prop} [IsTrans κ r] {base : α → Prop} {given : List α} {cursor other after : Option α}
    (yields : Yields holds r cursor other after result)
    (before : ∀ item, base item ∨ item ∈ given → ∀ wanted, Past r cursor wanted → r (key item) wanted) :
    ∀ item, base item ∨ item ∈ given ++ result.toList → ∀ wanted, Past r after wanted → r (key item) wanted := by
  intro item shield wanted ahead
  cases yields with
  | nothing same =>
    rw [Option.toList_none, List.append_nil] at shield
    exact before item shield wanted (same ▸ ahead)
  | value value fine past short moved =>
    have beyond : r (key value) wanted := ahead value moved
    have further : Past r cursor wanted := fun last there => IsTrans.trans _ _ _ (past last there) beyond
    rw [Option.toList_some, List.mem_append, List.mem_singleton, ← or_assoc] at shield
    rcases shield with earlier | rfl
    · exact before item earlier wanted further
    · exact beyond

private theorem frontBatch_holds (stored : ∀ item, set.layout.Stored item → holds item)
    (held : ∀ batch, iter.currentFrontBatch = some batch → ∀ item ∈ batch, holds item) {batch : List α} {later : Iter α}
    (drawn : iter.frontBatch set = some (batch, later)) : ∀ item ∈ batch, holds item := by
  unfold frontBatch at drawn
  split at drawn
  next current same =>
    cases drawn
    exact held _ same
  next =>
    unfold installFrontBatch at drawn
    split at drawn
    · cases drawn
    next entry node chosen =>
      have linked := frontEntry_mem chosen
      cases drawn
      exact fun item member => stored item ⟨entry, node, linked, List.mem_of_mem_drop (List.mem_of_mem_take member)⟩

private theorem backBatch_holds (stored : ∀ item, set.layout.Stored item → holds item)
    (held : ∀ batch, iter.currentBackBatch = some batch → ∀ item ∈ batch, holds item) {batch : List α} {later : Iter α}
    (drawn : iter.backBatch set = some (batch, later)) : ∀ item ∈ batch, holds item := by
  unfold backBatch at drawn
  split at drawn
  next current same =>
    cases drawn
    exact held _ same
  next =>
    unfold installBackBatch at drawn
    split at drawn
    · cases drawn
    next entry node chosen =>
      have linked := backEntry_mem chosen
      cases drawn
      exact fun item member => stored item ⟨entry, node, linked, List.mem_of_mem_drop (List.mem_of_mem_take member)⟩

omit [LinearOrder κ] [LinearOrder Q] [Keyed α κ] in
private theorem holds_rest {batch rest : List α} (fine : ∀ item ∈ batch, holds item) (subset : rest ⊆ batch) :
    ∀ values, some rest = some values → ∀ item ∈ values, holds item := by
  intro values here item member
  cases here
  exact fine item (subset member)

private theorem next_yields (stored : ∀ item, set.layout.Stored item → holds item)
    (held : ∀ batch, iter.currentFrontBatch = some batch → ∀ item ∈ batch, holds item)
    (ran : iter.next set fuel = some (result, after)) :
    (∀ batch, after.currentFrontBatch = some batch → ∀ item ∈ batch, holds item) ∧ after.backward = iter.backward ∧
      (iter.met = true → after.met = true ∧ result = none) ∧
      Yields holds (· < ·) iter.currentFrontValue iter.currentBackValue after.currentFrontValue result := by
  have nexts := next_nexts ran
  clear ran
  induction nexts with
  | met met => exact ⟨held, rfl, fun _ => ⟨met, rfl⟩, .nothing rfl⟩
  | ended unmet _ => exact ⟨held, rfl, fun met => (by cases unmet.symm.trans met), .nothing rfl⟩
  | empty unmet ready _ ih =>
    obtain ⟨frame, _, cursor, other, _⟩ := frontBatch_frame ready
    obtain ⟨batches, back, _, yields⟩ := ih (fun batch missing => by cases missing)
    exact ⟨batches, back.trans frame, fun met => (by cases unmet.symm.trans met), cursor ▸ other ▸ yields⟩
  | skipped unmet ready _ _ ih =>
    obtain ⟨frame, _, cursor, other, _⟩ := frontBatch_frame ready
    have rest := holds_rest (frontBatch_holds stored held ready) (List.subset_cons_self ..)
    obtain ⟨batches, back, _, yields⟩ := ih rest
    exact ⟨batches, back.trans frame, fun met => (by cases unmet.symm.trans met), cursor ▸ other ▸ yields⟩
  | crossed unmet ready _ _ =>
    obtain ⟨frame, _, cursor, _⟩ := frontBatch_frame ready
    have rest := holds_rest (frontBatch_holds stored held ready) (List.subset_cons_self ..)
    exact ⟨rest, frame, fun met => (by cases unmet.symm.trans met), .nothing cursor⟩
  | yields unmet ready past short =>
    obtain ⟨frame, _, cursor, other, _⟩ := frontBatch_frame ready
    have fine := frontBatch_holds stored held ready
    refine ⟨holds_rest fine (List.subset_cons_self ..), frame, fun met => (by cases unmet.symm.trans met),
      .value _ (fine _ List.mem_cons_self) (cursor ▸ past) (other ▸ short) rfl⟩

private theorem nextBack_yields (stored : ∀ item, set.layout.Stored item → holds item)
    (held : ∀ batch, iter.currentBackBatch = some batch → ∀ item ∈ batch, holds item)
    (ran : iter.nextBack set fuel = some (result, after)) :
    (∀ batch, after.currentBackBatch = some batch → ∀ item ∈ batch, holds item) ∧ after.forward = iter.forward ∧
      (iter.met = true → after.met = true ∧ result = none) ∧
      Yields holds (· > ·) iter.currentBackValue iter.currentFrontValue after.currentBackValue result := by
  have nexts := nextBack_nextBacks ran
  clear ran
  induction nexts with
  | met met => exact ⟨held, rfl, fun _ => ⟨met, rfl⟩, .nothing rfl⟩
  | ended unmet _ => exact ⟨held, rfl, fun met => (by cases unmet.symm.trans met), .nothing rfl⟩
  | empty unmet ready _ ih =>
    obtain ⟨frame, _, cursor, other, _⟩ := backBatch_frame ready
    obtain ⟨batches, front, _, yields⟩ := ih (fun batch missing => by cases missing)
    exact ⟨batches, front.trans frame, fun met => (by cases unmet.symm.trans met), cursor ▸ other ▸ yields⟩
  | skipped unmet ready _ _ ih =>
    obtain ⟨frame, _, cursor, other, _⟩ := backBatch_frame ready
    have rest := holds_rest (backBatch_holds stored held ready) (List.subset_append_left ..)
    obtain ⟨batches, front, _, yields⟩ := ih rest
    exact ⟨batches, front.trans frame, fun met => (by cases unmet.symm.trans met), cursor ▸ other ▸ yields⟩
  | crossed unmet ready _ _ =>
    obtain ⟨frame, _, cursor, _⟩ := backBatch_frame ready
    have rest := holds_rest (backBatch_holds stored held ready) (List.subset_append_left ..)
    exact ⟨rest, frame, fun met => (by cases unmet.symm.trans met), .nothing cursor⟩
  | yields unmet ready past short =>
    obtain ⟨frame, _, cursor, other, _⟩ := backBatch_frame ready
    have fine := backBatch_holds stored held ready
    refine ⟨holds_rest fine (List.subset_append_left ..), frame, fun met => (by cases unmet.symm.trans met),
      .value _ (fine _ (List.mem_append_right _ (List.mem_singleton_self _))) (cursor ▸ past) (other ▸ short) rfl⟩

end Iter

namespace RangeScan
variable {scan : RangeScan α κ} {borrow : κ → Q} {start last : Bound Q}

/-- The invariant of a run of harmless inserts. While the range is open, the cursors have the
values that shield it behind them, and everything that could still be drawn is shielded. -/
private structure Confined (borrow : κ → Q) (start last : Bound Q) (scan : RangeScan α κ) : Prop where
  tidy : scan.set.Tidy
  within : ∀ value ∈ scan.front ++ scan.back, Within borrow start last value
  closed : Closed borrow start last scan → scan.iter.met = true
  behind : scan.iter.met = false → ∀ item, scan.origin.layout.Stored item ∧ start.admits borrow (key item) = false ∨
    item ∈ scan.front →
    ∀ wanted, Past (· < ·) scan.iter.currentFrontValue wanted → key item < wanted
  ahead : scan.iter.met = false → ∀ item, scan.origin.layout.Stored item ∧ last.permits borrow (key item) = false ∨
    item ∈ scan.back →
    ∀ wanted, Past (· > ·) scan.iter.currentBackValue wanted → wanted < key item
  stored : scan.iter.met = false → ∀ item, scan.set.layout.Stored item → Shielded borrow start last scan item
  frontBatch : scan.iter.met = false → ∀ batch, scan.iter.currentFrontBatch = some batch → ∀ item ∈ batch,
    Shielded borrow start last scan item
  backBatch : scan.iter.met = false → ∀ batch, scan.iter.currentBackBatch = some batch → ∀ item ∈ batch,
    Shielded borrow start last scan item

/-- A shielded value between the cursors is within the bounds. -/
private theorem Confined.inside (confined : Confined borrow start last scan) (unmet : scan.iter.met = false) {value : α}
    (shielded : Shielded borrow start last scan value) (past : Past (· < ·) scan.iter.currentFrontValue (key value))
    (short : Past (· > ·) scan.iter.currentBackValue (key value)) : Within borrow start last value := by
  rcases shielded with within | ⟨item, shield, reaches⟩ | ⟨item, shield, reaches⟩
  · exact within
  · exact absurd (confined.behind unmet item shield _ past) reaches.not_gt
  · exact absurd (confined.ahead unmet item shield _ short) reaches.not_gt

private theorem Shielded.mono {later : RangeScan α κ} {value : α} (shielded : Shielded borrow start last scan value)
    (origin : later.origin = scan.origin) (front : scan.front ⊆ later.front) (back : scan.back ⊆ later.back) :
    Shielded borrow start last later value := by
  rcases shielded with within | ⟨item, shield, reaches⟩ | ⟨item, shield, reaches⟩
  · exact Or.inl within
  · exact Or.inr (Or.inl ⟨item, shield.imp (origin ▸ id) (front ·), reaches⟩)
  · exact Or.inr (Or.inr ⟨item, shield.imp (origin ▸ id) (back ·), reaches⟩)

private theorem confined_created {set : BTreeSet α κ} (tidy : set.Tidy) (strict : StrictMono borrow)
    (matched : set.borrowOrderMatches = true) :
    Confined borrow start last ⟨set, set, set.range borrow start last, [], []⟩ := by
  have back := Range.backValue_matched tidy strict matched last
  refine ⟨tidy, by simp, fun closed => ?_, fun unmet item shield wanted past => ?_, fun _ item shield wanted past => ?_,
    fun _ item stored => ?_, fun _ batch missing => (by cases missing), fun _ batch missing => (by cases missing)⟩
  · rcases closed with crossed | ⟨⟨item, stored⟩, all⟩
    · simp [BTreeSet.range, Range.new, crossed]
    · apply Range.met_of_above tidy strict.monotone back _ stored
      rw [firstForBorrowedBound, find?_eq_none]
      intro entry member
      obtain ⟨⟨top, held, level⟩, _⟩ := (Node.maxKey_eq_some (tidy.valid.sound.sorted entry.2)).mp
        (tidy.layout.tight entry.1 entry.2 member)
      exact level ▸ all top ⟨entry.1, entry.2, member, held⟩
  · obtain ⟨stored, outside⟩ := shield.resolve_right (by simp)
    cases found : firstForBorrowedBound borrow set.index.index start with
    | none => cases (Range.met_of_above tidy strict.monotone back found stored).symm.trans unmet
    | some entry =>
      have sentinel := Range.frontValue_sentinel tidy strict.monotone start found
      have past : Past (· < ·) (Range.frontValue borrow start set) wanted := past
      cases same : Range.frontValue borrow start set with
      | none =>
        rw [same] at sentinel
        exact absurd (sentinel item stored) (Bool.eq_false_iff.mp outside)
      | some value =>
        rw [same] at sentinel past
        exact (not_lt.mp (sentinel.2.2 item stored (Bool.eq_false_iff.mp outside))).trans_lt (past value rfl)
  · obtain ⟨stored, outside⟩ := shield.resolve_right (by simp)
    have past : Past (· > ·) (Range.backValue borrow last set) wanted := past
    cases same : Range.backValue borrow last set with
    | none =>
      rw [same] at back
      exact absurd (back item stored) (Bool.eq_false_iff.mp outside)
    | some value =>
      rw [same] at back past
      exact (past value rfl).trans_le (not_lt.mp (back.2.2 item stored (Bool.eq_false_iff.mp outside)))
  · cases admitted : start.admits borrow (key item) with
    | false => exact Or.inr (Or.inl ⟨item, Or.inl ⟨stored, admitted⟩, le_rfl⟩)
    | true =>
      cases permitted : last.permits borrow (key item) with
      | false => exact Or.inr (Or.inr ⟨item, Or.inl ⟨stored, permitted⟩, le_rfl⟩)
      | true => exact Or.inl ⟨admitted, permitted⟩

/-- The set changed, and whatever is new in it is harmless. -/
private theorem Confined.mutates (confined : Confined borrow start last scan) {after : BTreeSet α κ} (tidy : after.Tidy)
    (new : ∀ item, after.layout.Stored item → scan.set.layout.Stored item ∨ Harmless borrow start last scan item) :
    Confined borrow start last { scan with set := after } := by
  refine ⟨tidy, confined.within, confined.closed, confined.behind, confined.ahead, fun unmet item stored => ?_,
    confined.frontBatch, confined.backBatch⟩
  rcases new item stored with earlier | closed | shielded
  · exact confined.stored unmet item earlier
  · cases (confined.closed closed).symm.trans unmet
  · exact shielded

private theorem Confined.shut (confined : Confined borrow start last scan) {iter : Iter α} (met : iter.met = true) :
    Confined borrow start last { scan with iter } := by
  have open_ {motive : Prop} (unmet : iter.met = false) : motive := by cases met.symm.trans unmet
  exact ⟨confined.tidy, confined.within, fun _ => met, open_, open_, open_, open_, open_⟩

private theorem Confined.next (confined : Confined borrow start last scan) {fuel : Nat} {result : Option α}
    {iter : Iter α}
    (ran : scan.iter.next scan.set fuel = some (result, iter)) :
    Confined borrow start last { scan with iter, front := scan.front ++ result.toList } := by
  cases met : scan.iter.met with
  | true =>
    obtain ⟨_, _, ended, _⟩ := Iter.next_yields (fun _ _ => True.intro) (fun _ _ _ _ => True.intro) ran
    obtain ⟨still, rfl⟩ := ended met
    rw [Option.toList_none, List.append_nil]
    exact confined.shut still
  | false =>
    obtain ⟨batches, frame, _, yields⟩ := Iter.next_yields (confined.stored met) (confined.frontBatch met) ran
    have other : iter.currentBackValue = scan.iter.currentBackValue := congrArg Direction.cursor frame
    have batch : iter.currentBackBatch = scan.iter.currentBackBatch :=
      Option.map_injective List.reverse_injective (congrArg Direction.batch frame)
    have grows {item : α} (shielded : Shielded borrow start last scan item) :
        Shielded borrow start last { scan with iter, front := scan.front ++ result.toList } item :=
      shielded.mono rfl (List.subset_append_left _ _) (List.Subset.refl _)
    have shut (closed : Closed borrow start last scan) : iter.met = true := by
      cases (confined.closed closed).symm.trans met
    refine ⟨confined.tidy, ?_, shut, fun _ => yields.behind (confined.behind met), fun _ => other ▸ confined.ahead met,
      fun _ item held => grows (confined.stored met item held),
      fun _ list same item member => grows (batches list same item member),
      fun _ list same item member => grows (confined.backBatch met list (batch ▸ same) item member)⟩
    cases yields with
    | nothing same => simpa using confined.within
    | value value fine past short moved =>
      intro item member
      simp only [Option.toList_some, List.append_assoc, List.mem_append, List.mem_singleton] at member
      rcases member with earlier | rfl | later
      · exact confined.within item (List.mem_append_left _ earlier)
      · exact confined.inside met fine past short
      · exact confined.within item (List.mem_append_right _ later)

private theorem Confined.nextBack (confined : Confined borrow start last scan) {fuel : Nat} {result : Option α}
    {iter : Iter α}
    (ran : scan.iter.nextBack scan.set fuel = some (result, iter)) :
    Confined borrow start last { scan with iter, back := scan.back ++ result.toList } := by
  cases met : scan.iter.met with
  | true =>
    obtain ⟨_, _, ended, _⟩ := Iter.nextBack_yields (fun _ _ => True.intro) (fun _ _ _ _ => True.intro) ran
    obtain ⟨still, rfl⟩ := ended met
    rw [Option.toList_none, List.append_nil]
    exact confined.shut still
  | false =>
    obtain ⟨batches, frame, _, yields⟩ := Iter.nextBack_yields (confined.stored met) (confined.backBatch met) ran
    have other : iter.currentFrontValue = scan.iter.currentFrontValue := congrArg Direction.cursor frame
    have batch : iter.currentFrontBatch = scan.iter.currentFrontBatch := congrArg Direction.batch frame
    have grows {item : α} (shielded : Shielded borrow start last scan item) :
        Shielded borrow start last { scan with iter, back := scan.back ++ result.toList } item :=
      shielded.mono rfl (List.Subset.refl _) (List.subset_append_left _ _)
    have shut (closed : Closed borrow start last scan) : iter.met = true := by
      cases (confined.closed closed).symm.trans met
    refine ⟨confined.tidy, ?_, shut, fun _ => other ▸ confined.behind met, fun _ => yields.behind (confined.ahead met),
      fun _ item held => grows (confined.stored met item held),
      fun _ list same item member => grows (confined.frontBatch met list (batch ▸ same) item member),
      fun _ list same item member => grows (batches list same item member)⟩
    cases yields with
    | nothing same => simpa using confined.within
    | value value fine past short moved =>
      intro item member
      simp only [Option.toList_some, List.mem_append, List.mem_singleton] at member
      rcases member with earlier | later | rfl
      · exact confined.within item (List.mem_append_left _ earlier)
      · exact confined.within item (List.mem_append_right _ later)
      · exact confined.inside met fine short past

end RangeScan

namespace RangeScanned
variable {scan : RangeScan α κ} {borrow : κ → Q} {start last : Bound Q} {nodeCapacity : Nat}

private theorem confined (scanned : RangeScanned nodeCapacity borrow start last
    (RangeScan.Harmless borrow start last) scan)
    (strict : StrictMono borrow) : scan.Confined borrow start last := by
  induction scanned with
  | created reachable => exact RangeScan.confined_created reachable.tidy.1 strict reachable.matched
  | insert earlier emitCdc value fuel harmless ran ih =>
    cases fuel with
    | zero => cases ran
    | succ fuel =>
      obtain ⟨_, _, _, effect, left, result⟩ := BTreeSet.putInner_effect ih.tidy emitCdc value fuel
      cases ran.symm.trans result
      obtain ⟨tidy, gains⟩ := effect.tidy ih.tidy.layout
      apply ih.mutates ⟨left.valid, tidy⟩
      intro item stored
      rcases (gains item).mp stored with rfl | ⟨kept, _⟩
      · exact Or.inr harmless
      · exact Or.inl kept
  | remove earlier emitCdc wanted fuel ran ih =>
    cases fuel with
    | zero => cases ran
    | succ fuel =>
      obtain ⟨_, _, _, effect, left, result⟩ := BTreeSet.removeInner_effect ih.tidy emitCdc wanted fuel
      cases ran.symm.trans result
      obtain ⟨tidy, loses⟩ := effect.tidy ih.tidy.layout
      exact ih.mutates ⟨left.valid, tidy⟩ fun item stored => Or.inl ((loses item).mp stored).1
  | next earlier fuel ran ih => exact ih.next ran
  | nextBack earlier fuel ran ih => exact ih.nextBack ran

/-- In every run whose inserts are harmless, everything either end yields lies within the bounds. -/
theorem yields_within (strict : StrictMono borrow)
    (scanned : RangeScanned nodeCapacity borrow start last (RangeScan.Harmless borrow start last) scan) :
    ∀ value ∈ scan.front ++ scan.back, Within borrow start last value :=
  (scanned.confined strict).within

/-- The value 4 comes within the bounds, and 10 beyond the 9 that ends the range. -/
theorem yields_within_shielded : ∃ scan : RangeScan Nat Nat,
    RangeScanned 3 id (.included 3) (.included 7) (RangeScan.Harmless id (.included 3) (.included 7)) scan ∧
      scan.front = [4, 5] ∧ scan.set.nodes.flatten = [4, 5, 9, 10] ∧ ∀ value ∈ scan.front, 3 ≤ value ∧ value ≤ 7 := by
  obtain ⟨scan, scanned, front, contents⟩ : ∃ scan : RangeScan Nat Nat,
      RangeScanned 3 id (.included 3) (.included 7) (RangeScan.Harmless id (.included 3) (.included 7)) scan ∧
      scan.front = [4, 5] ∧ scan.set.nodes.flatten = [4, 5, 9, 10] := by
    refine ⟨_, .next (.next (.insert (.insert (.created (.mutates (.mutates .new (.insert false 5 1 rfl))
      (.insert false 9 1 rfl)))
        false 4 1 (Or.inr (Or.inl ?_)) rfl) false 10 1 (Or.inr
          (Or.inr (Or.inr ⟨9, Or.inl ⟨?_, rfl⟩, by decide⟩))) rfl) 3 rfl) 3 rfl,
      by decide, by decide⟩
    · exact ⟨rfl, rfl⟩
    · exact (BTreeSet.mem_flatten_nodes 9).mp (by decide)
  refine ⟨scan, scanned, front, contents, fun value member => ?_⟩
  obtain ⟨above, below⟩ := scanned.yields_within strictMono_id value (List.mem_append_left _ member)
  exact ⟨of_decide_eq_true above, of_decide_eq_true below⟩

/-- A range from 3 on of the set of 5 yields 1, which was inserted after it was made. -/
theorem yields_below_start : ∃ scan : RangeScan Nat Nat, RangeScanned 3 id (.included 3) .unbounded
    (fun _ _ => True) scan ∧
    scan.origin.nodes = [[5]] ∧ scan.front = [1] ∧ ¬ Within id (.included 3) .unbounded 1 := by
  refine ⟨_, .next (.insert (.created (.mutates .new (.insert false 5 1 rfl))) false 1 1 True.intro rfl) 3 rfl,
    by decide, by decide, fun within => ?_⟩
  exact absurd within.1 (by decide)

end RangeScanned
end WorkTablesIndex
