import WorkTablesIndex.Partition
import WorkTablesIndex.RangeRemovalExact

/-! Range removals among the sections of other calls. A range removal is one section under the
topology's write lock, but it may come between the two sections of an insertion or a removal and
find boundaries that wait for their repair. -/

universe u v w

namespace WorkTablesIndex
open Relation SortedMap

variable {α : Type u} {κ : Type v} {Q : Type w} [LinearOrder κ] [Keyed α κ] [LinearOrder Q]

namespace Layout
variable {before after : Layout α κ}

theorem Trim.routed (trim : Trim before after) (sound : Sound before) (routed : Routed before) : Routed after := by
  cases trim with
  | erase entry =>
    intro other node member value present
    have between := routed other node ((mem_erase ..).mp member).2 value present
    exact ⟨fun earlier there => between.above earlier ((mem_erase ..).mp there).2,
      fun later there => between.within later ((mem_erase ..).mp there).2⟩
  | drain node values unlinked fewer =>
    intro other target member value present
    have here : target ≠ node := fun same => unlinked other (same ▸ member)
    apply routed other target member value
    simpa [Layout.rewrite, Heap.write_other _ _ here] using present
  | shrink entry node values linked fewer filled same =>
    exact routed.rewrite sound linked fun value member => routed entry node linked value (fewer.subset member)
  | cut entry new node values linked fewer greatest =>
    have shrunk := routed.rewrite sound linked fun value member => routed entry node linked value (fewer.subset member)
    have kept : Sound (before.rewrite node values) :=
      sound.rewrite ((sound.sorted node).sublist fewer) (Node.ne_nil_of_maxKey greatest)
    exact shrunk.rekey kept linked (by simpa [Layout.rewrite] using greatest)

theorem trims_routed (trims : ReflTransGen Trim before after) (sound : Sound before) (routed : Routed before) : Routed after := by
  induction trims with
  | refl => exact routed
  | tail earlier trim ih => exact trim.routed (trims_sound earlier sound) ih

end Layout

instance (layout : Layout α κ) (wanted : κ) : Decidable (layout.Settled wanted) :=
  decidable_of_iff (∃ entry ∈ layout.index.entries, ∃ item ∈ layout.heap.cells entry.2, key item = wanted ∧ wanted ≤ entry.1)
    ⟨fun ⟨entry, linked, item, member, same, below⟩ => ⟨entry.1, entry.2, item, linked, member, same, below⟩,
      fun ⟨entry, node, item, linked, member, same, below⟩ => ⟨(entry, node), linked, item, member, same, below⟩⟩

/-- Every section keeps the values routed, range removals among them. -/
theorem section_routed {set after : BTreeSet α κ} {call : CallId} {phase : Phase α κ} {next : Option (Phase α κ)}
    {records : List (Record α κ)} (runs : Section set call phase after next records) (valid : set.Valid)
    (routed : set.layout.Routed)
    (aims : ∀ node old value checked emitCdc cdc, phase = .commitSplit node old value checked emitCdc cdc →
      (old, node) ∈ set.index.index → Between set.index.index old (key value)) : after.layout.Routed := by
  by_cases sweeping : ∃ start last, phase = .removeRange start last
  · obtain ⟨start, last, rfl⟩ := sweeping
    cases runs with
    | again _ unchanged => exact unchanged ▸ routed
    | missed _ unchanged => exact unchanged ▸ routed
    | rekeys owed => cases owed
    | waives owed => cases owed
    | sweeps _ trims => exact Layout.trims_routed trims valid.sound routed
  · have pointwise : ∀ start last, phase ≠ .removeRange start last := fun start last same => sweeping ⟨start, last, same⟩
    have recounts : after.layout.Routed ∧ (Recounts [] set.layout → Recounts (records ++ []) after.layout) :=
      section_recounts valid routed runs pointwise aims
    exact recounts.1

namespace BTreeSet
variable {set : BTreeSet α κ} {borrow : κ → Q} {start last : Bound Q}

/-- When no boundary reaches the start, a range removal does nothing. -/
theorem removeRange_unreached (valid : set.Valid)
    (missing : ∀ entry ∈ set.index.index, start.admits borrow entry.1 = false) :
    (removeRange borrow start last set).layout = set.layout := by
  have none : firstForBorrowedBound borrow set.index.write.index start = none :=
    find?_eq_none.mpr missing
  simp only [removeRange, none]
  exact (valid_unused valid).2

private theorem removeRange_reached (valid : set.Valid) (routed : set.layout.Routed) (strict : StrictMono borrow)
    (matched : set.borrowOrderMatches = true) (reached : ¬ ∀ entry ∈ set.index.index, start.admits borrow entry.1 = false) :
    Layout.Sieved (Range.spares borrow start last) set.layout (removeRange borrow start last set).layout := by
  apply removeRange_sieves valid.sound routed strict matched
  intro missing
  exact absurd missing reached

theorem removeRange_stored (valid : set.Valid) (routed : set.layout.Routed) (strict : StrictMono borrow)
    (matched : set.borrowOrderMatches = true) (item : α) : (removeRange borrow start last set).layout.Stored item ↔
      set.layout.Stored item ∧ (Range.spares borrow start last item = true ∨
        ∀ entry ∈ set.index.index, start.admits borrow entry.1 = false) := by
  by_cases missing : ∀ entry ∈ set.index.index, start.admits borrow entry.1 = false
  · rw [removeRange_unreached valid missing]
    exact ⟨fun stored => ⟨stored, Or.inr missing⟩, fun both => both.1⟩
  · obtain ⟨_, trims⟩ := removeRange_trims valid borrow start last
    rw [(removeRange_reached valid routed strict matched missing).stored trims item, or_iff_left missing]

theorem removeRange_emptied (valid : set.Valid) (routed : set.layout.Routed) (strict : StrictMono borrow)
    (matched : set.borrowOrderMatches = true) {entry : κ} {node : NodeId} (linked : (entry, node) ∈ set.index.index)
    (detached : ∀ other, (other, node) ∉ (removeRange borrow start last set).index.index) :
    (removeRange borrow start last set).heap.cells node = [] := by
  by_cases missing : ∀ entry ∈ set.index.index, start.admits borrow entry.1 = false
  · have unchanged : (removeRange borrow start last set).layout.index = set.layout.index :=
      congrArg Layout.index (removeRange_unreached valid missing)
    have still : (entry, node) ∈ (removeRange borrow start last set).layout.index := by
      rw [unchanged]
      exact linked
    exact absurd still (detached entry)
  · by_contra filled
    obtain ⟨other, member⟩ := (removeRange_reached valid routed strict matched missing).linked entry node linked filled
    exact detached other member

end BTreeSet

namespace Machine
variable {nodeCapacity : Nat} {machine before after : Machine α κ}

private theorem advance_routing (machine : Machine α κ) (thread : ThreadId) (call : CallId) (phase : Phase α κ) :
    (machine.advance thread call phase).set.borrowOrderMatches = machine.set.borrowOrderMatches := by
  cases phase with
  | put value checked emitCdc =>
    have first := BTreeSet.putNode_routing emitCdc value machine.set
    simp only [advance]
    split <;> rename_i same <;> rw [same] at first
    · exact first
    · exact first
    · split
      · exact first
      · exact (BTreeSet.replaceNode_routing ..).trans first
    · exact first
    · exact first
  | root value checked emitCdc =>
    have first := BTreeSet.createRoot_routing emitCdc value machine.set
    simp only [advance]
    split <;> rename_i same <;> rw [same] at first <;> exact first
  | commitSplit node old value checked emitCdc cdc =>
    have first := BTreeSet.commitOperation_routing noIdentityAdoption emitCdc (.split node old value) machine.set
    simp only [advance]
    split <;> rename_i same <;> rw [same] at first <;> exact first
  | commitMax node old emitCdc cdc =>
    have first := BTreeSet.commitOperation_routing noIdentityAdoption emitCdc (.updateMax node old) machine.set
    simp only [advance]
    split <;> rename_i same <;> rw [same] at first <;> exact first
  | remove wanted emitCdc =>
    have first := BTreeSet.removeNode_routing id emitCdc wanted machine.set
    simp only [advance]
    split <;> rename_i same <;> rw [same] at first <;> exact first
  | unlink wanted emitCdc =>
    have first := BTreeSet.unlinkNode_routing id emitCdc wanted machine.set
    simp only [advance]
    split <;> rename_i same <;> rw [same] at first <;> exact first
  | repair node old deleted cdc => exact BTreeSet.commitOperation_routing ..
  | removeRange start last => exact BTreeSet.removeRange_routing ..

theorem Reached.matched {permits : Machine α κ → Action α κ → Prop} (reached : Reached permits nodeCapacity machine) :
    machine.set.borrowOrderMatches = true := by
  induction reached with
  | start => rfl
  | @step before after earlier action allowed taken matched =>
    cases action with
    | invoke thread request =>
      simp only [Machine.step] at taken
      split at taken
      next => cases taken
      next =>
        cases taken
        exact matched
    | advance thread =>
      simp only [Machine.step] at taken
      split at taken
      next => cases taken
      next call phase _ =>
        cases taken
        exact (advance_routing ..).trans matched

theorem Aimed.between {thread : ThreadId} {call : CallId} {phase : Phase α κ} (aimed : machine.Aimed (.advance thread))
    (running : machine.threads thread = some (call, phase)) :
    ∀ node old value checked emitCdc cdc, phase = .commitSplit node old value checked emitCdc cdc →
      (old, node) ∈ machine.set.index.index → Between machine.set.index.index old (key value) := by
  rintro node old value checked emitCdc cdc rfl linked
  simp only [Aimed, running] at aimed
  exact (route_eq_some.mp (aimed linked)).2

/-- Values stay routed in every run whose splits commit where their value belongs, whatever range
removals come in between. -/
theorem Reached.routed (reached : Reached Aimed nodeCapacity machine) : machine.set.layout.Routed := by
  induction reached with
  | start => exact fun _ _ member => (not_mem_empty _ member).elim
  | step earlier action allowed taken routed =>
    have valid := earlier.sound.valid
    rcases step_cases valid taken with ⟨_, _, _, _, rfl⟩ | ⟨thread, call, phase, rfl, running, _, _, _, runs, rfl⟩
    · exact routed
    · exact section_routed runs valid routed (Aimed.between allowed running)

/-- A stored key lies above the boundary of its node only while a call owes the repair of that
boundary. -/
theorem Reached.settled_or_owed {permits : Machine α κ → Action α κ → Prop} (reached : Reached permits nodeCapacity machine) {item : α}
    (stored : machine.set.layout.Stored item) : machine.set.layout.Settled (key item) ∨
      ∃ thread call phase node entry, machine.threads thread = some (call, phase) ∧ phase.repairs = some (node, entry) ∧
        entry < key item := by
  obtain ⟨entry, node, linked, member⟩ := stored
  rcases le_or_gt (key item) entry with below | above
  · exact Or.inl ⟨entry, node, item, linked, member, rfl, below⟩
  · rcases reached.sound.tracked entry node linked with tight | ⟨thread, call, phase, running, owed⟩
    · exact absurd (((Node.maxKey_eq_some (reached.sound.valid.sound.sorted node)).mp tight).2 item member) above.not_ge
    · exact Or.inr ⟨thread, call, phase, node, entry, running, owed, above⟩

/-- What a range removal leaves behind, wherever the other threads stand. -/
structure RangeSwept (start last : Bound κ) (before after : BTreeSet α κ) : Prop where
  partitioned : after.layout.Partitioned
  stored : ∀ item, after.layout.Stored item ↔ before.layout.Stored item ∧ (Range.spares id start last item = true ∨
    ∀ entry ∈ before.index.index, start.admits id entry.1 = false)
  settled : ∀ item, before.layout.Settled (key item) → Range.spares id start last item = false → ¬ after.layout.Stored item
  emptied : ∀ entry node, (entry, node) ∈ before.index.index → (∀ other, (other, node) ∉ after.index.index) →
    after.heap.cells node = []

/-- In every run of insertions, removals and range removals whose splits commit where their value
belongs, the linked nodes always partition the values. The section of a range removal takes out
exactly the values within its bounds, except that it does nothing when no boundary reaches its
start. So it takes out every value within its bounds that is not above the boundary of its node,
and the nodes it unlinks are empty. -/
theorem Reached.range_removed_amid_sections (reached : Reached Aimed nodeCapacity before) : before.set.layout.Partitioned ∧
    ∀ {thread : ThreadId} {call : CallId} {start last : Bound κ} {after : Machine α κ},
      before.threads thread = some (call, .removeRange start last) → before.step (.advance thread) = some after →
      RangeSwept start last before.set after.set := by
  refine ⟨reached.routed.partitioned, ?_⟩
  intro thread call start last after running taken
  have valid := reached.sound.valid
  have later : Reached Aimed nodeCapacity after := reached.step (.advance thread) (by simp [Aimed, running]) taken
  obtain rfl : before.advance thread call (.removeRange start last) = after := by
    simpa only [Machine.step, running, Option.some.injEq] using taken
  have stored (item : α) : (before.advance thread call (.removeRange start last)).set.layout.Stored item ↔
      before.set.layout.Stored item ∧ (Range.spares id start last item = true ∨
        ∀ entry ∈ before.set.index.index, start.admits id entry.1 = false) :=
    BTreeSet.removeRange_stored valid reached.routed strictMono_id reached.matched item
  refine ⟨later.routed.partitioned, stored, fun item settled inside kept => ?_, fun entry node linked detached =>
    BTreeSet.removeRange_emptied valid reached.routed strictMono_id reached.matched linked detached⟩
  rcases ((stored item).mp kept).2 with spared | missing
  · cases spared.symm.trans inside
  · obtain ⟨entry, node, _, linked, _, _, below⟩ := settled
    rw [Range.spares, Bool.not_eq_false', Bool.and_eq_true] at inside
    have reaches : start.admits id entry = true := by
      apply Bound.admits_mono monotone_id start below
      exact inside.1
    cases reaches.symm.trans (missing (entry, node) linked)

/-- The removal comes between the two sections of the insertion of 20, over the boundary 10. -/
theorem Reached.range_removed_amid_sections_between : ∃ before after : Machine Nat Nat, Reached Aimed 3 before ∧
    before.set.nodes = [[5, 10, 20]] ∧ RangeSwept (.included 8) (.included 15) before.set after.set ∧
      after.set.nodes = [[5, 20]] := by
  obtain ⟨before, after, reached, running, taken, earlier, later⟩ : ∃ before after : Machine Nat Nat, Reached Aimed 3 before ∧
      before.threads 1 = some (3, .removeRange (.included 8) (.included 15)) ∧ before.step (.advance 1) = some after ∧
      before.set.nodes = [[5, 10, 20]] ∧ after.set.nodes = [[5, 20]] :=
    ⟨_, _, .step (.step (.step (.step (.step (.step (.step (.step .start
      (.invoke 0 (.insert 10 false false)) trivial rfl) (.advance 0) trivial rfl) (.advance 0) trivial rfl)
      (.invoke 0 (.insert 5 false false)) trivial rfl) (.advance 0) trivial rfl)
      (.invoke 0 (.insert 20 false false)) trivial rfl) (.advance 0) trivial rfl)
      (.invoke 1 (.removeRange (.included 8) (.included 15))) trivial rfl, rfl, rfl, by decide, by decide⟩
  exact ⟨before, after, reached, earlier, reached.range_removed_amid_sections.2 running taken, later⟩

/-- The insertion of 15 has returned, but the boundary 10 of its node has not been repaired since 20
was stored: the removal of the range from 12 on finds nothing to do. -/
theorem Reached.range_removal_unreached : ∃ before after : Machine Nat Nat, Reached Aimed 3 before ∧
    before.threads 1 = some (3, .removeRange (.included 12) .unbounded) ∧ before.step (.advance 1) = some after ∧
      before.set.nodes = [[10, 15, 20]] ∧ after.set.nodes = [[10, 15, 20]] :=
  ⟨_, _, .step (.step (.step (.step (.step (.step (.step (.step .start
    (.invoke 0 (.insert 10 false false)) trivial rfl) (.advance 0) trivial rfl) (.advance 0) trivial rfl)
    (.invoke 0 (.insert 20 false false)) trivial rfl) (.advance 0) trivial rfl)
    (.invoke 1 (.insert 15 false false)) trivial rfl) (.advance 1) trivial rfl)
    (.invoke 1 (.removeRange (.included 12) .unbounded)) trivial rfl, rfl, rfl, by decide, by decide⟩

end Machine
end WorkTablesIndex
