import WorkTablesIndex.Steps

/-! Deferred boundary repair. A linked node whose key is not its maximum has a
repair pending that names exactly that key, so once no operation is pending
every key is the maximum of its node, whatever commits failed on the way. -/

universe u v

namespace WorkTablesIndex
open Relation SortedMap

variable {α : Type u} {κ : Type v} [LinearOrder κ] [Keyed α κ]

namespace Layout

/-- Every entry afterwards is the maximum of its node, or is the waived one, or was
there before over the same maximum. -/
def Tracks (before after : Layout α κ) (waived : Option (NodeId × κ)) : Prop :=
  ∀ entry node, (entry, node) ∈ after.index → Node.maxKey (after.heap.cells node) = some entry ∨ waived = some (node, entry) ∨
    (entry, node) ∈ before.index ∧ Node.maxKey (after.heap.cells node) = Node.maxKey (before.heap.cells node)

variable {layout : Layout α κ} {node : NodeId} {old : κ}

theorem tracks_refl (layout : Layout α κ) (waived : Option (NodeId × κ)) : Tracks layout layout waived :=
  fun _ _ member => Or.inr (Or.inr ⟨member, rfl⟩)

theorem Tracks.trans {before middle after : Layout α κ} (first : Tracks before middle none) (second : Tracks middle after none) :
    Tracks before after none := by
  intro entry node member
  rcases second entry node member with tight | waived | ⟨kept, same⟩
  · exact Or.inl tight
  · cases waived
  · rcases first entry node kept with tight | waived | ⟨earlier, unchanged⟩
    · exact Or.inl (same.trans tight)
    · cases waived
    · exact Or.inr (Or.inr ⟨earlier, same.trans unchanged⟩)

/-- Rewriting a node waives its own entry when the maximum moves. -/
theorem rewrite_tracks (sound : Sound layout) (linked : (old, node) ∈ layout.index) {values : List α} {waived : Option (NodeId × κ)}
    (settled : Node.maxKey values = Node.maxKey (layout.heap.cells node) ∨ waived = some (node, old)) :
    Tracks layout (layout.rewrite node values) waived := by
  intro entry other member
  by_cases here : other = node
  · subst here
    rcases settled with same | waives
    · refine Or.inr (Or.inr ⟨member, ?_⟩)
      simpa [Layout.rewrite] using same
    · rw [sound.once entry old other member linked]
      exact Or.inr (Or.inl waives)
  · refine Or.inr (Or.inr ⟨member, ?_⟩)
    simp [Layout.rewrite, Heap.write_other _ _ here]

theorem root_tracks (empty : ∀ entry, entry ∉ layout.index) (value : α) : Tracks layout (layout.root value) none := by
  intro entry other member
  rcases (mem_insert ..).mp member with same | ⟨_, kept⟩
  · cases same
    exact Or.inl (by simp [Layout.root, Node.maxKey, Node.max])
  · exact absurd kept (empty _)

theorem rekey_tracks {new : κ} (greatest : Node.maxKey (layout.heap.cells node) = some new) :
    Tracks layout (layout.rekey node old new) none := by
  intro entry other member
  rcases mem_rekey member with ⟨rfl, rfl⟩ | ⟨_, kept⟩
  · exact Or.inl greatest
  · exact Or.inr (Or.inr ⟨kept, rfl⟩)

theorem unlink_tracks (sound : Sound layout) (linked : (old, node) ∈ layout.index) :
    Tracks layout (layout.unlink node old) none := by
  intro entry other member
  obtain ⟨different, kept⟩ := (mem_erase ..).mp member
  refine Or.inr (Or.inr ⟨kept, ?_⟩)
  simp [Layout.unlink, Heap.write_other _ _ (sound.apart linked kept different)]

theorem split_tracks (sound : Sound layout) (linked : (old, node) ∈ layout.index) (left right : List α) :
    Tracks layout (layout.split node old left right) none := by
  have away : node ≠ layout.heap.next := (sound.allocated old node linked).ne
  intro entry other member
  rcases mem_split member with ⟨rfl, top⟩ | ⟨rfl, top⟩ | ⟨different, kept⟩
  · exact Or.inl (by simpa [split_cells] using top)
  · exact Or.inl (by simpa [split_cells, away] using top)
  · refine Or.inr (Or.inr ⟨kept, ?_⟩)
    rw [split_cells, if_neg (sound.allocated entry other kept).ne, if_neg (sound.apart linked kept different)]

theorem Trim.tracks {before after : Layout α κ} (trim : Trim before after) (sound : Sound before) : Tracks before after none := by
  cases trim with
  | erase entry => exact fun _ _ member => Or.inr (Or.inr ⟨((mem_erase ..).mp member).2, rfl⟩)
  | drain node values unlinked fewer =>
    intro entry other member
    have here : other ≠ node := fun same => unlinked entry (same ▸ member)
    exact Or.inr (Or.inr ⟨member, by simp [Layout.rewrite, Heap.write_other _ _ here]⟩)
  | shrink entry node values linked fewer filled same => exact rewrite_tracks sound linked (Or.inl same)
  | cut entry new node values linked fewer greatest =>
    intro other target member
    rcases mem_rekey member with ⟨rfl, rfl⟩ | ⟨different, kept⟩
    · exact Or.inl (by simpa [Layout.rekey, Layout.rewrite] using greatest)
    · refine Or.inr (Or.inr ⟨kept, ?_⟩)
      simp [Layout.rekey, Layout.rewrite, Heap.write_other _ _ (sound.apart linked kept different)]

theorem trims_tracks {before after : Layout α κ} (trims : ReflTransGen Trim before after) (sound : Sound before) :
    Tracks before after none := by
  induction trims with
  | refl => exact tracks_refl before none
  | tail earlier trim ih => exact ih.trans (trim.tracks (trims_sound earlier sound))

end Layout

namespace Machine

/-- Every stale key has a repair pending that names it. -/
def Tracked (machine : Machine α κ) : Prop :=
  ∀ entry node, (entry, node) ∈ machine.set.index.index → Node.maxKey (machine.set.heap.cells node) = some entry ∨
    ∃ thread call phase, machine.threads thread = some (call, phase) ∧ phase.repairs = some (node, entry)

structure Sound (machine : Machine α κ) : Prop where
  valid : machine.set.Valid
  tracked : machine.Tracked

/-- What one section does for boundaries: entries that are neither tight nor waived by
the next phase were there before, and the phase's own repair is done with. -/
theorem section_tracks {set after : BTreeSet α κ} {call : CallId} {phase : Phase α κ} {next : Option (Phase α κ)}
    {records : List (Record α κ)} (valid : set.Valid) (runs : Section set call phase after next records) :
    after.Valid ∧ set.layout.Tracks after.layout (next.bind Phase.repairs) ∧
      ∀ node entry, phase.repairs = some (node, entry) → (entry, node) ∈ after.index.index →
        Node.maxKey (after.heap.cells node) = some entry := by
  have sound := valid.sound
  cases runs with
  | again afterValid unchanged retries =>
    refine ⟨afterValid, unchanged ▸ Layout.tracks_refl _ _, ?_⟩
    rcases retries with ⟨_, _, _, rfl, _⟩ | ⟨_, _, _, rfl, _⟩ | ⟨_, _, _, _, _, _, rfl, _⟩ | ⟨_, _, rfl, _⟩ | ⟨_, _, rfl, _⟩ <;>
      exact fun _ _ owed => nomatch owed
  | rejected => exact ⟨valid, Layout.tracks_refl _ _, fun _ _ owed => nomatch owed⟩
  | missed afterValid unchanged removal =>
    refine ⟨afterValid, unchanged ▸ Layout.tracks_refl _ _, ?_⟩
    obtain ⟨_, _, rfl | rfl, _⟩ := removal <;> exact fun _ _ owed => nomatch owed
  | schedules linked inside => exact ⟨valid, Layout.tracks_refl _ _, fun _ _ owed => nomatch owed⟩
  | stores linked inside afterValid stored same rewritten =>
    exact ⟨afterValid, rewritten ▸ Layout.rewrite_tracks sound linked (Or.inl same), fun _ _ owed => nomatch owed⟩
  | grows linked inside afterValid stored rewritten =>
    exact ⟨afterValid, rewritten ▸ Layout.rewrite_tracks sound linked (Or.inr rfl), fun _ _ owed => nomatch owed⟩
  | roots empty afterValid rooted => exact ⟨afterValid, rooted ▸ Layout.root_tracks empty _, fun _ _ owed => nomatch owed⟩
  | splits linked afterValid stored filled divided =>
    exact ⟨afterValid, divided ▸ Layout.split_tracks sound linked _ _, fun _ _ owed => nomatch owed⟩
  | rekeys owed linked greatest afterValid rekeyed =>
    refine ⟨afterValid, rekeyed ▸ Layout.rekey_tracks greatest, fun node entry same member => ?_⟩
    obtain ⟨rfl, rfl⟩ := Prod.mk.inj (Option.some.inj (same.symm.trans owed))
    have moved : (entry, node) ∈ after.layout.index := member
    have cells : after.layout.heap.cells node = set.heap.cells node := by rw [rekeyed]; rfl
    rw [rekeyed] at moved
    rcases Layout.mem_rekey moved with ⟨_, tight⟩ | ⟨different, _⟩
    · exact (congrArg Node.maxKey cells).trans (tight ▸ greatest)
    · exact absurd rfl different
  | waives owed unlinked afterValid unchanged =>
    refine ⟨afterValid, unchanged ▸ Layout.tracks_refl _ _, fun node entry same member => ?_⟩
    obtain ⟨rfl, rfl⟩ := Prod.mk.inj (Option.some.inj (same.symm.trans owed))
    have kept : (entry, node) ∈ after.layout.index := member
    rw [unchanged] at kept
    exact absurd kept unlinked
  | deletes linked inside afterValid removed present same rewritten =>
    exact ⟨afterValid, rewritten ▸ Layout.rewrite_tracks sound linked (Or.inl same), fun _ _ owed => nomatch owed⟩
  | shrinks linked inside afterValid removed present rewritten =>
    exact ⟨afterValid, rewritten ▸ Layout.rewrite_tracks sound linked (Or.inr rfl), fun _ _ owed => nomatch owed⟩
  | unlinks linked inside afterValid removed present unlinked =>
    exact ⟨afterValid, unlinked ▸ Layout.unlink_tracks sound linked, fun _ _ owed => nomatch owed⟩
  | sweeps afterValid trims => exact ⟨afterValid, Layout.trims_tracks trims sound, fun _ _ owed => nomatch owed⟩

theorem Sound.step {before after : Machine α κ} (sound : Sound before) {action : Action α κ}
    (taken : before.step action = some after) : Sound after := by
  rcases step_cases sound.valid taken with ⟨thread, request, _, idle, rfl⟩ | ⟨thread, call, phase, _, running, moves⟩
  · refine ⟨sound.valid, fun entry node member => ?_⟩
    apply (sound.tracked entry node member).imp id
    intro pending
    obtain ⟨other, call, phase, runs, owed⟩ := pending
    refine ⟨other, call, phase, ?_, owed⟩
    have apart : other ≠ thread := by
      intro same
      rw [same, idle] at runs
      cases runs
    simpa [move, apart] using runs
  · obtain ⟨set, next, records, runs, rfl⟩ := moves
    obtain ⟨valid, tracks, resolved⟩ := section_tracks sound.valid runs
    refine ⟨valid, fun entry node member => ?_⟩
    rcases tracks entry node member with tight | waived | ⟨kept, same⟩
    · exact Or.inl tight
    · -- the thread itself now owes the repair
      obtain ⟨pending, found, owed⟩ := Option.bind_eq_some_iff.mp waived
      exact Or.inr ⟨thread, call, pending, by simp [move, found], owed⟩
    · rcases sound.tracked entry node kept with tight | ⟨other, owner, pending, runs, owed⟩
      · exact Or.inl (same.trans tight)
      · by_cases here : other = thread
        · subst here
          cases running.symm.trans runs
          exact Or.inl (resolved node entry owed member)
        · exact Or.inr ⟨other, owner, pending, by simpa [move, here] using runs, owed⟩

theorem Reached.sound {permits : Machine α κ → Action α κ → Prop} {nodeCapacity : Nat} {machine : Machine α κ}
    (reached : Reached permits nodeCapacity machine) : Sound machine := by
  induction reached with
  | start => exact ⟨BTreeSet.valid_new nodeCapacity, fun _ _ member => (not_mem_empty _ member).elim⟩
  | step earlier action allowed taken ih => exact ih.step taken

/-- Deferred boundary repair converges: no linked node is ever empty, and once no
operation is pending every key is the maximum of its node. -/
theorem boundaries_converge {nodeCapacity : Nat} {machine : Machine α κ} (reached : Reached Any nodeCapacity machine) :
    (∀ entry node, (entry, node) ∈ machine.set.index.index → machine.set.heap.cells node ≠ []) ∧
      (machine.Settled → ∀ entry node, (entry, node) ∈ machine.set.index.index →
        Node.maxKey (machine.set.heap.cells node) = some entry) := by
  have sound := reached.sound
  refine ⟨sound.valid.sound.filled, fun settled entry node member => ?_⟩
  rcases sound.tracked entry node member with tight | ⟨thread, call, phase, runs, owed⟩
  · exact tight
  · have idle := settled thread call phase runs
    cases phase <;> simp [Phase.repairs, Phase.pending] at owed idle

/-- Two insertions past the maximum owe a repair of the same key: the first commit
moves the key, the second finds it gone and fails. -/
def doubleGrowth : List (Action Nat Nat) :=
  [.invoke 0 (.insert 10 false false), .advance 0, .advance 0, .invoke 0 (.insert 20 false false), .advance 0,
    .invoke 1 (.insert 30 false false), .advance 1, .advance 0, .advance 1]

theorem boundaries_converge_doubleGrowth : ∃ machine, (start 3).run doubleGrowth = some machine ∧
    machine.set.index.index.entries = [(30, 0)] ∧ machine.set.heap.cells 0 = [10, 20, 30] ∧ machine.Settled ∧
    ∀ entry node, (entry, node) ∈ machine.set.index.index → Node.maxKey (machine.set.heap.cells node) = some entry := by
  obtain ⟨machine, ran, quiescent, entries, cells⟩ : ∃ machine, (start 3).run doubleGrowth = some machine ∧ machine.Quiescent ∧
      machine.set.index.index.entries = [(30, 0)] ∧ machine.set.heap.cells 0 = [10, 20, 30] :=
    ⟨_, rfl, fun | 0 => rfl | 1 => rfl | _ + 2 => rfl, by decide, by decide⟩
  exact ⟨machine, ran, entries, cells, quiescent.settled, (boundaries_converge (Reached.start.run ran)).2 quiescent.settled⟩

end Machine
end WorkTablesIndex
