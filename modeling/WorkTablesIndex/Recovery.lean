import WorkTablesIndex.DrawnReplay
import WorkTablesIndex.Occupancy

/-! Recovery from a checkpoint and the events after it. An index reconstructed from the log of a
concurrent run has checkpoints that the decoder accepts, and what is decoded is where the
consumer of the later events can start. -/

universe u v

namespace WorkTablesIndex
open Relation SortedMap PersistedBTreeMap

variable {α : Type u} {κ : Type v} [LinearOrder κ]

/-- The pointer-free image of a reconstructed index. -/
def PersistedBTreeMap.checkpoint (nodeCapacity : Nat) (nodes : PersistedBTreeMap α κ) : BTreeMap.Topology α :=
  ⟨nodeCapacity, nodes.entries.map Prod.snd⟩

variable [Keyed α κ]

namespace Layout
variable {layout : Layout α κ} {nodeCapacity : Nat}

theorem Routed.checkpoint_wellFormed (routed : Routed layout) (sound : Sound layout) (positive : 0 < nodeCapacity)
    (bounded : layout.Bounded nodeCapacity) : (layout.present.checkpoint nodeCapacity).WellFormed := by
  have source : ∀ values ∈ (layout.present.checkpoint nodeCapacity).nodes, ∃ entry node, (entry, node) ∈ layout.index ∧
      layout.heap.cells node = values := by
    intro values member
    obtain ⟨⟨top, values⟩, listed, rfl⟩ := List.mem_map.mp member
    obtain ⟨node, ⟨entry, linked⟩, same, _⟩ := (routed.mem_present sound).mp listed
    exact ⟨entry, node, linked, same⟩
  refine ⟨positive, fun values member => ?_, fun values member => ?_, fun values member => ?_, ?_⟩
  · obtain ⟨entry, node, linked, rfl⟩ := source values member
    exact sound.filled entry node linked
  · obtain ⟨_, node, _, rfl⟩ := source values member
    exact bounded node
  · obtain ⟨_, node, _, rfl⟩ := source values member
    exact sound.sorted node
  · -- each node is the interval of its entry, and its maximum tells on which side the next one lies
    obtain ⟨tidy, heap, _⟩ := routed.settled sound
    have ascending : layout.present.entries.Pairwise fun left right =>
        ∀ last ∈ left.2.getLast?, ∀ first ∈ right.2.head?, key last < key first := by
      apply layout.present.sorted.imp_of_mem
      intro left right leftIn rightIn below last ends first begins
      obtain ⟨_, leftLinked, leftSame⟩ := mem_mapValues.mp (show (left.1, left.2) ∈ layout.settled.topology from leftIn)
      obtain ⟨_, rightLinked, rightSame⟩ := mem_mapValues.mp
        (show (right.1, right.2) ∈ layout.settled.topology from rightIn)
      calc key last ≤ left.1 := tidy.le leftLinked (leftSame ▸ List.mem_of_getLast? ends)
        _ < key first := tidy.lt rightLinked (rightSame ▸ List.mem_of_head? begins) leftLinked below
    exact (List.pairwise_map.mpr ascending).isChain

omit [Keyed α κ] in
private theorem mem_checkpoint {nodes : PersistedBTreeMap α κ} {values : List α} :
    values ∈ (nodes.checkpoint nodeCapacity).nodes ↔ ∃ top, (top, values) ∈ nodes := by
  simp only [PersistedBTreeMap.checkpoint, List.mem_map, Prod.exists, exists_eq_right, mem_def]

/-- The checkpoint decodes to a set with the consumer's nodes and the values of the layout. -/
theorem Routed.checkpoint_rebuilds (routed : Routed layout) (sound : Sound layout) (positive : 0 < nodeCapacity)
    (bounded : layout.Bounded nodeCapacity) : ∃ restored : BTreeSet α κ,
      BTreeMap.fromTopology (layout.present.checkpoint nodeCapacity) = some (.ok restored) ∧ restored.Tidy ∧
      restored.nodeCapacity = nodeCapacity ∧ restored.topology = layout.present ∧
      ∀ item, restored.layout.Stored item ↔ layout.Stored item := by
  obtain ⟨restored, decoded, tidy, capacity, nodes⟩ :=
    BTreeMap.fromTopology_restores (κ := κ) (routed.checkpoint_wellFormed sound positive bounded)
  refine ⟨restored, decoded, tidy, capacity, ext_mem fun entry => ?_, fun item => ?_⟩
  · obtain ⟨top, values⟩ := entry
    have listed : values ∈ restored.nodes ↔ ∃ top, (top, values) ∈ layout.present := by
      rw [nodes]
      exact mem_checkpoint
    constructor
    · intro member
      obtain ⟨node, linked, rfl⟩ := mem_mapValues.mp (show (top, values) ∈ restored.layout.topology from member)
      obtain ⟨other, there⟩ := listed.mp (BTreeSet.mem_nodes.mpr ⟨top, node, linked, rfl⟩)
      obtain ⟨_, _, _, greatest⟩ := (routed.mem_present sound).mp there
      cases (tidy.layout.tight top node linked).symm.trans greatest
      exact there
    · intro member
      obtain ⟨other, node, linked, rfl⟩ := BTreeSet.mem_nodes.mp (listed.mpr ⟨top, member⟩)
      obtain ⟨_, _, _, greatest⟩ := (routed.mem_present sound).mp member
      cases (tidy.layout.tight other node linked).symm.trans greatest
      exact mem_mapValues.mpr ⟨node, linked, rfl⟩
  · rw [← BTreeSet.mem_flatten_nodes, nodes, List.mem_flatten]
    constructor
    · intro copied
      obtain ⟨values, member, inside⟩ := copied
      obtain ⟨top, there⟩ := mem_checkpoint.mp member
      obtain ⟨node, ⟨entry, linked⟩, rfl, _⟩ := (routed.mem_present sound).mp there
      exact ⟨entry, node, linked, inside⟩
    · intro stored
      obtain ⟨entry, node, linked, inside⟩ := stored
      obtain ⟨top, greatest⟩ := Node.maxKey_isSome (κ := κ) (sound.filled entry node linked)
      have there := (routed.mem_present sound).mpr ⟨node, ⟨entry, linked⟩, rfl, greatest⟩
      exact ⟨_, mem_checkpoint.mpr ⟨top, there⟩, inside⟩

end Layout

namespace CdcMachine
variable {machine before after : CdcMachine α κ} {nodeCapacity : Nat}

theorem ReachedBy.fits (many : 2 ≤ nodeCapacity) (reached : ReachedBy Replayable nodeCapacity machine) :
    machine.set.Fits nodeCapacity := by
  induction reached with
  | start => exact ⟨rfl, fun _ => Nat.zero_le _⟩
  | @step before _ earlier action allowed taken fits =>
    rcases step_cases taken with ⟨thread, request, _, _, rfl⟩ | ⟨thread, call, phase, _, _, _, rfl⟩ |
      ⟨thread, call, event, pending, drawn, exit, _, _, rfl⟩ | ⟨thread, call, drawn, exit, _, _, rfl⟩
    · exact fits
    · -- the section changes the set as it does when it is not interrupted
      have kept : (before.coarse.advance thread call phase).set.Fits nodeCapacity :=
        Machine.advance_fits fits earlier.sound.valid many thread call phase
      rw [(before.coarse.advance_uninterrupted thread call phase).moved] at kept
      exact ⟨kept.capacity, kept.bounded⟩
    · exact ⟨fits.capacity, fits.bounded⟩
    · exact fits

/-- In every run of recorded insertions and removals that the consumer can follow: the log so far
reconstructs an index whose checkpoint is accepted and restores the values of the live set,
and the later events replay on the restored nodes into those of the live set at the end, which
again make an accepted checkpoint. -/
theorem checkpoint_and_tail (reached : ReachedBy Replayable nodeCapacity before) (goes : ReflTransGen Goes before after)
    (many : 2 ≤ nodeCapacity) (drawn : before.Drawn) (done : after.Drawn) :
    ∃ log recent nodes later, ∃ restored final : BTreeSet α κ, Logs before log ∧ Logs after (log ++ recent) ∧
      persistAll log .empty = some (true, nodes) ∧
      BTreeMap.fromTopology (nodes.checkpoint nodeCapacity) = some (.ok restored) ∧ restored.Tidy ∧
      (∀ item, restored.layout.Stored item ↔ before.set.layout.Stored item) ∧
      persistAll recent restored.topology = some (true, later) ∧
      BTreeMap.fromTopology (later.checkpoint nodeCapacity) = some (.ok final) ∧ final.Tidy ∧ final.topology = later ∧
      ∀ item, final.layout.Stored item ↔ after.set.layout.Stored item := by
  obtain ⟨log, recent, nodes, later, logs, continued, replayed, consumed, present, current⟩ := reached.replays goes
  obtain rfl := present drawn
  obtain rfl := current done
  have positive : 0 < nodeCapacity := Nat.lt_of_lt_of_le Nat.zero_lt_two many
  have restores {machine : CdcMachine α κ} (reached : ReachedBy Replayable nodeCapacity machine) :=
    reached.sound.routed.checkpoint_rebuilds reached.sound.valid.sound positive (reached.fits many).bounded
  obtain ⟨restored, decoded, tidy, _, same, stored⟩ := restores reached
  obtain ⟨final, decodedAfter, tidyAfter, _, sameAfter, storedAfter⟩ := restores (reached.goes goes)
  exact ⟨log, recent, _, _, restored, final, logs, continued, replayed, decoded, tidy, stored, same.symm ▸ consumed,
    decodedAfter, tidyAfter, sameAfter, storedAfter⟩

/-- Restored before two sections that draw their numbers alternately, and carried over them. -/
theorem checkpoint_and_tail_alternating : ∃ (before after : CdcMachine Nat Nat) (log recent : List (ChangeEvent Nat))
    (restored : BTreeSet Nat Nat), ReachedBy Replayable 2 before ∧ ReflTransGen Goes before after ∧
    after.set.topology.entries = [(10, [10]), (30, [30])] ∧ Logs before log ∧ Logs after (log ++ recent) ∧ restored.Tidy ∧
    (∀ item, restored.layout.Stored item ↔ before.set.layout.Stored item) ∧
    ∃ later, ∃ final : BTreeSet Nat Nat, persistAll recent restored.topology = some (true, later) ∧ final.topology = later ∧
      ∀ item, final.layout.Stored item ↔ after.set.layout.Stored item := by
  obtain ⟨before, after, reached, goes, ⟨quiet, _⟩, ⟨done, _⟩, _, _, entries⟩ := alternating_runs
  obtain ⟨log, recent, _, later, restored, final, logs, continued, _, _, tidy, stored, replayed, _, _, same, kept⟩ :=
    checkpoint_and_tail reached goes le_rfl quiet.settled.1 done.settled.1
  exact ⟨before, after, log, recent, restored, reached, goes, entries, logs, continued, tidy, stored, later, final, replayed,
    same, kept⟩

end CdcMachine
end WorkTablesIndex
