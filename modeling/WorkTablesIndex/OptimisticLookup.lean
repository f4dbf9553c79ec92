import WorkTablesIndex.Map
import WorkTablesIndex.PresentNodes
import WorkTablesIndex.Sweeps

/-! The optimistic lookup (`lock_node_for_value_optimistic` and its callers). It routes under the
topology's read lock, lets go of it, and then reads the one node it chose, without the check of the
definitive path. What it finds is stored; what it misses may have moved on with a split. -/

universe u v w

namespace WorkTablesIndex
open SortedMap

variable {α : Type u} {κ : Type v} [LinearOrder κ]

namespace BTreeSet
variable {Q : Type w} [LinearOrder Q] [Keyed α κ]

/-- The section that routes; locking the node is the caller's next one. -/
def lockNodeForValueOptimistic (borrow : κ → Q) (value : Q) (set : BTreeSet α κ) : Option NodeId :=
  (route borrow set.index.index value).map Prod.snd

def getWithGuard {β : Type*} (borrow : κ → Q) (node : NodeId) (value : Q) (read : α → β) (set : BTreeSet α κ) : Option β :=
  match Node.trySelect borrow (set.heap.cells node) value with
  | none => none
  | some position => (Node.getIth (set.heap.cells node) position).map read

def getWithOptimistic {β : Type*} (borrow : κ → Q) (value : Q) (read : α → β) (set : BTreeSet α κ) : Option β :=
  match lockNodeForValueOptimistic borrow value set with
  | none => none
  | some node => getWithGuard borrow node value read set

variable {set : BTreeSet α κ} {node : NodeId} {wanted : κ}

theorem getWithOptimistic_eq {β : Type*} (valid : set.Valid) (wanted : κ) (read : α → β) :
    set.getWithOptimistic id wanted read = set.getWith id wanted read := by
  rw [getWith, lockNodeForValue_eq valid monotone_id]
  rfl

theorem getWithGuard_some {item : α} (found : set.getWithGuard id node wanted id = some item) :
    item ∈ set.heap.cells node ∧ key item = wanted := by
  simp only [getWithGuard] at found
  split at found
  next => cases found
  next position selected =>
    obtain ⟨other, there, same⟩ := Node.trySelect_some selected
    rw [Node.getIth, there] at found
    cases found
    exact ⟨List.mem_of_getElem? there, same⟩

theorem getWithGuard_none (sorted : Node.Sorted (set.heap.cells node))
    (missed : set.getWithGuard id node wanted id = none) : ∀ item ∈ set.heap.cells node, key item ≠ wanted := by
  simp only [getWithGuard] at missed
  split at missed
  next selected => exact Node.trySelect_none sorted monotone_id selected
  next position selected =>
    obtain ⟨other, there, _⟩ := Node.trySelect_some selected
    rw [Node.getIth, there] at missed
    cases missed

end BTreeSet

def BTreeMap.lookupForSelectOptimistic {K : Type u} {V : Type v} [LinearOrder K] (key : K) (map : BTreeMap K V) : Option V :=
  BTreeSet.getWithOptimistic id key Pair.value map

theorem BTreeMap.lookupForSelectOptimistic_eq {K : Type u} {V : Type v} [LinearOrder K] {map : BTreeMap K V}
    (valid : BTreeSet.Valid map) (key : K) : map.lookupForSelectOptimistic key = map.lookupForSelect key :=
  BTreeSet.getWithOptimistic_eq valid key Pair.value

namespace Layout
variable {layout : Layout α κ} {node : NodeId} {old : κ}

/-- What is no longer linked is empty. -/
def Attached (layout : Layout α κ) : Prop := ∀ node, layout.heap.cells node ≠ [] → layout.Links node

theorem Attached.rewrite (attached : Attached layout) (linked : (old, node) ∈ layout.index) (values : List α) :
    Attached (layout.rewrite node values) := by
  intro other filled
  rcases eq_or_ne other node with rfl | apart
  · exact ⟨old, linked⟩
  · exact attached other (by simpa [Layout.rewrite, Heap.write_other _ _ apart] using filled)

theorem Attached.unlink (attached : Attached layout) (linked : (old, node) ∈ layout.index) :
    Attached (layout.unlink node old) := by
  intro other filled
  have apart : other ≠ node := by
    rintro rfl
    exact filled (Heap.write_same ..)
  obtain ⟨entry, member⟩ := attached other (by simpa [Layout.unlink, Heap.write_other _ _ apart] using filled)
  refine ⟨entry, (mem_erase ..).mpr ⟨?_, member⟩⟩
  rintro rfl
  exact apart (value_unique member linked)

variable [Keyed α κ]

theorem Attached.root (attached : Attached layout) (empty : ∀ entry, entry ∉ layout.index) (value : α) :
    Attached (layout.root value) := by
  intro other filled
  rcases eq_or_ne other layout.heap.next with rfl | apart
  · exact ⟨key value, (mem_insert ..).mpr (Or.inl rfl)⟩
  · obtain ⟨entry, member⟩ := attached other (by simpa [Layout.root, Heap.alloc_other _ _ apart] using filled)
    exact absurd member (empty _)

theorem Attached.rekey (attached : Attached layout) (routed : Routed layout) (sound : Sound layout)
    (linked : (old, node) ∈ layout.index) {new : κ} (greatest : Node.maxKey (layout.heap.cells node) = some new) :
    Attached (layout.rekey node old new) := fun other filled =>
  (routed.rekey_links sound linked greatest other).mpr (attached other filled)

theorem Attached.split (attached : Attached layout) (routed : Routed layout) (linked : (old, node) ∈ layout.index)
    {value : α} (inside : Between layout.index old (key value)) {left right : List α}
    (stored : Node.Upserted (layout.heap.cells node) value (left ++ right)) (filled : right ≠ []) :
    Attached (layout.split node old left right) := by
  obtain ⟨top, _, replaced, _⟩ := split_replaced routed linked inside stored filled
  intro other held
  rw [split_cells] at held
  split_ifs at held with fresh kept
  · exact ⟨top, (replaced.entries _).mpr (Or.inl (fresh ▸ List.mem_cons_self))⟩
  · obtain ⟨middle, leftTop⟩ := Node.maxKey_isSome (κ := κ) held
    exact ⟨middle, (replaced.entries _).mpr (Or.inl (by simp [leftTop, kept]))⟩
  · obtain ⟨entry, member⟩ := attached other held
    refine ⟨entry, (replaced.entries _).mpr (Or.inr ⟨?_, member⟩)⟩
    rintro rfl
    exact kept (value_unique member linked)

theorem Attached.next_empty (attached : Attached layout) (sound : Sound layout) : layout.heap.cells layout.heap.next = [] := by
  by_contra filled
  obtain ⟨entry, member⟩ := attached _ filled
  exact (sound.allocated entry _ member).ne rfl

/-- A split of the node took the key to the right half, which is a new node. -/
def Migrates (node : NodeId) (wanted : κ) (before after : Layout α κ) : Prop :=
  ∃ old left right, (old, node) ∈ before.index ∧ after = before.split node old left right ∧ ∃ item ∈ right, key item = wanted

def Absent (wanted : κ) (layout : Layout α κ) : Prop := ∀ item, layout.Stored item → key item ≠ wanted

end Layout

section Sections
variable [Keyed α κ] {set after : BTreeSet α κ} {call : CallId} {phase : Phase α κ} {next : Option (Phase α κ)}
  {records : List (Record α κ)} {node : NodeId}

theorem section_attached (runs : Section set call phase after next records) (sound : set.layout.Sound)
    (routed : set.layout.Routed) (attached : set.layout.Attached) (points : ∀ start last, phase ≠ .removeRange start last)
    (aims : ∀ node old value checked emitCdc cdc, phase = .commitSplit node old value checked emitCdc cdc →
      (old, node) ∈ set.index.index → Between set.index.index old (key value)) : after.layout.Attached := by
  cases runs with
  | again _ unchanged => exact unchanged ▸ attached
  | rejected => exact attached
  | missed _ unchanged => exact unchanged ▸ attached
  | schedules => exact attached
  | stores linked _ _ _ _ rewritten => exact rewritten ▸ attached.rewrite linked _
  | grows linked _ _ _ rewritten => exact rewritten ▸ attached.rewrite linked _
  | roots empty _ rooted => exact rooted ▸ attached.root empty _
  | splits linked _ stored filled divided =>
    exact divided ▸ attached.split routed linked (aims _ _ _ _ _ _ rfl linked) stored filled
  | rekeys _ linked greatest _ rekeyed => exact rekeyed ▸ attached.rekey routed sound linked greatest
  | waives _ _ _ unchanged => exact unchanged ▸ attached
  | deletes linked _ _ _ _ _ rewritten => exact rewritten ▸ attached.rewrite linked _
  | shrinks linked _ _ _ _ rewritten => exact rewritten ▸ attached.rewrite linked _
  | unlinks linked _ _ _ _ unlinked => exact unlinked ▸ attached.unlink linked
  | sweeps => exact absurd rfl (points _ _)

def Layout.HeldBy (layout : Layout α κ) (node : NodeId) (wanted : κ) : Prop :=
  ∃ item ∈ layout.heap.cells node, key item = wanted

private theorem HeldBy.rewrite {layout : Layout α κ} {wanted : κ} {other : NodeId} {values : List α}
    (held : layout.HeldBy node wanted)
    (here : other = node → ∃ item ∈ values, key item = wanted) : (layout.rewrite other values).HeldBy node wanted := by
  rcases eq_or_ne node other with rfl | apart
  · obtain ⟨item, present, same⟩ := here rfl
    exact ⟨item, by simpa [Layout.rewrite] using present, same⟩
  · obtain ⟨item, present, same⟩ := held
    exact ⟨item, by simpa [Layout.rewrite, Heap.write_other _ _ apart] using present, same⟩

private theorem upserted_held {values after : List α} {value : α} {wanted : κ} (stored : Node.Upserted values value after)
    (held : ∃ item ∈ values, key item = wanted) : ∃ item ∈ after, key item = wanted := by
  obtain ⟨item, present, same⟩ := held
  by_cases replaced : key item = key value
  · exact ⟨value, (stored.mem value).mpr (Or.inl rfl), replaced ▸ same⟩
  · exact ⟨item, (stored.mem item).mpr (Or.inr ⟨present, replaced⟩), same⟩

private theorem deleted_held {layout : Layout α κ} (routed : layout.Routed) (sound : layout.Sound) {entry wanted gone : κ}
    {other : NodeId} (linked : (entry, other) ∈ layout.index) (inside : Between layout.index entry gone) {values : List α}
    (removed : Node.Removed (layout.heap.cells other) gone values) (held : layout.HeldBy node wanted) :
    (layout.rewrite other values).HeldBy node wanted ∨ (layout.rewrite other values).Absent wanted := by
  rcases eq_or_ne wanted gone with rfl | remains
  · exact Or.inr fun item stored => ((layout.rewrite_loses routed sound linked inside removed item).mp stored).2
  · refine Or.inl (HeldBy.rewrite held ?_)
    rintro rfl
    obtain ⟨item, present, rfl⟩ := held
    exact ⟨item, (removed.mem item).mpr ⟨present, remains⟩, rfl⟩

/-- A key leaves the node that holds it by a split of that node, or it leaves the set. -/
theorem section_held (runs : Section set call phase after next records) (sound : set.layout.Sound)
    (routed : set.layout.Routed) (attached : set.layout.Attached) (points : ∀ start last, phase ≠ .removeRange start last)
    {wanted : κ} (held : set.layout.HeldBy node wanted) :
    after.layout.HeldBy node wanted ∨ after.layout.Absent wanted ∨ set.layout.Migrates node wanted after.layout := by
  obtain ⟨item, present, same⟩ := held
  have held : set.layout.HeldBy node wanted := ⟨item, present, same⟩
  have apart : node ≠ set.layout.heap.next := by
    rintro rfl
    rw [attached.next_empty sound] at present
    exact List.not_mem_nil present
  cases runs with
  | again _ unchanged => exact Or.inl (unchanged ▸ held)
  | rejected => exact Or.inl held
  | missed _ unchanged => exact Or.inl (unchanged ▸ held)
  | schedules => exact Or.inl held
  | stores _ _ _ stored _ rewritten =>
    rw [rewritten]
    exact Or.inl (HeldBy.rewrite held fun here => upserted_held stored (here ▸ held))
  | grows _ _ _ stored rewritten =>
    rw [rewritten]
    exact Or.inl (HeldBy.rewrite held fun here => upserted_held stored (here ▸ held))
  | roots empty =>
    obtain ⟨entry, member⟩ := attached node (List.ne_nil_of_mem present)
    exact absurd member (empty _)
  | @splits target old value _ _ _ _ left right _ linked _ stored _ divided =>
    rw [divided]
    rcases eq_or_ne target node with rfl | elsewhere
    · obtain ⟨kept, member, same⟩ := upserted_held stored held
      rcases List.mem_append.mp member with stays | moves
      · exact Or.inl ⟨kept, by simpa [Layout.split_cells, apart] using stays, same⟩
      · exact Or.inr (Or.inr ⟨old, left, right, linked, rfl, kept, moves, same⟩)
    · exact Or.inl ⟨item, by simpa [Layout.split_cells, apart, elsewhere.symm] using present, same⟩
  | rekeys _ _ _ _ rekeyed => exact Or.inl (rekeyed ▸ held)
  | waives _ _ _ unchanged => exact Or.inl (unchanged ▸ held)
  | deletes linked inside _ removed _ _ rewritten =>
    rw [rewritten]
    exact (deleted_held routed sound linked inside removed held).imp_right Or.inl
  | shrinks linked inside _ removed _ rewritten =>
    rw [rewritten]
    exact (deleted_held routed sound linked inside removed held).imp_right Or.inl
  | @unlinks _ entry target deleted _ _ linked inside _ removed _ unlinked =>
    rw [unlinked]
    rcases eq_or_ne target node with rfl | elsewhere
    · refine Or.inr (Or.inl fun other stored => ?_)
      have last : key item = key deleted := by
        by_contra different
        exact List.not_mem_nil ((removed.mem item).mpr ⟨present, different⟩)
      exact same ▸ last ▸ ((set.layout.unlink_loses routed sound linked inside removed other).mp stored).2
    · exact Or.inl ⟨item, by simpa [Layout.unlink, Heap.write_other _ _ elsewhere.symm] using present, same⟩
  | sweeps => exact absurd rfl (points _ _)

end Sections

variable [Keyed α κ] {nodeCapacity : Nat} {before after machine : Machine α κ}

namespace Machine

theorem Reached.premises (reached : Reached WellAimed nodeCapacity machine) {thread : ThreadId} {call : CallId}
    {phase : Phase α κ} (running : machine.threads thread = some (call, phase)) (aimed : machine.Aimed (.advance thread)) :
    (∀ start last, phase ≠ .removeRange start last) ∧
      ∀ node old value checked emitCdc cdc, phase = .commitSplit node old value checked emitCdc cdc →
        (old, node) ∈ machine.set.index.index → Between machine.set.index.index old (key value) := by
  obtain ⟨request, invoked, serves⟩ := reached.ledger.serving thread call phase running
  constructor
  · rintro start last rfl
    cases serves
    exact reached.orderly.pointwise call start last invoked
  · rintro node old value checked emitCdc cdc rfl linked
    simp only [Aimed, running] at aimed
    exact (route_eq_some.mp (aimed linked)).2

theorem Reached.attached (reached : Reached WellAimed nodeCapacity machine) : machine.set.layout.Attached := by
  induction reached with
  | start => exact fun node filled => absurd rfl filled
  | step earlier action allowed taken attached =>
    have valid := earlier.sound.valid
    rcases step_cases valid taken with ⟨_, _, _, _, rfl⟩ | ⟨thread, call, phase, rfl, running, _, _, _, runs, rfl⟩
    · exact attached
    · obtain ⟨points, aims⟩ := earlier.premises running allowed.2
      exact section_attached runs valid.sound earlier.orderly.routed attached points aims

end Machine

/-- A lookup that has chosen its node, if there is one, and not locked it yet, in a run of writers;
the layouts since it chose, latest first. -/
inductive OptimisticRead (permits : Machine α κ → Action α κ → Prop) (nodeCapacity : Nat) (wanted : κ)
    (chosen : Option NodeId) : Machine α κ → List (Layout α κ) → Prop where
  | routes {machine : Machine α κ} (reached : Machine.Reached permits nodeCapacity machine)
      (routed : machine.set.lockNodeForValueOptimistic id wanted = chosen) :
      OptimisticRead permits nodeCapacity wanted chosen machine [machine.set.layout]
  | writes {before after : Machine α κ} {moments : List (Layout α κ)}
      (earlier : OptimisticRead permits nodeCapacity wanted chosen before moments) (action : Action α κ)
      (allowed : permits before action) (taken : before.step action = some after) :
      OptimisticRead permits nodeCapacity wanted chosen after (after.set.layout :: moments)

namespace OptimisticRead
variable {wanted : κ} {chosen : Option NodeId} {moments : List (Layout α κ)}

/-- What the lookup returns: nothing when it found no node, else what it reads in the node. -/
def answer (set : BTreeSet α κ) (wanted : κ) (chosen : Option NodeId) : Option α :=
  match chosen with
  | none => none
  | some node => set.getWithGuard id node wanted id

/-- Why the key may not be in the node: it was missing at some moment, or a split took it away. -/
def Excused (wanted : κ) (chosen : Option NodeId) (moments : List (Layout α κ)) : Prop :=
  (∃ moment ∈ moments, moment.Absent wanted) ∨
    ∃ node earlier later, chosen = some node ∧ [later, earlier] <:+: moments ∧ earlier.Migrates node wanted later

theorem Excused.cons (excused : Excused wanted chosen moments) (moment : Layout α κ) :
    Excused wanted chosen (moment :: moments) := by
  rcases excused with ⟨earlier, member, absent⟩ | ⟨node, earlier, later, held, consecutive, migrates⟩
  · exact Or.inl ⟨earlier, List.mem_cons_of_mem _ member, absent⟩
  · exact Or.inr ⟨node, earlier, later, held, List.infix_cons consecutive, migrates⟩

theorem reached {permits : Machine α κ → Action α κ → Prop} (read : OptimisticRead permits nodeCapacity wanted chosen machine moments) :
    Machine.Reached permits nodeCapacity machine := by
  induction read with
  | routes reached _ => exact reached
  | writes _ action allowed taken ih => exact ih.step action allowed taken

/-- As long as no excuse turns up, the key stays in the chosen node. -/
theorem held_or_excused (read : OptimisticRead Machine.WellAimed nodeCapacity wanted chosen machine moments) :
    moments.head? = some machine.set.layout ∧
      ((∃ node, chosen = some node ∧ machine.set.layout.HeldBy node wanted) ∨ Excused wanted chosen moments) := by
  induction read with
  | @routes machine reached routed =>
    refine ⟨rfl, ?_⟩
    by_cases absent : machine.set.layout.Absent wanted
    · exact Or.inr (Or.inl ⟨_, List.mem_singleton_self _, absent⟩)
    · simp only [Layout.Absent, not_forall, not_not] at absent
      obtain ⟨item, stored, rfl⟩ := absent
      cases found : route id machine.set.index.index (key item) with
      | none =>
        obtain ⟨entry, node, linked, _⟩ := stored
        exact absurd linked (route_eq_none.mp found _)
      | some target =>
        obtain ⟨entry, node⟩ := target
        obtain ⟨linked, inside⟩ := route_eq_some.mp found
        rw [BTreeSet.lockNodeForValueOptimistic, found] at routed
        exact Or.inl ⟨node, routed.symm, item, reached.orderly.routed.stored_here linked inside stored, rfl⟩
  | @writes before after moments earlier action allowed taken ih =>
    refine ⟨rfl, ?_⟩
    obtain ⟨latest, ⟨node, same, held⟩ | excused⟩ := ih
    · have reached := earlier.reached
      have valid := reached.sound.valid
      rcases Machine.step_cases valid taken with ⟨_, _, _, _, rfl⟩ | ⟨thread, call, phase, rfl, running, _, _, _, runs, rfl⟩
      · exact Or.inl ⟨node, same, held⟩
      · have points := (reached.premises running allowed.2).1
        rcases section_held runs valid.sound reached.orderly.routed reached.attached points held with here | absent | migrates
        · exact Or.inl ⟨node, same, here⟩
        · exact Or.inr (Or.inl ⟨_, List.mem_cons_self, absent⟩)
        · obtain ⟨rest, rfl⟩ := List.head?_eq_some_iff.mp latest
          exact Or.inr (Or.inr ⟨node, _, _, same, ⟨[], rest, rfl⟩, migrates⟩)
    · exact Or.inr (excused.cons _)

/-- Whatever the writers do between the two sections of an optimistic lookup, a hit is a value that
is stored under the key, and a miss, also where no node was found, means that the key was missing at
some moment of the lookup, or that a split of the very node it had chosen moved the key away in the
meantime. -/
theorem optimistic_lookup_answers (read : OptimisticRead Machine.WellAimed nodeCapacity wanted chosen machine moments) :
    (∀ item, answer machine.set wanted chosen = some item → key item = wanted ∧ machine.set.layout.Stored item) ∧
      (answer machine.set wanted chosen = none → Excused wanted chosen moments) := by
  have reached := read.reached
  constructor
  · intro item found
    cases chosen with
    | none => cases found
    | some node =>
      obtain ⟨present, same⟩ := BTreeSet.getWithGuard_some found
      obtain ⟨entry, linked⟩ := reached.attached node (List.ne_nil_of_mem present)
      exact ⟨same, entry, node, linked, present⟩
  · intro missed
    apply read.held_or_excused.2.resolve_left
    rintro ⟨node, rfl, item, present, same⟩
    exact BTreeSet.getWithGuard_none (reached.sound.valid.sound.sorted node) missed item present same

/-- The node `[10, 20]` is chosen for 20, which a split then moves to a new node: the lookup misses
a value that was stored all along. -/
theorem optimistic_lookup_answers_split : ∃ (machine : Machine Nat Nat) (moments : List (Layout Nat Nat)),
    OptimisticRead Machine.WellAimed 2 20 (some 0) machine moments ∧ answer machine.set 20 (some 0) = none ∧
      machine.set.getWith id 20 id = some 20 ∧ Excused 20 (some 0) moments := by
  obtain ⟨machine, moments, read, missed, found⟩ : ∃ (machine : Machine Nat Nat) (moments : List (Layout Nat Nat)),
      OptimisticRead Machine.WellAimed 2 20 (some 0) machine moments ∧ answer machine.set 20 (some 0) = none ∧
        machine.set.getWith id 20 id = some 20 := by
    refine ⟨_, _, .writes (.writes (.writes (.routes (.step (.step (.step (.step (.step (.step .start
      (.invoke 0 (.insert 10 false false)) ⟨trivial, trivial⟩ rfl) (.advance 0) ⟨trivial, trivial⟩ rfl)
      (.advance 0) ⟨trivial, trivial⟩ rfl)
      (.invoke 0 (.insert 20 false false)) ⟨trivial, trivial⟩ rfl) (.advance 0) ⟨trivial, trivial⟩ rfl)
      (.advance 0) ⟨trivial, trivial⟩ rfl) rfl)
      (.invoke 1 (.insert 30 false false)) ⟨trivial, trivial⟩ rfl) (.advance 1) ⟨trivial, trivial⟩ rfl)
      (.advance 1) ⟨trivial, fun _ => rfl⟩ rfl, rfl, rfl⟩
  exact ⟨machine, moments, read, missed, found, read.optimistic_lookup_answers.2 missed⟩

end OptimisticRead
end WorkTablesIndex
