import WorkTablesIndex.Sections
import WorkTablesIndex.Visibility

/-! Lock-free point reads among structural writers. A reader loads the generation, routes
through the root it loads next, locks the node, and loads the generation again; it
accepts when both loads gave the same even value. Each load, increment and swap, and
each section under a lock, is one step, and any number of readers run. -/

universe u v w

namespace WorkTablesIndex
open Relation SortedMap

abbrev ReaderId := Nat

/-- The structural lock and what its holder has done: the guard may be open, or have
swapped the root and not yet raised the generation. -/
inductive Structure (κ : Type v) [LinearOrder κ] where
  | unlocked (topology : Topology κ)
  | locked (topology : Topology κ)
  | held (guard : TopologyWriteGuard κ) (repaired : Bool)
  | swapped (guard : TopologyWriteGuard κ)

structure Moment (α : Type u) (κ : Type v) [LinearOrder κ] where
  index : NodeIndex κ
  heap : Heap α

/-- Where a reader in `get_with` or `lock_node_for_value` stands. `seen` is the moment at
which it accepted: `lock_node_for_value` returns then, with the node still locked. -/
inductive ReadPhase (α : Type u) (κ : Type v) [LinearOrder κ] where
  | attempt (retries : Nat)
  | pinned (retries generation : Nat)
  | routed (retries generation : Nat) (node : Option NodeId)
  | locked (retries generation : Nat) (node : NodeId)
  | accepted (node : NodeId) (seen : Moment α κ)
  | returned (result : Option α) (seen : Moment α κ)

structure ReadWorld (α : Type u) (κ : Type v) (Q : Type w) [LinearOrder κ] where
  structural : Structure κ
  heap : Heap α
  readers : ReaderId → Option (Q × ReadPhase α κ)

variable {α : Type u} {κ : Type v} {Q : Type w} [LinearOrder κ]

namespace Structure

def topology : Structure κ → Topology κ
  | .unlocked topology | .locked topology => topology
  | .held guard _ | .swapped guard => guard.topology

def isUnlocked : Structure κ → Bool
  | .unlocked _ => true
  | _ => false

def publishing : Structure κ → Bool
  | .unlocked _ | .locked _ => false
  | .held guard _ | .swapped guard => guard.publish

end Structure

namespace ReadPhase

def holds : ReadPhase α κ → Option NodeId
  | .locked _ _ node | .accepted node _ => some node
  | _ => none

variable [Keyed α κ] [LinearOrder Q]

/-- The next step of a reader; `none` when it waits for the structural lock or is done.
The snapshot it pins is immutable, so routing through it is part of its load. -/
def advance (borrow : κ → Q) (borrowOrderMatches : Bool) (value : Q) (structural : Structure κ) (heap : Heap α) :
    ReadPhase α κ → Option (ReadPhase α κ)
  | .attempt retries =>
    if stableReadBlockingFallbackAfter ≤ retries then
      if structural.isUnlocked then
        match route borrow structural.topology.index value with
        | some (_, node) => some (.accepted node ⟨structural.topology.index, heap⟩)
        | none => some (.returned none ⟨structural.topology.index, heap⟩)
      else none
    else if structural.topology.generation % 2 ≠ 0 then some (.attempt (retries + 1))
    else some (.pinned retries structural.topology.generation)
  | .pinned retries generation =>
    some (.routed retries generation ((publishedRoute borrow structural.topology.published value borrowOrderMatches).map Prod.snd))
  | .routed retries generation none =>
    if structural.topology.generation = generation then some (.returned none ⟨structural.topology.index, heap⟩)
    else some (.attempt (retries + 1))
  | .routed retries generation (some node) => some (.locked retries generation node)
  | .locked retries generation node =>
    if structural.topology.generation = generation then some (.accepted node ⟨structural.topology.index, heap⟩)
    else some (.attempt (retries + 1))
  | .accepted node seen =>
    some (.returned ((Node.trySelect borrow (heap.cells node) value).bind (Node.getIth (heap.cells node))) seen)
  | .returned .. => none

end ReadPhase

variable [Keyed α κ] [LinearOrder Q]

inductive NodeChange (values : List α) : List α → Prop where
  | insert (value : α) : NodeChange values (Node.insert values value).2.2
  | replace (position : Nat) (old value : α) (there : values[position]? = some old) (same : key old = key value) :
      NodeChange values (Node.replace values position value).2
  | delete (wanted : κ) (deleted : α) (position : Nat) (rest : List α)
      (removed : Node.delete id values wanted = some (deleted, position, rest)) : NodeChange values rest

namespace ReadWorld

def start : ReadWorld α κ Q := ⟨.unlocked .new, .empty, fun _ => none⟩

def Locked (world : ReadWorld α κ Q) (node : NodeId) : Prop :=
  ∃ reader value phase, world.readers reader = some (value, phase) ∧ phase.holds = some node

/-- One step of a writer or a reader. A structural writer performs any operation of a
guard session; whoever changes a node waits until no reader holds it, and leaves it sorted. -/
inductive Step (borrow : κ → Q) (borrowOrderMatches : Bool) : ReadWorld α κ Q → ReadWorld α κ Q → Prop where
  | acquires {topology heap readers} :
      Step borrow borrowOrderMatches ⟨.unlocked topology, heap, readers⟩ ⟨.locked topology, heap, readers⟩
  | opens {topology heap readers guard} (opened : Opens topology guard) :
      Step borrow borrowOrderMatches ⟨.locked topology, heap, readers⟩ ⟨.held guard false, heap, readers⟩
  | operates {guard heap repaired readers after changed fixed}
      (step : Session.Step ⟨guard, heap, repaired⟩ ⟨after, changed, fixed⟩) (sorted : ∀ node, Node.Sorted (changed.cells node))
      (waits : ∀ node, Locked ⟨.held guard repaired, heap, readers⟩ node → changed.cells node = heap.cells node) :
      Step borrow borrowOrderMatches ⟨.held guard repaired, heap, readers⟩ ⟨.held after fixed, changed, readers⟩
  | swaps {guard repaired heap readers} :
      Step borrow borrowOrderMatches ⟨.held guard repaired, heap, readers⟩ ⟨.swapped guard.swapRoot, heap, readers⟩
  | finishes {guard heap readers} :
      Step borrow borrowOrderMatches ⟨.swapped guard, heap, readers⟩ ⟨.locked guard.finish, heap, readers⟩
  | releases {topology heap readers} :
      Step borrow borrowOrderMatches ⟨.locked topology, heap, readers⟩ ⟨.unlocked topology, heap, readers⟩
  | stores {world} (node : NodeId) {values : List α} (change : NodeChange (world.heap.cells node) values)
      (waits : ¬ Locked world node) : Step borrow borrowOrderMatches world { world with heap := world.heap.write node values }
  | invokes {world} (reader : ReaderId) (value : Q) (idle : world.readers reader = none) :
      Step borrow borrowOrderMatches world { world with readers := Function.update world.readers reader (some (value, .attempt 0)) }
  | advances {world} (reader : ReaderId) {value : Q} {phase later : ReadPhase α κ}
      (running : world.readers reader = some (value, phase))
      (taken : phase.advance borrow borrowOrderMatches value world.structural world.heap = some later) :
      Step borrow borrowOrderMatches world { world with readers := Function.update world.readers reader (some (value, later)) }
  | leaves {world} (reader : ReaderId) {value : Q} {phase : ReadPhase α κ} (running : world.readers reader = some (value, phase))
      (done : (∃ node seen, phase = .accepted node seen) ∨ ∃ result seen, phase = .returned result seen) :
      Step borrow borrowOrderMatches world { world with readers := Function.update world.readers reader none }

end ReadWorld

omit [Keyed α κ] in
theorem Opens.generation {topology : Topology κ} {guard : TopologyWriteGuard κ} (opened : Opens topology guard) :
    guard.topology.published = topology.published ∧
      guard.topology.generation = topology.generation + guard.publish.toNat := by
  cases opened with
  | write => exact ⟨rfl, rfl⟩
  | tryWrite contended guard taken =>
    unfold Topology.tryWrite at taken
    split at taken
    next => cases taken
    next =>
      cases taken
      exact ⟨rfl, rfl⟩
  | writeRekey => exact ⟨rfl, rfl⟩

namespace TopologyWriteGuard

theorem swapRoot_generation (guard : TopologyWriteGuard κ) :
    guard.swapRoot.topology.generation = guard.topology.generation ∧ guard.swapRoot.publish = guard.publish := by
  simp only [swapRoot]
  split <;> exact ⟨rfl, rfl⟩

theorem finish_fields (guard : TopologyWriteGuard κ) : guard.finish.index = guard.index ∧
    guard.finish.published = guard.topology.published ∧ guard.finish.publishedKeys = guard.topology.publishedKeys ∧
    guard.finish.generation = guard.topology.generation + guard.publish.toNat := by
  simp only [finish]
  split
  next publishing => exact ⟨rfl, rfl, rfl, by simp [publishing]⟩
  next optOut => exact ⟨rfl, rfl, rfl, by simp [optOut]⟩

end TopologyWriteGuard

namespace Structure
variable {structural : Structure κ} {heap : Heap α}

/-- The generation is odd exactly while a guard publishes. -/
def Parity (topology : Topology κ) (publishing : Bool) : Prop := topology.generation % 2 = publishing.toNat

def Published (topology : Topology κ) : Prop := Publishes topology.index topology.published topology.publishedKeys

def Valid (heap : Heap α) : Structure κ → Prop
  | .unlocked topology | .locked topology => Published topology ∧ Allocated topology.index heap ∧ Parity topology false
  | .held guard repaired => (⟨guard, heap, repaired⟩ : Session α κ).Valid ∧ Parity guard.topology guard.publish
  | .swapped guard => Published guard.topology ∧ Allocated guard.index heap ∧ Parity guard.topology guard.publish

omit [Keyed α κ] in
theorem Valid.parity (valid : structural.Valid heap) : Parity structural.topology structural.publishing := by
  cases structural with
  | unlocked topology => exact valid.2.2
  | locked topology => exact valid.2.2
  | held guard repaired => exact valid.2
  | swapped guard => exact valid.2.2

omit [Keyed α κ] in
theorem Valid.even (valid : structural.Valid heap) : structural.topology.generation % 2 = 0 ↔ structural.publishing = false := by
  rw [valid.parity]
  cases structural.publishing <;> simp

omit [Keyed α κ] in
/-- Readers may trust the root whenever the generation is even, even under a guard that opted out. -/
theorem Valid.published (valid : structural.Valid heap) (even : structural.topology.generation % 2 = 0) :
    Published structural.topology := by
  have optOut := valid.even.mp even
  cases structural with
  | unlocked topology => exact valid.1
  | locked topology => exact valid.1
  | held guard repaired =>
    have publishes := valid.1.consistent.publishes
    have same : guard.snapshot = guard.topology.published := by
      rw [TopologyWriteGuard.snapshot, valid.1.consistent.optOut optOut]
      rfl
    rw [same] at publishes
    exact publishes
  | swapped guard => exact valid.1

/-- Readers that loaded an even generation notice every change of the root. -/
structure Evolves (before after : Topology κ) : Prop where
  generation : before.generation ≤ after.generation
  root : after.generation = before.generation → before.generation % 2 = 0 → after.published = before.published

theorem Evolves.refl (topology : Topology κ) : Evolves topology topology := ⟨le_rfl, fun _ _ => rfl⟩

omit [Keyed α κ] in
theorem Valid.opens {topology : Topology κ} {guard : TopologyWriteGuard κ} (valid : (Structure.locked topology).Valid heap)
    (opened : Opens topology guard) : (Structure.held guard false).Valid heap ∧ Evolves topology guard.topology := by
  obtain ⟨publishes, allocated, even⟩ := valid
  obtain ⟨consistent, same⟩ := publishes.opened opened
  obtain ⟨root, generation⟩ := opened.generation
  refine ⟨⟨⟨consistent, fun impossible => (by cases impossible), same ▸ allocated⟩, ?_⟩, by omega, fun _ _ => root⟩
  have bit := guard.publish.toNat_lt
  simp only [Parity, Bool.toNat_false] at even ⊢
  omega

theorem Valid.operates {guard after : TopologyWriteGuard κ} {changed : Heap α} {repaired fixed : Bool}
    (valid : (Structure.held guard repaired).Valid heap) (step : Session.Step ⟨guard, heap, repaired⟩ ⟨after, changed, fixed⟩) :
    (Structure.held after fixed).Valid changed ∧ Evolves guard.topology after.topology := by
  obtain ⟨session, parity⟩ := valid
  obtain ⟨root, generation⟩ := step.operates
  refine ⟨⟨step.valid session, ?_⟩, ?_, fun _ _ => root⟩
  · simp only [Parity] at parity ⊢
    rcases generation with ⟨publish, same⟩ | ⟨optOut, publish, raised⟩
    · rw [publish, same]
      exact parity
    · rw [optOut, Bool.toNat_false] at parity
      rw [publish, raised, Bool.toNat_true]
      show (guard.topology.generation + 1) % 2 = 1
      omega
  · rcases generation with ⟨_, same⟩ | ⟨_, _, raised⟩
    · exact same.ge
    · exact raised ▸ Nat.le_succ _

omit [Keyed α κ] in
theorem Valid.swaps {guard : TopologyWriteGuard κ} {repaired : Bool} (valid : (Structure.held guard repaired).Valid heap) :
    (Structure.swapped guard.swapRoot).Valid heap ∧ Evolves guard.topology guard.swapRoot.topology := by
  obtain ⟨session, parity⟩ := valid
  obtain ⟨publishes, index⟩ := session.consistent.drop
  obtain ⟨sameIndex, samePublished, sameKeys, _⟩ := guard.swapRoot.finish_fields
  obtain ⟨generation, publish⟩ := guard.swapRoot_generation
  rw [TopologyWriteGuard.drop, sameIndex, samePublished, sameKeys] at publishes
  rw [TopologyWriteGuard.drop, sameIndex] at index
  refine ⟨⟨publishes, index.symm ▸ session.allocated, ?_⟩, generation.ge, fun _ even => ?_⟩
  · rw [Parity, generation, publish]
    exact parity
  · -- an even generation means a guard that does not publish, which swaps nothing
    have optOut : guard.publish = false := by
      rw [Parity, even] at parity
      cases publish : guard.publish with
      | false => rfl
      | true => simp [publish] at parity
    simp [TopologyWriteGuard.swapRoot, optOut]

omit [Keyed α κ] in
theorem Valid.finishes {guard : TopologyWriteGuard κ} (valid : (Structure.swapped guard).Valid heap) :
    (Structure.locked guard.finish).Valid heap ∧ Evolves guard.topology guard.finish := by
  obtain ⟨publishes, allocated, parity⟩ := valid
  obtain ⟨index, published, keys, generation⟩ := guard.finish_fields
  refine ⟨⟨?_, index ▸ allocated, ?_⟩, by omega, fun _ _ => published⟩
  · rw [Published, index, published, keys]
    exact publishes
  · have bit := guard.publish.toNat_lt
    simp only [Parity, Bool.toNat_false] at parity ⊢
    omega

end Structure

/-- The result is the membership of the value in the node that canonical routing selects
at the moment; without a node the index is empty. -/
def Moment.Answers (borrow : κ → Q) (value : Q) (seen : Moment α κ) (result : Option α) : Prop :=
  match route borrow seen.index value with
  | none => result = none ∧ seen.index.entries = []
  | some (_, node) => (∀ item, result = some item → item ∈ seen.heap.cells node ∧ borrow (key item) = value) ∧
      (result = none → ∀ item ∈ seen.heap.cells node, borrow (key item) ≠ value)

namespace ReadPhase
variable {borrow : κ → Q} {borrowOrderMatches : Bool} {value : Q} {topology after : Topology κ} {heap changed : Heap α}
  {phase later : ReadPhase α κ}

/-- The even generation a reader carries is past or present, and while it is present the
node the reader found is the one the current root selects. -/
structure Current (borrow : κ → Q) (borrowOrderMatches : Bool) (value : Q) (topology : Topology κ) (generation : Nat)
    (node : Option NodeId) : Prop where
  even : generation % 2 = 0
  past : generation ≤ topology.generation
  root : topology.generation = generation →
    node = (publishedRoute borrow topology.published value borrowOrderMatches).map Prod.snd

def Valid (borrow : κ → Q) (borrowOrderMatches : Bool) (value : Q) (topology : Topology κ) (heap : Heap α) : ReadPhase α κ → Prop
  | .attempt _ => True
  | .pinned _ generation => generation % 2 = 0 ∧ generation ≤ topology.generation
  | .routed _ generation node => Current borrow borrowOrderMatches value topology generation node
  | .locked _ generation node => Current borrow borrowOrderMatches value topology generation (some node)
  | .accepted node seen => (route borrow seen.index value).map Prod.snd = some node ∧
      heap.cells node = seen.heap.cells node ∧ Node.Sorted (seen.heap.cells node)
  | .returned result seen => seen.Answers borrow value result

theorem Current.evolves {generation : Nat} {node : Option NodeId}
    (current : Current borrow borrowOrderMatches value topology generation node) (evolves : Structure.Evolves topology after) :
    Current borrow borrowOrderMatches value after generation node := by
  refine ⟨current.even, current.past.trans evolves.generation, fun same => ?_⟩
  have before : topology.generation = generation := le_antisymm (same ▸ evolves.generation) current.past
  rw [evolves.root (same.trans before.symm) (before ▸ current.even)]
  exact current.root before

/-- What other threads do does not disturb a reader. -/
theorem Valid.evolves (valid : phase.Valid borrow borrowOrderMatches value topology heap)
    (evolves : Structure.Evolves topology after)
    (waits : ∀ node, phase.holds = some node → changed.cells node = heap.cells node) :
    phase.Valid borrow borrowOrderMatches value after changed := by
  cases phase with
  | attempt retries => trivial
  | pinned retries generation => exact ⟨valid.1, valid.2.trans evolves.generation⟩
  | routed retries generation node => exact Current.evolves valid evolves
  | locked retries generation node => exact Current.evolves valid evolves
  | accepted node seen => exact ⟨valid.1, (waits node rfl).trans valid.2.1, valid.2.2⟩
  | returned result seen => exact valid

/-- The node of an accepting reader is the canonical one. -/
theorem Current.canonical {generation : Nat} {node : Option NodeId} (monotone : Monotone borrow)
    (current : Current borrow borrowOrderMatches value topology generation node) (same : topology.generation = generation)
    (published : topology.generation % 2 = 0 → Structure.Published topology) :
    (route borrow topology.index value).map Prod.snd = node := by
  rw [current.root same]
  exact ((published (same ▸ current.even)).publishedRoute_eq monotone value borrowOrderMatches).symm

omit [Keyed α κ] in
private theorem entries_nil {index : NodeIndex κ} (missing : (route borrow index value).map Prod.snd = none) :
    index.entries = [] := by
  have ended := (Option.or_eq_none_iff.mp (Option.map_eq_none_iff.mp missing)).2
  exact List.eq_nil_iff_forall_not_mem.mpr (last?_eq_none.mp ended)

private theorem answers_none {seen : Moment α κ} (missing : (route borrow seen.index value).map Prod.snd = none) :
    seen.Answers borrow value none := by
  rw [Moment.Answers, Option.map_eq_none_iff.mp missing]
  exact ⟨rfl, entries_nil missing⟩

private theorem answers_select {seen : Moment α κ} {node : NodeId} (monotone : Monotone borrow)
    (routed : (route borrow seen.index value).map Prod.snd = some node) (sorted : Node.Sorted (seen.heap.cells node)) :
    seen.Answers borrow value ((Node.trySelect borrow (seen.heap.cells node) value).bind (Node.getIth (seen.heap.cells node))) := by
  obtain ⟨⟨entry, target⟩, found, rfl⟩ := Option.map_eq_some_iff.mp routed
  rw [Moment.Answers, found]
  cases selected : Node.trySelect borrow (seen.heap.cells target) value with
  | none => exact ⟨fun item impossible => (by cases impossible), fun _ => Node.trySelect_none sorted monotone selected⟩
  | some position =>
    obtain ⟨item, there, same⟩ := Node.trySelect_some selected
    have read : (some position).bind (Node.getIth (seen.heap.cells target)) = some item := there
    rw [read]
    refine ⟨fun other equal => ?_, fun impossible => by cases impossible⟩
    cases equal
    exact ⟨List.mem_of_getElem? there, same⟩

theorem Valid.advance (monotone : Monotone borrow) {structural : Structure κ} (stable : structural.Valid heap)
    (sorted : ∀ node, Node.Sorted (heap.cells node)) (valid : phase.Valid borrow borrowOrderMatches value structural.topology heap)
    (taken : phase.advance borrow borrowOrderMatches value structural heap = some later) :
    later.Valid borrow borrowOrderMatches value structural.topology heap := by
  cases phase with
  | attempt retries =>
    simp only [ReadPhase.advance] at taken
    split at taken
    next =>
      split at taken
      next =>
        split at taken
        next found =>
          cases taken
          exact ⟨by rw [found]; rfl, rfl, sorted _⟩
        next missing =>
          cases taken
          exact answers_none (by rw [missing]; rfl)
      next => cases taken
    next =>
      split at taken
      next =>
        cases taken
        trivial
      next even =>
        cases taken
        exact ⟨by simpa using even, le_rfl⟩
  | pinned retries generation =>
    cases taken
    exact ⟨valid.1, valid.2, fun _ => rfl⟩
  | routed retries generation node =>
    cases node with
    | none =>
      simp only [ReadPhase.advance] at taken
      split at taken
      next same =>
        cases taken
        exact answers_none (valid.canonical monotone same stable.published)
      next =>
        cases taken
        trivial
    | some node =>
      cases taken
      exact valid
  | locked retries generation node =>
    simp only [ReadPhase.advance] at taken
    split at taken
    next same =>
      cases taken
      exact ⟨valid.canonical monotone same stable.published, rfl, sorted node⟩
    next =>
      cases taken
      trivial
  | accepted node seen =>
    cases taken
    rw [ReadPhase.Valid, valid.2.1]
    exact answers_select monotone valid.1 valid.2.2
  | returned result seen => cases taken

end ReadPhase

theorem NodeChange.sorted {values changed : List α} (change : NodeChange values changed) (sorted : Node.Sorted values) :
    Node.Sorted changed := by
  cases change with
  | insert value =>
    rcases Node.insert_cases sorted value with ⟨_, result, gap⟩ | ⟨_, _, result, _⟩
    · rw [result]
      exact gap.sorted sorted
    · rw [result]
      exact sorted
  | replace position old value there same => exact Node.set_sorted sorted there same
  | delete wanted deleted position rest removed =>
    rcases Node.delete_cases sorted monotone_id wanted with ⟨_, _, result, _⟩ | ⟨result, _⟩
    · cases removed.symm.trans result
      exact Node.eraseIdx_sorted sorted _
    · cases removed.symm.trans result

namespace ReadWorld
variable {borrow : κ → Q} {borrowOrderMatches : Bool} {world after : ReadWorld α κ Q}

structure Valid (borrow : κ → Q) (borrowOrderMatches : Bool) (world : ReadWorld α κ Q) : Prop where
  stable : world.structural.Valid world.heap
  sorted : ∀ node, Node.Sorted (world.heap.cells node)
  reads : ∀ reader value phase, world.readers reader = some (value, phase) →
    phase.Valid borrow borrowOrderMatches value world.structural.topology world.heap

private theorem Valid.disturbed (valid : Valid borrow borrowOrderMatches world) {topology : Topology κ} {changed : Heap α}
    (evolves : Structure.Evolves world.structural.topology topology)
    (waits : ∀ node, Locked world node → changed.cells node = world.heap.cells node) :
    ∀ reader value phase, world.readers reader = some (value, phase) →
      phase.Valid borrow borrowOrderMatches value topology changed :=
  fun reader value phase running => (valid.reads reader value phase running).evolves evolves fun node held =>
    waits node ⟨reader, value, phase, running, held⟩

private theorem Valid.update (valid : Valid borrow borrowOrderMatches world) (reader : ReaderId) (next : Option (Q × ReadPhase α κ))
    (fits : ∀ value phase, next = some (value, phase) → phase.Valid borrow borrowOrderMatches value world.structural.topology world.heap) :
    Valid borrow borrowOrderMatches { world with readers := Function.update world.readers reader next } := by
  refine ⟨valid.stable, valid.sorted, fun other value phase running => ?_⟩
  by_cases here : other = reader
  · subst here
    exact fits value phase (by simpa using running)
  · exact valid.reads other value phase (by simpa [Function.update_of_ne here] using running)

omit [Keyed α κ] [LinearOrder Q] in
private theorem stable_write (stable : world.structural.Valid world.heap) (node : NodeId) (values : List α) :
    world.structural.Valid (world.heap.write node values) := by
  cases same : world.structural with
  | held guard repaired =>
    rw [same] at stable
    exact ⟨⟨stable.1.consistent, stable.1.repaired, stable.1.allocated⟩, stable.2⟩
  | _ =>
    rw [same] at stable
    exact stable

theorem Step.valid (monotone : Monotone borrow) (step : Step borrow borrowOrderMatches world after)
    (valid : Valid borrow borrowOrderMatches world) : Valid borrow borrowOrderMatches after := by
  cases step with
  | acquires => exact ⟨valid.stable, valid.sorted, valid.reads⟩
  | opens opened =>
    obtain ⟨stable, evolves⟩ := Structure.Valid.opens valid.stable opened
    exact ⟨stable, valid.sorted, valid.disturbed evolves fun _ _ => rfl⟩
  | operates step sorted waits =>
    obtain ⟨stable, evolves⟩ := Structure.Valid.operates valid.stable step
    exact ⟨stable, sorted, valid.disturbed evolves waits⟩
  | swaps =>
    obtain ⟨stable, evolves⟩ := Structure.Valid.swaps valid.stable
    exact ⟨stable, valid.sorted, valid.disturbed evolves fun _ _ => rfl⟩
  | finishes =>
    obtain ⟨stable, evolves⟩ := Structure.Valid.finishes valid.stable
    exact ⟨stable, valid.sorted, valid.disturbed evolves fun _ _ => rfl⟩
  | releases => exact ⟨valid.stable, valid.sorted, valid.reads⟩
  | stores node change waits =>
    refine ⟨stable_write valid.stable node _, fun other => ?_, valid.disturbed (.refl _) fun other locked => ?_⟩
    · by_cases here : other = node
      · subst here
        simpa using change.sorted (valid.sorted other)
      · simpa [Heap.write_other _ _ here] using valid.sorted other
    · refine Heap.write_other _ _ fun same => waits ?_
      exact same ▸ locked
  | invokes reader value idle =>
    apply valid.update reader _
    intro other phase same
    cases same
    trivial
  | advances reader running taken =>
    apply valid.update reader _
    intro other phase same
    cases same
    exact (valid.reads reader _ _ running).advance monotone valid.stable valid.sorted taken
  | leaves reader running done => exact valid.update reader none fun _ _ impossible => by cases impossible

def Reached (borrow : κ → Q) (borrowOrderMatches : Bool) (world : ReadWorld α κ Q) : Prop :=
  ReflTransGen (Step borrow borrowOrderMatches) start world

theorem Reached.valid (monotone : Monotone borrow) (reached : Reached borrow borrowOrderMatches world) :
    Valid borrow borrowOrderMatches world := by
  induction reached with
  | refl =>
    exact ⟨⟨publishes_new, fun _ _ member => (not_mem_empty _ member).elim, rfl⟩,
      fun _ => List.Pairwise.nil, fun _ _ _ running => by cases running⟩
  | tail _ step ih => exact step.valid monotone ih

/-- Point reads are definitive: a reader whose second load agrees with its first holds the
node canonical routing selects at that load, or finds the index empty; it keeps the node
as it is until it answers, and its answer is the truth of the moment it accepted. -/
structure Definitive (borrow : κ → Q) (world : ReadWorld α κ Q) : Prop where
  generation : world.structural.topology.generation % 2 = 0 ↔ world.structural.publishing = false
  node : ∀ reader value retries generation node, world.readers reader = some (value, .locked retries generation node) →
    world.structural.topology.generation = generation → (route borrow world.structural.topology.index value).map Prod.snd = some node
  vacant : ∀ reader value retries generation, world.readers reader = some (value, .routed retries generation none) →
    world.structural.topology.generation = generation → world.structural.topology.index.entries = []
  held : ∀ reader value node seen, world.readers reader = some (value, .accepted node seen) →
    (route borrow seen.index value).map Prod.snd = some node ∧ world.heap.cells node = seen.heap.cells node
  answer : ∀ reader value result seen, world.readers reader = some (value, .returned result seen) → seen.Answers borrow value result

theorem point_reads_definitive (monotone : Monotone borrow) (reached : Reached borrow borrowOrderMatches world) :
    world.Definitive borrow := by
  have valid := reached.valid monotone
  refine ⟨valid.stable.even, fun reader value retries generation node running same => ?_,
    fun reader value retries generation running same => ?_, fun reader value node seen running => ?_,
    fun reader value result seen running => valid.reads reader value _ running⟩
  · have current : ReadPhase.Current .. := valid.reads reader value _ running
    exact current.canonical monotone same valid.stable.published
  · have current : ReadPhase.Current .. := valid.reads reader value _ running
    exact ReadPhase.entries_nil (current.canonical monotone same valid.stable.published)
  · have accepted := valid.reads reader value _ running
    exact ⟨accepted.1, accepted.2.1⟩

/-- A reader accepts while a guard that does not publish holds the structural lock. -/
theorem point_reads_definitive_under_rekey : ∃ world : ReadWorld Nat Nat Nat, Reached id true world ∧
    world.structural.isUnlocked = false ∧ (∃ seen, world.readers 0 = some (10, .returned (some 10) seen)) ∧ world.Definitive id := by
  obtain ⟨world, reached, busy, answered⟩ : ∃ world : ReadWorld Nat Nat Nat, Reached id true world ∧
      world.structural.isUnlocked = false ∧ ∃ seen, world.readers 0 = some (10, .returned (some 10) seen) := by
    have sorted : ∀ node : NodeId, Node.Sorted ((⟨fun _ => [10], 1⟩ : Heap Nat).cells node) := fun _ => List.pairwise_singleton _ _
    have free : ∀ {world : ReadWorld Nat Nat Nat}, world.readers = (fun _ => none) → ∀ node, ¬ Locked world node :=
      fun none node locked => by
        obtain ⟨reader, value, phase, running, _⟩ := locked
        rw [none] at running
        cases running
    refine ⟨_, ReflTransGen.tail (.tail (.tail (.tail (.tail (.tail (.tail (.tail (.tail (.tail (.tail (.tail (.tail (.tail
      (.tail .refl
      .acquires) (.opens .write))
      (.operates (.store ⟨fun _ => [10], 1⟩ (Nat.zero_le _)) sorted fun node locked => absurd locked (free rfl node)))
      (.operates (.insert 10 0 rfl Nat.one_pos fun _ member => not_mem_empty _ member) sorted fun _ _ => rfl))
      .swaps) .finishes) .releases) (.invokes 0 10 rfl)) (.advances 0 rfl rfl)) (.advances 0 rfl rfl)) (.advances 0 rfl rfl))
      .acquires) (.opens .writeRekey)) (.advances 0 rfl rfl)) (.advances 0 rfl rfl), rfl, _, rfl⟩
  exact ⟨world, reached, busy, answered, point_reads_definitive monotone_id reached⟩

end ReadWorld
end WorkTablesIndex
