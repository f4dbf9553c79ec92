import WorkTablesIndex.Library.GatedLocks
import WorkTablesIndex.Boundaries
import WorkTablesIndex.Refinement

/-! The locks of each call on a set, in the order in which the call takes and releases them:
the topology lock, the node locks and the lock of the published keys. What a call does depends on
the data it finds, so a call is given by all the programs it may turn out to have performed. The
topology lock is a gate, which leaves no way for calls to wait for one another. -/

universe u v w

namespace WorkTablesIndex
open GatedLocks SortedMap

inductive Lock where
  | topology
  | node (id : NodeId)
  | publishedKeys
  deriving DecidableEq

namespace Locking

def nodeSection (node : NodeId) (rest : Program Lock) : Program Lock :=
  .acquire .topology .shared <| .acquire (.node node) .exclusive <| .release (.node node) <| .release .topology rest

/-- A structural section on one node. The first change of a route takes the published keys,
which the write guard keeps until it is dropped. -/
def structuralSection (node : NodeId) (publishes : Bool) (rest : Program Lock) : Program Lock :=
  .acquire .topology .exclusive <| .acquire (.node node) .exclusive <|
    if publishes then
      .acquire .publishedKeys .exclusive <| .release (.node node) <| .release .publishedKeys <| .release .topology rest
    else .release (.node node) <| .release .topology rest

/-- The loop that spins on `try_write` before it blocks; one attempt precedes the first spin. -/
def spinWrite (guarded : Program Lock) : Nat → Program Lock
  | 0 => .attempt .topology .exclusive guarded <| .acquire .topology .exclusive guarded
  | spins + 1 => .attempt .topology .exclusive guarded <| spinWrite guarded spins

inductive PutsInner : Program Lock → Prop where
  | stored (node : NodeId) : PutsInner (nodeSection node .done)
  /-- An equal value is replaced, or the insertion refused, under the node lock that
  `put_checked_inner` hands out after it has released the topology. -/
  | occupied (node : NodeId) : PutsInner
      (.acquire .topology .shared <| .acquire (.node node) .exclusive <| .release .topology <| .release (.node node) .done)
  | updateMax (node : NodeId) (publishes : Bool) : PutsInner (nodeSection node <| structuralSection node publishes .done)
  | split (node : NodeId) : PutsInner (nodeSection node <| structuralSection node true .done)
  | splitFailed (node : NodeId) {again : Program Lock} (retries : PutsInner again) :
      PutsInner (nodeSection node <| structuralSection node false again)
  | rootCreated : PutsInner (.acquire .topology .shared <| .release .topology <|
      spinWrite (.acquire .publishedKeys .exclusive <| .release .publishedKeys <| .release .topology .done) rootPublicationSpinLimit)
  | rootTaken {again : Program Lock} (retries : PutsInner again) : PutsInner (.acquire .topology .shared <| .release .topology <|
      spinWrite (.release .topology again) rootPublicationSpinLimit)

inductive RemovesInner : Program Lock → Prop where
  | empty : RemovesInner (.acquire .topology .shared <| .release .topology .done)
  | settled (node : NodeId) : RemovesInner (nodeSection node .done)
  | repaired (node : NodeId) (publishes : Bool) : RemovesInner (nodeSection node <| structuralSection node publishes .done)
  /-- The last value of a node is removed under the write guard, where the route may lead elsewhere. -/
  | unlinked (node target : NodeId) (publishes : Bool) : RemovesInner (nodeSection node <| structuralSection target publishes .done)
  | unlinkedEmpty (node : NodeId) : RemovesInner (nodeSection node <| .acquire .topology .exclusive <| .release .topology .done)
  | unlinkFailed (node target : NodeId) {again : Program Lock} (retries : RemovesInner again) :
      RemovesInner (nodeSection node <| structuralSection target false again)

/-- A point read after so many retries, which `contains` is too. A generation that is odd or
has moved costs a retry; both branches of an attempt go on alike, since a run takes only one. -/
inductive GetsWith : Nat → Program Lock → Prop where
  | fallback {retries : Nat} (late : stableReadBlockingFallbackAfter ≤ retries) (node : NodeId) : GetsWith retries
      (.acquire .topology .shared <| .acquire (.node node) .shared <| .release .topology <| .release (.node node) .done)
  | fallbackEmpty {retries : Nat} (late : stableReadBlockingFallbackAfter ≤ retries) :
      GetsWith retries (.acquire .topology .shared <| .release .topology .done)
  | empty {retries : Nat} (early : retries < stableReadBlockingFallbackAfter) : GetsWith retries .done
  | unrouted {retries : Nat} {again : Program Lock} (early : retries < stableReadBlockingFallbackAfter)
      (next : GetsWith (retries + 1) again) : GetsWith retries again
  | stable {retries : Nat} (early : retries < stableReadBlockingFallbackAfter) (node : NodeId) : GetsWith retries
      (.attempt (.node node) .shared (.release (.node node) .done) <| .acquire (.node node) .shared <| .release (.node node) .done)
  | moved {retries : Nat} {again : Program Lock} (early : retries < stableReadBlockingFallbackAfter) (node : NodeId)
      (next : GetsWith (retries + 1) again) : GetsWith retries
      (.attempt (.node node) .shared (.release (.node node) again) <| .acquire (.node node) .shared <| .release (.node node) again)

def readNodes : List NodeId → Program Lock → Program Lock
  | [], rest => rest
  | node :: others, rest => .acquire (.node node) .shared <| .release (.node node) <| readNodes others rest

def len (nodes : List NodeId) : Program Lock := .acquire .topology .shared <| readNodes nodes <| .release .topology .done

/-- The construction of a range reads the front and the back node, a neighbour of either when
the bound falls beside it, and at last the outermost nodes. -/
def rangeNew (front preFront back nextBack last first : Option NodeId) : Program Lock :=
  .acquire .topology .shared <| readNodes [front, preFront, back, nextBack, last, first].reduceOption <| .release .topology .done

/-- The batches a `next` or `next_back` installs before it yields; an exhausted scan finds no
further node. -/
def next : List NodeId → Bool → Program Lock
  | [], false => .done
  | [], true => .acquire .topology .shared <| .release .topology .done
  | node :: others, exhausted =>
    .acquire .topology .shared <| .acquire (.node node) .shared <| .release .topology <| .release (.node node) <|
      next others exhausted

inductive AttachesNodes : Program Lock → Prop where
  | nothing : AttachesNodes .done
  | linked : AttachesNodes
      (.acquire .topology .exclusive <| .acquire .publishedKeys .exclusive <| .release .publishedKeys <| .release .topology .done)
  /-- On an empty set the first node was empty too: the call panics and drops its guard. -/
  | panics : AttachesNodes (.acquire .topology .exclusive <| .release .topology .done)

def drainNodes : List NodeId → Program Lock → Program Lock
  | [], rest => rest
  | node :: others, rest => .acquire (.node node) .exclusive <| .release (.node node) <| drainNodes others rest

end Locking

namespace BTreeSet
variable {α : Type u} {κ : Type v} {Q : Type w} [LinearOrder κ] [Keyed α κ] [LinearOrder Q]

open Locking in
def removeRangeLocks (borrow : κ → Q) (start last : Bound Q) (publishes : Bool) (set : BTreeSet α κ) : Program Lock :=
  let index := set.index.index
  let unchanged : Program Lock := .acquire .topology .exclusive <| .release .topology .done
  match firstForBorrowedBound borrow index start with
  | none => unchanged
  | some (frontKey, frontNode) =>
    let backEntry := match last with
      | .included value | .excluded value => nodeForBorrowedEnd borrow index value set.borrowOrderMatches
      | .unbounded => index.last?
    match backEntry with
    | none => unchanged
    | some (backKey, backNode) =>
      if backKey < frontKey then unchanged
      else if frontNode = backNode then structuralSection frontNode publishes .done
      else
        let middle := index.entries.filter fun entry => decide (frontKey < entry.1 ∧ entry.1 < backKey)
        .acquire .topology .exclusive <| .acquire (.node frontNode) .exclusive <| .acquire (.node backNode) .exclusive <|
          .acquire .publishedKeys .exclusive <| drainNodes (middle.map Prod.snd) <| .release (.node backNode) <|
            .release (.node frontNode) <| .release .publishedKeys <| .release .topology .done

/-- The sets that arise from an empty one as calls run, in any interleaving of their
sections and with nodes attached in between. -/
inductive Arises : BTreeSet α κ → Prop where
  | new (nodeCapacity : Nat) : Arises (.withMaximumNodeSize nodeCapacity)
  | advance {machine : Machine α κ} (earlier : Arises machine.set) (thread : ThreadId) (call : CallId) (phase : Phase α κ) :
      Arises (machine.advance thread call phase).set
  | attachNodes {set after : BTreeSet α κ} (earlier : Arises set) {nodes : List (List α)}
      (sorted : ∀ values ∈ nodes, Node.Sorted values) (ran : set.attachNodes nodes = some after) : Arises after

end BTreeSet

namespace Locking
variable (α : Type u) (κ : Type v) [LinearOrder κ] [Keyed α κ]

inductive Performs : Program Lock → Prop where
  | insert {program : Program Lock} (puts : PutsInner program) : Performs program
  | remove {program : Program Lock} (removes : RemovesInner program) : Performs program
  | removeRange {Q : Type w} [LinearOrder Q] (borrow : κ → Q) (start last : Bound Q) (publishes : Bool) {set : BTreeSet α κ}
      (arises : set.Arises) : Performs (set.removeRangeLocks borrow start last publishes)
  | attachNodes {program : Program Lock} (attaches : AttachesNodes program) : Performs program
  | getWith {program : Program Lock} (gets : GetsWith 0 program) : Performs program
  | len (nodes : List NodeId) : Performs (len nodes)
  | rangeNew (front preFront back nextBack last first : Option NodeId) : Performs (rangeNew front preFront back nextBack last first)
  | next (nodes : List NodeId) (exhausted : Bool) : Performs (next nodes exhausted)

end Locking

namespace Locking

private theorem release_taken {held : Lock → Option Mode} {lock : Lock} (free : held lock = none) (mode : Mode) :
    Function.update (Function.update held lock (some mode)) lock none = held := by
  rw [Function.update_idem, ← free, Function.update_eq_self]

private theorem release_first {held : Lock → Option Mode} {first second : Lock} (apart : first ≠ second) (free : held first = none)
    (one two : Mode) : Function.update (Function.update (Function.update held first (some one)) second (some two)) first none =
      Function.update held second (some two) := by
  rw [Function.update_comm apart.symm, release_taken free]

private theorem mayWait_topology : MayWait Lock.topology (fun _ => none) .topology :=
  ⟨rfl, fun _ _ => rfl, fun away => absurd rfl away⟩

private theorem mayWait_node (node : NodeId) : MayWait Lock.topology (fun _ => none) (.node node) :=
  ⟨rfl, fun _ _ => rfl, fun _ => Or.inr fun _ _ => rfl⟩

private theorem mayWait_beneath (mode : Mode) (node : NodeId) :
    MayWait Lock.topology (Function.update (fun _ => none) .topology (some mode)) (.node node) := by
  refine ⟨by simp, by simp, fun _ => Or.inr fun other away => ?_⟩
  rw [Function.update_of_ne away]

private theorem mayWait_guarded {held : Lock → Option Mode} {lock : Lock} (guards : held .topology = some .exclusive)
    (free : held lock = none) : MayWait .topology held lock := by
  refine ⟨free, fun same => ?_, fun _ => Or.inl guards⟩
  rw [same, guards] at free
  cases free

variable {rest : Program Lock}

private theorem gated_nodeSection (node : NodeId) (gated : Gated .topology (fun _ => none) rest) :
    Gated .topology (fun _ => none) (nodeSection node rest) := by
  simp only [nodeSection, Gated]
  refine ⟨mayWait_topology, mayWait_beneath .shared node, ?_⟩
  rw [release_taken (by simp), release_taken rfl]
  exact gated

private theorem gated_structuralSection (node : NodeId) (publishes : Bool) (gated : Gated .topology (fun _ => none) rest) :
    Gated .topology (fun _ => none) (structuralSection node publishes rest) := by
  cases publishes with
  | false =>
    simp only [structuralSection, Gated, Bool.false_eq_true, if_false]
    refine ⟨mayWait_topology, mayWait_beneath .exclusive node, ?_⟩
    rw [release_taken (by simp), release_taken rfl]
    exact gated
  | true =>
    simp only [structuralSection, Gated, if_true]
    refine ⟨mayWait_topology, mayWait_beneath .exclusive node, mayWait_guarded (by simp) (by simp), ?_⟩
    rw [release_first (by simp) (by simp), release_taken (by simp), release_taken rfl]
    exact gated

private theorem gated_glimpse (mode : Mode) (gated : Gated .topology (fun _ => none) rest) :
    Gated .topology (fun _ => none) (.acquire .topology mode <| .release .topology rest) := by
  simp only [Gated]
  refine ⟨mayWait_topology, ?_⟩
  rw [release_taken rfl]
  exact gated

private theorem gated_overlap (node : NodeId) (mode : Mode) (gated : Gated .topology (fun _ => none) rest) :
    Gated .topology (fun _ => none)
      (.acquire .topology .shared <| .acquire (.node node) mode <| .release .topology <| .release (.node node) rest) := by
  simp only [Gated]
  refine ⟨mayWait_topology, mayWait_beneath .shared node, ?_⟩
  rw [release_first (by simp) rfl, release_taken rfl]
  exact gated

private theorem gated_spinWrite (gated : Gated .topology (Function.update (fun _ => none) .topology (some .exclusive)) rest) :
    ∀ spins, Gated .topology (fun _ => none) (spinWrite rest spins)
  | 0 => ⟨gated, mayWait_topology, gated⟩
  | spins + 1 => ⟨gated, gated_spinWrite gated spins⟩

theorem PutsInner.gated {program : Program Lock} (puts : PutsInner program) : Gated .topology (fun _ => none) program := by
  induction puts with
  | stored node => exact gated_nodeSection node fun _ => rfl
  | occupied node => exact gated_overlap node .exclusive fun _ => rfl
  | updateMax node publishes =>
    apply gated_nodeSection
    exact gated_structuralSection node publishes fun _ => rfl
  | split node =>
    apply gated_nodeSection
    exact gated_structuralSection node true fun _ => rfl
  | splitFailed node _ ih =>
    apply gated_nodeSection
    exact gated_structuralSection node false ih
  | rootCreated =>
    apply gated_glimpse
    apply gated_spinWrite
    simp only [Gated]
    refine ⟨mayWait_guarded (by simp) (by simp), ?_⟩
    rw [release_taken (by simp), release_taken rfl]
    exact fun _ => rfl
  | rootTaken _ ih =>
    apply gated_glimpse
    apply gated_spinWrite
    simp only [Gated]
    rw [release_taken rfl]
    exact ih

theorem RemovesInner.gated {program : Program Lock} (removes : RemovesInner program) : Gated .topology (fun _ => none) program := by
  induction removes with
  | empty => exact gated_glimpse .shared fun _ => rfl
  | settled node => exact gated_nodeSection node fun _ => rfl
  | repaired node publishes =>
    apply gated_nodeSection
    exact gated_structuralSection node publishes fun _ => rfl
  | unlinked node target publishes =>
    apply gated_nodeSection
    exact gated_structuralSection target publishes fun _ => rfl
  | unlinkedEmpty node =>
    apply gated_nodeSection
    exact gated_glimpse .exclusive fun _ => rfl
  | unlinkFailed node target _ ih =>
    apply gated_nodeSection
    exact gated_structuralSection target false ih

private theorem gated_unguarded (node : NodeId) (gated : Gated .topology (fun _ => none) rest) : Gated .topology (fun _ => none)
    (.attempt (.node node) .shared (.release (.node node) rest) <| .acquire (.node node) .shared <| .release (.node node) rest) := by
  simp only [Gated]
  rw [release_taken rfl]
  exact ⟨gated, mayWait_node node, gated⟩

theorem GetsWith.gated {retries : Nat} {program : Program Lock} (gets : GetsWith retries program) :
    Gated .topology (fun _ => none) program := by
  induction gets with
  | fallback _ node => exact gated_overlap node .shared fun _ => rfl
  | fallbackEmpty => exact gated_glimpse .shared fun _ => rfl
  | empty => exact fun _ => rfl
  | unrouted _ _ ih => exact ih
  | stable _ node => exact gated_unguarded node fun _ => rfl
  | moved _ node _ ih => exact gated_unguarded node ih

private theorem gated_readNodes : ∀ nodes, Gated .topology (fun _ => none)
      (.acquire .topology .shared <| readNodes nodes <| .release .topology .done)
  | [] => gated_glimpse .shared fun _ => rfl
  | node :: others => by
    simp only [readNodes, Gated]
    refine ⟨mayWait_topology, mayWait_beneath .shared node, ?_⟩
    rw [release_taken (by simp)]
    exact (gated_readNodes others).2

theorem gated_next (exhausted : Bool) : ∀ nodes, Gated .topology (fun _ => none) (next nodes exhausted)
  | [] => by
    cases exhausted with
    | false => exact fun _ => rfl
    | true => exact gated_glimpse .shared fun _ => rfl
  | node :: others => gated_overlap node .shared (gated_next exhausted others)

theorem AttachesNodes.gated {program : Program Lock} (attaches : AttachesNodes program) :
    Gated .topology (fun _ => none) program := by
  cases attaches with
  | nothing => exact fun _ => rfl
  | linked =>
    simp only [Gated]
    refine ⟨mayWait_topology, mayWait_guarded (by simp) (by simp), ?_⟩
    rw [release_taken (by simp), release_taken rfl]
    exact fun _ => rfl
  | panics => exact gated_glimpse .exclusive fun _ => rfl

private theorem gated_drainNodes {held : Lock → Option Mode} (guards : held .topology = some .exclusive)
    (gated : Gated .topology held rest) : ∀ nodes, (∀ node ∈ nodes, held (.node node) = none) →
      Gated .topology held (drainNodes nodes rest)
  | [], _ => gated
  | node :: others, free => by
    have here := free node List.mem_cons_self
    simp only [drainNodes, Gated]
    refine ⟨mayWait_guarded guards here, ?_⟩
    rw [release_taken here]
    exact gated_drainNodes guards gated others fun other member => free other (List.mem_cons_of_mem _ member)

end Locking

namespace BTreeSet
variable {α : Type u} {κ : Type v} {Q : Type w} [LinearOrder κ] [Keyed α κ] [LinearOrder Q] {set : BTreeSet α κ}

omit [Keyed α κ] in
open Locking in
/-- Front, back and middle nodes are different nodes, since each is linked once. -/
theorem removeRangeLocks_gated (once : LinkedOnce set.index.index) (borrow : κ → Q) (start last : Bound Q) (publishes : Bool) :
    Gated .topology (fun _ => none) (set.removeRangeLocks borrow start last publishes) := by
  simp only [removeRangeLocks]
  split
  next => exact gated_glimpse .exclusive fun _ => rfl
  next frontKey frontNode front =>
    have frontLinked : (frontKey, frontNode) ∈ set.index.index := (find?_eq_some.mp front).1
    split
    next => exact gated_glimpse .exclusive fun _ => rfl
    next backKey backNode back =>
      have backLinked : (backKey, backNode) ∈ set.index.index := by
        cases last with
        | included value => exact nodeForBorrowedEnd_mem back
        | excluded value => exact nodeForBorrowedEnd_mem back
        | unbounded => exact (last?_eq_some.mp back).1
      split
      next => exact gated_glimpse .exclusive fun _ => rfl
      next =>
        split
        next => exact gated_structuralSection frontNode publishes fun _ => rfl
        next apart =>
          have frontApart : Lock.node frontNode ≠ .node backNode := fun same => apart (Lock.node.inj same)
          have outside : ∀ node ∈ (set.index.index.entries.filter fun entry =>
              decide (frontKey < entry.1 ∧ entry.1 < backKey)).map Prod.snd, node ≠ frontNode ∧ node ≠ backNode := by
            intro node member
            obtain ⟨⟨entry, _⟩, inside, rfl⟩ := List.mem_map.mp member
            obtain ⟨linked, between⟩ := List.mem_filter.mp inside
            obtain ⟨above, below⟩ := of_decide_eq_true between
            refine ⟨fun same => ?_, fun same => ?_⟩
            · exact above.ne' (once entry frontKey frontNode (same ▸ linked) frontLinked)
            · exact below.ne (once entry backKey backNode (same ▸ linked) backLinked)
          simp only [Gated]
          refine ⟨mayWait_topology, mayWait_beneath .exclusive frontNode, mayWait_guarded (by simp) (by simp [frontApart.symm]),
            mayWait_guarded (by simp) (by simp), gated_drainNodes (by simp) ?_ _ fun node member => ?_⟩
          · simp only [Gated]
            rw [release_first (by simp) (by simp [frontApart.symm]), release_first (by simp) (by simp), release_taken (by simp),
              release_taken rfl]
            exact fun _ => rfl
          · obtain ⟨notFront, notBack⟩ := outside node member
            simp [notFront, notBack]

private theorem attachLoop_sound : ∀ {nodes : List (List α)} {guard after : TopologyWriteGuard κ} {heap heap' : Heap α},
    guard.Consistent → guard.Exact → guard.publish = true → Layout.Sound ⟨guard.index, heap⟩ →
    (∀ values ∈ nodes, Node.Sorted values) → attachLoop nodes guard heap = some (after, heap') → after.Consistent ∧ Layout.Sound ⟨after.index, heap'⟩
  | [], _, _, _, _, consistent, _, _, sound, _, ran => by
    cases ran
    exact ⟨consistent, sound⟩
  | values :: rest, guard, after, heap, heap', consistent, exact_, publishing, sound, sorted, ran => by
    simp only [attachLoop] at ran
    split at ran
    next => cases ran
    next last greatest =>
      obtain ⟨_, index, publish, inserted, exactAfter⟩ := TopologyWriteGuard.insertAfterLastRouteRepair_spec consistent exact_
        publishing (key last) heap.next sound.allocated.fresh
      have attached : Layout.Sound ⟨(guard.insertAfterLastRouteRepair (key last) heap.next).2.index, (heap.alloc values).2⟩ := by
        rw [index]
        exact sound.attach (sorted values List.mem_cons_self) (congrArg (Option.map key) greatest)
      exact attachLoop_sound inserted exactAfter publish attached
        (fun other member => sorted other (List.mem_cons_of_mem _ member)) ran

private theorem attachNodes_valid {after : BTreeSet α κ} {nodes : List (List α)} (valid : Valid set)
    (sorted : ∀ values ∈ nodes, Node.Sorted values) (ran : set.attachNodes nodes = some after) : Valid after := by
  simp only [attachNodes] at ran
  split at ran
  next => exact Option.some.inj ran ▸ valid
  next =>
    obtain ⟨⟨guard, heap⟩, looped, rfl⟩ := Option.map_eq_some_iff.mp ran
    obtain ⟨consistent, publishing⟩ := consistent_write valid.publishes
    obtain ⟨repaired, exact_, same, publish⟩ := TopologyWriteGuard.repairLastRouteBeforeInsert_spec consistent publishing
    have opened : Layout.Sound ⟨set.index.write.repairLastRouteBeforeInsert.index, set.heap⟩ := by
      rw [same]
      exact valid.sound
    obtain ⟨afterConsistent, sound⟩ := attachLoop_sound repaired exact_ publish opened sorted looped
    exact (valid_drop set afterConsistent sound).1

theorem Arises.valid (arises : Arises set) : Valid set := by
  induction arises with
  | new nodeCapacity => exact valid_new nodeCapacity
  | advance _ thread call phase ih =>
    obtain ⟨_, _, _, runs, moved⟩ := Machine.advance_moves ih phase
    rw [moved]
    exact (Machine.section_tracks ih runs).1
  | attachNodes _ sorted ran ih => exact attachNodes_valid ih sorted ran

end BTreeSet

namespace Locking
variable {α : Type u} {κ : Type v} [LinearOrder κ] [Keyed α κ]

theorem Performs.gated {program : Program Lock} (performs : Performs.{u, v, w} α κ program) :
    Gated .topology (fun _ => none) program := by
  cases performs with
  | insert puts => exact puts.gated
  | remove removes => exact removes.gated
  | removeRange borrow start last publishes arises =>
    exact BTreeSet.removeRangeLocks_gated arises.valid.sound.once borrow start last publishes
  | attachNodes attaches => exact attaches.gated
  | getWith gets => exact gets.gated
  | len nodes => exact gated_readNodes nodes
  | rangeNew front preFront back nextBack last first => exact gated_readNodes _
  | next nodes exhausted => exact gated_next exhausted nodes

/-- Any number of calls on one set, in any interleaving: no group of them waits for locks held or
requested by one another, and while a call is unfinished some call goes on. -/
theorem no_deadlock {world : World Lock} (reached : Reached (Performs.{u, v, w} α κ) world) :
    (∀ group, ¬ world.Deadlocked group) ∧
      ∀ call, world.calls call ≠ .done →
        ∃ other after, world.step (.advance other) = some after ∨ world.step (.refuse other) = some after := by
  have disciplined := reached.disciplined fun program performs => performs.gated
  exact ⟨disciplined.not_deadlocked, fun call unfinished => disciplined.progress unfinished⟩

/-- A scan has released the topology and reads a node, a range removal holds the topology
and waits for that node, and an insertion waits for the topology. -/
theorem no_deadlock_behind_scan : ∃ world : World Lock, Reached (Performs.{0, 0, 0} Nat Nat) world ∧
    world.holders (.node 0) = [(0, .shared)] ∧ world.holders .topology = [(1, .exclusive)] ∧
    world.queue (.node 0) = [(1, .exclusive)] ∧ world.queue .topology = [(2, .shared)] ∧ ∀ group, ¬ world.Deadlocked group := by
  let rooted : Machine Nat Nat := (Machine.start 2).advance 0 0 (.root 5 false false)
  have arises : rooted.set.Arises := .advance (.new 2) 0 0 (.root 5 false false)
  let schedule : List (GatedLocks.Action Lock) :=
    [.invoke 0 (next [0] false), .advance 0, .advance 0, .advance 0, .advance 0, .advance 0,
      .invoke 1 (rooted.set.removeRangeLocks id .unbounded .unbounded true), .advance 1, .advance 1, .advance 1,
      .invoke 2 (nodeSection 0 .done), .advance 2]
  have permitted : ∀ call program, .invoke call program ∈ schedule → Performs.{0, 0, 0} Nat Nat program := by
    intro call program member
    simp only [schedule, List.mem_cons, List.not_mem_nil, GatedLocks.Action.invoke.injEq, reduceCtorEq, false_or, or_false] at member
    rcases member with ⟨_, rfl⟩ | ⟨_, rfl⟩ | ⟨_, rfl⟩
    · exact .next [0] false
    · exact .removeRange id .unbounded .unbounded true arises
    · exact .insert (.stored 0)
  obtain ⟨world, ran, reading, removing, waiting, queueing⟩ : ∃ world, World.start.run schedule = some world ∧
      world.holders (.node 0) = [(0, .shared)] ∧ world.holders .topology = [(1, .exclusive)] ∧
      world.queue (.node 0) = [(1, .exclusive)] ∧ world.queue .topology = [(2, .shared)] :=
    ⟨_, rfl, rfl, rfl, rfl, rfl⟩
  have reached := Reached.start.run permitted ran
  exact ⟨world, reached, reading, removing, waiting, queueing, (no_deadlock reached).1⟩

end Locking

end WorkTablesIndex
