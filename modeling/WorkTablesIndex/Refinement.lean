import WorkTablesIndex.Calls
import WorkTablesIndex.Library.Reference
import WorkTablesIndex.Map

/-! One call at a time, the concurrent set is a finite map ordered by key: every
call returns what the map returns, and the nodes laid end to end are its
contents. -/

universe u v w

namespace WorkTablesIndex
open SortedMap

variable {α : Type u} {κ : Type v} [LinearOrder κ] [Keyed α κ]

def Node.Apart (first second : List α) : Prop :=
  (∀ left ∈ first, ∀ right ∈ second, key left < key right) ∨ ∀ left ∈ first, ∀ right ∈ second, key right < key left

namespace Layout
variable {layout : Layout α κ}

def attach (layout : Layout α κ) (values : List α) (top : κ) : Layout α κ :=
  ⟨layout.index.insert top layout.heap.next, (layout.heap.alloc values).2⟩

def Clear (layout : Layout α κ) (values : List α) : Prop :=
  ∀ entry node, (entry, node) ∈ layout.index → Node.Apart values (layout.heap.cells node)

/-- Where a linked node lies relative to a clear one, seen from their maxima. -/
private theorem Tidy.sides (tidy : Tidy layout) {values : List α} (sorted : Node.Sorted values) {top : κ}
    (greatest : Node.maxKey values = some top) (clear : Clear layout values) {entry : κ} {node : NodeId}
    (linked : (entry, node) ∈ layout.index) :
    (top < entry ∧ ∀ item ∈ layout.heap.cells node, top < key item) ∨ entry < top ∧ ∀ value ∈ values, entry < key value := by
  obtain ⟨⟨last, lastMember, rfl⟩, bound⟩ := (Node.maxKey_eq_some sorted).mp greatest
  obtain ⟨⟨final, finalMember, rfl⟩, _⟩ := (Node.maxKey_eq_some (tidy.sound.sorted node)).mp (tidy.tight entry node linked)
  rcases clear _ node linked with below | above
  · exact Or.inl ⟨below last lastMember final finalMember, fun item member => below last lastMember item member⟩
  · exact Or.inr ⟨above last lastMember final finalMember, fun value member => above value member final finalMember⟩

omit [Keyed α κ] in
private theorem mem_attach (allocated : Allocated layout.index layout.heap) {values : List α} {top entry : κ} {node : NodeId}
    (member : (entry, node) ∈ (layout.attach values top).index) :
    (entry = top ∧ (layout.attach values top).heap.cells node = values) ∨
      (entry, node) ∈ layout.index ∧ (layout.attach values top).heap.cells node = layout.heap.cells node := by
  rcases (mem_insert ..).mp member with same | ⟨_, kept⟩
  · cases same
    exact Or.inl ⟨rfl, by simp [Layout.attach]⟩
  · refine Or.inr ⟨kept, ?_⟩
    simp [Layout.attach, Heap.alloc_other _ _ (allocated entry node kept).ne]

theorem Sound.attach (sound : Sound layout) {values : List α} (sorted : Node.Sorted values) {top : κ}
    (greatest : Node.maxKey values = some top) : Sound (layout.attach values top) := by
  refine ⟨sound.once.insert top sound.allocated.fresh, ?_, fun node => ?_, fun entry node member => ?_⟩
  · intro entry node member
    change node < layout.heap.next + 1
    rcases (mem_insert ..).mp member with same | ⟨_, kept⟩
    · cases same
      exact Nat.lt_succ_self _
    · exact (sound.allocated entry node kept).trans (Nat.lt_succ_self _)
  · by_cases here : node = layout.heap.next
    · subst here
      simpa [Layout.attach] using sorted
    · simpa [Layout.attach, Heap.alloc_other _ _ here] using sound.sorted node
  · rcases mem_attach sound.allocated member with ⟨_, cells⟩ | ⟨kept, cells⟩
    · rw [cells]
      exact Node.ne_nil_of_maxKey greatest
    · rw [cells]
      exact sound.filled entry node kept

theorem Tidy.attach (tidy : Tidy layout) {values : List α} (sorted : Node.Sorted values) {top : κ}
    (greatest : Node.maxKey values = some top) (clear : Clear layout values) : Tidy (layout.attach values top) := by
  obtain ⟨_, bound⟩ := (Node.maxKey_eq_some sorted).mp greatest
  have split (entry : κ) (node : NodeId) (member : (entry, node) ∈ (layout.attach values top).index) :=
    mem_attach tidy.sound.allocated member
  have sound := tidy.sound.attach sorted greatest
  refine ⟨sound, fun entry node member value present => ?_, fun entry node member => ?_⟩
  · rcases split entry node member with ⟨rfl, cells⟩ | ⟨kept, cells⟩
    · rw [cells] at present
      refine ⟨fun other there less => ?_, fun _ _ _ => bound value present⟩
      rcases split other.1 other.2 there with ⟨same, _⟩ | ⟨linked, _⟩
      · exact absurd less (same ▸ lt_irrefl _)
      · rcases tidy.sides sorted greatest clear linked with ⟨beyond, _⟩ | ⟨_, above⟩
        · exact absurd less beyond.asymm
        · exact above value present
    · rw [cells] at present
      refine ⟨fun other there less => ?_, fun _ _ _ => tidy.le kept present⟩
      rcases split other.1 other.2 there with ⟨same, _⟩ | ⟨linked, _⟩
      · rcases tidy.sides sorted greatest clear kept with ⟨_, above⟩ | ⟨beyond, _⟩
        · exact same ▸ above value present
        · exact absurd (same ▸ less) beyond.asymm
      · exact tidy.lt kept present linked less
  · rcases split entry node member with ⟨rfl, cells⟩ | ⟨kept, cells⟩
    · rw [cells, greatest]
    · rw [cells]
      exact tidy.tight entry node kept

def Linked (layout : Layout α κ) (entry : κ) (values : List α) : Prop :=
  ∃ node, (entry, node) ∈ layout.index ∧ layout.heap.cells node = values

omit [Keyed α κ] in
theorem stored_iff_linked (layout : Layout α κ) (item : α) :
    layout.Stored item ↔ ∃ entry values, layout.Linked entry values ∧ item ∈ values := by
  constructor
  · intro stored
    obtain ⟨entry, node, member, present⟩ := stored
    exact ⟨entry, _, ⟨node, member, rfl⟩, present⟩
  · intro linked
    obtain ⟨entry, _, ⟨node, member, rfl⟩, present⟩ := linked
    exact ⟨entry, node, member, present⟩

theorem Tidy.attach_linked (tidy : Tidy layout) {values : List α} (sorted : Node.Sorted values) {top : κ}
    (greatest : Node.maxKey values = some top) (clear : Clear layout values) (entry : κ) (cells : List α) :
    Linked (layout.attach values top) entry cells ↔ (cells = values ∧ Node.maxKey values = some entry) ∨
      Linked layout entry cells := by
  constructor
  · intro linked
    obtain ⟨node, member, rfl⟩ := linked
    rcases (mem_insert ..).mp member with same | ⟨_, kept⟩
    · cases same
      exact Or.inl ⟨by simp [Layout.attach], greatest⟩
    · refine Or.inr ⟨node, kept, ?_⟩
      simp [Layout.attach, Heap.alloc_other _ _ (tidy.sound.allocated entry node kept).ne]
  · intro either
    rcases either with ⟨rfl, named⟩ | ⟨node, linked, rfl⟩
    · rw [greatest] at named
      cases named
      exact ⟨layout.heap.next, (mem_insert ..).mpr (Or.inl rfl), by simp [Layout.attach]⟩
    · have different : entry ≠ top := by
        rcases tidy.sides sorted greatest clear linked with ⟨beyond, _⟩ | ⟨beyond, _⟩
        · exact beyond.ne'
        · exact beyond.ne
      refine ⟨node, (mem_insert ..).mpr (Or.inr ⟨different, linked⟩), ?_⟩
      simp [Layout.attach, Heap.alloc_other _ _ (tidy.sound.allocated entry node linked).ne]

end Layout

namespace BTreeSet
variable {set : BTreeSet α κ}

/-- What `attach_nodes` asks of its caller: filled, sorted nodes whose ranges overlap
neither one another nor a stored one. -/
structure Attachable (layout : Layout α κ) (nodes : List (List α)) : Prop where
  filled : ∀ values ∈ nodes, values ≠ []
  sorted : ∀ values ∈ nodes, Node.Sorted values
  apart : nodes.Pairwise Node.Apart
  clear : ∀ values ∈ nodes, layout.Clear values

private theorem attachLoop_spec : ∀ (nodes : List (List α)) {guard : TopologyWriteGuard κ} {heap : Heap α},
    guard.Consistent → guard.Exact → guard.publish = true → Layout.Tidy ⟨guard.index, heap⟩ → Attachable ⟨guard.index, heap⟩ nodes →
    ∃ after heap', attachLoop nodes guard heap = some (after, heap') ∧ after.Consistent ∧ Layout.Tidy ⟨after.index, heap'⟩ ∧
      ∀ entry values, Layout.Linked ⟨after.index, heap'⟩ entry values ↔
        (values ∈ nodes ∧ Node.maxKey values = some entry) ∨ Layout.Linked ⟨guard.index, heap⟩ entry values
  | [], guard, heap, consistent, _, _, tidy, _ => ⟨guard, heap, rfl, consistent, tidy, by simp⟩
  | values :: rest, guard, heap, consistent, exact_, publishing, tidy, attachable => by
    obtain ⟨top, greatest⟩ := Node.maxKey_isSome (κ := κ) (attachable.filled values List.mem_cons_self)
    obtain ⟨last, max, rfl⟩ := Option.map_eq_some_iff.mp greatest
    have sorted := attachable.sorted values List.mem_cons_self
    have clear := attachable.clear values List.mem_cons_self
    obtain ⟨first, others⟩ := List.pairwise_cons.mp attachable.apart
    obtain ⟨_, index, publish, inserted, exactAfter⟩ := TopologyWriteGuard.insertAfterLastRouteRepair_spec consistent exact_
      publishing (key last) heap.next tidy.sound.allocated.fresh
    have layout : (⟨(guard.insertAfterLastRouteRepair (key last) heap.next).2.index, (heap.alloc values).2⟩ : Layout α κ) =
        Layout.attach ⟨guard.index, heap⟩ values (key last) := by
      rw [index]
      rfl
    have attached := tidy.attach sorted greatest clear
    have linked := tidy.attach_linked sorted greatest clear
    have remaining : Attachable (Layout.attach ⟨guard.index, heap⟩ values (key last)) rest := by
      refine ⟨fun other member => attachable.filled other (List.mem_cons_of_mem _ member),
        fun other member => attachable.sorted other (List.mem_cons_of_mem _ member), others, fun other member entry node there => ?_⟩
      rcases (mem_insert ..).mp there with same | ⟨_, kept⟩
      · cases same
        have cells : (heap.alloc values).2.cells heap.next = values := by simp
        have either := first other member
        rw [Layout.attach]
        simp only [cells]
        exact either.symm.imp (fun below left atLeft right atRight => below right atRight left atLeft)
          fun above left atLeft right atRight => above right atRight left atLeft
      · have cells : (heap.alloc values).2.cells node = heap.cells node := by
          simp [Heap.alloc_other _ _ (tidy.sound.allocated entry node kept).ne]
        rw [Layout.attach]
        simp only [cells]
        exact attachable.clear other (List.mem_cons_of_mem _ member) entry node kept
    obtain ⟨after, heap', result, afterConsistent, afterTidy, contents⟩ :=
      attachLoop_spec rest inserted exactAfter publish (layout ▸ attached) (layout ▸ remaining)
    refine ⟨after, heap', ?_, afterConsistent, afterTidy, fun entry cells => ?_⟩
    · simp only [attachLoop, max]
      exact result
    · rw [contents entry cells, layout, linked entry cells, List.mem_cons, or_and_right, ← or_assoc, or_comm (a := _ ∧ _)]
      refine or_congr_left (or_congr_left ?_)
      constructor <;> (intro both; obtain ⟨rfl, named⟩ := both; exact ⟨rfl, named⟩)

theorem attachNodes_spec (tidy : Tidy set) {nodes : List (List α)} (attachable : Attachable set.layout nodes) :
    ∃ after, attachNodes nodes set = some after ∧ Tidy after ∧ after.nodeCapacity = set.nodeCapacity ∧
      ∀ entry values, after.layout.Linked entry values ↔
        (values ∈ nodes ∧ Node.maxKey values = some entry) ∨ set.layout.Linked entry values := by
  by_cases none : nodes = []
  · subst none
    exact ⟨set, rfl, tidy, rfl, by simp⟩
  · obtain ⟨consistent, publishing⟩ := consistent_write tidy.valid.publishes
    obtain ⟨repaired, exact_, same, publish⟩ := TopologyWriteGuard.repairLastRouteBeforeInsert_spec consistent publishing
    have layout : (⟨set.index.write.repairLastRouteBeforeInsert.index, set.heap⟩ : Layout α κ) = set.layout := by
      rw [same]
      rfl
    obtain ⟨after, heap, result, afterConsistent, afterTidy, contents⟩ :=
      attachLoop_spec nodes repaired exact_ publish (layout ▸ tidy.layout) (layout ▸ attachable)
    obtain ⟨valid, dropped⟩ := valid_drop set afterConsistent afterTidy.sound
    refine ⟨{ set with index := after.drop, heap }, ?_, ⟨valid, dropped ▸ afterTidy⟩, rfl, fun entry values => ?_⟩
    · have filled : nodes.isEmpty = false := by simpa using none
      simp only [attachNodes, filled, Bool.false_eq_true, if_false, result, Option.map_some]
    · rw [dropped, contents entry values, layout]

theorem attachNodes_stored {after : BTreeSet α κ} {nodes : List (List α)} (attachable : Attachable set.layout nodes)
    (linked : ∀ entry values, after.layout.Linked entry values ↔
      (values ∈ nodes ∧ Node.maxKey values = some entry) ∨ set.layout.Linked entry values) (item : α) :
    after.layout.Stored item ↔ item ∈ nodes.flatten ∨ set.layout.Stored item := by
  rw [Layout.stored_iff_linked, Layout.stored_iff_linked, List.mem_flatten]
  constructor
  · intro stored
    obtain ⟨entry, values, there, present⟩ := stored
    rcases (linked entry values).mp there with ⟨new, _⟩ | old
    · exact Or.inl ⟨values, new, present⟩
    · exact Or.inr ⟨entry, values, old, present⟩
  · intro either
    rcases either with ⟨values, new, present⟩ | ⟨entry, values, old, present⟩
    · obtain ⟨top, greatest⟩ := Node.maxKey_isSome (κ := κ) (attachable.filled values new)
      exact ⟨top, values, (linked top values).mpr (Or.inl ⟨new, greatest⟩), present⟩
    · exact ⟨entry, values, (linked entry values).mpr (Or.inr old), present⟩

/-- The published routes and the canonical fallback choose the same node. -/
theorem lockNodeForValue_eq {Q : Type w} [LinearOrder Q] (valid : Valid set) {borrow : κ → Q}
    (monotone : Monotone borrow) (value : Q) :
    lockNodeForValue borrow value set = (route borrow set.index.index value).map Prod.snd := by
  have published := valid.publishes.publishedRoute_eq monotone value set.borrowOrderMatches
  have loop : ∀ attempts, lockNodeLoop borrow value set attempts = (route borrow set.index.index value).map Prod.snd := by
    intro attempts
    induction attempts with
    | zero => rfl
    | succ attempts ih =>
      simp only [lockNodeLoop]
      split
      · exact ih
      · exact published
  exact loop stableReadBlockingFallbackAfter

theorem getWith_eq {β : Type w} (tidy : Tidy set) (wanted : κ) (read : α → β) {result : Option α}
    (held : set.layout.Holds wanted result) : getWith id wanted read set = result.map read := by
  have locked := lockNodeForValue_eq tidy.valid monotone_id wanted
  cases routed : route id set.index.index wanted with
  | none =>
    have empty := route_eq_none.mp routed
    have missing : result = none := by
      cases result with
      | none => rfl
      | some item =>
        obtain ⟨⟨entry, node, member, _⟩, _⟩ := (held item).mp rfl
        exact absurd member (empty _)
    simp [getWith, locked, routed, missing]
  | some target =>
    obtain ⟨entry, node⟩ := target
    obtain ⟨linked, inside⟩ := route_eq_some.mp routed
    have sorted : Node.Sorted (set.heap.cells node) := tidy.valid.sound.sorted node
    cases selected : Node.trySelect id (set.heap.cells node) wanted with
    | none =>
      have missing := Node.trySelect_none sorted monotone_id selected
      have absent : result = none := by
        cases result with
        | none => rfl
        | some item =>
          obtain ⟨stored, same⟩ := (held item).mp rfl
          exact absurd same (missing item (tidy.layout.routed.stored_here linked (same ▸ inside) stored))
      simp [getWith, locked, routed, selected, absent]
    | some position =>
      obtain ⟨item, there, same⟩ := Node.trySelect_some selected
      have present : result = some item :=
        (held item).mpr ⟨⟨entry, node, linked, List.mem_of_getElem? there⟩, same⟩
      simp [getWith, locked, routed, selected, Node.getIth, there, present]

theorem get_eq (tidy : Tidy set) (wanted : κ) {result : Option α} (held : set.layout.Holds wanted result) :
    (get id wanted set).bind set.deref = result := by
  have read := getWith_eq tidy wanted id held
  rw [Option.map_id_fun, id_eq] at read
  rw [← read]
  simp only [get, getWith]
  cases lockNodeForValue id wanted set with
  | none => rfl
  | some node =>
    cases selected : Node.trySelect id (set.heap.cells node) wanted with
    | none => simp [selected]
    | some position => simp [selected, deref, Node.getIth]

def Represents (set : BTreeSet α κ) (reference : SortedMap κ α) : Prop :=
  ∀ wanted item, (wanted, item) ∈ reference ↔ set.layout.Stored item ∧ key item = wanted

theorem Represents.holds {reference : SortedMap κ α} (represents : Represents set reference) (wanted : κ) :
    set.layout.Holds wanted (reference.get? wanted) :=
  fun item => get?_eq_some.trans (represents wanted item)

theorem Represents.result {reference : SortedMap κ α} (represents : Represents set reference) {wanted : κ} {result : Option α}
    (held : set.layout.Holds wanted result) : result = reference.get? wanted :=
  Option.ext fun item => (held item).trans (represents.holds wanted item).symm

theorem Represents.gains {reference : SortedMap κ α} (represents : Represents set reference) {after : BTreeSet α κ} {value : α}
    (gains : set.layout.Gains after.layout value) : Represents after (reference.insert (key value) value) := by
  intro wanted item
  rw [mem_insert, represents, gains item, Prod.mk.injEq]
  constructor
  · intro member
    rcases member with ⟨rfl, rfl⟩ | ⟨different, stored, rfl⟩
    · exact ⟨Or.inl rfl, rfl⟩
    · exact ⟨Or.inr ⟨stored, different⟩, rfl⟩
  · intro both
    rcases both with ⟨rfl | ⟨stored, different⟩, rfl⟩
    · exact Or.inl ⟨rfl, rfl⟩
    · exact Or.inr ⟨different, stored, rfl⟩

theorem Represents.loses {reference : SortedMap κ α} (represents : Represents set reference) {after : BTreeSet α κ} {gone : κ}
    (loses : set.layout.Loses after.layout gone) : Represents after (reference.erase gone) := by
  intro wanted item
  rw [mem_erase, represents, loses item]
  constructor
  · intro member
    obtain ⟨different, stored, rfl⟩ := member
    exact ⟨⟨stored, different⟩, rfl⟩
  · intro both
    obtain ⟨⟨stored, different⟩, rfl⟩ := both
    exact ⟨different, stored, rfl⟩

/-- The canonical index has one entry for each node, keyed by its maximum; the nodes
are filled, sorted and ordered, and together they are the reference contents. -/
structure Refines (set : BTreeSet α κ) (reference : SortedMap κ α) : Prop where
  once : LinkedOnce set.index.index
  keyed : ∀ entry node, (entry, node) ∈ set.index.index → Node.maxKey (set.heap.cells node) = some entry
  filled : ∀ values ∈ set.nodes, values ≠ []
  sorted : ∀ values ∈ set.nodes, Node.Sorted values
  ordered : set.nodes.Pairwise fun left right => ∀ first ∈ left, ∀ second ∈ right, key first < key second
  contents : set.nodes.flatten = reference.entries.map Prod.snd

omit [Keyed α κ] in
theorem mem_nodes {values : List α} :
    values ∈ set.nodes ↔ ∃ entry node, (entry, node) ∈ set.index.index ∧ set.heap.cells node = values := by
  simp only [nodes, List.mem_map, Prod.exists, mem_def]

omit [Keyed α κ] in
theorem mem_flatten_nodes (item : α) : item ∈ set.nodes.flatten ↔ set.layout.Stored item := by
  rw [List.mem_flatten]
  constructor
  · intro held
    obtain ⟨values, member, present⟩ := held
    obtain ⟨entry, node, linked, rfl⟩ := mem_nodes.mp member
    exact ⟨entry, node, linked, present⟩
  · intro stored
    obtain ⟨entry, node, linked, present⟩ := stored
    exact ⟨_, mem_nodes.mpr ⟨entry, node, linked, rfl⟩, present⟩

theorem Tidy.ordered (tidy : Tidy set) :
    set.nodes.Pairwise fun left right => ∀ first ∈ left, ∀ second ∈ right, key first < key second := by
  refine List.pairwise_map.mpr (set.index.index.sorted.imp_of_mem ?_)
  intro earlier later atEarlier atLater below first firstMember second secondMember
  have bound : key first ≤ earlier.1 := tidy.layout.le atEarlier firstMember
  exact bound.trans_lt (tidy.layout.lt atLater secondMember atEarlier below)

theorem Tidy.sorted_contents (tidy : Tidy set) : Node.Sorted set.nodes.flatten := by
  refine List.pairwise_flatten.mpr ⟨fun values member => ?_, tidy.ordered⟩
  obtain ⟨entry, node, _, rfl⟩ := mem_nodes.mp member
  exact tidy.valid.sound.sorted node

theorem Tidy.refines (tidy : Tidy set) {reference : SortedMap κ α} (represents : Represents set reference) :
    Refines set reference := by
  have keyed : ∀ entry ∈ reference, key entry.2 = entry.1 := fun entry member => ((represents entry.1 entry.2).mp member).2
  refine ⟨tidy.valid.sound.once, tidy.layout.tight, fun values member => ?_, fun values member => ?_, tidy.ordered,
    tidy.sorted_contents.ext ?_ fun item => ?_⟩
  · obtain ⟨entry, node, linked, rfl⟩ := mem_nodes.mp member
    exact tidy.valid.sound.filled entry node linked
  · obtain ⟨entry, node, _, rfl⟩ := mem_nodes.mp member
    exact tidy.valid.sound.sorted node
  · refine List.pairwise_map.mpr (reference.sorted.imp_of_mem ?_)
    intro first second atFirst atSecond below
    rw [keyed first atFirst, keyed second atSecond]
    exact below
  · rw [mem_flatten_nodes, List.mem_map]
    constructor
    · exact fun stored => ⟨(key item, item), (represents _ _).mpr ⟨stored, rfl⟩, rfl⟩
    · intro held
      obtain ⟨entry, member, rfl⟩ := held
      exact ((represents entry.1 entry.2).mp member).1

end BTreeSet

inductive Call (α : Type u) (κ : Type v) where
  | insert (value : α)
  | put (value : α)
  | remove (wanted : κ)
  | contains (wanted : κ)
  | get (wanted : κ)
  | len
  | isEmpty
  | attachNodes (nodes : List (List α))

inductive Reply (α : Type u) where
  | flag (answer : Bool)
  | entry (stored : Option α)
  | count (total : Nat)
  | done
  deriving DecidableEq

def Call.run : Call α κ → Nat → BTreeSet α κ → Option (Reply α × BTreeSet α κ)
  | .insert value, fuel, set => (set.insert value fuel).map fun (fresh, set) => (.flag fresh, set)
  | .put value, fuel, set => (set.put value fuel).map fun (old, set) => (.entry old, set)
  | .remove wanted, fuel, set => (set.remove id wanted fuel).map fun (deleted, set) => (.entry deleted, set)
  | .contains wanted, _, set => some (.flag (set.contains id wanted), set)
  | .get wanted, _, set => some (.entry ((set.get id wanted).bind set.deref), set)
  | .len, _, set => some (.count set.len, set)
  | .isEmpty, _, set => some (.flag set.isEmpty, set)
  | .attachNodes nodes, _, set => (set.attachNodes nodes).map fun set => (.done, set)

def Call.Permitted : Call α κ → BTreeSet α κ → Prop
  | .attachNodes nodes, set => BTreeSet.Attachable set.layout nodes
  | _, _ => True

def storeAll (reference : SortedMap κ α) (values : List α) : SortedMap κ α :=
  values.foldl (fun stored value => stored.insert (key value) value) reference

def Call.answer : Call α κ → SortedMap κ α → Reply α × SortedMap κ α
  | .insert value, reference => (.flag (reference.get? (key value)).isNone, reference.insert (key value) value)
  | .put value, reference => (.entry (reference.get? (key value)), reference.insert (key value) value)
  | .remove wanted, reference => (.entry (reference.get? wanted), reference.erase wanted)
  | .contains wanted, reference => (.flag (reference.get? wanted).isSome, reference)
  | .get wanted, reference => (.entry (reference.get? wanted), reference)
  | .len, reference => (.count reference.entries.length, reference)
  | .isEmpty, reference => (.flag reference.entries.isEmpty, reference)
  | .attachNodes nodes, reference => (.done, storeAll reference nodes.flatten)

def setInterface (α : Type u) {κ : Type v} [LinearOrder κ] [Keyed α κ] (nodeCapacity : Nat) :
    Interface (Call α κ) (Reply α) (BTreeSet α κ) (SortedMap κ α) :=
  ⟨.withMaximumNodeSize nodeCapacity, .empty, Call.run, Call.Permitted, Call.answer⟩

section Map
variable {K : Type u} {V : Type v} [LinearOrder K]

inductive MapCall (K : Type u) (V : Type v) where
  | insert (key : K) (value : V)
  | remove (key : K)
  | containsKey (key : K)
  | get (key : K)
  | lookupForSelect (key : K)
  | len
  | isEmpty
  | attachNodes (nodes : List (List (Pair K V)))

inductive MapReply (K : Type u) (V : Type v) where
  | flag (answer : Bool)
  | value (stored : Option V)
  | removed (deleted : Option (K × V))
  | entry (stored : Option (Pair K V))
  | count (total : Nat)
  | done
  deriving DecidableEq

def MapCall.run : MapCall K V → Nat → BTreeMap K V → Option (MapReply K V × BTreeMap K V)
  | .insert key value, fuel, map => (BTreeMap.insert key value fuel map).map fun (old, map) => (.value old, map)
  | .remove key, fuel, map => (BTreeMap.remove key fuel map).map fun (deleted, map) => (.removed deleted, map)
  | .containsKey key, _, map => some (.flag (BTreeMap.containsKey key map), map)
  | .get key, _, map => some (.entry ((BTreeMap.get key map).bind map.deref), map)
  | .lookupForSelect key, _, map => some (.value (BTreeMap.lookupForSelect key map), map)
  | .len, _, map => some (.count map.len, map)
  | .isEmpty, _, map => some (.flag map.isEmpty, map)
  | .attachNodes nodes, _, map => (map.attachNodes nodes).map fun map => (.done, map)

def MapCall.Permitted : MapCall K V → BTreeMap K V → Prop
  | .attachNodes nodes, map => BTreeSet.Attachable map.layout nodes
  | _, _ => True

def MapCall.answer : MapCall K V → SortedMap K (Pair K V) → MapReply K V × SortedMap K (Pair K V)
  | .insert key value, reference => (.value ((reference.get? key).map Pair.value), reference.insert key ⟨key, value⟩)
  | .remove key, reference => (.removed ((reference.get? key).map fun pair => (pair.key, pair.value)), reference.erase key)
  | .containsKey key, reference => (.flag (reference.get? key).isSome, reference)
  | .get key, reference => (.entry (reference.get? key), reference)
  | .lookupForSelect key, reference => (.value ((reference.get? key).map Pair.value), reference)
  | .len, reference => (.count reference.entries.length, reference)
  | .isEmpty, reference => (.flag reference.entries.isEmpty, reference)
  | .attachNodes nodes, reference => (.done, storeAll reference nodes.flatten)

def mapInterface (K : Type u) (V : Type v) [LinearOrder K] (nodeCapacity : Nat) :
    Interface (MapCall K V) (MapReply K V) (BTreeMap K V) (SortedMap K (Pair K V)) :=
  ⟨.withMaximumNodeSize nodeCapacity, .empty, MapCall.run, MapCall.Permitted, MapCall.answer⟩

end Map

theorem mem_storeAll {values : List α} (distinct : values.Pairwise fun first second => key first ≠ key second) :
    ∀ {reference : SortedMap κ α}, (∀ value ∈ values, ∀ entry ∈ reference, entry.1 ≠ key value) → ∀ wanted item,
      (wanted, item) ∈ storeAll reference values ↔ (item ∈ values ∧ key item = wanted) ∨ (wanted, item) ∈ reference := by
  induction values with
  | nil => simp [storeAll]
  | cons value rest ih =>
    intro reference absent wanted item
    obtain ⟨first, others⟩ := List.pairwise_cons.mp distinct
    have later : ∀ other ∈ rest, ∀ entry ∈ reference.insert (key value) value, entry.1 ≠ key other := by
      intro other member entry there
      rcases (mem_insert ..).mp there with same | ⟨_, kept⟩
      · rw [same]
        exact first other member
      · exact absent other (List.mem_cons_of_mem _ member) entry kept
    change (wanted, item) ∈ storeAll (reference.insert (key value) value) rest ↔ _
    rw [ih others later, mem_insert, List.mem_cons, Prod.mk.injEq]
    constructor
    · intro member
      rcases member with ⟨there, same⟩ | ⟨rfl, rfl⟩ | ⟨_, kept⟩
      · exact Or.inl ⟨Or.inr there, same⟩
      · exact Or.inl ⟨Or.inl rfl, rfl⟩
      · exact Or.inr kept
    · intro member
      rcases member with ⟨rfl | there, same⟩ | kept
      · exact Or.inr (Or.inl ⟨same.symm, rfl⟩)
      · exact Or.inl ⟨there, same⟩
      · exact Or.inr (Or.inr ⟨absent value List.mem_cons_self _ kept, kept⟩)

namespace BTreeSet
variable {set : BTreeSet α κ} {reference : SortedMap κ α}

structure Related (set : BTreeSet α κ) (reference : SortedMap κ α) : Prop where
  tidy : Tidy set
  represents : Represents set reference

theorem related_new (nodeCapacity : Nat) : Related (withMaximumNodeSize nodeCapacity : BTreeSet α κ) .empty := by
  refine ⟨tidy_new nodeCapacity, fun wanted item => ?_⟩
  constructor
  · exact fun member => absurd member (not_mem_empty _)
  · intro both
    obtain ⟨⟨entry, node, member, _⟩, _⟩ := both
    exact absurd member (not_mem_empty _)

theorem Related.put (related : Related set reference) (emitCdc : Bool) (value : α) (fuel : Nat) :
    ∃ cdc after, putInner noIdentityAdoption emitCdc value (fuel + 1) set = some ((reference.get? (key value), cdc), after) ∧
      Related after (reference.insert (key value) value) := by
  obtain ⟨old, events, after, effect, left, result⟩ := putInner_effect related.tidy emitCdc value fuel
  obtain ⟨tidy, gains⟩ := effect.tidy related.tidy.layout
  have same := related.represents.result (effect.holds related.tidy.layout)
  exact ⟨_, after, same ▸ result, ⟨left.valid, tidy⟩, related.represents.gains gains⟩

theorem Related.remove (related : Related set reference) (emitCdc : Bool) (wanted : κ) (fuel : Nat) :
    ∃ cdc after, removeInner id emitCdc wanted (fuel + 1) set = some ((reference.get? wanted, cdc), after) ∧
      Related after (reference.erase wanted) := by
  obtain ⟨deleted, events, after, effect, left, result⟩ := removeInner_effect related.tidy emitCdc wanted fuel
  obtain ⟨tidy, loses⟩ := effect.tidy related.tidy.layout
  have same := related.represents.result (effect.holds related.tidy.layout)
  exact ⟨_, after, same ▸ result, ⟨left.valid, tidy⟩, related.represents.loses loses⟩

theorem Related.attach (related : Related set reference) {nodes : List (List α)} (attachable : Attachable set.layout nodes) :
    ∃ after, attachNodes nodes set = some after ∧ Related after (storeAll reference nodes.flatten) := by
  obtain ⟨after, result, tidy, _, linked⟩ := attachNodes_spec related.tidy attachable
  have stored := attachNodes_stored attachable linked
  refine ⟨after, result, tidy, fun wanted item => ?_⟩
  have distinct : nodes.flatten.Pairwise fun first second => key first ≠ key second := by
    refine List.pairwise_flatten.mpr ⟨fun values member => (attachable.sorted values member).imp fun below => below.ne,
      attachable.apart.imp fun apart first atFirst second atSecond => ?_⟩
    rcases apart with below | above
    · exact (below first atFirst second atSecond).ne
    · exact (above first atFirst second atSecond).ne'
  have absent : ∀ value ∈ nodes.flatten, ∀ entry ∈ reference, entry.1 ≠ key value := by
    intro value member entry there
    obtain ⟨values, atValues, present⟩ := List.mem_flatten.mp member
    obtain ⟨⟨other, node, linked, held⟩, same⟩ := (related.represents entry.1 entry.2).mp there
    rw [← same]
    rcases attachable.clear values atValues other node linked with below | above
    · exact (below value present entry.2 held).ne'
    · exact (above value present entry.2 held).ne
  rw [mem_storeAll distinct absent, stored item, related.represents wanted item, or_and_right]

theorem Related.contains (related : Related set reference) (wanted : κ) :
    set.contains id wanted = (reference.get? wanted).isSome := by
  rw [BTreeSet.contains, getWith_eq related.tidy wanted _ (related.represents.holds wanted), Option.isSome_map]

theorem Related.len (related : Related set reference) : set.len = reference.entries.length := by
  have contents := congrArg List.length (related.tidy.refines related.represents).contents
  rw [List.length_flatten, List.length_map, nodes, List.map_map] at contents
  exact contents

theorem Related.isEmpty (related : Related set reference) : set.isEmpty = reference.entries.isEmpty := by
  have contents := (related.tidy.refines related.represents).contents
  have flat : set.isEmpty = set.nodes.flatten.isEmpty := by
    rw [Bool.eq_iff_iff, List.isEmpty_iff, List.flatten_eq_nil_iff]
    simp only [BTreeSet.isEmpty, nodes, List.all_eq_true, List.isEmpty_iff, List.forall_mem_map]
  rw [flat, contents, List.isEmpty_map]

theorem Related.answers {nodeCapacity : Nat} (related : Related set reference) :
    (setInterface α nodeCapacity).Answers Related set reference := by
  intro call permitted fuel
  change ∃ after, call.run (fuel + 1) set = _ ∧ Related after (call.answer reference).2
  cases call with
  | insert value =>
    obtain ⟨_, after, result, next⟩ := related.put false value fuel
    exact ⟨after, by simp [Call.run, BTreeSet.insert, BTreeSet.put, result, Call.answer, setInterface], next⟩
  | put value =>
    obtain ⟨_, after, result, next⟩ := related.put false value fuel
    exact ⟨after, by simp [Call.run, BTreeSet.put, result, Call.answer, setInterface], next⟩
  | remove wanted =>
    obtain ⟨_, after, result, next⟩ := related.remove false wanted fuel
    exact ⟨after, by simp [Call.run, BTreeSet.remove, result, Call.answer, setInterface], next⟩
  | contains wanted => exact ⟨set, by simp [Call.run, related.contains, Call.answer, setInterface], related⟩
  | get wanted =>
    have read := get_eq related.tidy wanted (related.represents.holds wanted)
    exact ⟨set, by simp [Call.run, read, Call.answer, setInterface], related⟩
  | len => exact ⟨set, by simp [Call.run, related.len, Call.answer, setInterface], related⟩
  | isEmpty => exact ⟨set, by simp [Call.run, related.isEmpty, Call.answer, setInterface], related⟩
  | attachNodes nodes =>
    obtain ⟨after, result, next⟩ := related.attach permitted
    exact ⟨after, by simp [Call.run, result, Call.answer, setInterface], next⟩

end BTreeSet

namespace BTreeMap
variable {K : Type u} {V : Type v} [LinearOrder K] {map : BTreeMap K V} {reference : SortedMap K (Pair K V)}
open BTreeSet

theorem answers {nodeCapacity : Nat} (related : Related map reference) :
    (mapInterface K V nodeCapacity).Answers Related map reference := by
  intro call permitted fuel
  change ∃ after, call.run (fuel + 1) map = _ ∧ Related after (call.answer reference).2
  cases call with
  | insert key value =>
    obtain ⟨_, after, result, next⟩ := related.put false ⟨key, value⟩ fuel
    exact ⟨after, by simp [MapCall.run, BTreeMap.insert, BTreeSet.put, result, MapCall.answer, mapInterface, Keyed.key], next⟩
  | remove key =>
    obtain ⟨_, after, result, next⟩ := related.remove false key fuel
    exact ⟨after, by simp [MapCall.run, BTreeMap.remove, BTreeSet.remove, result, MapCall.answer, mapInterface], next⟩
  | containsKey key =>
    exact ⟨map, by simp [MapCall.run, containsKey, related.contains, MapCall.answer, mapInterface], related⟩
  | get key =>
    have read := get_eq related.tidy key (related.represents.holds key)
    exact ⟨map, by simp [MapCall.run, BTreeMap.get, read, MapCall.answer, mapInterface], related⟩
  | lookupForSelect key =>
    have read := getWith_eq related.tidy key Pair.value (related.represents.holds key)
    exact ⟨map, by simp [MapCall.run, lookupForSelect, read, MapCall.answer, mapInterface], related⟩
  | len => exact ⟨map, by simp [MapCall.run, related.len, MapCall.answer, mapInterface], related⟩
  | isEmpty => exact ⟨map, by simp [MapCall.run, related.isEmpty, MapCall.answer, mapInterface], related⟩
  | attachNodes nodes =>
    obtain ⟨after, result, next⟩ := related.attach permitted
    exact ⟨after, by simp [MapCall.run, result, MapCall.answer, mapInterface], next⟩

end BTreeMap

/-- Whatever complete calls came before, the set and the map hold exactly what their
reference holds, laid out in order, and every further call returns, answers as the
reference does and leaves them so. -/
theorem calls_refine_reference {K : Type u} {V : Type v} [LinearOrder K] (nodeCapacity : Nat) :
    (∀ set reference, (setInterface α nodeCapacity).Reached set reference →
      BTreeSet.Refines set reference ∧ (setInterface α nodeCapacity).Answers BTreeSet.Refines set reference) ∧
    ∀ map reference, (mapInterface K V nodeCapacity).Reached map reference →
      BTreeSet.Refines map reference ∧ (mapInterface K V nodeCapacity).Answers BTreeSet.Refines map reference := by
  constructor
  · intro set reference reached
    have related := reached.related (BTreeSet.related_new nodeCapacity) fun _ _ related => related.answers
    refine ⟨related.tidy.refines related.represents, fun call permitted fuel => ?_⟩
    obtain ⟨after, result, next⟩ := related.answers call permitted fuel
    exact ⟨after, result, next.tidy.refines next.represents⟩
  · intro map reference reached
    have related := reached.related (BTreeSet.related_new nodeCapacity) fun _ _ related => BTreeMap.answers related
    refine ⟨related.tidy.refines related.represents, fun call permitted fuel => ?_⟩
    obtain ⟨after, result, next⟩ := BTreeMap.answers related call permitted fuel
    exact ⟨after, result, next.tidy.refines next.represents⟩

end WorkTablesIndex
