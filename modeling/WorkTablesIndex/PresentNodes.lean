import WorkTablesIndex.Partition
import WorkTablesIndex.Replacement

/-! The nodes as a consumer of change events sees them while boundary repairs are pending:
each under the maximum it has at present. They are the nodes of the layout in which
every pending repair has been made. -/

universe u v

namespace WorkTablesIndex
open SortedMap PersistedBTreeMap

variable {α : Type u} {κ : Type v} [LinearOrder κ] [Keyed α κ]

namespace Layout
variable {layout after : Layout α κ} {node : NodeId} {old : κ}

/-- Every entry re-keyed to the maximum of its node, one after the other. -/
def settle : List (κ × NodeId) → Layout α κ → Layout α κ
  | [], layout => layout
  | (entry, node) :: rest, layout =>
    match Node.maxKey (layout.heap.cells node) with
    | some top => settle rest (layout.rekey node entry top)
    | none => settle rest layout

def settled (layout : Layout α κ) : Layout α κ := settle layout.index.entries layout

def present (layout : Layout α κ) : PersistedBTreeMap α κ := layout.settled.topology

def Links (layout : Layout α κ) (node : NodeId) : Prop := ∃ entry, (entry, node) ∈ layout.index

theorem Routed.rekey_links (routed : Routed layout) (sound : Sound layout) (linked : (old, node) ∈ layout.index) {new : κ}
    (greatest : Node.maxKey (layout.heap.cells node) = some new) (other : NodeId) :
    (layout.rekey node old new).Links other ↔ layout.Links other := by
  obtain ⟨⟨top, member, rfl⟩, _⟩ := (Node.maxKey_eq_some (sound.sorted node)).mp greatest
  have inside := routed old node linked top member
  constructor
  · intro present
    obtain ⟨entry, there⟩ := present
    rcases mem_rekey there with ⟨rfl, _⟩ | ⟨_, kept⟩
    · exact ⟨old, linked⟩
    · exact ⟨entry, kept⟩
  · intro present
    obtain ⟨entry, there⟩ := present
    by_cases same : entry = old
    · subst same
      cases value_unique there linked
      exact ⟨key top, (mem_insert ..).mpr (Or.inl rfl)⟩
    · exact ⟨entry, (mem_insert ..).mpr (Or.inr ⟨inside.ne there same, (mem_erase ..).mpr ⟨same, there⟩⟩)⟩

private theorem settle_spec (rest : List (κ × NodeId)) : ∀ {layout : Layout α κ}, Sound layout → Routed layout →
    (∀ entry ∈ rest, entry ∈ layout.index) → rest.Pairwise (fun first second => first.1 < second.1) →
    (∀ entry node, (entry, node) ∈ layout.index → Node.maxKey (layout.heap.cells node) = some entry ∨ (entry, node) ∈ rest) →
    Tidy (settle rest layout) ∧ (settle rest layout).heap = layout.heap ∧
      ∀ node, (settle rest layout).Links node ↔ layout.Links node := by
  induction rest with
  | nil =>
    intro layout sound routed _ _ tight
    refine ⟨⟨sound, routed, fun entry node member => ?_⟩, rfl, fun _ => Iff.rfl⟩
    exact (tight entry node member).resolve_right List.not_mem_nil
  | cons head rest ih =>
    intro layout sound routed members ascending tight
    obtain ⟨entry, node⟩ := head
    obtain ⟨below, ordered⟩ := List.pairwise_cons.mp ascending
    have linked : (entry, node) ∈ layout.index := members _ List.mem_cons_self
    obtain ⟨top, greatest⟩ := Node.maxKey_isSome (κ := κ) (sound.filled entry node linked)
    obtain ⟨⟨item, there, atTop⟩, _⟩ := (Node.maxKey_eq_some (sound.sorted node)).mp greatest
    have inside : Between layout.index entry top := atTop ▸ routed entry node linked item there
    have kept : ∀ other ∈ rest, other ∈ (layout.rekey node entry top).index := by
      intro other member
      have present := members other (List.mem_cons_of_mem _ member)
      have apart := (below other member).ne'
      exact (mem_insert ..).mpr (Or.inr ⟨inside.ne present apart, (mem_erase ..).mpr ⟨apart, present⟩⟩)
    have fits : ∀ other target, (other, target) ∈ (layout.rekey node entry top).index →
        Node.maxKey (layout.heap.cells target) = some other ∨ (other, target) ∈ rest := by
      intro other target member
      rcases mem_rekey member with ⟨rfl, rfl⟩ | ⟨different, earlier⟩
      · exact Or.inl greatest
      · apply (tight other target earlier).imp id
        intro listed
        exact (List.mem_cons.mp listed).resolve_left fun same => different (Prod.mk.inj same).1
    obtain ⟨tidy, heap, links⟩ := ih (sound.rekey linked top) (routed.rekey sound linked greatest) kept ordered fits
    simp only [settle, greatest]
    exact ⟨tidy, heap, fun other => (links other).trans (routed.rekey_links sound linked greatest other)⟩

/-- Making every repair leaves the nodes as they are and every key tight. -/
theorem Routed.settled (routed : Routed layout) (sound : Sound layout) : Tidy layout.settled ∧ layout.settled.heap = layout.heap ∧
    ∀ node, layout.settled.Links node ↔ layout.Links node :=
  settle_spec layout.index.entries sound routed (fun _ member => member) layout.index.sorted fun _ _ member => Or.inr member

/-- The consumer's nodes, whatever keys they have in the index. -/
theorem Routed.mem_present (routed : Routed layout) (sound : Sound layout) {top : κ} {values : List α} :
    (top, values) ∈ layout.present ↔ ∃ node, layout.Links node ∧ layout.heap.cells node = values ∧ Node.maxKey values = some top := by
  obtain ⟨tidy, heap, links⟩ := routed.settled sound
  rw [present, topology, mem_mapValues, heap]
  constructor
  · intro found
    obtain ⟨node, member, rfl⟩ := found
    exact ⟨node, (links node).mp ⟨top, member⟩, rfl, heap ▸ tidy.tight top node member⟩
  · intro found
    obtain ⟨node, linked, rfl, greatest⟩ := found
    obtain ⟨entry, member⟩ := (links node).mpr linked
    have tight := tidy.tight entry node member
    rw [heap, greatest] at tight
    cases tight
    exact ⟨node, member, rfl⟩

theorem Routed.unique_max (routed : Routed layout) (sound : Sound layout) {first second : NodeId} (left : layout.Links first)
    (right : layout.Links second) {top : κ} (atFirst : Node.maxKey (layout.heap.cells first) = some top)
    (atSecond : Node.maxKey (layout.heap.cells second) = some top) : first = second := by
  obtain ⟨entry, linked⟩ := left
  obtain ⟨other, there⟩ := right
  obtain ⟨⟨value, member, rfl⟩, _⟩ := (Node.maxKey_eq_some (sound.sorted first)).mp atFirst
  obtain ⟨⟨item, present, same⟩, _⟩ := (Node.maxKey_eq_some (sound.sorted second)).mp atSecond
  have equal := routed.partitioned.once _ linked _ there value member item present same.symm
  exact (Prod.mk.inj equal).2

theorem Routed.present_get (routed : Routed layout) (sound : Sound layout) (linked : layout.Links node) {top : κ}
    (greatest : Node.maxKey (layout.heap.cells node) = some top) : layout.present.get? top = some (layout.heap.cells node) :=
  get?_eq_some.mpr ((routed.mem_present sound).mpr ⟨node, linked, rfl, greatest⟩)

theorem Tidy.present (tidy : Tidy layout) : layout.present = layout.topology := by
  apply ext_mem
  intro entry
  obtain ⟨top, values⟩ := entry
  rw [tidy.routed.mem_present tidy.sound, topology, mem_mapValues]
  constructor
  · intro found
    obtain ⟨node, ⟨other, member⟩, rfl, greatest⟩ := found
    cases (tidy.tight other node member).symm.trans greatest
    exact ⟨node, member, rfl⟩
  · intro found
    obtain ⟨node, member, rfl⟩ := found
    exact ⟨node, ⟨top, member⟩, rfl, tidy.tight top node member⟩

private theorem mem_present_erase (routed : Routed layout) (sound : Sound layout) (linked : layout.Links node) {top : κ}
    (greatest : Node.maxKey (layout.heap.cells node) = some top) {other : κ} {values : List α} :
    (other, values) ∈ layout.present.erase top ↔
      ∃ target, target ≠ node ∧ layout.Links target ∧ layout.heap.cells target = values ∧ Node.maxKey values = some other := by
  rw [mem_erase, routed.mem_present sound]
  constructor
  · intro both
    obtain ⟨different, target, there, rfl, found⟩ := both
    refine ⟨target, fun same => different ?_, there, rfl, found⟩
    subst same
    exact Option.some.inj (found.symm.trans greatest)
  · intro found
    obtain ⟨target, apart, there, rfl, same⟩ := found
    refine ⟨fun equal => apart ?_, target, there, rfl, same⟩
    subst equal
    exact routed.unique_max sound there linked same greatest

theorem Routed.present_rekey (routed : Routed layout) (sound : Sound layout) (linked : (old, node) ∈ layout.index) {new : κ}
    (greatest : Node.maxKey (layout.heap.cells node) = some new) : (layout.rekey node old new).present = layout.present := by
  apply ext_mem
  intro entry
  obtain ⟨top, values⟩ := entry
  rw [(routed.rekey sound linked greatest).mem_present (sound.rekey linked new), routed.mem_present sound]
  simp only [routed.rekey_links sound linked greatest]
  exact Iff.rfl

theorem Routed.present_rewrite (routed : Routed layout) (sound : Sound layout) (linked : layout.Links node) {values : List α}
    (later : Routed (layout.rewrite node values)) (kept : Sound (layout.rewrite node values)) {top new : κ}
    (greatest : Node.maxKey (layout.heap.cells node) = some top) (moved : Node.maxKey values = some new) :
    (layout.rewrite node values).present = (layout.present.erase top).insert new values := by
  have here : (layout.rewrite node values).heap.cells node = values := Heap.write_same ..
  have away : ∀ other, other ≠ node → (layout.rewrite node values).heap.cells other = layout.heap.cells other :=
    fun other apart => Heap.write_other _ _ apart
  apply ext_mem
  intro entry
  obtain ⟨other, held⟩ := entry
  rw [later.mem_present kept, mem_insert, mem_present_erase routed sound linked greatest]
  constructor
  · intro found
    obtain ⟨target, there, rfl, found⟩ := found
    by_cases same : target = node
    · subst same
      rw [here] at found ⊢
      exact Or.inl (by rw [Option.some.inj (found.symm.trans moved)])
    · refine Or.inr ⟨fun equal => same ?_, target, same, there, (away target same).symm, found⟩
      have equal : other = new := equal
      subst equal
      exact later.unique_max kept there linked found (here.symm ▸ moved)
  · intro found
    rcases found with same | ⟨_, target, apart, there, rfl, found⟩
    · cases same
      exact ⟨node, linked, here, moved⟩
    · exact ⟨target, there, away target apart, found⟩

theorem Routed.present_unlink (routed : Routed layout) (sound : Sound layout) (linked : (old, node) ∈ layout.index) {top : κ}
    (greatest : Node.maxKey (layout.heap.cells node) = some top) :
    (layout.unlink node old).present = layout.present.erase top := by
  apply ext_mem
  intro entry
  obtain ⟨other, held⟩ := entry
  rw [(routed.unlink sound linked).mem_present (sound.unlink linked), mem_present_erase routed sound ⟨old, linked⟩ greatest]
  constructor
  · intro found
    obtain ⟨target, ⟨entry, member⟩, rfl, found⟩ := found
    obtain ⟨different, there⟩ := (mem_erase ..).mp member
    have apart := sound.apart linked there different
    exact ⟨target, apart, ⟨entry, there⟩, (Heap.write_other _ _ apart).symm, found⟩
  · intro found
    obtain ⟨target, apart, ⟨entry, there⟩, rfl, found⟩ := found
    have different : entry ≠ old := fun same => apart (value_unique (same ▸ there) linked)
    exact ⟨target, ⟨entry, (mem_erase ..).mpr ⟨different, there⟩⟩, Heap.write_other _ _ apart, found⟩

theorem Routed.present_root (empty : ∀ entry, entry ∉ layout.index) (sound : Sound layout) (value : α) :
    (layout.root value).present = layout.present.insert (key value) [value] := by
  have routed : Routed layout := fun entry node member => absurd member (empty _)
  have created : (layout.root value).heap.cells layout.heap.next = [value] := Heap.alloc_same ..
  apply ext_mem
  intro entry
  obtain ⟨other, held⟩ := entry
  rw [(Routed.root empty value).mem_present (sound.root empty value), mem_insert, routed.mem_present sound]
  constructor
  · intro found
    obtain ⟨target, ⟨entry, member⟩, rfl, found⟩ := found
    rcases (mem_insert ..).mp member with same | ⟨_, kept⟩
    · cases same
      rw [created] at found ⊢
      cases found
      exact Or.inl rfl
    · exact absurd kept (empty _)
  · intro found
    rcases found with same | ⟨_, target, ⟨entry, member⟩, _⟩
    · cases same
      exact ⟨layout.heap.next, ⟨key value, (mem_insert ..).mpr (Or.inl rfl)⟩, created, rfl⟩
    · exact absurd member (empty _)

theorem Routed.present_split (routed : Routed layout) (sound : Sound layout) (linked : (old, node) ∈ layout.index) {value : α}
    (inside : Between layout.index old (key value)) {left right : List α}
    (stored : Node.Upserted (layout.heap.cells node) value (left ++ right)) {top leftTop rightTop : κ}
    (greatest : Node.maxKey (layout.heap.cells node) = some top) (leftMax : Node.maxKey left = some leftTop)
    (rightMax : Node.maxKey right = some rightTop) :
    (layout.split node old left right).present = ((layout.present.erase top).insert leftTop left).insert rightTop right := by
  have filled : right ≠ [] := fun empty => by simp [empty, Node.maxKey, Node.max] at rightMax
  obtain ⟨leftSorted, rightSorted, across⟩ := Node.sorted_append.mp stored.sorted
  have divided := routed.split sound linked inside stored filled
  have kept := sound.split linked leftSorted rightSorted filled
  have away : node ≠ layout.heap.next := (sound.allocated old node linked).ne
  obtain ⟨greater, same, replaced, _⟩ := split_replaced routed linked inside stored filled
  cases same.symm.trans rightMax
  have atLeft : (layout.split node old left right).heap.cells node = left := by rw [split_cells, if_neg away, if_pos rfl]
  have atRight : (layout.split node old left right).heap.cells layout.heap.next = right := by rw [split_cells, if_pos rfl]
  have fromLeft : (layout.split node old left right).Links node :=
    ⟨leftTop, (replaced.entries _).mpr (Or.inl (by simp [leftMax]))⟩
  have fromRight : (layout.split node old left right).Links layout.heap.next :=
    ⟨rightTop, (replaced.entries _).mpr (Or.inl List.mem_cons_self)⟩
  have others : ∀ {entry other}, (entry, other) ∈ layout.index → entry ≠ old →
      (layout.split node old left right).heap.cells other = layout.heap.cells other := by
    intro entry other member different
    rw [split_cells, if_neg (sound.allocated entry other member).ne, if_neg (sound.apart linked member different)]
  apply ext_mem
  intro entry
  obtain ⟨other, held⟩ := entry
  rw [divided.mem_present kept, mem_insert, mem_insert, mem_present_erase routed sound ⟨old, linked⟩ greatest]
  constructor
  · intro found
    obtain ⟨target, there, rfl, found⟩ := found
    by_cases new : target = layout.heap.next
    · subst new
      rw [atRight] at found ⊢
      exact Or.inl (by rw [Option.some.inj (found.symm.trans rightMax)])
    · refine Or.inr ⟨fun (equal : other = rightTop) => new (divided.unique_max kept there fromRight (equal ▸ found) (atRight.symm ▸ rightMax)), ?_⟩
      by_cases same : target = node
      · subst same
        rw [atLeft] at found ⊢
        exact Or.inl (by rw [Option.some.inj (found.symm.trans leftMax)])
      · refine Or.inr ⟨fun (equal : other = leftTop) => same (divided.unique_max kept there fromLeft (equal ▸ found) (atLeft.symm ▸ leftMax)), ?_⟩
        obtain ⟨entry, member⟩ := there
        rcases mem_split member with ⟨next, _⟩ | ⟨here, _⟩ | ⟨different, earlier⟩
        · exact absurd next new
        · exact absurd here same
        · exact ⟨target, same, ⟨entry, earlier⟩, (others earlier different).symm, found⟩
  · intro found
    rcases found with same | ⟨_, same | ⟨_, target, apart, ⟨entry, member⟩, rfl, found⟩⟩
    · cases same
      exact ⟨layout.heap.next, fromRight, atRight, rightMax⟩
    · cases same
      exact ⟨node, fromLeft, atLeft, leftMax⟩
    · have different : entry ≠ old := fun same => apart (value_unique (same ▸ member) linked)
      exact ⟨target, ⟨entry, (replaced.entries _).mpr (Or.inr ⟨different, member⟩)⟩, others member different, found⟩

end Layout
end WorkTablesIndex
