import WorkTablesIndex.Library.Routing
import WorkTablesIndex.OperationLaws
import WorkTablesIndex.Set

/-! The canonical index together with the nodes it links, and the five ways a
critical section changes the pair. Every section of the code performs one of
them, so each invariant is proved once for each change. -/

universe u v

namespace WorkTablesIndex
open SortedMap

structure Layout (α : Type u) (κ : Type v) [LinearOrder κ] where
  index : NodeIndex κ
  heap : Heap α

variable {α : Type u} {κ : Type v} [LinearOrder κ]

def BTreeSet.layout (set : BTreeSet α κ) : Layout α κ := ⟨set.index.index, set.heap⟩

namespace Layout

def Stored (layout : Layout α κ) (value : α) : Prop :=
  ∃ entry node, (entry, node) ∈ layout.index ∧ value ∈ layout.heap.cells node

def rewrite (layout : Layout α κ) (node : NodeId) (values : List α) : Layout α κ :=
  ⟨layout.index, layout.heap.write node values⟩

def rekey (layout : Layout α κ) (node : NodeId) (old new : κ) : Layout α κ :=
  ⟨(layout.index.erase old).insert new node, layout.heap⟩

def unlink (layout : Layout α κ) (node : NodeId) (old : κ) : Layout α κ :=
  ⟨layout.index.erase old, layout.heap.write node []⟩

variable [Keyed α κ]

def root (layout : Layout α κ) (value : α) : Layout α κ :=
  ⟨layout.index.insert (key value) layout.heap.next, (layout.heap.alloc [value]).2⟩

def split (layout : Layout α κ) (node : NodeId) (old : κ) (left right : List α) : Layout α κ :=
  ⟨Operation.link (Operation.link (layout.index.erase old) node (Node.maxKey left)) layout.heap.next (Node.maxKey right),
    ((layout.heap.write node left).alloc right).2⟩

/-- What holds whatever the interleaving did to the order of the nodes. -/
structure Sound (layout : Layout α κ) : Prop where
  once : LinkedOnce layout.index
  allocated : Allocated layout.index layout.heap
  sorted : ∀ node, Node.Sorted (layout.heap.cells node)
  filled : ∀ entry node, (entry, node) ∈ layout.index → layout.heap.cells node ≠ []

/-- Every value is in the node its key routes to. -/
def Routed (layout : Layout α κ) : Prop :=
  ∀ entry node, (entry, node) ∈ layout.index → ∀ value ∈ layout.heap.cells node, Between layout.index entry (key value)

variable {layout : Layout α κ} {node : NodeId} {old : κ}

omit [Keyed α κ] in
theorem mem_rekey {new entry : κ} {target : NodeId} (member : (entry, target) ∈ (layout.rekey node old new).index) :
    (target = node ∧ entry = new) ∨ entry ≠ old ∧ (entry, target) ∈ layout.index := by
  rcases (mem_insert ..).mp member with same | ⟨_, kept⟩
  · cases same
    exact Or.inl ⟨rfl, rfl⟩
  · exact Or.inr ((mem_erase ..).mp kept)

private theorem mem_link {index : NodeIndex κ} {greatest : Option κ} {entry : κ} {target : NodeId}
    (member : (entry, target) ∈ Operation.link index node greatest) :
    (target = node ∧ greatest = some entry) ∨ (entry, target) ∈ index := by
  cases greatest with
  | none => exact Or.inr member
  | some top =>
    rcases (mem_insert ..).mp member with same | ⟨_, kept⟩
    · cases same
      exact Or.inl ⟨rfl, rfl⟩
    · exact Or.inr kept

theorem mem_split {left right : List α} {entry : κ} {target : NodeId}
    (member : (entry, target) ∈ (layout.split node old left right).index) :
    (target = layout.heap.next ∧ Node.maxKey right = some entry) ∨ (target = node ∧ Node.maxKey left = some entry) ∨
      entry ≠ old ∧ (entry, target) ∈ layout.index :=
  (mem_link member).imp id fun outer => (mem_link outer).imp id (mem_erase ..).mp

theorem split_cells (left right : List α) (other : NodeId) : (layout.split node old left right).heap.cells other =
    if other = layout.heap.next then right else if other = node then left else layout.heap.cells other := by
  split
  next here =>
    subst here
    exact Heap.alloc_same (layout.heap.write node left) right
  next away =>
    apply (Heap.alloc_other (layout.heap.write node left) right away).trans
    split
    next here => exact here ▸ Heap.write_same ..
    next apart => exact Heap.write_other _ _ apart

theorem Sound.rewrite (sound : Sound layout) {values : List α} (sorted : Node.Sorted values) (filled : values ≠ []) :
    Sound (layout.rewrite node values) := by
  refine ⟨sound.once, sound.allocated, fun other => ?_, fun entry other linked => ?_⟩
  · by_cases here : other = node
    · subst here
      simpa [Layout.rewrite] using sorted
    · simpa [Layout.rewrite, Heap.write_other _ _ here] using sound.sorted other
  · by_cases here : other = node
    · subst here
      simpa [Layout.rewrite] using filled
    · simpa [Layout.rewrite, Heap.write_other _ _ here] using sound.filled entry other linked

theorem Sound.rekey (sound : Sound layout) (linked : (old, node) ∈ layout.index) (new : κ) :
    Sound (layout.rekey node old new) := by
  have gone : ∀ other, (other, node) ∉ layout.index.erase old := by
    intro other member
    obtain ⟨different, present⟩ := (mem_erase ..).mp member
    exact different (sound.once other old node present linked)
  refine ⟨(sound.once.erase old).insert new gone, (sound.allocated.erase old).insert new (sound.allocated old node linked),
    sound.sorted, fun entry other member => ?_⟩
  rcases mem_rekey member with ⟨rfl, _⟩ | ⟨_, kept⟩
  · exact sound.filled old other linked
  · exact sound.filled entry other kept

theorem Sound.unlink (sound : Sound layout) (linked : (old, node) ∈ layout.index) : Sound (layout.unlink node old) := by
  refine ⟨sound.once.erase old, sound.allocated.erase old, fun other => ?_, fun entry other member => ?_⟩
  · by_cases here : other = node
    · subst here
      simp [Layout.unlink, Node.Sorted]
    · simpa [Layout.unlink, Heap.write_other _ _ here] using sound.sorted other
  · obtain ⟨different, present⟩ := (mem_erase ..).mp member
    have here : other ≠ node := by
      intro same
      subst same
      exact different (sound.once entry old other present linked)
    simpa [Layout.unlink, Heap.write_other _ _ here] using sound.filled entry other present

theorem Sound.root (sound : Sound layout) (empty : ∀ entry, entry ∉ layout.index) (value : α) : Sound (layout.root value) := by
  have only : ∀ entry ∈ (layout.root value).index, entry = (key value, layout.heap.next) := by
    intro entry member
    exact ((mem_insert ..).mp member).resolve_right fun kept => empty entry kept.2
  refine ⟨?_, ?_, ?_, ?_⟩
  · intro first second other left right
    exact (Prod.mk.inj (only _ left)).1.trans (Prod.mk.inj (only _ right)).1.symm
  · intro entry other member
    cases only _ member
    exact Nat.lt_succ_self _
  · intro other
    by_cases here : other = layout.heap.next
    · subst here
      simp [Layout.root, Node.Sorted]
    · simpa [Layout.root, Heap.alloc_other _ _ here] using sound.sorted other
  · intro entry other member
    cases only _ member
    simp [Layout.root]

theorem Sound.split (sound : Sound layout) (linked : (old, node) ∈ layout.index) {left right : List α}
    (leftSorted : Node.Sorted left) (rightSorted : Node.Sorted right) (filled : right ≠ []) :
    Sound (layout.split node old left right) := by
  have inside : node < layout.heap.next := sound.allocated old node linked
  have fresh := sound.allocated.fresh
  have once (entry : κ) (different : entry ≠ old) (kept : (entry, node) ∈ layout.index) : False :=
    different (sound.once entry old node kept linked)
  refine ⟨?_, ?_, ?_, ?_⟩
  · intro first second other atFirst atSecond
    rcases mem_split atFirst with ⟨atNext, top⟩ | ⟨atNode, top⟩ | ⟨different, kept⟩
    · subst atNext
      rcases mem_split atSecond with ⟨_, same⟩ | ⟨here, _⟩ | ⟨_, kept⟩
      · exact Option.some.inj (top.symm.trans same)
      · exact absurd here inside.ne'
      · exact absurd kept (fresh second)
    · subst atNode
      rcases mem_split atSecond with ⟨here, _⟩ | ⟨_, same⟩ | ⟨different, kept⟩
      · exact absurd here inside.ne
      · exact Option.some.inj (top.symm.trans same)
      · exact (once second different kept).elim
    · rcases mem_split atSecond with ⟨here, _⟩ | ⟨here, _⟩ | ⟨_, present⟩
      · exact absurd (here ▸ kept) (fresh first)
      · exact (once first different (here ▸ kept)).elim
      · exact sound.once first second other kept present
  · intro entry other member
    change other < layout.heap.next + 1
    rcases mem_split member with ⟨here, _⟩ | ⟨here, _⟩ | ⟨_, kept⟩
    · exact here ▸ Nat.lt_succ_self _
    · exact here ▸ inside.trans (Nat.lt_succ_self _)
    · exact (sound.allocated entry other kept).trans (Nat.lt_succ_self _)
  · intro other
    rw [split_cells]
    split
    · exact rightSorted
    · split
      · exact leftSorted
      · exact sound.sorted other
  · intro entry other member
    rw [split_cells]
    split
    · exact filled
    next away =>
      rcases mem_split member with ⟨here, _⟩ | ⟨here, top⟩ | ⟨different, kept⟩
      · exact absurd here away
      · rw [if_pos here]
        intro empty
        simp [empty, Node.maxKey, Node.max] at top
      · have apart : other ≠ node := fun here => once entry different (here ▸ kept)
        rw [if_neg apart]
        exact sound.filled entry other kept

theorem Sound.apart (sound : Sound layout) (linked : (old, node) ∈ layout.index) {entry : κ} {other : NodeId}
    (member : (entry, other) ∈ layout.index) (different : entry ≠ old) : other ≠ node := by
  intro same
  subst same
  exact different (sound.once entry old other member linked)

theorem Routed.rewrite (routed : Routed layout) (sound : Sound layout) (linked : (old, node) ∈ layout.index) {values : List α}
    (inside : ∀ value ∈ values, Between layout.index old (key value)) : Routed (layout.rewrite node values) := by
  intro entry other member value present
  by_cases same : entry = old
  · subst same
    have here : other = node := value_unique member linked
    subst here
    exact inside value (by simpa [Layout.rewrite] using present)
  · have apart := sound.apart linked member same
    apply routed entry other member value
    simpa [Layout.rewrite, Heap.write_other _ _ apart] using present

theorem Routed.replace {news : List (κ × NodeId)} {after : Layout α κ} (routed : Routed layout)
    (linked : (old, node) ∈ layout.index) (replaced : Replaced layout.index old news after.index)
    (same : ∀ entry other, (entry, other) ∈ layout.index → entry ≠ old → after.heap.cells other = layout.heap.cells other)
    (fresh : ∀ entry ∈ news, ∀ value ∈ after.heap.cells entry.2, Between after.index entry.1 (key value)) : Routed after := by
  intro entry other member value present
  rcases (replaced.entries _).mp member with new | ⟨different, kept⟩
  · exact fresh _ new value present
  · rw [same entry other kept different] at present
    exact replaced.keeps linked kept different (routed entry other kept value present)

theorem Routed.unlink (routed : Routed layout) (sound : Sound layout) (linked : (old, node) ∈ layout.index) :
    Routed (layout.unlink node old) := by
  refine routed.replace linked (replaced_erase layout.index old) (fun entry other member different => ?_) (by simp)
  exact Heap.write_other _ _ (sound.apart linked member different)

theorem Routed.rekey (routed : Routed layout) (sound : Sound layout) (linked : (old, node) ∈ layout.index) {new : κ}
    (greatest : Node.maxKey (layout.heap.cells node) = some new) : Routed (layout.rekey node old new) := by
  obtain ⟨⟨top, member, atTop⟩, bound⟩ := (Node.maxKey_eq_some (sound.sorted node)).mp greatest
  have inside : Between layout.index old new := atTop ▸ routed old node linked top member
  have replaced := (replaced_erase layout.index old).insert node inside (by simp)
  refine routed.replace linked replaced (fun _ _ _ _ => rfl) ?_
  intro entry new value present
  cases List.mem_singleton.mp new
  refine replaced.routes new (routed old node linked value present) ?_ ?_ fun _ _ _ => bound value present
  · intro other there less
    cases List.mem_singleton.mp there
    exact absurd less (lt_irrefl _)
  · intro other there less
    cases List.mem_singleton.mp there
    exact absurd less (lt_irrefl _)

/-- A split whose value belongs to the node it splits. -/
theorem split_replaced (routed : Routed layout) (linked : (old, node) ∈ layout.index)
    {value : α} (inside : Between layout.index old (key value)) {left right : List α}
    (stored : Node.Upserted (layout.heap.cells node) value (left ++ right)) (filled : right ≠ []) :
    ∃ top, Node.maxKey right = some top ∧
      Replaced layout.index old ((top, layout.heap.next) :: (Node.maxKey left).toList.map fun entry => (entry, node))
        (layout.split node old left right).index ∧
      ∀ item ∈ left ++ right, Between layout.index old (key item) := by
  obtain ⟨leftSorted, rightSorted, across⟩ := Node.sorted_append.mp stored.sorted
  have belongs : ∀ item ∈ left ++ right, Between layout.index old (key item) := by
    intro item member
    rcases (stored.mem item).mp member with rfl | ⟨there, _⟩
    · exact inside
    · exact routed old node linked item there
  obtain ⟨top, greatest⟩ := Node.maxKey_isSome (κ := κ) filled
  obtain ⟨⟨last, lastMember, atLast⟩, _⟩ := (Node.maxKey_eq_some rightSorted).mp greatest
  have topInside : Between layout.index old top := atLast ▸ belongs last (List.mem_append_right _ lastMember)
  refine ⟨top, greatest, ?_, belongs⟩
  simp only [Layout.split, greatest, Operation.link]
  cases leftTop : Node.maxKey left with
  | none => exact (replaced_erase layout.index old).insert layout.heap.next topInside (by simp)
  | some middle =>
    obtain ⟨⟨final, finalMember, atFinal⟩, _⟩ := (Node.maxKey_eq_some leftSorted).mp leftTop
    have middleInside : Between layout.index old middle := atFinal ▸ belongs final (List.mem_append_left _ finalMember)
    have kept := (replaced_erase layout.index old).insert node middleInside (by simp)
    apply kept.insert layout.heap.next topInside
    intro entry there
    cases List.mem_singleton.mp there
    exact atFinal ▸ atLast ▸ (across final finalMember last lastMember).ne

theorem Routed.split (routed : Routed layout) (sound : Sound layout) (linked : (old, node) ∈ layout.index)
    {value : α} (inside : Between layout.index old (key value)) {left right : List α}
    (stored : Node.Upserted (layout.heap.cells node) value (left ++ right)) (filled : right ≠ []) :
    Routed (layout.split node old left right) := by
  obtain ⟨top, greatest, replaced, belongs⟩ := split_replaced routed linked inside stored filled
  obtain ⟨leftSorted, rightSorted, across⟩ := Node.sorted_append.mp stored.sorted
  obtain ⟨⟨last, lastMember, atLast⟩, rightBound⟩ := (Node.maxKey_eq_some rightSorted).mp greatest
  have away : node ≠ layout.heap.next := (sound.allocated old node linked).ne
  refine routed.replace linked replaced (fun entry other member different => ?_) ?_
  · rw [split_cells, if_neg (sound.allocated entry other member).ne, if_neg (sound.apart linked member different)]
  · intro entry new item present
    rcases List.mem_cons.mp new with rfl | earlier
    · rw [split_cells, if_pos rfl] at present
      refine replaced.routes new (belongs item (List.mem_append_right _ present)) ?_ ?_ fun _ _ _ => rightBound item present
      · intro other there less
        rcases List.mem_cons.mp there with rfl | atLeft
        · exact absurd less (lt_irrefl _)
        · obtain ⟨middle, leftTop, rfl⟩ := List.mem_map.mp atLeft
          obtain ⟨⟨final, finalMember, atFinal⟩, _⟩ := (Node.maxKey_eq_some leftSorted).mp (Option.mem_toList.mp leftTop)
          exact atFinal ▸ across final finalMember item present
      · intro _ _ _
        exact rightBound item present
    · obtain ⟨middle, leftTop, rfl⟩ := List.mem_map.mp earlier
      have leftTop := Option.mem_toList.mp leftTop
      obtain ⟨_, leftBound⟩ := (Node.maxKey_eq_some leftSorted).mp leftTop
      rw [split_cells, if_neg away, if_pos rfl] at present
      refine replaced.routes new (belongs item (List.mem_append_left _ present)) ?_ (fun _ _ _ => leftBound item present)
        fun _ _ _ => leftBound item present
      intro other there less
      rcases List.mem_cons.mp there with rfl | atLeft
      · obtain ⟨final, finalMember, atFinal⟩ := ((Node.maxKey_eq_some leftSorted).mp leftTop).1
        exact absurd less (atFinal ▸ atLast ▸ across final finalMember last lastMember).asymm
      · obtain ⟨same, leftSame, rfl⟩ := List.mem_map.mp atLeft
        cases leftTop.symm.trans (Option.mem_toList.mp leftSame)
        exact absurd less (lt_irrefl _)

theorem Routed.root (empty : ∀ entry, entry ∉ layout.index) (value : α) : Routed (layout.root value) := by
  have only : ∀ entry ∈ (layout.root value).index, entry = (key value, layout.heap.next) := by
    intro entry member
    exact ((mem_insert ..).mp member).resolve_right fun kept => empty entry kept.2
  intro entry other member item present
  cases only _ member
  have same : item = value := by simpa [Layout.root] using present
  subst same
  exact between_self _ _

def Elsewhere (layout : Layout α κ) (old : κ) (value : α) : Prop :=
  ∃ entry other, (entry, other) ∈ layout.index ∧ entry ≠ old ∧ value ∈ layout.heap.cells other

omit [Keyed α κ] in
theorem stored_iff (linked : (old, node) ∈ layout.index) (value : α) :
    Stored layout value ↔ value ∈ layout.heap.cells node ∨ Elsewhere layout old value := by
  constructor
  · intro stored
    obtain ⟨entry, other, member, present⟩ := stored
    by_cases same : entry = old
    · subst same
      exact Or.inl (value_unique member linked ▸ present)
    · exact Or.inr ⟨entry, other, member, same, present⟩
  · intro either
    rcases either with present | ⟨entry, other, member, _, present⟩
    · exact ⟨old, node, linked, present⟩
    · exact ⟨entry, other, member, present⟩

theorem Routed.elsewhere_ne (routed : Routed layout) (linked : (old, node) ∈ layout.index) {wanted : κ}
    (inside : Between layout.index old wanted) {value : α} (elsewhere : Elsewhere layout old value) : key value ≠ wanted := by
  obtain ⟨entry, other, member, different, present⟩ := elsewhere
  intro same
  have route := routed entry other member value present
  rw [same] at route
  exact different (congrArg Prod.fst (route.unique member linked inside))

/-- The key is stored nowhere but in the node it routes to. -/
theorem Routed.stored_here (routed : Routed layout) (linked : (old, node) ∈ layout.index) {value : α}
    (inside : Between layout.index old (key value)) (stored : Stored layout value) : value ∈ layout.heap.cells node :=
  ((stored_iff linked value).mp stored).resolve_right fun elsewhere => routed.elsewhere_ne linked inside elsewhere rfl

def Gains (layout after : Layout α κ) (value : α) : Prop :=
  ∀ item, Stored after item ↔ item = value ∨ Stored layout item ∧ key item ≠ key value

def Loses (layout after : Layout α κ) (gone : κ) : Prop :=
  ∀ item, Stored after item ↔ Stored layout item ∧ key item ≠ gone

private theorem gains_of {after : Layout α κ} {values : List α} {value : α} (routed : Routed layout)
    (linked : (old, node) ∈ layout.index) (inside : Between layout.index old (key value))
    (stored : Node.Upserted (layout.heap.cells node) value values)
    (contents : ∀ item, Stored after item ↔ item ∈ values ∨ Elsewhere layout old item) : Gains layout after value := by
  intro item
  rw [contents, stored.mem, stored_iff linked item]
  constructor
  · intro either
    rcases either with (same | ⟨there, different⟩) | elsewhere
    · exact Or.inl same
    · exact Or.inr ⟨Or.inl there, different⟩
    · exact Or.inr ⟨Or.inr elsewhere, routed.elsewhere_ne linked inside elsewhere⟩
  · intro either
    rcases either with same | ⟨there | elsewhere, different⟩
    · exact Or.inl (Or.inl same)
    · exact Or.inl (Or.inr ⟨there, different⟩)
    · exact Or.inr elsewhere

private theorem loses_of {after : Layout α κ} {values : List α} {gone : κ} (routed : Routed layout)
    (linked : (old, node) ∈ layout.index) (inside : Between layout.index old gone)
    (removed : Node.Removed (layout.heap.cells node) gone values)
    (contents : ∀ item, Stored after item ↔ item ∈ values ∨ Elsewhere layout old item) : Loses layout after gone := by
  intro item
  rw [contents, removed.mem, stored_iff linked item]
  constructor
  · intro either
    rcases either with ⟨there, different⟩ | elsewhere
    · exact ⟨Or.inl there, different⟩
    · exact ⟨Or.inr elsewhere, routed.elsewhere_ne linked inside elsewhere⟩
  · intro both
    obtain ⟨there | elsewhere, different⟩ := both
    · exact Or.inl ⟨there, different⟩
    · exact Or.inr elsewhere

private theorem rewrite_contents (sound : Sound layout) (linked : (old, node) ∈ layout.index) (values : List α) (item : α) :
    Stored (layout.rewrite node values) item ↔ item ∈ values ∨ Elsewhere layout old item := by
  have linked' : (old, node) ∈ (layout.rewrite node values).index := linked
  rw [stored_iff linked']
  apply or_congr (by simp [Layout.rewrite])
  constructor
  · intro elsewhere
    obtain ⟨entry, other, member, different, present⟩ := elsewhere
    refine ⟨entry, other, member, different, ?_⟩
    simpa [Layout.rewrite, Heap.write_other _ _ (sound.apart linked member different)] using present
  · intro elsewhere
    obtain ⟨entry, other, member, different, present⟩ := elsewhere
    refine ⟨entry, other, member, different, ?_⟩
    simpa [Layout.rewrite, Heap.write_other _ _ (sound.apart linked member different)] using present

theorem rewrite_gains (routed : Routed layout) (sound : Sound layout) (linked : (old, node) ∈ layout.index) {value : α}
    (inside : Between layout.index old (key value)) {values : List α}
    (stored : Node.Upserted (layout.heap.cells node) value values) : Gains layout (layout.rewrite node values) value :=
  gains_of routed linked inside stored (rewrite_contents sound linked values)

theorem rewrite_loses (routed : Routed layout) (sound : Sound layout) (linked : (old, node) ∈ layout.index) {gone : κ}
    (inside : Between layout.index old gone) {values : List α}
    (removed : Node.Removed (layout.heap.cells node) gone values) : Loses layout (layout.rewrite node values) gone :=
  loses_of routed linked inside removed (rewrite_contents sound linked values)

omit [Keyed α κ] in
private theorem replaced_contents {news : List (κ × NodeId)} (after : Layout α κ)
    (replaced : Replaced layout.index old news after.index)
    (same : ∀ entry other, (entry, other) ∈ layout.index → entry ≠ old → after.heap.cells other = layout.heap.cells other)
    (item : α) :
    Stored after item ↔ (∃ entry ∈ news, item ∈ after.heap.cells entry.2) ∨ Elsewhere layout old item := by
  constructor
  · intro stored
    obtain ⟨entry, other, member, present⟩ := stored
    rcases (replaced.entries _).mp member with new | ⟨different, kept⟩
    · exact Or.inl ⟨_, new, present⟩
    · exact Or.inr ⟨entry, other, kept, different, same entry other kept different ▸ present⟩
  · intro either
    rcases either with ⟨⟨entry, other⟩, new, present⟩ | ⟨entry, other, kept, different, present⟩
    · exact ⟨entry, other, (replaced.entries _).mpr (Or.inl new), present⟩
    · exact ⟨entry, other, (replaced.entries _).mpr (Or.inr ⟨different, kept⟩), same entry other kept different ▸ present⟩

theorem unlink_loses (routed : Routed layout) (sound : Sound layout) (linked : (old, node) ∈ layout.index) {gone : κ}
    (inside : Between layout.index old gone) (removed : Node.Removed (layout.heap.cells node) gone []) :
    Loses layout (layout.unlink node old) gone := by
  apply loses_of routed linked inside removed
  intro item
  refine (replaced_contents _ (replaced_erase layout.index old) ?_ item).trans (by simp)
  intro entry other member different
  exact Heap.write_other _ _ (sound.apart linked member different)

theorem split_gains (routed : Routed layout) (sound : Sound layout) (linked : (old, node) ∈ layout.index)
    {value : α} (inside : Between layout.index old (key value)) {left right : List α}
    (stored : Node.Upserted (layout.heap.cells node) value (left ++ right)) (filled : right ≠ []) :
    Gains layout (layout.split node old left right) value := by
  obtain ⟨top, _, replaced, _⟩ := split_replaced routed linked inside stored filled
  apply gains_of routed linked inside stored
  intro item
  refine (replaced_contents _ replaced ?_ item).trans (or_congr_left ?_)
  · intro entry other member different
    rw [split_cells, if_neg (sound.allocated entry other member).ne, if_neg (sound.apart linked member different)]
  · have away : node ≠ layout.heap.next := (sound.allocated old node linked).ne
    rw [List.mem_append]
    constructor
    · intro held
      obtain ⟨entry, new, present⟩ := held
      rcases List.mem_cons.mp new with rfl | atLeft
      · exact Or.inr (by simpa [split_cells] using present)
      · obtain ⟨_, _, rfl⟩ := List.mem_map.mp atLeft
        exact Or.inl (by simpa [split_cells, away] using present)
    · intro either
      rcases either with atLeft | atRight
      · obtain ⟨middle, leftTop⟩ := Node.maxKey_isSome (κ := κ) (List.ne_nil_of_mem atLeft)
        exact ⟨(middle, node), by simp [leftTop], by simpa [split_cells, away] using atLeft⟩
      · exact ⟨(top, layout.heap.next), List.mem_cons_self, by simpa [split_cells] using atRight⟩

theorem rekey_stored (routed : Routed layout) (sound : Sound layout) (linked : (old, node) ∈ layout.index) {new : κ}
    (greatest : Node.maxKey (layout.heap.cells node) = some new) (item : α) :
    Stored (layout.rekey node old new) item ↔ Stored layout item := by
  obtain ⟨⟨top, member, atTop⟩, _⟩ := (Node.maxKey_eq_some (sound.sorted node)).mp greatest
  have inside : Between layout.index old new := atTop ▸ routed old node linked top member
  have replaced := (replaced_erase layout.index old).insert node inside (by simp)
  refine (replaced_contents (layout.rekey node old new) replaced (fun _ _ _ _ => rfl) item).trans ?_
  rw [stored_iff linked]
  simp [Layout.rekey]

theorem root_gains (empty : ∀ entry, entry ∉ layout.index) (value : α) : Gains layout (layout.root value) value := by
  intro item
  constructor
  · intro stored
    obtain ⟨entry, other, member, present⟩ := stored
    rcases (mem_insert ..).mp member with same | ⟨_, kept⟩
    · cases same
      exact Or.inl (by simpa [Layout.root] using present)
    · exact absurd kept (empty _)
  · intro either
    rcases either with same | ⟨⟨entry, other, member, _⟩, _⟩
    · subst same
      exact ⟨key item, layout.heap.next, (mem_insert ..).mpr (Or.inl rfl), by simp [Layout.root]⟩
    · exact absurd member (empty _)

end Layout
end WorkTablesIndex
