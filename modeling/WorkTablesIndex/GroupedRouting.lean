import WorkTablesIndex.Refinement

/-! Lookups by a borrowed form under which many values look alike. A lookup goes to the
first node whose key reaches the wanted group, which may go on in later nodes; it finds
the group there as long as that key still stands for a value of the node. A removal by
the borrowed form is the removal of the value its search lands on. -/

universe u v w

namespace WorkTablesIndex
open SortedMap

variable {α : Type u} {κ : Type v} {Q : Type w} [LinearOrder κ] [LinearOrder Q] {borrow : κ → Q} {wanted : Q}

/-- The chosen entry is the first to reach the wanted group, or the last. -/
theorem route_borrowed {index : NodeIndex κ} {entry : κ} {node : NodeId} (found : route borrow index wanted = some (entry, node)) :
    (entry, node) ∈ index ∧ (∀ other ∈ index, other.1 < entry → borrow other.1 < wanted) ∧
      ∀ other ∈ index, entry < other.1 → wanted ≤ borrow entry := by
  rcases Option.or_eq_some_iff.mp found with first | ⟨missing, final⟩
  · obtain ⟨member, reached, least⟩ := find?_eq_some.mp first
    have reached : wanted ≤ borrow entry := by simpa [Bound.admits] using reached
    refine ⟨member, fun other there before => ?_, fun _ _ _ => reached⟩
    by_contra late
    exact before.not_ge (least other there (by simpa [Bound.admits] using late))
  · obtain ⟨member, greatest⟩ := last?_eq_some.mp final
    refine ⟨member, fun other there _ => ?_, fun other there after => absurd (greatest other there) after.not_ge⟩
    simpa [Bound.admits] using find?_eq_none.mp missing other there

theorem route_borrowed_none {index : NodeIndex κ} (missing : route borrow index wanted = none) : ∀ entry, entry ∉ index :=
  last?_eq_none.mp (Option.or_eq_none_iff.mp missing).2

variable [Keyed α κ]

namespace Layout
variable {layout : Layout α κ} {entry : κ} {node : NodeId}

/-- The group that is wanted is in the chosen node, if anywhere, unless the key of that node
belongs to the group and no value of the node does. -/
theorem Routed.reaches (routed : Routed layout) (monotone : Monotone borrow)
    (found : route borrow layout.index wanted = some (entry, node))
    (current : borrow entry = wanted → ∃ held ∈ layout.heap.cells node, borrow (key held) = wanted) {item : α}
    (stored : layout.Stored item) (same : borrow (key item) = wanted) :
    ∃ held ∈ layout.heap.cells node, borrow (key held) = wanted := by
  obtain ⟨linked, before, reaches⟩ := route_borrowed found
  obtain ⟨other, target, member, present⟩ := stored
  have inside := routed other target member item present
  rcases lt_trichotomy other entry with earlier | rfl | later
  · have bound : borrow (key item) ≤ borrow other := monotone (inside.within _ linked earlier)
    exact absurd (same ▸ bound) (before _ member earlier).not_ge
  · exact ⟨item, value_unique member linked ▸ present, same⟩
  · -- the group starts at the chosen key and goes on behind it
    have bound : borrow entry ≤ borrow (key item) := monotone (inside.above _ linked later).le
    exact current (le_antisymm (same ▸ bound) (reaches _ member later))

omit [LinearOrder Q] in
theorem Sound.current (sound : Sound layout) (tight : Node.maxKey (layout.heap.cells node) = some entry)
    (same : borrow entry = wanted) :
    ∃ held ∈ layout.heap.cells node, borrow (key held) = wanted := by
  obtain ⟨⟨top, member, level⟩, _⟩ := (Node.maxKey_eq_some (sound.sorted node)).mp tight
  exact ⟨top, member, level ▸ same⟩

end Layout

namespace Node
variable {node : List α}

private theorem delete_borrowed (sorted : Sorted node) (monotone : Monotone borrow) (wanted : Q) :
    (∃ item ∈ node, borrow (key item) = wanted ∧ contains borrow node wanted = contains id node (key item) ∧
      delete borrow node wanted = delete id node (key item)) ∨
    (∀ item ∈ node, borrow (key item) ≠ wanted) ∧ contains borrow node wanted = false ∧ delete borrow node wanted = none := by
  rcases delete_cases sorted monotone wanted with ⟨item, position, deleted, there, same⟩ | ⟨missed, missing⟩
  · have member := List.mem_of_getElem? there
    have held : contains borrow node wanted = true := (contains_iff sorted monotone wanted).mpr ⟨item, member, same⟩
    have exact : contains id node (key item) = true := (contains_iff sorted monotone_id (key item)).mpr ⟨item, member, rfl⟩
    refine Or.inl ⟨item, member, same, held.trans exact.symm, ?_⟩
    rcases delete_cases sorted monotone_id (key item) with ⟨other, place, result, found, level⟩ | ⟨_, absent⟩
    · cases sorted.position_unique found there level
      cases found.symm.trans there
      exact deleted.trans result.symm
    · exact absurd rfl (absent item member)
  · refine Or.inr ⟨missing, Bool.eq_false_iff.mpr fun held => ?_, missed⟩
    obtain ⟨item, member, same⟩ := (contains_iff sorted monotone wanted).mp held
    exact missing item member same

end Node

namespace BTreeSet
variable {set after : BTreeSet α κ} {entry : κ} {node : NodeId}

theorem removeNode_borrowed (valid : Valid set) (routed : set.layout.Routed) (monotone : Monotone borrow) (emitCdc : Bool)
    (found : route borrow set.index.index wanted = some (entry, node)) :
    (∃ item ∈ set.heap.cells node, borrow (key item) = wanted ∧
      removeNode borrow emitCdc wanted set = removeNode id emitCdc (key item) set) ∨
    (∀ item ∈ set.heap.cells node, borrow (key item) ≠ wanted) ∧ removeNode borrow emitCdc wanted set = (.absent, set) := by
  obtain ⟨linked, _⟩ := route_borrowed found
  rcases Node.delete_borrowed (valid.sound.sorted node) monotone wanted with ⟨item, member, same, held, deleted⟩ |
    ⟨missing, held, deleted⟩
  · refine Or.inl ⟨item, member, same, ?_⟩
    have exact : route id set.index.index (key item) = some (entry, node) :=
      route_eq_some.mpr ⟨linked, routed entry node linked item member⟩
    have held : Node.contains borrow (set.heap.cells node) wanted = _ := held
    have deleted : Node.delete borrow (set.heap.cells node) wanted = _ := deleted
    simp only [removeNode, found, exact, held, deleted]
    rfl
  · refine Or.inr ⟨missing, ?_⟩
    have held : Node.contains borrow (set.heap.cells node) wanted = false := held
    have deleted : Node.delete borrow (set.heap.cells node) wanted = none := deleted
    simp only [removeNode, found, held, deleted, Bool.false_eq_true, if_false]
    split <;> rfl

theorem unlinkNode_borrowed (valid : Valid set) (routed : set.layout.Routed) (monotone : Monotone borrow) (emitCdc : Bool)
    (found : route borrow set.index.index wanted = some (entry, node)) :
    (∃ item ∈ set.heap.cells node, borrow (key item) = wanted ∧
      unlinkNode borrow emitCdc wanted set = unlinkNode id emitCdc (key item) set) ∨
    (∀ item ∈ set.heap.cells node, borrow (key item) ≠ wanted) ∧
      (unlinkNode borrow emitCdc wanted set = (.absent, { set with index := set.index.write.drop }) ∨
        unlinkNode borrow emitCdc wanted set = (.retry, { set with index := set.index.write.drop })) := by
  obtain ⟨linked, _⟩ := route_borrowed found
  have again : route borrow set.index.write.index wanted = some (entry, node) := found
  rcases Node.delete_borrowed (valid.sound.sorted node) monotone wanted with ⟨item, member, same, _, deleted⟩ | ⟨missing, _, deleted⟩
  · refine Or.inl ⟨item, member, same, ?_⟩
    have exact : route id set.index.write.index (key item) = some (entry, node) :=
      route_eq_some.mpr ⟨linked, routed entry node linked item member⟩
    have deleted : Node.delete borrow (set.heap.cells node) wanted = _ := deleted
    simp only [unlinkNode, again, exact, deleted]
    rfl
  · refine Or.inr ⟨missing, ?_⟩
    have deleted : Node.delete borrow (set.heap.cells node) wanted = none := deleted
    simp only [unlinkNode, again, deleted]
    split
    · exact Or.inr rfl
    · exact Or.inl rfl

theorem contains_borrowed (valid : Valid set) (monotone : Monotone borrow) (wanted : Q) :
    contains borrow wanted set = true ↔ ∃ entry node, route borrow set.index.index wanted = some (entry, node) ∧
      ∃ item ∈ set.heap.cells node, borrow (key item) = wanted := by
  have locked := lockNodeForValue_eq valid monotone wanted
  cases found : route borrow set.index.index wanted with
  | none => simp [contains, getWith, locked, found]
  | some target =>
    obtain ⟨entry, node⟩ := target
    have sorted : Node.Sorted (set.heap.cells node) := valid.sound.sorted node
    simp only [contains, getWith, locked, found, Option.map_some]
    cases selected : Node.trySelect borrow (set.heap.cells node) wanted with
    | none =>
      have missing := Node.trySelect_none sorted monotone selected
      simp only [Option.isSome_none, Bool.false_eq_true, false_iff]
      intro given
      obtain ⟨_, _, same, item, member, level⟩ := given
      cases same
      exact missing item member level
    | some position =>
      obtain ⟨item, there, same⟩ := Node.trySelect_some selected
      simp only [Node.getIth, there, Option.map_some, Option.isSome_some, true_iff]
      exact ⟨entry, node, rfl, item, List.mem_of_getElem? there, same⟩

theorem Tidy.contains_iff (tidy : Tidy set) (monotone : Monotone borrow) (wanted : Q) :
    contains borrow wanted set = true ↔ ∃ item, set.layout.Stored item ∧ borrow (key item) = wanted := by
  rw [contains_borrowed tidy.valid monotone]
  constructor
  · intro given
    obtain ⟨entry, node, found, item, member, same⟩ := given
    exact ⟨item, ⟨entry, node, (route_borrowed found).1, member⟩, same⟩
  · intro given
    obtain ⟨item, stored, same⟩ := given
    cases found : route borrow set.index.index wanted with
    | none =>
      obtain ⟨entry, node, member, _⟩ := stored
      exact absurd member (route_borrowed_none found _)
    | some target =>
      obtain ⟨entry, node⟩ := target
      have tight := tidy.layout.tight entry node (route_borrowed found).1
      exact ⟨entry, node, rfl, tidy.layout.routed.reaches monotone found (tidy.layout.sound.current tight) stored same⟩

/-- A complete removal by the borrowed form removes one value of the group, as the removal
of that value does. -/
theorem Tidy.removeInner_borrowed (tidy : Tidy set) (monotone : Monotone borrow) (emitCdc : Bool) (wanted : Q) (fuel : Nat) :
    (∃ item, set.layout.Stored item ∧ borrow (key item) = wanted ∧
      removeInner borrow emitCdc wanted (fuel + 1) set = removeInner id emitCdc (key item) (fuel + 1) set) ∨
    (∀ item, set.layout.Stored item → borrow (key item) ≠ wanted) ∧
      removeInner borrow emitCdc wanted (fuel + 1) set = some ((none, []), set) := by
  cases found : route borrow set.index.index wanted with
  | none =>
    refine Or.inr ⟨fun item stored => ?_, by simp only [removeInner, removeNode, found]⟩
    obtain ⟨entry, node, member, _⟩ := stored
    exact absurd member (route_borrowed_none found _)
  | some target =>
    obtain ⟨entry, node⟩ := target
    obtain ⟨linked, _⟩ := route_borrowed found
    have tight := tidy.layout.tight entry node linked
    rcases removeNode_borrowed tidy.valid tidy.layout.routed monotone emitCdc found with ⟨item, member, same, section_⟩ |
      ⟨missing, section_⟩
    · refine Or.inl ⟨item, ⟨entry, node, linked, member⟩, same, ?_⟩
      simp only [removeInner, section_]
      rcases removeNode_cases tidy.valid emitCdc (key item) with ⟨empty, _⟩ | ⟨other, target, there, inside, effect⟩
      · exact absurd linked (empty _)
      cases inside.unique there linked (tidy.layout.routed entry node linked item member)
      generalize result : removeNode id emitCdc (key item) set = outcome at effect
      cases effect with
      | singleton single =>
        -- the node holds this one value, so the unlink finds it again
        rcases unlinkNode_borrowed tidy.valid tidy.layout.routed monotone emitCdc found with
          ⟨again, present, _, unlinked⟩ | ⟨missing, _⟩
        · obtain ⟨only, cells⟩ := List.length_eq_one_iff.mp (le_antisymm single (List.length_pos_of_mem member))
          have here : again = item := by
            rw [cells, List.mem_singleton] at member present
            exact present.trans member.symm
          rw [here] at unlinked
          simp only [unlinked]
          rcases unlinkNode_cases tidy.valid emitCdc (key item) with ⟨_, result⟩ | ⟨other, target, there, within, many, _⟩ |
            ⟨_, _, _, _, _, _, _, _, result, _⟩
          · simp only [result]
          · cases within.unique there linked inside
            exact absurd many (not_lt.mpr single)
          · simp only [result]
        · exact absurd same (missing item member)
      | _ => rfl
    · refine Or.inr ⟨fun item stored same => ?_, by simp only [removeInner, section_]⟩
      obtain ⟨held, member, level⟩ := tidy.layout.routed.reaches monotone found (tidy.layout.sound.current tight) stored same
      exact missing held member level

theorem putNode_routing (emitCdc : Bool) (value : α) (set : BTreeSet α κ) :
    (putNode emitCdc value set).2.borrowOrderMatches = set.borrowOrderMatches := by
  simp only [putNode]
  repeat' split
  all_goals first | rfl | exact emit_borrowOrderMatches ..

theorem createRoot_routing (emitCdc : Bool) (value : α) (set : BTreeSet α κ) :
    (createRoot emitCdc value set).2.borrowOrderMatches = set.borrowOrderMatches := by
  simp only [createRoot]
  split
  · exact emit_borrowOrderMatches ..
  · rfl

theorem commitOperation_routing (adopt : α → α → α) (emitCdc : Bool) (operation : Operation α κ) (set : BTreeSet α κ) :
    (commitOperation adopt emitCdc operation set).2.borrowOrderMatches = set.borrowOrderMatches := by
  simp only [commitOperation]
  split
  · rfl
  · exact emit_borrowOrderMatches ..

omit [Keyed α κ] in
theorem replaceNode_routing (adopt : α → α → α) (emitCdc : Bool) (value : α) (node : NodeId) (position : Nat)
    (set : BTreeSet α κ) :
    (replaceNode adopt emitCdc value node position set).2.borrowOrderMatches = set.borrowOrderMatches := by
  simp only [replaceNode]
  split
  · rfl
  · exact emit_borrowOrderMatches ..

theorem removeNode_routing (borrow : κ → Q) (emitCdc : Bool) (wanted : Q) (set : BTreeSet α κ) :
    (removeNode borrow emitCdc wanted set).2.borrowOrderMatches = set.borrowOrderMatches := by
  simp only [removeNode]
  repeat' split
  all_goals first | rfl | exact emit_borrowOrderMatches ..

theorem unlinkNode_routing (borrow : κ → Q) (emitCdc : Bool) (wanted : Q) (set : BTreeSet α κ) :
    (unlinkNode borrow emitCdc wanted set).2.borrowOrderMatches = set.borrowOrderMatches := by
  simp only [unlinkNode]
  repeat' split
  all_goals first | rfl | exact emit_borrowOrderMatches ..

theorem putCheckedInner_routing {adopt : α → α → α} {emitCdc : Bool} {value : α} {fuel : Nat}
    {outcome : Except (NodeId × Nat) (Option α × List (ChangeEvent α))}
    (ran : putCheckedInner adopt emitCdc value fuel set = some (outcome, after)) :
    after.borrowOrderMatches = set.borrowOrderMatches := by
  induction fuel generalizing value set with
  | zero => cases ran
  | succ fuel ih =>
    have first := putNode_routing emitCdc value set
    simp only [putCheckedInner] at ran
    split at ran
    next middle same =>
      rw [same] at first
      have second := createRoot_routing emitCdc value middle
      split at ran
      next cdc later result =>
        cases ran
        rw [result] at second
        exact second.trans first
      next later result =>
        rw [result] at second
        exact (ih ran).trans (second.trans first)
    next same => cases ran; rw [same] at first; exact first
    next same => cases ran; rw [same] at first; exact first
    next node oldMax value cdc middle same =>
      rw [same] at first
      have second := commitOperation_routing adopt emitCdc (.split node oldMax value) middle
      split at ran
      next result =>
        cases ran
        rw [result] at second
        exact second.trans first
      next result =>
        rw [result] at second
        exact (ih ran).trans (second.trans first)
    next node oldMax cdc middle same =>
      rw [same] at first
      have second := commitOperation_routing adopt emitCdc (.updateMax node oldMax) middle
      split at ran
      next result =>
        cases ran
        rw [result] at second
        exact second.trans first
      next result =>
        cases ran
        rw [result] at second
        exact second.trans first

theorem putInner_routing {adopt : α → α → α} {emitCdc : Bool} {value : α} {fuel : Nat} {result : Option α × List (ChangeEvent α)}
    (ran : putInner adopt emitCdc value fuel set = some (result, after)) : after.borrowOrderMatches = set.borrowOrderMatches := by
  simp only [putInner] at ran
  split at ran
  · cases ran
  next stored =>
    cases ran
    exact putCheckedInner_routing stored
  next node position middle occupied =>
    have first := putCheckedInner_routing occupied
    have second := replaceNode_routing adopt emitCdc value node position middle
    rw [Option.some.inj ran] at second
    exact second.trans first

theorem removeInner_routing {emitCdc : Bool} {fuel : Nat} {result : Option α × List (ChangeEvent α)}
    (ran : removeInner borrow emitCdc wanted fuel set = some (result, after)) :
    after.borrowOrderMatches = set.borrowOrderMatches := by
  induction fuel generalizing set with
  | zero => cases ran
  | succ fuel ih =>
    have first := removeNode_routing borrow emitCdc wanted set
    simp only [removeInner] at ran
    split at ran
    next same => cases ran; rw [same] at first; exact first
    next middle same =>
      rw [same] at first
      have second := unlinkNode_routing borrow emitCdc wanted middle
      split at ran
      next result => cases ran; rw [result] at second; exact second.trans first
      next result =>
        rw [result] at second
        exact (ih ran).trans (second.trans first)
      next result => cases ran; rw [result] at second; exact second.trans first
    next same => cases ran; rw [same] at first; exact first
    next node oldMax middle same =>
      cases ran
      rw [same] at first
      exact (commitOperation_routing ..).trans first

theorem removeRange_routing (borrow : κ → Q) (start last : Bound Q) (set : BTreeSet α κ) :
    (removeRange borrow start last set).borrowOrderMatches = set.borrowOrderMatches := by
  simp only [removeRange]
  repeat' split
  all_goals rfl

theorem attachNodes_routing {nodes : List (List α)} (ran : attachNodes nodes set = some after) :
    after.borrowOrderMatches = set.borrowOrderMatches := by
  simp only [attachNodes] at ran
  split at ran
  · cases ran
    rfl
  · obtain ⟨_, _, rfl⟩ := Option.map_eq_some_iff.mp ran
    rfl

end BTreeSet
end WorkTablesIndex
