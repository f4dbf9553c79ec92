import WorkTablesIndex.PublishedIndex
import WorkTablesIndex.NodeLaws

/-! The chunked route index behaves as one sorted association list. Chunk
boundaries, splits and merges are invisible through its routes. -/

universe v w

namespace WorkTablesIndex.PublishedNodeIndex
open Slice SortedMap

variable {κ : Type v} {Q : Type w} [LinearOrder κ] [LinearOrder Q]

structure WellFormed (index : PublishedNodeIndex κ) : Prop where
  filled : ∀ chunk ∈ index.chunks, chunk ≠ []
  bounded : ∀ chunk ∈ index.chunks, chunk.length ≤ publishedRoutesPerChunk
  ascending : Ascending index.routes
  counted : index.len = index.routes.length

theorem new_wellFormed : WellFormed (new : PublishedNodeIndex κ) :=
  ⟨fun _ member => (List.not_mem_nil member).elim, fun _ member => (List.not_mem_nil member).elim,
    List.Pairwise.nil, rfl⟩

omit [LinearOrder κ] in
private theorem fromCanonicalLoop_flatten (rest : List (κ × NodeId)) (chunks : List (List (κ × NodeId)))
    (entries : List (κ × NodeId)) :
    (fromCanonicalLoop rest chunks entries).flatten = chunks.flatten ++ entries ++ rest := by
  induction rest generalizing chunks entries with
  | nil =>
    simp only [fromCanonicalLoop]
    split
    next empty => simp [List.isEmpty_iff.mp empty]
    next => simp
  | cons entry rest ih =>
    simp only [fromCanonicalLoop]
    split
    · rw [ih]; simp
    · rw [ih]; simp

omit [LinearOrder κ] in
private theorem fromCanonicalLoop_chunks (rest : List (κ × NodeId)) (chunks : List (List (κ × NodeId)))
    (entries : List (κ × NodeId)) (limit : entries.length < publishedRebuildRoutesPerChunk)
    (cut : ∀ chunk ∈ chunks, chunk ≠ [] ∧ chunk.length ≤ publishedRoutesPerChunk) :
    ∀ chunk ∈ fromCanonicalLoop rest chunks entries, chunk ≠ [] ∧ chunk.length ≤ publishedRoutesPerChunk := by
  have room : publishedRebuildRoutesPerChunk ≤ publishedRoutesPerChunk := by decide
  have rebuilt : 0 < publishedRebuildRoutesPerChunk := by decide
  induction rest generalizing chunks entries with
  | nil =>
    simp only [fromCanonicalLoop]
    split
    · exact cut
    next open_ =>
      intro chunk member
      rcases List.mem_append.mp member with earlier | last
      · exact cut chunk earlier
      · cases List.mem_singleton.mp last
        exact ⟨fun empty => open_ (List.isEmpty_iff.mpr empty), by omega⟩
  | cons entry rest ih =>
    simp only [fromCanonicalLoop]
    split
    next full =>
      refine ih _ _ rebuilt ?_
      intro chunk member
      rcases List.mem_append.mp member with earlier | last
      · exact cut chunk earlier
      · cases List.mem_singleton.mp last
        exact ⟨by simp, by omega⟩
    next notFull =>
      refine ih _ _ ?_ cut
      rw [List.length_append, List.length_singleton] at notFull ⊢
      omega

theorem fromCanonical_routes (index : SortedMap κ NodeId) : (fromCanonical index).routes = index.entries := by
  simp [routes, fromCanonical, fromCanonicalLoop_flatten]

theorem fromCanonical_wellFormed (index : SortedMap κ NodeId) : WellFormed (fromCanonical index) := by
  have chunks := fromCanonicalLoop_chunks index.entries [] []
    (show 0 < publishedRebuildRoutesPerChunk by decide) (fun _ member => (List.not_mem_nil member).elim)
  refine ⟨fun chunk member => (chunks chunk member).1, fun chunk member => (chunks chunk member).2, ?_, ?_⟩
  · rw [fromCanonical_routes]; exact index.sorted
  · rw [fromCanonical_routes]; rfl

private theorem search_chunk {chunk : List (κ × NodeId)} (sorted : Ascending chunk) (key : κ) :
    (∃ before node after, chunk = before ++ (key, node) :: after ∧ (∀ entry ∈ before, entry.1 < key) ∧
      binarySearchBy (fun candidate => compare candidate.1 key) chunk = .ok before.length) ∨
    ∃ before after, chunk = before ++ after ∧ (∀ entry ∈ before, entry.1 < key) ∧ (∀ entry ∈ after, key < entry.1) ∧
      binarySearchBy (fun candidate => compare candidate.1 key) chunk = .error before.length := by
  have prefixed : Prefixed (fun entry : κ × NodeId => compare entry.1 key == .lt) chunk := by
    refine List.Pairwise.imp ?_ sorted
    intro first second smaller less
    rw [beq_iff_eq, compare_lt_iff_lt] at less ⊢
    exact smaller.trans less
  have searched := binarySearchBy_cases (fun candidate : κ × NodeId => compare candidate.1 key) chunk
  have bound : partitionPoint (fun entry : κ × NodeId => compare entry.1 key == .lt) chunk ≤ chunk.length :=
    partitionPoint_le
  have smaller : ∀ entry ∈ chunk.take (partitionPoint (fun entry : κ × NodeId => compare entry.1 key == .lt) chunk),
      entry.1 < key := by
    intro entry member
    have less := before_partitionPoint member
    rwa [beq_iff_eq, compare_lt_iff_lt] at less
  have others : ∀ entry ∈ chunk.drop (partitionPoint (fun entry : κ × NodeId => compare entry.1 key == .lt) chunk),
      key ≤ entry.1 := fun entry member => not_lt.mp fun less => by
    have failed := after_partitionPoint prefixed member
    simp [compare_lt_iff_lt.mpr less] at failed
  generalize partitionPoint (fun entry : κ × NodeId => compare entry.1 key == .lt) chunk = position at *
  have length : (chunk.take position).length = position := List.length_take_of_le bound
  rcases searched with ⟨⟨found, node⟩, there, equal, result⟩ | ⟨different, result⟩
  · have same : found = key := compare_eq_iff_eq.mp equal
    subst same
    refine Or.inl ⟨chunk.take position, node, chunk.drop (position + 1), ?_, smaller, by rw [length]; exact result⟩
    exact split_at there
  · refine Or.inr ⟨chunk.take position, chunk.drop position, (List.take_append_drop position chunk).symm, smaller, ?_,
      by rw [length]; exact result⟩
    cases seen : chunk.drop position with
    | nil => simp
    | cons head rest =>
      have there : chunk[position]? = some head := by rw [← List.head?_drop, seen]; rfl
      have above : key < head.1 := lt_of_le_of_ne (others head (by rw [seen]; exact List.mem_cons_self))
        (fun same => different head there (compare_eq_iff_eq.mpr same.symm))
      have ordered : Ascending (head :: rest) := seen ▸ sorted.sublist (List.drop_sublist _ _)
      intro entry member
      rcases List.mem_cons.mp member with rfl | later
      · exact above
      · exact above.trans ((List.pairwise_cons.mp ordered).1 entry later)

private theorem below_of_chunkBelow {borrow : κ → Q} (monotone : Monotone borrow) {key : Q} {chunk : List (κ × NodeId)}
    (sorted : Ascending chunk) (below : chunkBelow borrow key chunk = true) :
    ∀ entry ∈ chunk, borrow entry.1 < key := by
  rcases List.eq_nil_or_concat chunk with rfl | ⟨rest, final, rfl⟩
  · simp
  · simp only [List.concat_eq_append, chunkBelow, List.getLast?_append, List.getLast?_singleton, Option.some_or,
      decide_eq_true_eq] at below sorted ⊢
    obtain ⟨_, _, across⟩ := List.pairwise_append.mp sorted
    intro entry member
    rcases List.mem_append.mp member with earlier | last
    · exact lt_of_le_of_lt (monotone (across entry earlier final List.mem_cons_self).le) below
    · rw [List.mem_singleton.mp last]
      exact below

omit [LinearOrder κ] in
private theorem exists_of_not_chunkBelow {borrow : κ → Q} {key : Q} {chunk : List (κ × NodeId)} (filled : chunk ≠ [])
    (reached : chunkBelow borrow key chunk = false) : ∃ entry ∈ chunk, key ≤ borrow entry.1 := by
  cases seen : chunk.getLast? with
  | none => exact absurd (List.getLast?_eq_none_iff.mp seen) filled
  | some final =>
    refine ⟨final, List.mem_of_getLast? seen, ?_⟩
    simpa [chunkBelow, seen] using reached

private theorem chunk_ascending {chunks : List (List (κ × NodeId))} (ascending : Ascending chunks.flatten) :
    (∀ chunk ∈ chunks, Ascending chunk) ∧
      chunks.Pairwise (fun first second => ∀ left ∈ first, ∀ right ∈ second, left.1 < right.1) :=
  List.pairwise_flatten.mp ascending

private theorem chunkBelow_prefixed {borrow : κ → Q} (monotone : Monotone borrow) (key : Q)
    {chunks : List (List (κ × NodeId))} (filled : ∀ chunk ∈ chunks, chunk ≠ []) (ascending : Ascending chunks.flatten) :
    Prefixed (chunkBelow borrow key) chunks := by
  obtain ⟨each, between⟩ := chunk_ascending ascending
  refine List.Pairwise.imp_of_mem ?_ between
  intro first second firstMember secondMember across below
  by_contra reached
  obtain ⟨left, leftMember, above⟩ := exists_of_not_chunkBelow (filled first firstMember) (Bool.not_eq_true _ ▸ reached)
  obtain ⟨right, rightMember⟩ := List.exists_mem_of_ne_nil second (filled second secondMember)
  have less := below_of_chunkBelow monotone (each second secondMember) below right rightMember
  exact absurd (lt_of_le_of_lt (above.trans (monotone (across left leftMember right rightMember).le)) less) (lt_irrefl _)

private theorem before_chunkFor {borrow : κ → Q} (monotone : Monotone borrow) {index : PublishedNodeIndex κ}
    (valid : WellFormed index) (key : Q) :
    ∀ entry ∈ (index.chunks.take (chunkFor borrow index key)).flatten, borrow entry.1 < key := by
  intro entry member
  obtain ⟨chunk, chunkMember, inside⟩ := List.mem_flatten.mp member
  exact below_of_chunkBelow monotone ((chunk_ascending valid.ascending).1 chunk (List.mem_of_mem_take chunkMember))
    (before_partitionPoint chunkMember) entry inside

private theorem after_chunkFor {index : PublishedNodeIndex κ} (valid : WellFormed index) (key : κ)
    {chunk : List (κ × NodeId)} {rest : List (List (κ × NodeId))}
    (chosen : index.chunks.drop (chunkFor id index key) = chunk :: rest) : ∀ entry ∈ rest.flatten, key < entry.1 := by
  have prefixed := chunkBelow_prefixed monotone_id key valid.filled valid.ascending
  have member : chunk ∈ index.chunks.drop (chunkFor id index key) := chosen ▸ List.mem_cons_self
  obtain ⟨reached, inChunk, above⟩ :=
    exists_of_not_chunkBelow (valid.filled chunk (List.mem_of_mem_drop member)) (after_partitionPoint prefixed member)
  have ordered : Ascending (chunk :: rest).flatten := by
    have whole := valid.ascending
    rw [routes, ← List.take_append_drop (chunkFor id index key) index.chunks, List.flatten_append, chosen] at whole
    exact (List.pairwise_append.mp whole).2.1
  intro entry later
  obtain ⟨_, _, across⟩ := List.pairwise_append.mp (List.flatten_cons ▸ ordered)
  exact lt_of_le_of_lt above (across reached inChunk entry later)

private theorem insertion_chunk {index : PublishedNodeIndex κ} (valid : WellFormed index) (filled : index.chunks ≠ [])
    (key : κ) :
    ∃ before chunk after, index.chunks = before ++ chunk :: after ∧
      (if chunkFor id index key = index.chunks.length then chunkFor id index key - 1 else chunkFor id index key)
        = before.length ∧
      (∀ entry ∈ before.flatten, entry.1 < key) ∧ ∀ entry ∈ after.flatten, key < entry.1 := by
  have smaller := before_chunkFor monotone_id valid key
  have bound : chunkFor id index key ≤ index.chunks.length := partitionPoint_le
  cases chosen : index.chunks.drop (chunkFor id index key) with
  | nil =>
    have past : chunkFor id index key = index.chunks.length := le_antisymm bound (List.drop_eq_nil_iff.mp chosen)
    rw [past, List.take_length] at smaller
    obtain ⟨before, chunk, last⟩ := List.eq_nil_or_concat index.chunks |>.resolve_left filled
    rw [List.concat_eq_append] at last
    refine ⟨before, chunk, [], last, ?_, ?_, by simp⟩
    · rw [if_pos past, past, last]
      simp
    · intro entry member
      exact smaller entry (by rw [last, List.flatten_append]; exact List.mem_append_left _ member)
  | cons chunk after =>
    have inside : chunkFor id index key < index.chunks.length := by
      by_contra outside
      rw [List.drop_eq_nil_iff.mpr (not_lt.mp outside)] at chosen
      cases chosen
    refine ⟨index.chunks.take (chunkFor id index key), chunk, after, ?_, ?_, smaller, after_chunkFor valid key chosen⟩
    · rw [← chosen, List.take_append_drop]
    · rw [if_neg inside.ne, List.length_take_of_le inside.le]

private def Sized (chunk : List (κ × NodeId)) : Prop := chunk ≠ [] ∧ chunk.length ≤ publishedRoutesPerChunk

private theorem WellFormed.sized {index : PublishedNodeIndex κ} (valid : WellFormed index) :
    ∀ chunk ∈ index.chunks, Sized chunk :=
  fun chunk member => ⟨valid.filled chunk member, valid.bounded chunk member⟩

private theorem wellFormed_of_routes {index : PublishedNodeIndex κ} {expected : List (κ × NodeId)}
    (same : index.routes = expected) (sorted : Ascending expected) (counted : index.len = expected.length)
    (sizes : ∀ chunk ∈ index.chunks, Sized chunk) : WellFormed index :=
  ⟨fun chunk member => (sizes chunk member).1, fun chunk member => (sizes chunk member).2,
    same.symm ▸ sorted, same.symm ▸ counted⟩

/-- `insert` replaces the chosen chunk by one or two chunks with the new route. -/
private theorem insert_splices {index : PublishedNodeIndex κ} (valid : WellFormed index) (filled : index.chunks ≠ [])
    (key : κ) (node : NodeId) :
    ∃ before chunk after news, index.chunks = before ++ chunk :: after ∧
      (∀ entry ∈ before.flatten, entry.1 < key) ∧ (∀ entry ∈ after.flatten, key < entry.1) ∧
      (index.insert key node).1 = lookup key chunk ∧
      (index.insert key node).2.chunks = before ++ news ++ after ∧ news.flatten = insertEntry key node chunk ∧
      (index.insert key node).2.len + chunk.length = index.len + (insertEntry key node chunk).length ∧
      ∀ piece ∈ news, Sized piece := by
  obtain ⟨before, chunk, after, cut, position, smaller, greater⟩ := insertion_chunk valid filled key
  have chosen : index.chunks.getD before.length [] = chunk := by rw [cut]; simp
  have size : Sized chunk := valid.sized chunk (by rw [cut]; simp)
  have sorted : Ascending chunk := (chunk_ascending valid.ascending).1 chunk (by rw [cut]; simp)
  have replaced : ∀ piece, index.chunks.set before.length piece = before ++ piece :: after := by
    intro piece
    rw [cut]
    simp
  simp only [insert, List.isEmpty_iff, filled, if_false, position, chosen, replaced]
  rcases search_chunk sorted key with ⟨left, old, right, parts, below, found⟩ | ⟨left, right, parts, below, above, missed⟩
  · have there : lookup key chunk = some old := (lookup_eq_some sorted key old).mpr (by rw [parts]; simp)
    have hit : insertEntry key node chunk = left ++ (key, node) :: right := by rw [parts, insertEntry_hit right below]
    refine ⟨before, chunk, after, [chunk.set left.length (key, node)], cut, smaller, greater, ?_⟩
    simp only [found, there, hit]
    refine ⟨by rw [parts]; simp, by simp, by rw [parts]; simp, by rw [parts]; simp, ?_⟩
    intro piece member
    cases List.mem_singleton.mp member
    exact ⟨by rw [parts]; simp, by simpa using size.2⟩
  · have absent : lookup key chunk = none := by
      apply (lookup_eq_none key).mpr
      rw [parts]
      intro entry member
      rcases List.mem_append.mp member with earlier | later
      · exact (below entry earlier).ne
      · exact (above entry later).ne'
    have gap : insertEntry key node chunk = left ++ (key, node) :: right := by rw [parts, insertEntry_gap right below above]
    have grown : chunk.insertIdx left.length (key, node) = left ++ (key, node) :: right := by
      rw [parts, insertIdx_middle]
    have length : (left ++ (key, node) :: right).length = chunk.length + 1 := by rw [parts]; simp; omega
    have spare : publishedRoutesPerChunk = 128 := rfl
    simp only [missed, grown]
    generalize left ++ (key, node) :: right = wide at *
    split
    next full =>
      refine ⟨before, chunk, after, [wide.take (wide.length / 2), wide.drop (wide.length / 2)], cut, smaller, greater,
        absent.symm, ?_, by rw [gap]; simp, by rw [gap, length]; dsimp only; omega, ?_⟩
      · have apart : before.length + 1 = (before ++ [wide.take (wide.length / 2)]).length := by simp
        rw [List.append_cons, apart, insertIdx_middle]
        simp
      · have limit := size.2
        intro piece member
        rcases List.mem_cons.mp member with rfl | later
        · exact ⟨List.ne_nil_of_length_pos (by rw [List.length_take]; omega), by rw [List.length_take]; omega⟩
        · cases List.mem_singleton.mp later
          exact ⟨List.ne_nil_of_length_pos (by rw [List.length_drop]; omega), by rw [List.length_drop]; omega⟩
    next room =>
      refine ⟨before, chunk, after, [wide], cut, smaller, greater, absent.symm, by simp,
        by rw [gap]; simp, by rw [gap, length]; dsimp only; omega, ?_⟩
      intro piece member
      cases List.mem_singleton.mp member
      exact ⟨List.ne_nil_of_length_pos (by omega), not_lt.mp room⟩

theorem insert_spec {index : PublishedNodeIndex κ} (valid : WellFormed index) (key : κ) (node : NodeId) :
    (index.insert key node).1 = lookup key index.routes ∧
    (index.insert key node).2.routes = insertEntry key node index.routes ∧
    WellFormed (index.insert key node).2 := by
  by_cases filled : index.chunks = []
  · have empty : index.routes = [] := by rw [routes, filled]; rfl
    have result : index.insert key node = (none, ⟨[[(key, node)]], 1⟩) := by simp [insert, filled]
    rw [result, empty]
    refine ⟨rfl, rfl, wellFormed_of_routes rfl (List.pairwise_singleton _ _) rfl ?_⟩
    intro chunk member
    cases List.mem_singleton.mp member
    exact ⟨by simp, show 1 ≤ publishedRoutesPerChunk by decide⟩
  · obtain ⟨before, chunk, after, news, cut, smaller, greater, result, chunks, flat, length, sizes⟩ :=
      insert_splices valid filled key node
    have whole : index.routes = before.flatten ++ (chunk ++ after.flatten) := by rw [routes, cut]; simp
    have inserted : insertEntry key node index.routes = before.flatten ++ (insertEntry key node chunk ++ after.flatten) := by
      rw [whole, insertEntry_append_left _ smaller, insertEntry_append_right _ greater]
    have same : (index.insert key node).2.routes = insertEntry key node index.routes := by
      rw [inserted, routes, chunks, ← flat]
      simp
    refine ⟨?_, same, wellFormed_of_routes same (insertEntry_sorted valid.ascending) ?_ ?_⟩
    · rw [result, whole, lookup_append_of_ne (fun entry member => (smaller entry member).ne),
        lookup_append_of_absent _ (fun entry member => (greater entry member).ne')]
    · have counted := valid.counted
      rw [whole] at counted
      rw [inserted]
      simp only [List.length_append] at counted ⊢
      omega
    · rw [chunks]
      intro piece member
      rcases List.mem_append.mp member with earlier | later
      · rcases List.mem_append.mp earlier with first | middle
        · exact valid.sized piece (by rw [cut]; exact List.mem_append_left _ first)
        · exact sizes piece middle
      · exact valid.sized piece (by rw [cut]; exact List.mem_append_right _ (List.mem_cons_of_mem _ later))

omit [LinearOrder κ] in
private theorem sized_around {before after : List (List (κ × NodeId))} {piece : List (κ × NodeId)}
    (sizes : ∀ chunk ∈ before ++ after, Sized chunk) (here : Sized piece) : ∀ chunk ∈ before ++ piece :: after, Sized chunk := by
  intro chunk member
  rcases List.mem_append.mp member with earlier | later
  · exact sizes chunk (List.mem_append_left _ earlier)
  · rcases List.mem_cons.mp later with rfl | later
    · exact here
    · exact sizes chunk (List.mem_append_right _ later)

omit [LinearOrder κ] in
/-- Cleaning up after a removal moves routes between chunks but loses none. -/
private theorem settle_spec {before after : List (List (κ × NodeId))} (piece : List (κ × NodeId))
    (sizes : ∀ chunk ∈ before ++ after, Sized chunk) (limit : piece.length ≤ publishedRoutesPerChunk) :
    (settle (before ++ piece :: after) before.length).flatten = before.flatten ++ (piece ++ after.flatten) ∧
    ∀ chunk ∈ settle (before ++ piece :: after) before.length, Sized chunk := by
  have threshold : publishedRouteMergeThreshold ≤ publishedRoutesPerChunk := by decide
  have here : (before ++ piece :: after).getD before.length [] = piece := by simp
  simp only [settle, here]
  split
  next empty =>
    have gone : piece = [] := List.eq_nil_of_length_eq_zero empty
    rw [List.eraseIdx_append_of_length_le le_rfl]
    simp only [gone, Nat.sub_self, List.eraseIdx_cons_zero, List.flatten_append, List.nil_append, true_and]
    exact sizes
  next nonempty =>
    have remains : piece ≠ [] := fun gone => nonempty (by rw [gone]; rfl)
    split
    next merge =>
      obtain ⟨first, small⟩ := merge
      obtain ⟨init, previous, last⟩ := List.eq_nil_or_concat before |>.resolve_left (List.length_pos_iff.mp first)
      rw [List.concat_eq_append] at last
      subst last
      have neighbour : (init ++ [previous] ++ piece :: after).getD ((init ++ [previous]).length - 1) [] = previous := by
        simp
      rw [neighbour] at small ⊢
      have merged : ((init ++ [previous] ++ piece :: after).eraseIdx (init ++ [previous]).length).set
          ((init ++ [previous]).length - 1) (previous ++ piece) = init ++ (previous ++ piece) :: after := by
        rw [List.eraseIdx_append_of_length_le le_rfl]
        simp
      rw [merged]
      refine ⟨by simp, sized_around ?_ ⟨by simp [remains], by rw [List.length_append]; omega⟩⟩
      intro chunk member
      apply sizes
      rw [List.append_assoc]
      rcases List.mem_append.mp member with earlier | later
      · exact List.mem_append_left _ earlier
      · exact List.mem_append_right _ (List.mem_cons_of_mem _ later)
    next =>
      split
      next merge =>
        obtain ⟨inside, small⟩ := merge
        cases after with
        | nil => simp at inside
        | cons next rest =>
          have neighbour : (before ++ piece :: next :: rest).getD (before.length + 1) [] = next := by simp
          rw [neighbour] at small ⊢
          have merged : ((before ++ piece :: next :: rest).eraseIdx (before.length + 1)).set before.length (piece ++ next)
              = before ++ (piece ++ next) :: rest := by
            rw [List.eraseIdx_append_of_length_le (Nat.le_succ _)]
            simp
          rw [merged]
          refine ⟨by simp, sized_around ?_ ⟨by simp [remains], by rw [List.length_append]; omega⟩⟩
          intro chunk member
          apply sizes
          rcases List.mem_append.mp member with earlier | later
          · exact List.mem_append_left _ earlier
          · exact List.mem_append_right _ (List.mem_cons_of_mem _ later)
      next => exact ⟨by simp, sized_around sizes ⟨remains, limit⟩⟩

theorem remove_spec {index : PublishedNodeIndex κ} (valid : WellFormed index) (key : κ) :
    (index.remove key).1 = lookup key index.routes ∧
    (index.remove key).2.routes = eraseEntry key index.routes ∧
    WellFormed (index.remove key).2 := by
  have smaller := before_chunkFor monotone_id valid key
  have unchanged (absent : ∀ entry ∈ index.routes, entry.1 ≠ key) (result : index.remove key = (none, index)) :
      (index.remove key).1 = lookup key index.routes ∧
      (index.remove key).2.routes = eraseEntry key index.routes ∧ WellFormed (index.remove key).2 := by
    rw [result, (lookup_eq_none key).mpr absent, eraseEntry_absent absent]
    exact ⟨rfl, rfl, valid⟩
  cases chosen : index.chunks.drop (chunkFor id index key) with
  | nil =>
    apply unchanged
    · intro entry member
      rw [routes, ← List.take_append_drop (chunkFor id index key) index.chunks, chosen, List.append_nil] at member
      exact (smaller entry member).ne
    · have outside : index.chunks[chunkFor id index key]? = none :=
        List.getElem?_eq_none (List.drop_eq_nil_iff.mp chosen)
      simp [remove, outside]
  | cons chunk after =>
    have there : index.chunks[chunkFor id index key]? = some chunk := by rw [← List.head?_drop, chosen]; rfl
    have greater := after_chunkFor valid key chosen
    have cut : index.chunks = index.chunks.take (chunkFor id index key) ++ chunk :: after := by
      rw [← chosen, List.take_append_drop]
    have inside := (List.getElem?_eq_some_iff.mp there).1
    generalize position : chunkFor id index key = place at *
    have length : (index.chunks.take place).length = place := List.length_take_of_le inside.le
    generalize index.chunks.take place = before at *
    have whole : index.routes = before.flatten ++ (chunk ++ after.flatten) := by rw [routes, cut]; simp
    have sorted : Ascending chunk := (chunk_ascending valid.ascending).1 chunk (by rw [cut]; simp)
    rcases search_chunk sorted key with ⟨left, old, right, parts, below, found⟩ | ⟨left, right, parts, below, above, missed⟩
    · have fits : chunk.length ≤ publishedRoutesPerChunk := valid.bounded chunk (by rw [cut]; simp)
      have others : ∀ other ∈ before ++ after, Sized other := by
        intro other member
        apply valid.sized other
        rw [cut]
        rcases List.mem_append.mp member with earlier | later
        · exact List.mem_append_left _ earlier
        · exact List.mem_append_right _ (List.mem_cons_of_mem _ later)
      have erased : chunk.eraseIdx left.length = left ++ right := by
        rw [parts, List.eraseIdx_append_of_length_le le_rfl]
        simp
      have result : index.remove key = (some old, ⟨settle (before ++ (left ++ right) :: after) before.length, index.len - 1⟩) := by
        have value : chunk[left.length]? = some (key, old) := by rw [parts]; simp
        have replaced : index.chunks.set place (left ++ right) = before ++ (left ++ right) :: after := by
          rw [cut, ← length]
          simp
        simp [remove, position, there, found, erased, value, replaced, length]
      have short : (left ++ right).length + 1 = chunk.length := by rw [parts]; simp; omega
      obtain ⟨flat, sizes⟩ := settle_spec (left ++ right) others (by omega)
      have removed : eraseEntry key index.routes = before.flatten ++ ((left ++ right) ++ after.flatten) := by
        rw [whole, eraseEntry_append, eraseEntry_append, eraseEntry_absent (fun entry member => (smaller entry member).ne),
          eraseEntry_absent (fun entry member => (greater entry member).ne')]
        rw [parts] at sorted
        rw [parts, eraseEntry_hit sorted]
      rw [result]
      refine ⟨?_, flat.trans removed.symm, wellFormed_of_routes (flat.trans removed.symm)
        (eraseEntry_sorted valid.ascending) ?_ sizes⟩
      · rw [eq_comm, lookup_eq_some valid.ascending, whole, parts]
        simp
      · have counted := valid.counted
        rw [whole] at counted
        rw [removed]
        simp only [List.length_append] at counted short ⊢
        omega
    · apply unchanged
      · rw [whole, parts]
        intro entry member
        simp only [List.mem_append] at member
        rcases member with earlier | (lower | upper) | later
        · exact (smaller entry earlier).ne
        · exact (below entry lower).ne
        · exact (above entry upper).ne'
        · exact (greater entry later).ne'
      · simp [remove, position, there, missed]

omit [LinearOrder κ] in
private theorem firstForBoundLoop_eq {skip : κ → Bool} {chunks : List (List (κ × NodeId))}
    (prefixed : ∀ chunk ∈ chunks, Prefixed (fun entry : κ × NodeId => skip entry.1) chunk) :
    firstForBoundLoop skip chunks = chunks.flatten.find? (fun entry => !skip entry.1) := by
  induction chunks with
  | nil => rfl
  | cons chunk rest ih =>
    have head := head_drop_partitionPoint (prefixed chunk List.mem_cons_self)
    rw [List.head?_drop] at head
    rw [firstForBoundLoop, head, List.flatten_cons, List.find?_append,
      ih (fun other member => prefixed other (List.mem_cons_of_mem _ member))]
    cases chunk.find? (fun entry => !skip entry.1) <;> rfl

private theorem skip_prefixed {borrow : κ → Q} (monotone : Monotone borrow) {skip : Q → Bool}
    (downward : ∀ first second, first ≤ second → skip second = true → skip first = true)
    {chunk : List (κ × NodeId)} (sorted : Ascending chunk) :
    Prefixed (fun entry : κ × NodeId => skip (borrow entry.1)) chunk :=
  List.Pairwise.imp (fun below => downward _ _ (monotone below.le)) sorted

private theorem skipped_routes {borrow : κ → Q} (monotone : Monotone borrow) {index : PublishedNodeIndex κ}
    (valid : WellFormed index) (key : Q) (skip : Q → Bool) (skips : ∀ value, value < key → skip value = true)
    (downward : ∀ first second, first ≤ second → skip second = true → skip first = true) :
    firstForBoundLoop (fun candidate => skip (borrow candidate)) (index.chunks.drop (chunkFor borrow index key)) =
      index.routes.find? (fun entry => !skip (borrow entry.1)) := by
  have cut := congrArg List.flatten (List.take_append_drop (chunkFor borrow index key) index.chunks)
  rw [List.flatten_append] at cut
  have none : (index.chunks.take (chunkFor borrow index key)).flatten.find? (fun entry => !skip (borrow entry.1)) = none := by
    refine List.find?_eq_none.mpr ?_
    intro entry member
    simp [skips _ (before_chunkFor monotone valid key entry member)]
  rw [routes, ← cut, List.find?_append, none, Option.none_or]
  refine firstForBoundLoop_eq fun chunk member => skip_prefixed monotone downward ?_
  exact (chunk_ascending valid.ascending).1 chunk (List.mem_of_mem_drop member)

theorem firstForBound_eq (borrow : κ → Q) (monotone : Monotone borrow) {index : PublishedNodeIndex κ}
    (valid : WellFormed index) (bound : Bound Q) :
    index.firstForBound borrow bound = index.routes.find? (fun entry => Bound.admits borrow bound entry.1) := by
  cases bound with
  | unbounded =>
    obtain ⟨chunks, len⟩ := index
    cases chunks with
    | nil => rfl
    | cons chunk rest =>
      cases chunk with
      | nil => exact absurd rfl (valid.filled [] List.mem_cons_self)
      | cons entry others => rfl
  | included value =>
    refine (skipped_routes monotone valid value (fun other => decide (other < value)) (by simp) ?_).trans ?_
    · intro first second below less
      simp only [decide_eq_true_eq] at less ⊢
      exact lt_of_le_of_lt below less
    · congr 1
      funext entry
      simp [Bound.admits, ← not_lt]
  | excluded value =>
    refine (skipped_routes monotone valid value (fun other => decide (other ≤ value)) ?_ ?_).trans ?_
    · intro other less
      simpa using less.le
    · intro first second below less
      simp only [decide_eq_true_eq] at less ⊢
      exact below.trans less
    · congr 1
      funext entry
      simp [Bound.admits, ← not_le]

theorem lastKeyValue_eq {index : PublishedNodeIndex κ} (valid : WellFormed index) :
    index.lastKeyValue = index.routes.getLast? := by
  obtain ⟨chunks, len⟩ := index
  rcases List.eq_nil_or_concat chunks with rfl | ⟨before, chunk, last⟩
  · rfl
  · rw [List.concat_eq_append] at last
    subst last
    obtain ⟨rest, final, ending⟩ :=
      List.eq_nil_or_concat chunk |>.resolve_left (valid.filled chunk (by simp))
    simp [lastKeyValue, routes, ending]

theorem firstKeyValue_eq {index : PublishedNodeIndex κ} (valid : WellFormed index) :
    index.firstKeyValue = index.routes.head? := by
  have found := firstForBound_eq id monotone_id valid .unbounded
  simp only [firstForBound, Bound.admits] at found
  rw [found]
  cases index.routes <;> rfl

end WorkTablesIndex.PublishedNodeIndex
