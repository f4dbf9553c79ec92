import WorkTablesIndex.NodeSearch
import WorkTablesIndex.NodeLaws

/-! The custom node search keeps its contract on the slices in which no sum of two
positions overflows, and on no others. -/

universe u v w

namespace WorkTablesIndex.Node
open Slice

variable {α : Type u} {σ : Type v}

/-- What every pass keeps. The midpoint of an empty interval is never used, and may
be the remnant of an overflow. -/
structure Framed (length : Nat) (state : SearchState) : Prop where
  ordered : state.i ≤ state.j
  inside : state.j ≤ length
  middle : state.i < state.j → state.m = (state.i + state.j) / 2

theorem SearchState.Within.inside {length : Nat} {state : SearchState} (within : state.Within length) : state.m < length :=
  lt_of_lt_of_le within.2.1 within.2.2

theorem Framed.within {length : Nat} {state : SearchState} (framed : Framed length state) (unfinished : state.i ≠ state.j) :
    state.Within length := by
  have ordered := framed.ordered
  have middle := framed.middle (by omega)
  exact ⟨by omega, by omega, framed.inside⟩

theorem framed_start (length : Nat) : Framed length ⟨0, length, length / 2⟩ :=
  ⟨Nat.zero_le _, le_rfl, fun _ => by simp⟩

theorem Build.Fits.add {build : Build} {length : Nat} (fits : build.Fits length) (left right : Nat)
    (small : left + right ≤ 2 * length) :
    ∃ sum, build.add left right = .ok sum ∧ (left + right < 2 * length → sum = left + right) := by
  refine ⟨(left + right) % 2 ^ build.bits, ?_, ?_⟩
  · rw [Build.add, if_neg]
    intro overflow
    have checked : build.overflowChecks.toNat = 1 := by rw [overflow.1]; rfl
    have limit : 2 * length + build.overflowChecks.toNat ≤ 2 ^ build.bits := fits
    omega
  · intro less
    have limit : 2 * length + build.overflowChecks.toNat ≤ 2 ^ build.bits := fits
    exact Nat.mod_eq_of_lt (by omega)

theorem SearchState.next_lt {build : Build} {state : SearchState} {i sum : Nat} (raised : build.add state.m 1 = .ok i)
    (added : build.add i state.j = .ok sum) : state.next build .lt = .ok ⟨i, state.j, sum / 2⟩ := by
  simp [SearchState.next, raised, added, bind, Except.bind, pure, Except.pure]

theorem SearchState.next_gt {build : Build} {state : SearchState} {sum : Nat}
    (added : build.add state.i state.m = .ok sum) : state.next build .gt = .ok ⟨state.i, state.m, sum / 2⟩ := by
  simp [SearchState.next, added, bind, Except.bind, pure, Except.pure]

theorem Framed.next_lt {build : Build} {length : Nat} (fits : build.Fits length) {state : SearchState}
    (framed : Framed length state) (unfinished : state.i ≠ state.j) :
    ∃ m, state.next build .lt = .ok ⟨state.m + 1, state.j, m⟩ ∧ Framed length ⟨state.m + 1, state.j, m⟩ := by
  obtain ⟨_, high, inside⟩ := framed.within unfinished
  obtain ⟨i, raised, next⟩ := fits.add state.m 1 (by omega)
  obtain rfl := next (by omega)
  obtain ⟨sum, added, same⟩ := fits.add (state.m + 1) state.j (by omega)
  refine ⟨sum / 2, SearchState.next_lt raised added, high, inside, ?_⟩
  intro unfinished
  dsimp only at unfinished
  rw [same (by omega)]

theorem Framed.next_gt {build : Build} {length : Nat} (fits : build.Fits length) {state : SearchState}
    (framed : Framed length state) (unfinished : state.i ≠ state.j) :
    ∃ m, state.next build .gt = .ok ⟨state.i, state.m, m⟩ ∧ Framed length ⟨state.i, state.m, m⟩ := by
  obtain ⟨low, high, inside⟩ := framed.within unfinished
  obtain ⟨sum, added, same⟩ := fits.add state.i state.m (by omega)
  refine ⟨sum / 2, SearchState.next_gt added, low, high.le.trans inside, ?_⟩
  intro _
  rw [same (by omega)]

theorem customSearchLoop_finished (build : Build) (haystack : List α) (cmp : σ → α → Ordering × σ) (passes : Nat)
    (memory : σ) {state : SearchState} (same : state.i = state.j) :
    customSearchLoop build haystack cmp (passes + 1) memory state = ([], some (.returned (.error state.i))) := by
  rw [customSearchLoop, if_pos same]

theorem customSearchLoop_reads (build : Build) {haystack : List α} (cmp : σ → α → Ordering × σ) (memory : σ)
    (state : SearchState) (unfinished : state.i ≠ state.j) (inside : state.m < haystack.length)
    (asserted : build.debugAssertions = true → state.Within haystack.length) :
    ∃ candidate, haystack[state.m]? = some candidate ∧
      (∀ outcome passes, state.next build (cmp memory candidate).1 = .error outcome →
        customSearchLoop build haystack cmp (passes + 1) memory state = ([state], some outcome)) ∧
      ∀ next passes, state.next build (cmp memory candidate).1 = .ok next →
        customSearchLoop build haystack cmp (passes + 1) memory state =
          (state :: (customSearchLoop build haystack cmp passes (cmp memory candidate).2 next).1,
            (customSearchLoop build haystack cmp passes (cmp memory candidate).2 next).2) := by
  have there := List.getElem?_eq_getElem inside
  have passed : ¬ (build.debugAssertions = true ∧ ¬ state.Within haystack.length) := fun failed => failed.2 (asserted failed.1)
  refine ⟨haystack[state.m], there, ?_, ?_⟩
  · intro outcome passes ended
    simp only [customSearchLoop, if_neg unfinished, if_neg passed, there, ended]
  · intro next passes moved
    simp only [customSearchLoop, if_neg unfinished, if_neg passed, there, moved]

/-- From this state, `gap` passes are enough to return the result with every read inside the interval. -/
def Settles (build : Build) (haystack : List α) (cmp : σ → α → Ordering × σ) (gap : Nat) (memory : σ) (state : SearchState)
    (result : Except Nat Nat) : Prop :=
  ∀ passes, gap ≤ passes →
    (customSearchLoop build haystack cmp (passes + 1) memory state).2 = some (.returned result) ∧
    ∀ read ∈ (customSearchLoop build haystack cmp (passes + 1) memory state).1, read.Within haystack.length

section Settling
variable {build : Build} {haystack : List α} (cmp : σ → α → Ordering × σ) (memory : σ) {state : SearchState}

theorem settles_finished (gap : Nat) (same : state.i = state.j) :
    Settles build haystack cmp gap memory state (.error state.i) := by
  intro passes _
  rw [customSearchLoop_finished build haystack cmp passes memory same]
  simp

theorem settles_next (framed : Framed haystack.length state) (unfinished : state.i ≠ state.j) :
    ∃ ordering after, (state.next build ordering = .error (.returned (.ok state.m)) →
        ∀ gap, Settles build haystack cmp gap memory state (.ok state.m)) ∧
      ∀ gap next result, state.next build ordering = .ok next → Settles build haystack cmp gap after next result →
        Settles build haystack cmp (gap + 1) memory state result := by
  have within := framed.within unfinished
  obtain ⟨candidate, _, ends, moves⟩ := customSearchLoop_reads build cmp memory state unfinished within.inside (fun _ => within)
  refine ⟨(cmp memory candidate).1, (cmp memory candidate).2, ?_, ?_⟩
  · intro found gap passes _
    rw [ends _ passes found]
    exact ⟨rfl, List.forall_mem_singleton.mpr within⟩
  · intro gap next result moved rest passes enough
    obtain ⟨passes, rfl⟩ := Nat.exists_eq_add_of_le' (Nat.le_of_add_left_le enough)
    obtain ⟨returned, reads⟩ := rest passes (by omega)
    rw [moves next (passes + 1) moved]
    exact ⟨returned, List.forall_mem_cons.mpr ⟨within, reads⟩⟩

end Settling

/-- Whatever the comparison answers, the loop returns and stays inside its interval. -/
theorem settles {build : Build} {haystack : List α} (fits : build.Fits haystack.length) (cmp : σ → α → Ordering × σ)
    (gap : Nat) (memory : σ) (state : SearchState) (framed : Framed haystack.length state)
    (small : state.j - state.i ≤ gap) : ∃ result, Settles build haystack cmp gap memory state result := by
  -- The gap pays for the passes: it shrinks in each one that does not return.
  induction gap generalizing memory state with
  | zero =>
    have ordered := framed.ordered
    exact ⟨.error state.i, settles_finished cmp memory 0 (by omega)⟩
  | succ gap ih =>
    by_cases same : state.i = state.j
    · exact ⟨.error state.i, settles_finished cmp memory (gap + 1) same⟩
    · obtain ⟨low, high, _⟩ := framed.within same
      obtain ⟨ordering, after, ends, moves⟩ := settles_next cmp memory framed same
      cases ordering with
      | eq => exact ⟨.ok state.m, ends rfl (gap + 1)⟩
      | lt =>
        obtain ⟨m, moved, kept⟩ := framed.next_lt fits same
        obtain ⟨result, rest⟩ := ih after _ kept (by dsimp only; omega)
        exact ⟨result, moves gap _ result moved rest⟩
      | gt =>
        obtain ⟨m, moved, kept⟩ := framed.next_gt fits same
        obtain ⟨result, rest⟩ := ih after _ kept (by dsimp only; omega)
        exact ⟨result, moves gap _ result moved rest⟩

private theorem Framed.searchLoop_middle {haystack : List α} {state : SearchState} (framed : Framed haystack.length state)
    (cmp : α → Ordering) (fuel : Nat) :
    searchLoop haystack cmp fuel state.i state.j ((state.i + state.j) / 2) =
      searchLoop haystack cmp fuel state.i state.j state.m := by
  by_cases same : state.i = state.j
  · cases fuel with
    | zero => rfl
    | succ fuel => rw [searchLoop, searchLoop, if_pos same, if_pos same]
  · rw [framed.middle (lt_of_le_of_ne framed.ordered same)]

theorem customSearchLoop_consistent {build : Build} {haystack : List α} (fits : build.Fits haystack.length)
    (cmp : α → Ordering) (gap passes : Nat) (state : SearchState) (framed : Framed haystack.length state)
    (small : state.j - state.i ≤ gap) (enough : gap ≤ passes) :
    (customSearchLoop build haystack (consistent cmp) (passes + 1) () state).2 =
      some (.returned (searchLoop haystack cmp gap state.i state.j state.m)) := by
  induction gap generalizing passes state with
  | zero =>
    rw [customSearchLoop_finished build haystack (consistent cmp) passes () (by have := framed.ordered; omega), searchLoop]
  | succ gap ih =>
    by_cases same : state.i = state.j
    · rw [customSearchLoop_finished build haystack (consistent cmp) passes () same, searchLoop, if_pos same]
    · have within := framed.within same
      obtain ⟨candidate, there, ends, moves⟩ := customSearchLoop_reads build (consistent cmp) () state same
        within.inside (fun _ => within)
      obtain ⟨passes, rfl⟩ := Nat.exists_eq_add_of_le' (Nat.le_of_add_left_le enough)
      obtain ⟨low, high, _⟩ := within
      simp only [searchLoop, if_neg same, there]
      cases compared : cmp candidate with
      | eq => rw [ends (.returned (.ok state.m)) (passes + 1) (by rw [consistent, compared]; rfl)]
      | lt =>
        obtain ⟨m, moved, kept⟩ := framed.next_lt fits same
        rw [moves _ (passes + 1) (compared ▸ moved), kept.searchLoop_middle cmp gap]
        exact ih passes _ kept (by dsimp only; omega) (by omega)
      | gt =>
        obtain ⟨m, moved, kept⟩ := framed.next_gt fits same
        rw [moves _ (passes + 1) (compared ▸ moved), kept.searchLoop_middle cmp gap]
        exact ih passes _ kept (by dsimp only; omega) (by omega)

theorem returns_of_fits {build : Build} {haystack : List α} (fits : build.Fits haystack.length)
    (cmp : σ → α → Ordering × σ) (memory : σ) : ∃ result, Returns build haystack cmp memory result := by
  obtain ⟨result, loop⟩ := settles fits cmp haystack.length memory _ (framed_start _) (Nat.sub_le _ _)
  refine ⟨result, haystack.length + 1, ?_⟩
  intro passes enough
  obtain ⟨passes, rfl⟩ := Nat.exists_eq_add_of_le' (Nat.le_of_add_left_le enough)
  exact loop passes (by omega)

theorem returns_search {build : Build} {haystack : List α} (fits : build.Fits haystack.length) (cmp : α → Ordering) :
    Returns build haystack (consistent cmp) () (search haystack cmp) := by
  obtain ⟨result, enough, returns⟩ := returns_of_fits fits (consistent cmp) ()
  have same : result = search haystack cmp := by
    have returned := (returns (enough + haystack.length + 1) (by omega)).1
    have computed := customSearchLoop_consistent fits cmp haystack.length (enough + haystack.length) _ (framed_start _)
      (Nat.sub_le _ _) (Nat.le_add_left _ _)
    have equal := returned.symm.trans computed
    simpa [search] using equal
  subst same
  exact ⟨enough, returns⟩

theorem locates_error {haystack : List α} {cmp : α → Ordering} {position : Nat} (inside : position ≤ haystack.length)
    (smaller : ∀ item ∈ haystack.take position, cmp item = .lt)
    (greater : ∀ item ∈ haystack.drop position, cmp item = .gt) : Locates haystack cmp (.error position) := by
  constructor
  · intro item member
    rw [← List.take_append_drop position haystack] at member
    rcases List.mem_append.mp member with before | after
    · simp [smaller item before]
    · simp [greater item after]
  · have counted : (haystack.take position).countP (fun item => cmp item == .lt) = position := by
      rw [List.countP_eq_length.mpr (fun item member => by simp [smaller item member]), List.length_take_of_le inside]
    have missed : (haystack.drop position).countP (fun item => cmp item == .lt) = 0 :=
      List.countP_eq_zero.mpr (fun item member => by simp [greater item member])
    conv_rhs => rw [← List.take_append_drop position haystack]
    rw [List.countP_append, counted, missed]
    rfl

theorem locates_search {haystack : List α} {cmp : α → Ordering} (ordered : Searchable cmp haystack) :
    Locates haystack cmp (search haystack cmp) := by
  cases found : search haystack cmp with
  | ok position => exact search_ok found
  | error position =>
    obtain ⟨inside, smaller, greater⟩ := search_error ordered found
    exact locates_error inside smaller greater

theorem LowerBound.locates {lowerBoundBy : (α → Ordering) → List α → Nat} (lower : LowerBound lowerBoundBy)
    {haystack : List α} {cmp : α → Ordering} (ordered : Searchable cmp haystack) :
    Locates haystack cmp (supersliceSearch lowerBoundBy haystack cmp) := by
  obtain ⟨inside, smaller, reached⟩ := lower cmp haystack ordered
  simp only [supersliceSearch]
  split
  next candidate there =>
    split
    next equal => exact ⟨candidate, there, equal⟩
    next different =>
      apply locates_error inside smaller
      have above : cmp candidate = .gt := by
        cases compared : cmp candidate with
        | lt => exact absurd compared (reached candidate there)
        | eq => exact absurd compared different
        | gt => rfl
      have tail : haystack.drop (lowerBoundBy cmp haystack) = candidate :: haystack.drop (lowerBoundBy cmp haystack + 1) := by
        obtain ⟨bound, rfl⟩ := List.getElem?_eq_some_iff.mp there
        exact List.drop_eq_getElem_cons bound
      have later : Searchable cmp (haystack.drop (lowerBoundBy cmp haystack)) := ordered.sublist (List.drop_sublist _ _)
      rw [tail] at later ⊢
      refine List.forall_mem_cons.mpr ⟨above, ?_⟩
      intro item member
      exact ((List.pairwise_cons.mp later).1 item member).2 above
  next outside =>
    apply locates_error inside smaller
    rw [List.drop_eq_nil_of_le (List.getElem?_eq_none_iff.mp outside)]
    simp

theorem lowerBound_partitionPoint :
    LowerBound (fun (cmp : α → Ordering) haystack => partitionPoint (fun item => cmp item == .lt) haystack) := by
  intro cmp haystack ordered
  have prefixed : Prefixed (fun item => cmp item == .lt) haystack := by
    apply List.Pairwise.imp _ ordered
    intro first second related less
    rw [beq_iff_eq] at less ⊢
    exact related.1 less
  refine ⟨partitionPoint_le, ?_, ?_⟩
  · intro item member
    have less := before_partitionPoint member
    exact beq_iff_eq.mp less
  · intro item there less
    rw [← List.head?_drop] at there
    have reached := after_partitionPoint prefixed (List.mem_of_head? there)
    simp [less] at reached

theorem StrictlySearchable.searchable {haystack : List α} {cmp : α → Ordering} (strict : StrictlySearchable cmp haystack) :
    Searchable cmp haystack := by
  apply List.Pairwise.imp _ strict
  intro first second apart
  constructor
  · intro less
    by_contra reached
    rw [apart reached] at less
    cases less
  · intro more
    exact apart (by rw [more]; decide)

theorem Locates.unique {haystack : List α} {cmp : α → Ordering} (strict : StrictlySearchable cmp haystack)
    {first second : Except Nat Nat} (left : Locates haystack cmp first) (right : Locates haystack cmp second) :
    first = second := by
  have single {low high : Nat} (lower : Locates haystack cmp (.ok low)) (upper : Locates haystack cmp (.ok high)) :
      high ≤ low := by
    obtain ⟨item, there, equal⟩ := lower
    obtain ⟨other, elsewhere, same⟩ := upper
    by_contra before
    obtain ⟨inside, rfl⟩ := List.getElem?_eq_some_iff.mp there
    obtain ⟨bound, rfl⟩ := List.getElem?_eq_some_iff.mp elsewhere
    have apart := List.pairwise_iff_getElem.mp strict low high inside bound (not_le.mp before)
    rw [apart (by rw [equal]; decide)] at same
    cases same
  have missing {position other : Nat} (found : Locates haystack cmp (.ok position)) (missed : Locates haystack cmp (.error other)) :
      False := by
    obtain ⟨item, there, equal⟩ := found
    exact missed.1 item (List.mem_of_getElem? there) equal
  cases first with
  | ok low =>
    cases second with
    | ok high => rw [le_antisymm (single right left) (single left right)]
    | error _ => exact (missing left right).elim
  | error low =>
    cases second with
    | ok _ => exact (missing right left).elim
    | error high => rw [left.2, right.2]

theorem Sorted.strictlySearchable {κ : Type v} {Q : Type w} [LinearOrder κ] [Keyed α κ] [LinearOrder Q] {node : List α}
    (sorted : Sorted node) {borrow : κ → Q} (strict : StrictMono borrow) (needle : Q) :
    StrictlySearchable (compareBorrowed borrow needle) node := by
  apply List.Pairwise.imp _ sorted
  intro first second below reached
  simp only [compareBorrowed, ne_eq, compare_lt_iff_lt, compare_gt_iff_gt, not_lt] at reached ⊢
  exact lt_of_le_of_lt reached (strict below)

def smallest : Unit → α → Ordering × Unit := fun _ _ => (.lt, ())

theorem read_recorded {build : Build} (release : build.debugAssertions = false) (haystack : List α)
    (cmp : σ → α → Ordering × σ) (passes : Nat) (memory : σ) {state : SearchState} (unfinished : state.i ≠ state.j) :
    state ∈ (customSearchLoop build haystack cmp (passes + 1) memory state).1 := by
  rw [customSearchLoop, if_neg unfinished, if_neg (by simp [release])]
  split
  · exact List.mem_singleton_self _
  · split
    · exact List.mem_singleton_self _
    · exact List.mem_cons_self

/-- The loop cannot return from an interval whose midpoint is outside it. -/
theorem strayed {build : Build} {haystack : List α} (cmp : σ → α → Ordering × σ) (passes : Nat) (memory : σ)
    {state : SearchState} (unfinished : state.i ≠ state.j) (outside : ¬ state.Within haystack.length) (result : Except Nat Nat)
    (returned : (customSearchLoop build haystack cmp (passes + 1) memory state).2 = some (.returned result)) :
    ¬ ∀ read ∈ (customSearchLoop build haystack cmp (passes + 1) memory state).1, read.Within haystack.length := by
  intro inside
  cases checked : build.debugAssertions with
  | false => exact outside (inside state (read_recorded checked haystack cmp passes memory unfinished))
  | true =>
    rw [customSearchLoop, if_neg unfinished, if_pos ⟨checked, outside⟩] at returned
    cases returned

theorem Build.add_small {build : Build} {left right : Nat} (small : left + right < 2 ^ build.bits) :
    build.add left right = .ok (left + right) := by
  rw [Build.add, if_neg (fun overflow => absurd overflow.2 (not_le.mpr small)), Nat.mod_eq_of_lt small]

theorem Build.add_wraps {build : Build} (unchecked : build.overflowChecks = false) (left right : Nat) :
    build.add left right = .ok ((left + right) % 2 ^ build.bits) := by
  rw [Build.add, if_neg (by simp [unchecked])]

theorem Build.add_panics {build : Build} (checked : build.overflowChecks = true) {left right : Nat}
    (overflow : 2 ^ build.bits ≤ left + right) : build.add left right = .error .panicked := by
  rw [Build.add, if_pos ⟨checked, overflow⟩]

theorem SearchState.next_panics {build : Build} {state : SearchState} {i : Nat} (raised : build.add state.m 1 = .ok i)
    (overflow : build.add i state.j = .error .panicked) : state.next build .lt = .error .panicked := by
  simp [SearchState.next, raised, overflow, bind, Except.bind]

private theorem one_or_even (bits : Nat) : 2 ^ bits = 1 ∨ 2 ^ bits % 2 = 0 := by
  cases bits with
  | zero => exact Or.inl rfl
  | succ bits => exact Or.inr (by rw [Nat.pow_succ]; omega)

def climbing (length i : Nat) : SearchState := ⟨i, length, (i + length) / 2⟩

/-- One pass up a slice that does not fit: it panics, or it leaves a midpoint outside the
interval, or it climbs. It cannot finish, because the two sums before would overflow. -/
theorem climb {build : Build} {length : Nat} (representable : length < 2 ^ build.bits) (tight : ¬ build.Fits length) {i : Nat}
    (inside : i < length) (sound : i + length < 2 ^ build.bits) :
    (climbing length i).next build .lt = .error .panicked ∨
    ∃ next, (climbing length i).next build .lt = .ok next ∧ next.i ≠ next.j ∧
      (¬ next.Within length ∨
        ∃ higher, next = climbing length higher ∧ i < higher ∧ higher < length ∧ higher + length < 2 ^ build.bits) := by
  have wide : 2 ^ build.bits < 2 * length + build.overflowChecks.toNat := not_le.mp tight
  have parity := one_or_even build.bits
  have raised : build.add (climbing length i).m 1 = .ok ((i + length) / 2 + 1) :=
    Build.add_small (show (i + length) / 2 + 1 < _ by omega)
  generalize risen : (i + length) / 2 + 1 = higher at raised
  by_cases overflow : 2 ^ build.bits ≤ higher + length
  · cases checked : build.overflowChecks with
    | true => exact Or.inl (SearchState.next_panics raised (Build.add_panics checked overflow))
    | false =>
      rw [checked, Bool.toNat_false, Nat.add_zero] at wide
      refine Or.inr ⟨_, SearchState.next_lt raised (Build.add_wraps checked _ _), ?_, Or.inl ?_⟩
      · dsimp only [climbing]
        omega
      · intro within
        have low := within.1
        dsimp only [climbing] at low
        rw [Nat.mod_eq_sub_mod overflow, Nat.mod_eq_of_lt (by omega)] at low
        omega
  · have unchecked := Bool.toNat_le build.overflowChecks
    refine Or.inr ⟨_, SearchState.next_lt raised (Build.add_small (not_le.mp overflow)), ?_, Or.inr ⟨higher, rfl, ?_, ?_, ?_⟩⟩
    · dsimp only [climbing]
      omega
    · omega
    · omega
    · omega

/-- Climbing past every element of a slice that does not fit, the search strays or panics. -/
theorem climb_strays {build : Build} {haystack : List α} (representable : haystack.length < 2 ^ build.bits)
    (tight : ¬ build.Fits haystack.length) (gap : Nat) {i : Nat} (inside : i < haystack.length)
    (sound : i + haystack.length < 2 ^ build.bits) (small : haystack.length - i ≤ gap) {passes : Nat} (enough : gap ≤ passes)
    {result : Except Nat Nat}
    (returned : (customSearchLoop build haystack smallest (passes + 1) () (climbing haystack.length i)).2 =
      some (.returned result)) :
    ¬ ∀ read ∈ (customSearchLoop build haystack smallest (passes + 1) () (climbing haystack.length i)).1,
      read.Within haystack.length := by
  induction gap generalizing i passes with
  | zero => omega
  | succ gap ih =>
    have within : (climbing haystack.length i).Within haystack.length := by
      dsimp only [climbing, SearchState.Within]
      omega
    obtain ⟨candidate, _, ends, moves⟩ := customSearchLoop_reads build smallest () (climbing haystack.length i) inside.ne
      within.inside (fun _ => within)
    obtain ⟨passes, rfl⟩ := Nat.exists_eq_add_of_le' (Nat.le_of_add_left_le enough)
    rcases climb representable tight inside sound with panics | ⟨next, moved, unfinished, further⟩
    · rw [ends _ (passes + 1) panics] at returned
      cases returned
    · rw [moves next (passes + 1) moved] at returned ⊢
      intro reads
      have rest := (List.forall_mem_cons.mp reads).2
      rcases further with outside | ⟨higher, rfl, above, below, sums⟩
      · exact strayed _ passes () unfinished outside result returned rest
      · exact ih below sums (by omega) (by omega) returned rest

section Full
variable {haystack : List α} {bits : Nat} (full : haystack.length + 1 = 2 ^ bits) (several : 2 ≤ haystack.length)
include full several

/-- Each overflow halves the midpoint while the upper end stays, so the loop goes on for ever. -/
theorem full_slice_pass {i m : Nat} (unfinished : i ≠ haystack.length) (half : 2 * m + 1 ≤ haystack.length) (passes : Nat) :
    customSearchLoop ⟨bits, false, false⟩ haystack smallest (passes + 1) () ⟨i, haystack.length, m⟩ =
      (⟨i, haystack.length, m⟩ ::
        (customSearchLoop ⟨bits, false, false⟩ haystack smallest passes () ⟨m + 1, haystack.length, m / 2⟩).1,
        (customSearchLoop ⟨bits, false, false⟩ haystack smallest passes () ⟨m + 1, haystack.length, m / 2⟩).2) := by
  have inside : m < haystack.length := by omega
  obtain ⟨_, _, _, moves⟩ := customSearchLoop_reads ⟨bits, false, false⟩ smallest () ⟨i, haystack.length, m⟩ unfinished inside
    (by simp)
  have raised : Build.add ⟨bits, false, false⟩ m 1 = .ok (m + 1) := Build.add_small (by dsimp only; omega)
  have wrapped : Build.add ⟨bits, false, false⟩ (m + 1) haystack.length = .ok m := by
    rw [Build.add_wraps rfl, ← full, Nat.add_assoc, Nat.add_comm 1, Nat.add_mod_right, Nat.mod_eq_of_lt (by omega)]
  exact moves _ passes (SearchState.next_lt raised wrapped)

theorem full_slice_endless (passes : Nat) {i m : Nat} (unfinished : i ≠ haystack.length)
    (half : 2 * m + 1 ≤ haystack.length) :
    (customSearchLoop ⟨bits, false, false⟩ haystack smallest passes () ⟨i, haystack.length, m⟩).2 = none := by
  induction passes generalizing i m with
  | zero => rfl
  | succ passes ih =>
    rw [full_slice_pass full several unfinished half]
    exact ih (by omega) (by omega)

end Full

section Contract
variable {lowerBoundBy : (α → Ordering) → List α → Nat} (lower : LowerBound lowerBoundBy)
include lower

theorem contract_of_fits {build : Build} {haystack : List α} (fits : build.Fits haystack.length) : SearchContract lowerBoundBy build haystack where
  safe _ cmp memory := returns_of_fits fits cmp memory
  locates cmp ordered := ⟨search haystack cmp, returns_search fits cmp, locates_search ordered⟩
  agrees cmp strict := by
    rw [← (locates_search strict.searchable).unique strict (lower.locates strict.searchable)]
    exact returns_search fits cmp

theorem Sorted.backends_agree {κ : Type v} {Q : Type w} [LinearOrder κ] [Keyed α κ] [LinearOrder Q] {node : List α}
    (sorted : Sorted node) {build : Build} (fits : build.Fits node.length) {borrow : κ → Q} (strict : StrictMono borrow) (needle : Q) :
    Returns build node (consistent (compareBorrowed borrow needle)) ()
      (supersliceSearch lowerBoundBy node (compareBorrowed borrow needle)) :=
  (contract_of_fits lower fits).agrees _ (sorted.strictlySearchable strict needle)

/-- Elements that take up space fit, since no slice is larger than `isize::MAX` bytes. -/
theorem sized_contract {build : Build} {haystack : List α} {size : Nat} (sized : 0 < size)
    (allocated : 2 * (size * haystack.length + 1) ≤ 2 ^ build.bits) :
    SearchContract lowerBoundBy build haystack := by
  apply contract_of_fits lower
  have length : haystack.length ≤ size * haystack.length := Nat.le_mul_of_pos_left _ sized
  have checks := Bool.toNat_le build.overflowChecks
  rw [Build.Fits]
  omega

/-- A slice of a `usize` length is searched as asked exactly when it fits. -/
theorem search_contract_iff_fits (build : Build) (haystack : List α) (representable : haystack.length < 2 ^ build.bits) :
    SearchContract lowerBoundBy build haystack ↔ build.Fits haystack.length := by
  refine ⟨?_, contract_of_fits lower⟩
  intro contract
  by_contra tight
  have filled : 0 < haystack.length := by
    apply Nat.pos_of_ne_zero
    intro empty
    have checks := Bool.toNat_le build.overflowChecks
    rw [Build.Fits] at tight
    omega
  obtain ⟨result, enough, returns⟩ := contract.safe Unit smallest ()
  obtain ⟨returned, reads⟩ := returns (enough + haystack.length + 1) (by omega)
  have start : (⟨0, haystack.length, haystack.length / 2⟩ : SearchState) = climbing haystack.length 0 := by simp [climbing]
  rw [customSearch, start] at returned reads
  exact climb_strays representable tight haystack.length filled (by omega) (Nat.sub_le _ _) (Nat.le_add_left _ _) returned reads

end Contract

theorem short_slice_contract :
    SearchContract (fun cmp (haystack : List Nat) => partitionPoint (fun item => cmp item == .lt) haystack)
      ⟨64, true, true⟩ [2, 4, 8] :=
  (search_contract_iff_fits lowerBound_partitionPoint ⟨64, true, true⟩ [2, 4, 8] (by decide)).mpr (by decide)

/-- A 64-bit release build and a slice of the greatest length, every element of it below
the needle: the second read is below its interval, and the search never returns. -/
theorem full_slice_search_hangs :
    (∃ read ∈ (customSearch ⟨64, false, false⟩ (List.replicate (2 ^ 64 - 1) ()) smallest 2 ()).1,
      read = ⟨2 ^ 63, 2 ^ 64 - 1, 2 ^ 62 - 1⟩ ∧ ¬ read.Within (2 ^ 64 - 1)) ∧
    ∀ passes, (customSearch ⟨64, false, false⟩ (List.replicate (2 ^ 64 - 1) ()) smallest passes ()).2 = none := by
  have length : (List.replicate (2 ^ 64 - 1) ()).length = 2 ^ 64 - 1 := List.length_replicate
  generalize List.replicate (2 ^ 64 - 1) () = haystack at length
  have full : haystack.length + 1 = 2 ^ 64 := by omega
  have several : 2 ≤ haystack.length := by omega
  constructor
  · refine ⟨_, ?_, rfl, by decide⟩
    rw [customSearch, full_slice_pass full several (by omega) (by omega), full_slice_pass full several (by omega) (by omega),
      length]
    simp
  · intro passes
    exact full_slice_endless full several passes (by omega) (by omega)

end WorkTablesIndex.Node
