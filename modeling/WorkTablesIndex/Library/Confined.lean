import Mathlib.Data.Set.Defs

/-! Events that read and write only the places they claim. Events of disjoint claims
commute, so the events that several actors still owe may be made in any order that keeps
the order of each actor, and lead to the same state. -/

universe u v w x

namespace WorkTablesIndex

variable {σ : Type u} {ε : Type v} {ι : Type w} {ν : Type x} {view : σ → ι → ν} {run : σ → ε → Option σ}

def AgreeOn (view : σ → ι → ν) (places : Set ι) (first second : σ) : Prop :=
  ∀ place ∈ places, view first place = view second place

/-- Places, with a condition on what they hold. -/
structure Claim (view : σ → ι → ν) where
  places : Set ι
  tame : σ → Prop
  reads : ∀ {first second}, tame first → AgreeOn view places first second → tame second

def Claim.Apart (first second : Claim view) : Prop := ∀ place ∈ first.places, place ∉ second.places

/-- The event depends on the claimed places only and changes no other. -/
structure Confined (run : σ → ε → Option σ) (claim : Claim view) (event : ε) : Prop where
  keeps : ∀ {before after}, claim.tame before → run before event = some after → claim.tame after
  frame : ∀ {before after}, claim.tame before → run before event = some after → ∀ place ∉ claim.places,
    view after place = view before place
  reads : ∀ {before after other}, claim.tame before → run before event = some after → AgreeOn view claim.places before other →
    ∃ result, run other event = some result ∧ AgreeOn view claim.places after result

structure Owed (ε : Type v) (view : σ → ι → ν) where
  claim : Claim view
  events : List ε

/-- From the present state the events of all actors, one actor after the other, lead to
the target. -/
structure Owes (run : σ → ε → Option σ) (pool : List (Owed ε view)) (now target : σ) : Prop where
  apart : pool.Pairwise fun first second => first.claim.Apart second.claim
  confined : ∀ owed ∈ pool, ∀ event ∈ owed.events, Confined run owed.claim event
  tame : ∀ owed ∈ pool, owed.claim.tame now
  leads : (pool.flatMap Owed.events).foldlM run now = some target

variable {claim other : Claim view} {event : ε} {events : List ε} {before middle after : σ}

theorem AgreeOn.symm {places : Set ι} (agree : AgreeOn view places before after) : AgreeOn view places after before :=
  fun place inside => (agree place inside).symm

theorem Claim.Apart.symm (apart : claim.Apart other) : other.Apart claim :=
  fun place theirs mine => apart place mine theirs

theorem Claim.tame_off (apart : claim.Apart other) (tame : other.tame before)
    (frame : ∀ place ∉ claim.places, view after place = view before place) : other.tame after :=
  other.reads tame fun place inside => (frame place (apart.symm place inside)).symm

theorem confined_run (confined : ∀ event ∈ events, Confined run claim event) (tame : claim.tame before)
    (ran : events.foldlM run before = some after) :
    claim.tame after ∧ (∀ place ∉ claim.places, view after place = view before place) ∧
      ∀ other, AgreeOn view claim.places before other →
        ∃ result, events.foldlM run other = some result ∧ AgreeOn view claim.places after result := by
  induction events generalizing before with
  | nil =>
    cases ran
    exact ⟨tame, fun _ _ => rfl, fun other agree => ⟨other, rfl, agree⟩⟩
  | cons event rest ih =>
    obtain ⟨middle, first, later⟩ := Option.bind_eq_some_iff.mp (List.foldlM_cons.symm.trans ran)
    have head := confined event List.mem_cons_self
    obtain ⟨kept, frame, reads⟩ := ih (fun event member => confined event (List.mem_cons_of_mem _ member))
      (head.keeps tame first) later
    refine ⟨kept, fun place away => ?_, fun other agree => ?_⟩
    · rw [frame place away, head.frame tame first place away]
    · obtain ⟨next, made, alike⟩ := head.reads tame first agree
      obtain ⟨result, rest, same⟩ := reads next alike
      refine ⟨result, ?_, same⟩
      rw [List.foldlM_cons, made]
      exact rest

/-- An event may be made before events of another claim. -/
theorem Confined.swap (separates : ∀ first second : σ, (∀ place, view first place = view second place) → first = second)
    (apart : claim.Apart other) (confined : ∀ event ∈ events, Confined run claim event)
    (late : Confined run other event) (tame : claim.tame before) (calm : other.tame before)
    (ran : events.foldlM run before = some middle) (made : run middle event = some after) :
    ∃ next, run before event = some next ∧ events.foldlM run next = some after := by
  obtain ⟨_, frame, reads⟩ := confined_run confined tame ran
  have unread : AgreeOn view other.places middle before := fun place inside => frame place (apart.symm place inside)
  have still : other.tame middle := other.reads calm unread.symm
  obtain ⟨next, early, alike⟩ := late.reads still made unread
  have unwritten : AgreeOn view claim.places before next :=
    fun place inside => (late.frame calm early place (apart place inside)).symm
  obtain ⟨result, rest, same⟩ := reads next unwritten
  refine ⟨next, early, ?_⟩
  rw [rest]
  refine congrArg some (separates result after fun place => ?_)
  have framed := (confined_run confined (claim.reads tame unwritten) rest).2.1
  by_cases mine : place ∈ claim.places
  · rw [← same place mine, late.frame still made place (apart place mine)]
  · rw [framed place mine]
    by_cases yours : place ∈ other.places
    · exact (alike place yours).symm
    · rw [late.frame calm early place yours, late.frame still made place yours, frame place mine]

namespace Owes
variable {pool rest : List (Owed ε view)} {owed : Owed ε view} {now target : σ}

theorem nil (state : σ) : Owes run ([] : List (Owed ε view)) state state :=
  ⟨List.Pairwise.nil, fun _ member => absurd member List.not_mem_nil, fun _ member => absurd member List.not_mem_nil, rfl⟩

/-- The events of the first actor lead to a state from which the others go on. -/
theorem tail (owes : Owes run (owed :: rest) now target) :
    ∃ middle, owed.events.foldlM run now = some middle ∧ Owes run rest middle target := by
  obtain ⟨apart, others⟩ := List.pairwise_cons.mp owes.apart
  have leads := owes.leads
  rw [List.flatMap_cons, List.foldlM_append] at leads
  obtain ⟨middle, first, later⟩ := Option.bind_eq_some_iff.mp leads
  obtain ⟨_, frame, _⟩ := confined_run (owes.confined owed List.mem_cons_self) (owes.tame owed List.mem_cons_self) first
  refine ⟨middle, first, others, fun other member => owes.confined other (List.mem_cons_of_mem _ member), fun other member => ?_, later⟩
  exact Claim.tame_off (apart other member) (owes.tame other (List.mem_cons_of_mem _ member)) frame

theorem enter (owes : Owes run pool now target) (apart : ∀ other ∈ pool, other.claim.Apart owed.claim)
    (confined : ∀ event ∈ owed.events, Confined run owed.claim event) (tame : owed.claim.tame target) {final : σ}
    (leads : owed.events.foldlM run target = some final) : Owes run (pool ++ [owed]) now final := by
  induction pool generalizing now with
  | nil =>
    cases owes.leads
    refine ⟨List.pairwise_singleton .., ?_, ?_, by simpa using leads⟩
    · intro other member
      cases List.mem_singleton.mp member
      exact confined
    · intro other member
      cases List.mem_singleton.mp member
      exact tame
  | cons head rest ih =>
    obtain ⟨middle, first, later⟩ := owes.tail
    have appended := ih later fun other member => apart other (List.mem_cons_of_mem _ member)
    have headConfined := owes.confined head List.mem_cons_self
    have headTame := owes.tame head List.mem_cons_self
    have headApart : ∀ other ∈ rest ++ [owed], head.claim.Apart other.claim := by
      intro other member
      rcases List.mem_append.mp member with earlier | last
      · exact (List.pairwise_cons.mp owes.apart).1 other earlier
      · exact List.mem_singleton.mp last ▸ apart head List.mem_cons_self
    obtain ⟨_, frame, _⟩ := confined_run headConfined headTame first
    refine ⟨List.pairwise_cons.mpr ⟨headApart, appended.apart⟩, fun other member => ?_, fun other member => ?_, ?_⟩
    · rcases List.mem_cons.mp member with rfl | member
      · exact headConfined
      · exact appended.confined other member
    · rcases List.mem_cons.mp member with rfl | member
      · exact headTame
      · exact Claim.tame_off (headApart other member) (appended.tame other member) fun place away => (frame place away).symm
    · rw [List.cons_append, List.flatMap_cons, List.foldlM_append, first]
      exact appended.leads

/-- An actor whose turn has not come makes its next event. -/
theorem draw (separates : ∀ first second : σ, (∀ place, view first place = view second place) → first = second)
    {later : List (Owed ε view)} : ∀ {earlier : List (Owed ε view)} {now : σ},
    Owes run (earlier ++ ⟨claim, event :: events⟩ :: later) now target →
      ∃ next, run now event = some next ∧ Owes run (earlier ++ ⟨claim, events⟩ :: later) next target
  | [], now, owes => by
    obtain ⟨apart, others⟩ := List.pairwise_cons.mp owes.apart
    have leads := owes.leads
    rw [List.nil_append, List.flatMap_cons, List.cons_append, List.foldlM_cons] at leads
    obtain ⟨next, made, leads⟩ := Option.bind_eq_some_iff.mp leads
    have confined := owes.confined _ List.mem_cons_self
    have own := confined event List.mem_cons_self
    have tame := owes.tame _ List.mem_cons_self
    refine ⟨next, made, List.pairwise_cons.mpr ⟨apart, others⟩, fun other member => ?_, fun other member => ?_, leads⟩
    · rcases List.mem_cons.mp member with rfl | member
      · exact fun event made => confined event (List.mem_cons_of_mem _ made)
      · exact owes.confined other (List.mem_cons_of_mem _ member)
    · rcases List.mem_cons.mp member with rfl | member
      · exact own.keeps tame made
      · exact Claim.tame_off (apart other member) (owes.tame other (List.mem_cons_of_mem _ member)) (own.frame tame made)
  | head :: earlier, now, owes => by
    obtain ⟨middle, first, rest⟩ := owes.tail
    obtain ⟨final, made, drawn⟩ := rest.draw separates
    have there : (⟨claim, event :: events⟩ : Owed ε view) ∈ earlier ++ ⟨claim, event :: events⟩ :: later :=
      List.mem_append_right _ List.mem_cons_self
    have headConfined := owes.confined head List.mem_cons_self
    have headTame := owes.tame head List.mem_cons_self
    have apart := (List.pairwise_cons.mp owes.apart).1
    have own := owes.confined _ (List.mem_cons_of_mem _ there) event List.mem_cons_self
    have tame := owes.tame _ (List.mem_cons_of_mem _ there)
    obtain ⟨next, early, followed⟩ := Confined.swap separates (apart _ there) headConfined own headTame tame first made
    have frame := own.frame tame early
    have headKept : head.claim.tame next := Claim.tame_off (apart _ there).symm headTame frame
    have headApart : ∀ other ∈ earlier ++ ⟨claim, events⟩ :: later, head.claim.Apart other.claim := by
      intro other member
      rcases List.mem_append.mp member with member | member
      · exact apart other (List.mem_append_left _ member)
      · rcases List.mem_cons.mp member with rfl | member
        · exact apart ⟨claim, event :: events⟩ there
        · exact apart other (List.mem_append_right _ (List.mem_cons_of_mem _ member))
    obtain ⟨_, framed, _⟩ := confined_run headConfined headKept followed
    refine ⟨next, early, List.pairwise_cons.mpr ⟨headApart, drawn.apart⟩, fun other member => ?_, fun other member => ?_, ?_⟩
    · rcases List.mem_cons.mp member with rfl | member
      · exact headConfined
      · exact drawn.confined other member
    · rcases List.mem_cons.mp member with rfl | member
      · exact headKept
      · exact Claim.tame_off (headApart other member) (drawn.tame other member) fun place away => (framed place away).symm
    · rw [List.cons_append, List.flatMap_cons, List.foldlM_append, followed]
      exact drawn.leads

theorem leave {earlier later : List (Owed ε view)} (owes : Owes run (earlier ++ ⟨claim, []⟩ :: later) now target) :
    Owes run (earlier ++ later) now target := by
  have sublist : (earlier ++ later).Sublist (earlier ++ ⟨claim, []⟩ :: later) :=
    (List.Sublist.refl earlier).append (List.sublist_cons_self _ later)
  refine ⟨owes.apart.sublist sublist, fun other member => owes.confined other (sublist.subset member),
    fun other member => owes.tame other (sublist.subset member), ?_⟩
  simpa using owes.leads

end Owes
end WorkTablesIndex
