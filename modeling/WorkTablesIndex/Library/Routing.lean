import WorkTablesIndex.Library.SortedMap

/-! Routing by upper fence. A sorted map sends a value to the first key that is
not below it, and to the last key when there is none. The values sent to one key
form an interval; replacing that key by others from the same interval disturbs
no other route. -/

universe u v

namespace SortedMap
variable {κ : Type u} {β : Type v} [LinearOrder κ] {map after : SortedMap κ β} {old value : κ}

def ceiling? (map : SortedMap κ β) (value : κ) : Option (κ × β) :=
  (map.find? fun candidate => decide (value ≤ candidate)).or map.last?

/-- The value lies above every smaller key, and not above a key that is not last. -/
structure Between (map : SortedMap κ β) (entry value : κ) : Prop where
  above : ∀ other ∈ map, other.1 < entry → other.1 < value
  within : ∀ other ∈ map, entry < other.1 → value ≤ entry

theorem ceiling?_eq_some {entry : κ × β} : map.ceiling? value = some entry ↔ entry ∈ map ∧ Between map entry.1 value := by
  cases found : map.find? fun candidate => decide (value ≤ candidate) with
  | none =>
    have below : ∀ other ∈ map, other.1 < value := fun other member => by simpa using find?_eq_none.mp found other member
    simp only [ceiling?, found, Option.none_or, last?_eq_some]
    constructor
    · intro last
      refine ⟨last.1, fun other member _ => below other member, fun other member less => ?_⟩
      exact absurd (last.2 other member) less.not_ge
    · intro routed
      refine ⟨routed.1, fun other member => not_lt.mp fun less => ?_⟩
      exact absurd (routed.2.within other member less) (below entry routed.1).not_ge
  | some first =>
    obtain ⟨member, reached, least⟩ := find?_eq_some.mp found
    simp only [decide_eq_true_eq] at reached least
    simp only [ceiling?, found, Option.some_or, Option.some.injEq]
    constructor
    · intro same
      subst same
      refine ⟨member, fun other present less => not_le.mp fun higher => ?_, fun _ _ _ => reached⟩
      exact absurd (least other present higher) less.not_ge
    · intro routed
      rcases lt_trichotomy first.1 entry.1 with less | same | more
      · exact absurd (routed.2.above first member less) reached.not_gt
      · have moved : (first.1, entry.2) ∈ map := same.symm ▸ routed.1
        exact Prod.ext same (value_unique member moved)
      · exact absurd (least entry routed.1 (routed.2.within first member more)) more.not_ge

theorem ceiling?_eq_none : map.ceiling? value = none ↔ ∀ entry, entry ∉ map := by
  rw [ceiling?, Option.or_eq_none_iff, last?_eq_none]
  constructor
  · exact And.right
  · intro empty
    exact ⟨find?_eq_none.mpr fun entry member => absurd member (empty entry), empty⟩

theorem between_self (map : SortedMap κ β) (entry : κ) : Between map entry entry :=
  ⟨fun _ _ less => less, fun _ _ _ => le_rfl⟩

theorem Between.unique {first second : κ × β} (left : first ∈ map) (right : second ∈ map)
    (atFirst : Between map first.1 value) (atSecond : Between map second.1 value) : first = second := by
  have leftRoute := ceiling?_eq_some.mpr ⟨left, atFirst⟩
  have rightRoute := ceiling?_eq_some.mpr ⟨right, atSecond⟩
  exact Option.some.inj (leftRoute.symm.trans rightRoute)

/-- The entries of `after` come from the map without `old`, or are new ones whose
keys lie in the interval of `old`. -/
structure Replaced (map : SortedMap κ β) (old : κ) (news : List (κ × β)) (after : SortedMap κ β) : Prop where
  entries : ∀ entry, entry ∈ after ↔ entry ∈ news ∨ entry.1 ≠ old ∧ entry ∈ map
  inside : ∀ entry ∈ news, Between map old entry.1

variable {news : List (κ × β)} {owner : β}

theorem Between.ne {entry : κ × β} (member : entry ∈ map) (different : entry.1 ≠ old) (inside : Between map old value) :
    entry.1 ≠ value := by
  intro same
  rcases lt_or_gt_of_ne different with less | more
  · exact (inside.above entry member less).ne same
  · exact (inside.within entry member more).not_gt (same ▸ more)

theorem replaced_erase (map : SortedMap κ β) (old : κ) : Replaced map old [] (map.erase old) :=
  ⟨fun entry => by rw [mem_erase]; simp, by simp⟩

theorem Replaced.insert (replaced : Replaced map old news after) (owner : β) (inside : Between map old value)
    (apart : ∀ entry ∈ news, entry.1 ≠ value) : Replaced map old ((value, owner) :: news) (after.insert value owner) := by
  constructor
  · intro entry
    rw [mem_insert, replaced.entries, List.mem_cons]
    constructor
    · intro member
      rcases member with same | ⟨_, present⟩
      · exact Or.inl (Or.inl same)
      · exact present.imp Or.inr id
    · intro member
      rcases member with (same | fresh) | kept
      · exact Or.inl same
      · exact Or.inr ⟨apart entry fresh, Or.inl fresh⟩
      · exact Or.inr ⟨inside.ne kept.2 kept.1, Or.inr kept⟩
  · intro entry member
    rcases List.mem_cons.mp member with same | earlier
    · rw [same]
      exact inside
    · exact replaced.inside entry earlier

theorem Replaced.keeps (replaced : Replaced map old news after) (linked : (old, owner) ∈ map) {entry : κ × β}
    (member : entry ∈ map) (different : entry.1 ≠ old) (routed : Between map entry.1 value) :
    Between after entry.1 value := by
  constructor
  · intro other present less
    rcases (replaced.entries other).mp present with fresh | ⟨_, kept⟩
    · rcases lt_or_gt_of_ne different with before | beyond
      · exact absurd ((replaced.inside other fresh).above entry member before) less.asymm
      · have capped := (replaced.inside other fresh).within entry member beyond
        exact capped.trans_lt (routed.above _ linked beyond)
    · exact routed.above other kept less
  · intro other present more
    rcases (replaced.entries other).mp present with fresh | ⟨_, kept⟩
    · rcases lt_or_gt_of_ne different with before | beyond
      · exact routed.within _ linked before
      · have capped := (replaced.inside other fresh).within entry member beyond
        exact absurd (capped.trans_lt beyond) more.asymm
    · exact routed.within other kept more

/-- A value of the old interval is routed to a new entry as the new entries say. -/
theorem Replaced.routes (replaced : Replaced map old news after) {entry : κ × β} (fresh : entry ∈ news)
    (inside : Between map old value) (above : ∀ other ∈ news, other.1 < entry.1 → other.1 < value)
    (within : ∀ other ∈ news, entry.1 < other.1 → value ≤ entry.1)
    (capped : ∀ other ∈ map, old < other.1 → value ≤ entry.1) : Between after entry.1 value := by
  have own := replaced.inside entry fresh
  constructor
  · intro other present less
    rcases (replaced.entries other).mp present with new | ⟨different, kept⟩
    · exact above other new less
    · rcases lt_or_gt_of_ne different with before | beyond
      · exact inside.above other kept before
      · exact absurd ((own.within other kept beyond).trans_lt beyond) less.asymm
  · intro other present more
    rcases (replaced.entries other).mp present with new | ⟨different, kept⟩
    · exact within other new more
    · rcases lt_or_gt_of_ne different with before | beyond
      · exact absurd (own.above other kept before) more.asymm
      · exact capped other kept beyond

end SortedMap
