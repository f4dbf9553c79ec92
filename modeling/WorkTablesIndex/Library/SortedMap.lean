import Mathlib.Order.Lattice
import Mathlib.Data.List.Basic
import Mathlib.Data.List.Pairwise

/-! Finite maps as association lists in strictly increasing key order. The order
is a field of the structure, so every value of the type is searchable. -/

universe u v

structure SortedMap (κ : Type u) [LinearOrder κ] (β : Type v) where
  entries : List (κ × β)
  sorted : entries.Pairwise (fun first second => first.1 < second.1)
  deriving DecidableEq

namespace SortedMap

variable {κ : Type u} [LinearOrder κ] {β : Type v}

def insertEntry (key : κ) (value : β) : List (κ × β) → List (κ × β)
  | [] => [(key, value)]
  | entry :: rest =>
    if key < entry.1 then (key, value) :: entry :: rest
    else if entry.1 < key then entry :: insertEntry key value rest
    else (key, value) :: rest

def eraseEntry (key : κ) (entries : List (κ × β)) : List (κ × β) :=
  entries.filter (fun entry => decide (entry.1 ≠ key))

def lookup (key : κ) (entries : List (κ × β)) : Option β :=
  (entries.find? (fun entry => decide (entry.1 = key))).map Prod.snd

abbrev Ascending (entries : List (κ × β)) : Prop :=
  entries.Pairwise (fun first second => first.1 < second.1)

theorem mem_insertEntry {key : κ} {value : β} {entries : List (κ × β)} (sorted : Ascending entries) (entry : κ × β) :
    entry ∈ insertEntry key value entries ↔ entry = (key, value) ∨ entry.1 ≠ key ∧ entry ∈ entries := by
  induction entries with
  | nil => simp [insertEntry]
  | cons head rest ih =>
    obtain ⟨below, ordered⟩ := List.pairwise_cons.mp sorted
    simp only [insertEntry]
    split
    next smaller =>
      have apart : ∀ other ∈ head :: rest, other.1 ≠ key := by
        intro other member
        rcases List.mem_cons.mp member with rfl | later
        · exact smaller.ne'
        · exact (smaller.trans (below other later)).ne'
      rw [List.mem_cons]
      exact or_congr_right ⟨fun member => ⟨apart entry member, member⟩, And.right⟩
    next notSmaller =>
      split
      next larger =>
        rw [List.mem_cons, ih ordered, List.mem_cons]
        constructor
        · rintro (rfl | rfl | ⟨apart, member⟩)
          · exact Or.inr ⟨larger.ne, Or.inl rfl⟩
          · exact Or.inl rfl
          · exact Or.inr ⟨apart, Or.inr member⟩
        · rintro (rfl | ⟨apart, rfl | member⟩)
          · exact Or.inr (Or.inl rfl)
          · exact Or.inl rfl
          · exact Or.inr (Or.inr ⟨apart, member⟩)
      next notLarger =>
        have same : head.1 = key := le_antisymm (not_lt.mp notSmaller) (not_lt.mp notLarger)
        rw [List.mem_cons, List.mem_cons]
        constructor
        · rintro (rfl | member)
          · exact Or.inl rfl
          · exact Or.inr ⟨by rw [← same]; exact (below entry member).ne', Or.inr member⟩
        · rintro (rfl | ⟨apart, rfl | member⟩)
          · exact Or.inl rfl
          · exact absurd same apart
          · exact Or.inr member

theorem insertEntry_sorted {key : κ} {value : β} {entries : List (κ × β)} (sorted : Ascending entries) :
    Ascending (insertEntry key value entries) := by
  induction entries with
  | nil => simp [insertEntry, Ascending]
  | cons head rest ih =>
    obtain ⟨below, ordered⟩ := List.pairwise_cons.mp sorted
    simp only [insertEntry]
    split
    next smaller =>
      refine List.pairwise_cons.mpr ⟨?_, sorted⟩
      intro other member
      rcases List.mem_cons.mp member with rfl | later
      · exact smaller
      · exact smaller.trans (below other later)
    next notSmaller =>
      split
      next larger =>
        refine List.pairwise_cons.mpr ⟨?_, ih ordered⟩
        intro other member
        rcases (mem_insertEntry ordered other).mp member with rfl | ⟨_, later⟩
        · exact larger
        · exact below other later
      next notLarger =>
        have same : head.1 = key := le_antisymm (not_lt.mp notSmaller) (not_lt.mp notLarger)
        exact List.pairwise_cons.mpr ⟨fun other member => same ▸ below other member, ordered⟩

theorem eraseEntry_sorted {key : κ} {entries : List (κ × β)} (sorted : Ascending entries) :
    Ascending (eraseEntry key entries) :=
  sorted.filter _

theorem ascending_ext {first second : List (κ × β)} (sorted : Ascending first) (ordered : Ascending second)
    (same : ∀ entry, entry ∈ first ↔ entry ∈ second) : first = second := by
  have distinct {entries : List (κ × β)} (sorted : Ascending entries) : entries.Nodup :=
    sorted.imp (fun below equal => below.ne (congrArg Prod.fst equal))
  have perm : first.Perm second := (List.perm_ext_iff_of_nodup (distinct sorted) (distinct ordered)).mpr same
  exact perm.eq_of_pairwise (fun _ _ _ _ below above => absurd below above.asymm) sorted ordered

theorem key_unique {entries : List (κ × β)} (sorted : Ascending entries) {key : κ} {first second : β}
    (left : (key, first) ∈ entries) (right : (key, second) ∈ entries) : first = second := by
  induction entries with
  | nil => cases left
  | cons head rest ih =>
    obtain ⟨below, ordered⟩ := List.pairwise_cons.mp sorted
    rcases List.mem_cons.mp left with rfl | leftLater
    · rcases List.mem_cons.mp right with equal | rightLater
      · exact (Prod.mk.inj equal).2.symm
      · exact absurd (below _ rightLater) (lt_irrefl _)
    · rcases List.mem_cons.mp right with rfl | rightLater
      · exact absurd (below _ leftLater) (lt_irrefl _)
      · exact ih ordered leftLater rightLater

theorem lookup_eq_some {entries : List (κ × β)} (sorted : Ascending entries) (key : κ) (value : β) :
    lookup key entries = some value ↔ (key, value) ∈ entries := by
  simp only [lookup, Option.map_eq_some_iff]
  constructor
  · intro given
    obtain ⟨⟨other, found⟩, search, rfl⟩ := given
    have same : other = key := by simpa using List.find?_some search
    exact same ▸ List.mem_of_find?_eq_some search
  · intro member
    cases search : entries.find? (fun entry => decide (entry.1 = key)) with
    | none =>
      have missed := List.find?_eq_none.mp search _ member
      simp at missed
    | some entry =>
      have same : entry.1 = key := by simpa using List.find?_some search
      have found : (key, entry.2) ∈ entries := same ▸ List.mem_of_find?_eq_some search
      exact ⟨entry, rfl, key_unique sorted found member⟩

theorem lookup_eq_none {entries : List (κ × β)} (key : κ) :
    lookup key entries = none ↔ ∀ entry ∈ entries, entry.1 ≠ key := by
  simp [lookup]

theorem insertEntry_append_left {key : κ} {value : β} {before : List (κ × β)} (after : List (κ × β))
    (smaller : ∀ entry ∈ before, entry.1 < key) :
    insertEntry key value (before ++ after) = before ++ insertEntry key value after := by
  induction before with
  | nil => rfl
  | cons head rest ih =>
    have below := smaller head List.mem_cons_self
    simp only [List.cons_append, insertEntry, if_neg below.asymm, if_pos below]
    rw [ih (fun entry member => smaller entry (List.mem_cons_of_mem _ member))]

theorem insertEntry_append_right {key : κ} {value : β} (before : List (κ × β)) {after : List (κ × β)}
    (greater : ∀ entry ∈ after, key < entry.1) :
    insertEntry key value (before ++ after) = insertEntry key value before ++ after := by
  induction before with
  | nil =>
    cases after with
    | nil => rfl
    | cons head rest => simp [insertEntry, if_pos (greater head List.mem_cons_self)]
  | cons head rest ih =>
    simp only [List.cons_append, insertEntry]
    split
    · rfl
    · split
      · rw [ih]
        rfl
      · rfl

theorem insertEntry_gap {key : κ} {value : β} {before : List (κ × β)} (after : List (κ × β))
    (smaller : ∀ entry ∈ before, entry.1 < key) (greater : ∀ entry ∈ after, key < entry.1) :
    insertEntry key value (before ++ after) = before ++ (key, value) :: after := by
  rw [insertEntry_append_left after smaller]
  exact congrArg (before ++ ·) (insertEntry_append_right [] greater)

theorem insertEntry_hit {key : κ} {value old : β} {before : List (κ × β)} (after : List (κ × β))
    (smaller : ∀ entry ∈ before, entry.1 < key) :
    insertEntry key value (before ++ (key, old) :: after) = before ++ (key, value) :: after := by
  rw [insertEntry_append_left _ smaller]
  simp [insertEntry]

theorem eraseEntry_append (key : κ) (before after : List (κ × β)) :
    eraseEntry key (before ++ after) = eraseEntry key before ++ eraseEntry key after :=
  List.filter_append ..

theorem eraseEntry_absent {key : κ} {entries : List (κ × β)} (absent : ∀ entry ∈ entries, entry.1 ≠ key) :
    eraseEntry key entries = entries :=
  List.filter_eq_self.mpr (fun entry member => by simpa using absent entry member)

theorem eraseEntry_hit {key : κ} {value : β} {before after : List (κ × β)}
    (sorted : Ascending (before ++ (key, value) :: after)) :
    eraseEntry key (before ++ (key, value) :: after) = before ++ after := by
  obtain ⟨_, rest, across⟩ := List.pairwise_append.mp sorted
  obtain ⟨above, _⟩ := List.pairwise_cons.mp rest
  rw [eraseEntry_append, eraseEntry_absent (fun entry member => (across entry member _ List.mem_cons_self).ne)]
  have dropped : eraseEntry key ((key, value) :: after) = eraseEntry key after := by simp [eraseEntry]
  rw [dropped, eraseEntry_absent (fun entry member => (above entry member).ne')]

theorem lookup_append_of_ne {key : κ} {before after : List (κ × β)} (absent : ∀ entry ∈ before, entry.1 ≠ key) :
    lookup key (before ++ after) = lookup key after := by
  simp only [lookup, List.find?_append]
  rw [List.find?_eq_none.mpr (by simpa using absent), Option.none_or]

theorem lookup_append_of_absent {key : κ} (before : List (κ × β)) {after : List (κ × β)}
    (absent : ∀ entry ∈ after, entry.1 ≠ key) : lookup key (before ++ after) = lookup key before := by
  have missed : after.find? (fun entry => decide (entry.1 = key)) = none := List.find?_eq_none.mpr (by simpa using absent)
  simp only [lookup, List.find?_append, missed, Option.or_none]

instance : Membership (κ × β) (SortedMap κ β) := ⟨fun map entry => entry ∈ map.entries⟩

instance (map : SortedMap κ β) (entry : κ × β) [DecidableEq β] : Decidable (entry ∈ map) :=
  inferInstanceAs (Decidable (entry ∈ map.entries))

theorem mem_def (map : SortedMap κ β) (entry : κ × β) : entry ∈ map ↔ entry ∈ map.entries := Iff.rfl

def empty : SortedMap κ β := ⟨[], List.Pairwise.nil⟩

def get? (map : SortedMap κ β) (key : κ) : Option β := lookup key map.entries

def insert (map : SortedMap κ β) (key : κ) (value : β) : SortedMap κ β :=
  ⟨insertEntry key value map.entries, insertEntry_sorted map.sorted⟩

def erase (map : SortedMap κ β) (key : κ) : SortedMap κ β :=
  ⟨eraseEntry key map.entries, eraseEntry_sorted map.sorted⟩

/-- The entry with the least key among those satisfying the predicate. -/
def find? (map : SortedMap κ β) (wanted : κ → Bool) : Option (κ × β) :=
  map.entries.find? (fun entry => wanted entry.1)

def first? (map : SortedMap κ β) : Option (κ × β) := map.entries.head?

def last? (map : SortedMap κ β) : Option (κ × β) := map.entries.getLast?

def below (map : SortedMap κ β) (key : κ) : SortedMap κ β :=
  ⟨map.entries.filter fun entry => decide (entry.1 < key), map.sorted.filter _⟩

def below? (map : SortedMap κ β) (key : κ) : Option (κ × β) := (map.below key).last?

def ofEntries (entries : List (κ × β)) : SortedMap κ β :=
  entries.foldl (fun map entry => map.insert entry.1 entry.2) empty

variable {map : SortedMap κ β}

@[simp] theorem not_mem_empty (entry : κ × β) : entry ∉ (empty : SortedMap κ β) := List.not_mem_nil

@[simp] theorem mem_insert (key : κ) (value : β) (entry : κ × β) :
    entry ∈ map.insert key value ↔ entry = (key, value) ∨ entry.1 ≠ key ∧ entry ∈ map :=
  mem_insertEntry map.sorted entry

@[simp] theorem mem_erase (key : κ) (entry : κ × β) :
    entry ∈ map.erase key ↔ entry.1 ≠ key ∧ entry ∈ map := by
  simp only [mem_def, erase, eraseEntry, List.mem_filter, decide_eq_true_eq]
  exact and_comm

theorem ext_mem {first second : SortedMap κ β} (same : ∀ entry, entry ∈ first ↔ entry ∈ second) : first = second := by
  have equal := ascending_ext first.sorted second.sorted same
  cases first
  cases second
  cases equal
  rfl

theorem value_unique {key : κ} {first second : β} (left : (key, first) ∈ map) (right : (key, second) ∈ map) :
    first = second :=
  key_unique map.sorted left right

theorem erase_insert_self {key : κ} {value : β} (member : (key, value) ∈ map) : (map.erase key).insert key value = map := by
  apply ext_mem
  intro entry
  rw [mem_insert, mem_erase]
  constructor
  · intro present
    rcases present with rfl | ⟨_, _, present⟩
    · exact member
    · exact present
  · intro present
    by_cases here : entry.1 = key
    · refine Or.inl (Prod.ext here ?_)
      exact value_unique (show (key, entry.2) ∈ map from here ▸ present) member
    · exact Or.inr ⟨here, here, present⟩

theorem get?_eq_some {key : κ} {value : β} : map.get? key = some value ↔ (key, value) ∈ map :=
  lookup_eq_some map.sorted key value

theorem get?_eq_none {key : κ} : map.get? key = none ↔ ∀ entry ∈ map, entry.1 ≠ key :=
  lookup_eq_none key

theorem find?_eq_some {wanted : κ → Bool} {entry : κ × β} :
    map.find? wanted = some entry ↔
      entry ∈ map ∧ wanted entry.1 = true ∧ ∀ other ∈ map, wanted other.1 = true → entry.1 ≤ other.1 := by
  have general : ∀ entries : List (κ × β), Ascending entries →
      (entries.find? (fun entry => wanted entry.1) = some entry ↔
        entry ∈ entries ∧ wanted entry.1 = true ∧ ∀ other ∈ entries, wanted other.1 = true → entry.1 ≤ other.1) := by
    intro entries sorted
    induction entries with
    | nil => simp
    | cons head rest ih =>
      obtain ⟨below, ordered⟩ := List.pairwise_cons.mp sorted
      by_cases satisfied : wanted head.1 = true
      · rw [List.find?_cons_of_pos (by simpa using satisfied)]
        constructor
        · intro equal
          cases equal
          refine ⟨List.mem_cons_self, satisfied, ?_⟩
          intro other member _
          rcases List.mem_cons.mp member with rfl | later
          · exact le_rfl
          · exact (below other later).le
        · intro given
          obtain ⟨member, _, least⟩ := given
          rcases List.mem_cons.mp member with rfl | later
          · rfl
          · exact absurd (below entry later) (least head List.mem_cons_self satisfied).not_gt
      · rw [List.find?_cons_of_neg (by simpa using satisfied), ih ordered]
        constructor
        · intro given
          obtain ⟨member, holds, least⟩ := given
          refine ⟨List.mem_cons_of_mem _ member, holds, ?_⟩
          intro other present wantedOther
          rcases List.mem_cons.mp present with rfl | later
          · exact absurd wantedOther satisfied
          · exact least other later wantedOther
        · intro given
          obtain ⟨member, holds, least⟩ := given
          rcases List.mem_cons.mp member with rfl | later
          · exact absurd holds satisfied
          · exact ⟨later, holds, fun other present => least other (List.mem_cons_of_mem _ present)⟩
  exact general map.entries map.sorted

theorem find?_eq_none {wanted : κ → Bool} :
    map.find? wanted = none ↔ ∀ entry ∈ map, wanted entry.1 = false := by
  simp only [find?, List.find?_eq_none, Bool.not_eq_true]
  exact Iff.rfl

theorem last?_eq_some {entry : κ × β} :
    map.last? = some entry ↔ entry ∈ map ∧ ∀ other ∈ map, other.1 ≤ entry.1 := by
  obtain ⟨entries, sorted⟩ := map
  simp only [last?, mem_def]
  rcases List.eq_nil_or_concat entries with rfl | ⟨rest, final, rfl⟩
  · simp
  · obtain ⟨_, _, below⟩ := List.pairwise_append.mp (by simpa using sorted)
    simp only [List.concat_eq_append, List.getLast?_append, List.getLast?_singleton, Option.some_or, Option.some.injEq]
    constructor
    · rintro rfl
      refine ⟨by simp, ?_⟩
      intro other member
      rcases List.mem_append.mp member with earlier | last
      · exact (below other earlier final (by simp)).le
      · rw [List.mem_singleton.mp last]
    · intro given
      obtain ⟨member, greatest⟩ := given
      rcases List.mem_append.mp member with earlier | last
      · exact absurd (below entry earlier final (by simp)) (greatest final (by simp)).not_gt
      · exact (List.mem_singleton.mp last).symm

theorem last?_eq_none : map.last? = none ↔ ∀ entry, entry ∉ map := by
  simp only [last?, List.getLast?_eq_none_iff, mem_def]
  exact List.eq_nil_iff_forall_not_mem

theorem mem_below {key : κ} {entry : κ × β} : entry ∈ map.below key ↔ entry ∈ map ∧ entry.1 < key := by
  simp only [mem_def, below, List.mem_filter, decide_eq_true_eq]

theorem below?_eq_some {key : κ} {entry : κ × β} :
    map.below? key = some entry ↔ entry ∈ map ∧ entry.1 < key ∧ ∀ other ∈ map, other.1 < key → other.1 ≤ entry.1 := by
  rw [below?, last?_eq_some]
  simp only [mem_below, and_imp, and_assoc]

theorem below?_eq_none {key : κ} : map.below? key = none ↔ ∀ entry ∈ map, key ≤ entry.1 := by
  rw [below?, last?_eq_none]
  simp only [mem_below, not_and, not_lt]

theorem insert_erase (key : κ) (value : β) : (map.insert key value).erase key = map.erase key := by
  apply ext_mem
  intro entry
  simp only [mem_insert, mem_erase]
  constructor
  · intro both
    exact ⟨both.1, (both.2.resolve_left fun same => both.1 (congrArg Prod.fst same)).2⟩
  · exact fun both => ⟨both.1, Or.inr both⟩

theorem erase_insert (key : κ) (value : β) : (map.erase key).insert key value = map.insert key value := by
  apply ext_mem
  intro entry
  simp only [mem_insert, mem_erase]
  exact or_congr_right ⟨fun both => both.2, fun both => ⟨both.1, both⟩⟩

theorem insert_insert (key : κ) (first second : β) : (map.insert key first).insert key second = map.insert key second := by
  rw [← erase_insert, insert_erase, erase_insert]

theorem erase_erase (key : κ) : (map.erase key).erase key = map.erase key := by
  apply ext_mem
  intro entry
  simp only [mem_erase]
  exact ⟨And.right, fun both => ⟨both.1, both⟩⟩

theorem insert_erase_of_ne {first second : κ} (different : first ≠ second) (value : β) :
    (map.insert first value).erase second = (map.erase second).insert first value := by
  apply ext_mem
  intro entry
  simp only [mem_insert, mem_erase]
  constructor
  · intro both
    rcases both with ⟨apart, same | ⟨other, kept⟩⟩
    · exact Or.inl same
    · exact Or.inr ⟨other, apart, kept⟩
  · intro either
    rcases either with same | ⟨other, apart, kept⟩
    · exact ⟨by rwa [same], Or.inl same⟩
    · exact ⟨apart, Or.inr ⟨other, kept⟩⟩

theorem insert_comm {first second : κ} (different : first ≠ second) (left right : β) :
    (map.insert first left).insert second right = (map.insert second right).insert first left := by
  apply ext_mem
  intro entry
  simp only [mem_insert]
  constructor
  · intro either
    rcases either with rfl | ⟨apart, same | ⟨other, kept⟩⟩
    · exact Or.inr ⟨different.symm, Or.inl rfl⟩
    · exact Or.inl same
    · exact Or.inr ⟨other, Or.inr ⟨apart, kept⟩⟩
  · intro either
    rcases either with rfl | ⟨apart, same | ⟨other, kept⟩⟩
    · exact Or.inr ⟨different, Or.inl rfl⟩
    · exact Or.inl same
    · exact Or.inr ⟨other, Or.inr ⟨apart, kept⟩⟩

@[simp] theorem get?_insert_self (key : κ) (value : β) : (map.insert key value).get? key = some value :=
  get?_eq_some.mpr ((mem_insert ..).mpr (Or.inl rfl))

theorem get?_insert_of_ne {first second : κ} (different : second ≠ first) (value : β) :
    (map.insert first value).get? second = map.get? second := by
  apply Option.ext
  intro item
  rw [get?_eq_some, get?_eq_some, mem_insert]
  constructor
  · exact fun either => (either.resolve_left fun same => different (congrArg Prod.fst same)).2
  · exact fun kept => Or.inr ⟨different, kept⟩

theorem get?_erase_self (map : SortedMap κ β) (key : κ) : (map.erase key).get? key = none :=
  get?_eq_none.mpr fun _ member => ((mem_erase ..).mp member).1

theorem get?_erase_of_ne {first second : κ} (different : second ≠ first) : (map.erase first).get? second = map.get? second := by
  apply Option.ext
  intro item
  rw [get?_eq_some, get?_eq_some, mem_erase]
  exact ⟨And.right, fun kept => ⟨different, kept⟩⟩

theorem ext_get? {first second : SortedMap κ β} (same : ∀ key, first.get? key = second.get? key) : first = second := by
  apply ext_mem
  rintro ⟨key, value⟩
  exact get?_eq_some.symm.trans ((congrArg (· = some value) (same key)).to_iff.trans get?_eq_some)

def mapValues {γ : Type*} (f : β → γ) (map : SortedMap κ β) : SortedMap κ γ :=
  ⟨map.entries.map fun entry => (entry.1, f entry.2), List.pairwise_map.mpr map.sorted⟩

theorem mem_mapValues {γ : Type*} {f : β → γ} {key : κ} {value : γ} :
    (key, value) ∈ map.mapValues f ↔ ∃ source, (key, source) ∈ map ∧ f source = value := by
  simp only [mem_def, mapValues, List.mem_map, Prod.exists, Prod.mk.injEq]
  constructor
  · intro held
    obtain ⟨_, source, member, rfl, same⟩ := held
    exact ⟨source, member, same⟩
  · intro held
    obtain ⟨source, member, same⟩ := held
    exact ⟨key, source, member, rfl, same⟩

theorem mapValues_insert {γ : Type*} (f : β → γ) (key : κ) (value : β) :
    (map.insert key value).mapValues f = (map.mapValues f).insert key (f value) := by
  apply ext_mem
  intro given
  obtain ⟨other, target⟩ := given
  simp only [mem_mapValues, mem_insert, Prod.mk.injEq]
  constructor
  · intro held
    obtain ⟨source, ⟨rfl, rfl⟩ | ⟨apart, member⟩, rfl⟩ := held
    · exact Or.inl ⟨rfl, rfl⟩
    · exact Or.inr ⟨apart, source, member, rfl⟩
  · intro either
    rcases either with ⟨rfl, rfl⟩ | ⟨apart, source, member, rfl⟩
    · exact ⟨value, Or.inl ⟨rfl, rfl⟩, rfl⟩
    · exact ⟨source, Or.inr ⟨apart, member⟩, rfl⟩

theorem mapValues_erase {γ : Type*} (f : β → γ) (key : κ) : (map.erase key).mapValues f = (map.mapValues f).erase key := by
  apply ext_mem
  intro given
  obtain ⟨other, target⟩ := given
  simp only [mem_mapValues, mem_erase]
  constructor
  · intro held
    obtain ⟨source, ⟨apart, member⟩, rfl⟩ := held
    exact ⟨apart, source, member, rfl⟩
  · intro both
    obtain ⟨apart, source, member, rfl⟩ := both
    exact ⟨source, ⟨apart, member⟩, rfl⟩

theorem mapValues_congr {γ : Type*} {f g : β → γ} (same : ∀ entry ∈ map, f entry.2 = g entry.2) :
    map.mapValues f = map.mapValues g := by
  simp only [mapValues, SortedMap.mk.injEq]
  exact List.map_congr_left fun entry member => congrArg (Prod.mk entry.1) (same entry member)

theorem first?_eq_find? : map.first? = map.find? (fun _ => true) := by
  cases seen : map.entries with
  | nil => simp [first?, find?, seen]
  | cons head rest => simp [first?, find?, seen]

end SortedMap
