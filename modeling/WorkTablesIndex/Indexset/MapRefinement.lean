import WorkTablesIndex.Indexset.MapLaws

/-! The single-threaded map against a sorted list of pairs, with the entries that borrow it. -/

namespace WorkTablesIndex.Indexset

variable {F K V κ Q : Type} [FenwickTree F] [LinearOrder κ] [Keyed K κ] [LinearOrder Q]

def Entry.map : Entry F K V → BTreeMap F K V
  | .vacant entry => entry.map
  | .occupied entry => entry.map

/-- What a caller has: a map, or an entry that borrows one. -/
inductive Holding (F K V : Type) where
  | map (map : BTreeMap F K V)
  | entry (entry : Entry F K V)

/-- The maps and entries that public calls lead to, with nodes of at least two. The `or_` calls of an
entry are an insertion into a vacant one or the reference of an occupied one. -/
inductive Reached : Holding F K V → Prop where
  | new : Reached (.map .new)
  | withMaximumNodeSize {maximumNodeSize : Nat} (room : 2 ≤ maximumNodeSize) : Reached (.map (.withMaximumNodeSize maximumNodeSize))
  | clear {map : BTreeMap F K V} (earlier : Reached (.map map)) : Reached (.map map.clear)
  | insert {map after : BTreeMap F K V} {result} (earlier : Reached (.map map)) (key : K) (value : V)
      (ran : map.insert key value = some (result, after)) : Reached (.map after)
  | remove {map after : BTreeMap F K V} {result} {Q : Type} [LinearOrder Q] (earlier : Reached (.map map)) (borrow : κ → Q)
      (strict : StrictMono borrow) (key : Q) (ran : map.remove borrow key = some (result, after)) : Reached (.map after)
  | removeEntry {map after : BTreeMap F K V} {result} {Q : Type} [LinearOrder Q] (earlier : Reached (.map map)) (borrow : κ → Q)
      (strict : StrictMono borrow) (key : Q) (ran : map.removeEntry borrow key = some (result, after)) : Reached (.map after)
  | popFirst {map after : BTreeMap F K V} {result} (earlier : Reached (.map map)) (ran : map.popFirst = some (result, after)) :
      Reached (.map after)
  | popLast {map after : BTreeMap F K V} {result} (earlier : Reached (.map map)) (ran : map.popLast = some (result, after)) :
      Reached (.map after)
  | popIndex {map after : BTreeMap F K V} {result} (earlier : Reached (.map map)) (index : Nat) (inside : index < map.len)
      (ran : map.popIndex index = some (result, after)) : Reached (.map after)
  | retain {map after : BTreeMap F K V} {σ : Type} {result : σ} (earlier : Reached (.map map)) (f : K → V → σ → Bool × V × σ)
      (state : σ) (ran : map.retain f state = some (result, after)) : Reached (.map after)
  | append {map other after drained : BTreeMap F K V} (earlier : Reached (.map map)) (beside : Reached (.map other)) (fuel : Nat)
      (ran : BTreeMap.append fuel map other = some (after, drained)) : Reached (.map after)
  | appended {map other after drained : BTreeMap F K V} (earlier : Reached (.map map)) (beside : Reached (.map other)) (fuel : Nat)
      (ran : BTreeMap.append fuel map other = some (after, drained)) : Reached (.map drained)
  | splitOff {map kept moved : BTreeMap F K V} {Q : Type} [LinearOrder Q] (earlier : Reached (.map map)) (borrow : κ → Q)
      (strict : StrictMono borrow) (key : Q) (ran : map.splitOff borrow key = some (kept, moved)) : Reached (.map kept)
  | latterHalf {map kept moved : BTreeMap F K V} {Q : Type} [LinearOrder Q] (earlier : Reached (.map map)) (borrow : κ → Q)
      (strict : StrictMono borrow) (key : Q) (ran : map.splitOff borrow key = some (kept, moved)) : Reached (.map moved)
  | getMut {map : BTreeMap F K V} {ref} {Q : Type} [LinearOrder Q] (earlier : Reached (.map map)) (borrow : κ → Q)
      (strict : StrictMono borrow) (key : Q) (ran : map.getMut borrow key = some (some ref)) (value : V) :
      Reached (.map (ref.write value))
  | getMutIndex {map : BTreeMap F K V} {ref} (earlier : Reached (.map map)) (index : Nat) (inside : index < map.len)
      (ran : map.getMutIndex index = some ref) (value : V) : Reached (.map (ref.write value))
  /-- Whatever is written through the references of `iter_mut`, `values_mut` and `range_mut`. -/
  | valuesMut {map : BTreeMap F K V} (earlier : Reached (.map map)) (written : Pair K V → V) :
      Reached (.map ⟨{ map.set with inner := map.set.inner.map (List.map fun pair => { pair with value := written pair }) }⟩)
  | entry {map : BTreeMap F K V} {entry} (earlier : Reached (.map map)) (key : K) (ran : map.entry key = some entry) :
      Reached (.entry entry)
  | firstEntry {map : BTreeMap F K V} {entry} (earlier : Reached (.map map)) (ran : map.firstEntry = some entry) :
      Reached (.entry (.occupied entry))
  | lastEntry {map : BTreeMap F K V} {entry} (earlier : Reached (.map map)) (ran : map.lastEntry = some entry) :
      Reached (.entry (.occupied entry))
  | andModify {entry after : Entry F K V} (earlier : Reached (.entry entry)) (f : V → V) (ran : entry.andModify f = some after) :
      Reached (.entry after)
  | borrowed {entry : OccupiedEntry F K V} {ref} (earlier : Reached (.entry (.occupied entry))) (ran : entry.getMut = some ref)
      (value : V) : Reached (.entry (.occupied (ref.write value)))
  | occupiedInsert {entry after : OccupiedEntry F K V} {result} (earlier : Reached (.entry (.occupied entry))) (value : V)
      (ran : entry.insert value = some (result, after)) : Reached (.entry (.occupied after))
  | dropped {entry : Entry F K V} (earlier : Reached (.entry entry)) : Reached (.map entry.map)
  | intoMut {entry : OccupiedEntry F K V} {ref} (earlier : Reached (.entry (.occupied entry))) (ran : entry.intoMut = some ref)
      (value : V) : Reached (.map (ref.write value))
  | occupiedRemove {entry : OccupiedEntry F K V} {result after} (earlier : Reached (.entry (.occupied entry)))
      (ran : entry.remove = some (result, after)) : Reached (.map after)
  | occupiedRemoveEntry {entry : OccupiedEntry F K V} {result after} (earlier : Reached (.entry (.occupied entry)))
      (ran : entry.removeEntry = some (result, after)) : Reached (.map after)
  | vacantInsert {entry : VacantEntry F K V} {ref} (earlier : Reached (.entry (.vacant entry))) (value : V)
      (ran : entry.insert value = some ref) (later : V) : Reached (.map (ref.write later))

section Statements
variable [LawfulFenwickTree F]

/-- An occupied entry stands for one pair, and its calls act on that pair alone. -/
structure OccupiedEntry.Acts (entry : OccupiedEntry F K V) (pair : Pair K V) : Prop where
  there : entry.map.entries[entry.idx]? = some pair
  key : entry.key = some pair.key
  get : entry.get = some pair.value
  getMut : ∃ ref, entry.getMut = some ref ∧ ref.current = pair.value ∧ ∀ value, (ref.write value).idx = entry.idx ∧
    (ref.write value).map.entries = SortedList.assign (Keyed.key pair) value entry.map.entries
  intoMut : ∃ ref, entry.intoMut = some ref ∧ Refers ref entry.map pair
  insert (value : V) : ∃ after, entry.insert value = some (pair.value, after) ∧ after.idx = entry.idx ∧
    after.map.entries = SortedList.assign (Keyed.key pair) value entry.map.entries
  remove : ∃ after, entry.remove = some (pair.value, after) ∧
    after.entries = SortedList.without id (Keyed.key pair) entry.map.entries
  removeEntry : ∃ after, entry.removeEntry = some ((pair.key, pair.value), after) ∧
    after.entries = SortedList.without id (Keyed.key pair) entry.map.entries

/-- A vacant entry has a key that is not stored; an insertion stores it, and the returned reference
writes to the new value alone. -/
structure VacantEntry.Acts (entry : VacantEntry F K V) : Prop where
  absent : SortedList.find id (Keyed.key entry.key) entry.map.entries = none
  insert (value : V) : ∃ ref, entry.insert value = some ref ∧ ref.current = value ∧
    ∀ later, (ref.write later).entries = SortedList.store ⟨entry.key, later⟩ entry.map.entries

def Entry.Acts : Entry F K V → Prop
  | .occupied entry => ∃ pair, entry.Acts pair ∧ (Entry.occupied entry).key = some pair.key ∧
    (∀ default, ∃ ref, (Entry.occupied entry).orInsert default = some ref ∧ Refers ref entry.map pair) ∧
    (∀ default, ∃ ref, (Entry.occupied entry).orInsertWith default = some ref ∧ Refers ref entry.map pair) ∧
    (∀ default, ∃ ref, (Entry.occupied entry).orInsertWithKey default = some ref ∧ Refers ref entry.map pair) ∧
    (∀ _ : Inhabited V, ∃ ref, (Entry.occupied entry).orDefault = some ref ∧ Refers ref entry.map pair) ∧
    ∀ f, ∃ after, (Entry.occupied entry).andModify f = some (.occupied after) ∧ after.idx = entry.idx ∧
      after.map.entries = SortedList.assign (Keyed.key pair) (f pair.value) entry.map.entries
  | .vacant entry => entry.Acts ∧ (Entry.vacant entry).key = some entry.key ∧
    (∀ default, ∃ ref, (Entry.vacant entry).orInsert default = some ref ∧ ref.current = default ∧
      ∀ later, (ref.write later).entries = SortedList.store ⟨entry.key, later⟩ entry.map.entries) ∧
    (∀ default : Unit → V, ∃ ref, (Entry.vacant entry).orInsertWith default = some ref ∧ ref.current = default () ∧
      ∀ later, (ref.write later).entries = SortedList.store ⟨entry.key, later⟩ entry.map.entries) ∧
    (∀ default : K → V, ∃ ref, (Entry.vacant entry).orInsertWithKey default = some ref ∧ ref.current = default entry.key ∧
      ∀ later, (ref.write later).entries = SortedList.store ⟨entry.key, later⟩ entry.map.entries) ∧
    (∀ _ : Inhabited V, ∃ ref, (Entry.vacant entry).orDefault = some ref ∧ ref.current = default ∧
      ∀ later, (ref.write later).entries = SortedList.store ⟨entry.key, later⟩ entry.map.entries) ∧
    ∀ f, (Entry.vacant entry).andModify f = some (.vacant entry)

structure BTreeMap.RefinesMap (map : BTreeMap F K V) : Prop where
  getKeyValue {Q : Type} [LinearOrder Q] (borrow : κ → Q) (strict : StrictMono borrow) (key : Q) :
    map.getKeyValue borrow key = (SortedList.find borrow key map.entries).map fun pair => (pair.key, pair.value)
  get {Q : Type} [LinearOrder Q] (borrow : κ → Q) (strict : StrictMono borrow) (key : Q) :
    map.get borrow key = (SortedList.find borrow key map.entries).map Pair.value
  index {Q : Type} [LinearOrder Q] (borrow : κ → Q) (strict : StrictMono borrow) (key : Q) :
    map.index borrow key = (SortedList.find borrow key map.entries).map Pair.value
  containsKey {Q : Type} [LinearOrder Q] (borrow : κ → Q) (strict : StrictMono borrow) (key : Q) :
    map.containsKey borrow key = some (SortedList.find borrow key map.entries).isSome
  getMut {Q : Type} [LinearOrder Q] (borrow : κ → Q) (strict : StrictMono borrow) (key : Q) : ∃ found,
    map.getMut borrow key = some found ∧
      match SortedList.find borrow key map.entries with
      | some pair => ∃ ref, found = some ref ∧ Refers ref map pair
      | none => found = none
  insert (key : K) (value : V) : ∃ after,
    map.insert key value = some ((SortedList.insertPair ⟨key, value⟩ map.entries).1, after) ∧
      after.entries = (SortedList.insertPair ⟨key, value⟩ map.entries).2
  remove {Q : Type} [LinearOrder Q] (borrow : κ → Q) (strict : StrictMono borrow) (key : Q) : ∃ after,
    map.remove borrow key = some ((SortedList.find borrow key map.entries).map Pair.value, after) ∧
      after.entries = SortedList.without borrow key map.entries
  removeEntry {Q : Type} [LinearOrder Q] (borrow : κ → Q) (strict : StrictMono borrow) (key : Q) : ∃ after,
    map.removeEntry borrow key = some ((SortedList.find borrow key map.entries).map fun pair => (pair.key, pair.value), after) ∧
      after.entries = SortedList.without borrow key map.entries
  entry (key : K) : ∃ entry, map.entry key = some entry ∧ entry.map = map ∧ entry.Acts ∧
    match SortedList.find id (Keyed.key key) map.entries with
    | some pair => ∃ occupied, entry = .occupied occupied ∧ occupied.Acts pair
    | none => entry = .vacant ⟨map, key⟩

def Holding.Refines : Holding F K V → Prop
  | .map owned => owned.RefinesMap
  | .entry borrowed => borrowed.Acts

def Holding.Sound : Holding F K V → Prop
  | .map owned => owned.set.Valid
  | .entry (.vacant vacant) => vacant.map.set.Valid ∧ ∀ pair ∈ vacant.map.entries, key pair ≠ key vacant.key
  | .entry (.occupied occupied) => occupied.map.set.Valid ∧ occupied.idx < occupied.map.entries.length

theorem OccupiedEntry.acts {entry : OccupiedEntry F K V} {pair : Pair K V} (valid : entry.map.set.Valid)
    (there : entry.map.entries[entry.idx]? = some pair) : entry.Acts pair := by
  obtain ⟨ref, found, refers⟩ := BTreeMap.getMutIndex_at valid there
  obtain ⟨left, popped, _, elements⟩ := BTreeMap.popIndex_at valid there
  have erased : entry.map.entries.eraseIdx entry.idx = SortedList.without id (Keyed.key pair) entry.map.entries :=
    SortedList.eraseIdx_eq_without valid.sorted there
  rw [erased] at elements
  have borrowed : entry.getMut = some ⟨ref.current, fun value => { entry with map := ref.write value }⟩ := by
    rw [OccupiedEntry.getMut, found, Option.map_some]
  constructor
  case there => exact there
  case key => rw [OccupiedEntry.key, BTreeMap.getIndex_at valid there, Option.map_some]
  case get =>
    rw [OccupiedEntry.get, BTreeMap.getIndex, BTreeMap.getIndex_at valid there]
    rfl
  case getMut => exact ⟨_, borrowed, refers.current, fun value => ⟨rfl, refers.write value⟩⟩
  case intoMut => exact ⟨ref, found, refers⟩
  case insert =>
    intro value
    refine ⟨{ entry with map := ref.write value }, ?_, rfl, refers.write value⟩
    rw [OccupiedEntry.insert, borrowed, Option.map_some, refers.current]
  case remove =>
    refine ⟨left, ?_, elements⟩
    rw [OccupiedEntry.remove, popped]
    rfl
  case removeEntry => exact ⟨left, popped, elements⟩

/-- The rank is taken before the insertion, which may split a node; it is still the position. -/
theorem VacantEntry.insert_spec {entry : VacantEntry F K V} (valid : entry.map.set.Valid)
    (absent : ∀ pair ∈ entry.map.entries, Keyed.key pair ≠ Keyed.key entry.key) (value : V) : ∃ ref, entry.insert value = some ref ∧
      ref.current = value ∧ ∀ later, (ref.write later).set.Valid ∧
        (ref.write later).entries = SortedList.store ⟨entry.key, later⟩ entry.map.entries := by
  obtain ⟨after, stored, afterValid, entries⟩ := BTreeMap.insert_spec valid entry.key value
  have missing : SortedList.find id (Keyed.key (⟨entry.key, value⟩ : Pair K V)) entry.map.entries = none :=
    SortedList.find_absent absent
  simp only [SortedList.insertPair, missing] at stored entries
  have there : after.entries[(entry.map.entries.filter fun pair => decide (id (Keyed.key pair) < Keyed.key entry.key)).length]? =
      some ⟨entry.key, value⟩ := by
    rw [entries, SortedList.store]
    exact (List.getElem?_append_right le_rfl).trans (by simp)
  obtain ⟨ref, found, refers⟩ := BTreeMap.getMutIndex_at afterValid there
  refine ⟨ref, ?_, refers.current, fun later => ⟨refers.valid later, ?_⟩⟩
  · simp only [VacantEntry.insert, BTreeMap.rankCmp_spec valid strictMono_id, stored, found, bind, Option.bind_some]
  · have sorted := (SortedList.store_upserted valid.sorted (⟨entry.key, value⟩ : Pair K V)).sorted
    rw [refers.write later, entries]
    exact SortedList.assign_at sorted later

theorem Entry.acts {entry : Entry F K V} (sound : (Holding.entry entry).Sound) : entry.Acts := by
  cases entry with
  | occupied entry =>
    obtain ⟨valid, inside⟩ := sound
    have acts := OccupiedEntry.acts valid (List.getElem?_eq_getElem inside)
    obtain ⟨ref, borrowed, current, write⟩ := acts.getMut
    refine ⟨_, acts, acts.key, fun _ => acts.intoMut, fun _ => acts.intoMut, fun _ => acts.intoMut, fun _ => acts.intoMut,
      fun f => ⟨_, ?_, write (f _)⟩⟩
    rw [Entry.andModify, borrowed, Option.map_some, current]
  | vacant entry =>
    obtain ⟨valid, absent⟩ := sound
    have inserts : ∀ value, ∃ ref, entry.insert value = some ref ∧ ref.current = value ∧
        ∀ later, (ref.write later).entries = SortedList.store ⟨entry.key, later⟩ entry.map.entries := by
      intro value
      obtain ⟨ref, found, current, write⟩ := VacantEntry.insert_spec valid absent value
      exact ⟨ref, found, current, fun later => (write later).2⟩
    exact ⟨⟨SortedList.find_absent absent, inserts⟩, rfl, inserts, fun default => inserts (default ()),
      fun default => inserts (default entry.key), fun _ => inserts default, fun _ => rfl⟩

theorem BTreeMap.entry_spec {map : BTreeMap F K V} (valid : map.set.Valid) (key : K) : ∃ entry, map.entry key = some entry ∧
    entry.map = map ∧ (Holding.entry entry).Sound ∧
    match SortedList.find id (Keyed.key key) map.entries with
    | some pair => ∃ occupied, entry = .occupied occupied ∧ occupied.Acts pair
    | none => entry = .vacant ⟨map, key⟩ := by
  simp only [BTreeMap.entry, containsKey_spec valid strictMono_id, rankCmp_spec valid strictMono_id, SortedList.contains, bind,
    Option.bind_some, pure]
  cases found : SortedList.find id (Keyed.key key) map.entries with
  | some pair =>
    have there := rank_at valid strictMono_id found
    exact ⟨_, rfl, rfl, ⟨valid, (List.getElem?_eq_some_iff.mp there).1⟩, _, rfl, OccupiedEntry.acts valid there⟩
  | none =>
    refine ⟨_, rfl, rfl, ⟨valid, fun pair member same => ?_⟩, rfl⟩
    have stored : (SortedList.find id (Keyed.key key) map.entries).isSome = true := SortedList.find_isSome.mpr ⟨pair, member, same⟩
    rw [found] at stored
    cases stored

private theorem Refers.length {ref : RefMut V (BTreeMap F K V)} {map : BTreeMap F K V} {pair : Pair K V}
    (refers : Refers ref map pair)
    (value : V) : (ref.write value).entries.length = map.entries.length := by
  rw [refers.write, SortedList.assign, List.length_map]

private theorem OccupiedEntry.getMut_sound {entry : OccupiedEntry F K V} {ref : RefMut V (OccupiedEntry F K V)}
    (sound : (Holding.entry (.occupied entry)).Sound) (ran : entry.getMut = some ref) (value : V) :
    (Holding.entry (.occupied (ref.write value))).Sound := by
  obtain ⟨valid, inside⟩ := sound
  obtain ⟨behind, found, refers⟩ := BTreeMap.getMutIndex_at valid (List.getElem?_eq_getElem inside)
  rw [OccupiedEntry.getMut, found] at ran
  cases ran
  exact ⟨refers.valid value, by rw [refers.length]; exact inside⟩

private theorem BTreeMap.splitOff_sound {map kept moved : BTreeMap F K V} {borrow : κ → Q} (valid : map.set.Valid)
    (strict : StrictMono borrow) {key : Q} (ran : map.splitOff borrow key = some (kept, moved)) :
    kept.set.Valid ∧ moved.set.Valid := by
  obtain ⟨before, low, high, after, located, _, position⟩ :=
    BTreeSet.locateValueBy_spec valid true (BTreeSet.descending_below strict.monotone key)
  obtain ⟨_, _, split, ⟨keptValid, _⟩, movedValid, _⟩ := BTreeSet.splitOffAt_spec valid located
  simp only [BTreeMap.splitOff, BTreeSet.splitOffCmp, BTreeSet.locateValueCmp, keyBelow, position, bind,
    Option.bind_some, split] at ran
  cases ran
  exact ⟨keptValid, movedValid⟩

private theorem BTreeMap.append_sound {map other after drained : BTreeMap F K V} (valid : map.set.Valid) (beside : other.set.Valid)
    {fuel : Nat} (ran : BTreeMap.append fuel map other = some (after, drained)) : after.set.Valid ∧ drained.set.Valid := by
  obtain ⟨⟨_, _⟩, appended, same⟩ := Option.map_eq_some_iff.mp ran
  cases same
  exact BTreeSet.append_valid valid beside appended

theorem Reached.sound {holding : Holding F K V} (reached : Reached holding) : holding.Sound := by
  induction reached with
  | new => exact BTreeSet.valid_withMaximumNodeSize (by decide)
  | withMaximumNodeSize room => exact BTreeSet.valid_withMaximumNodeSize room
  | clear earlier ih => exact BTreeSet.Valid.clear ih
  | insert earlier key value ran ih =>
    obtain ⟨_, returned, valid, _⟩ := BTreeMap.insert_spec ih key value
    cases ran.symm.trans returned
    exact valid
  | remove earlier borrow strict key ran ih =>
    obtain ⟨_, returned, valid, _⟩ := BTreeMap.remove_spec ih strict key
    cases ran.symm.trans returned
    exact valid
  | removeEntry earlier borrow strict key ran ih =>
    obtain ⟨_, returned, valid, _⟩ := BTreeMap.removeEntry_spec ih strict key
    cases ran.symm.trans returned
    exact valid
  | popFirst earlier ran ih =>
    obtain ⟨_, returned, valid, _⟩ := BTreeSet.popFirst_spec ih
    rw [BTreeMap.popFirst, returned] at ran
    cases ran
    exact valid
  | popLast earlier ran ih =>
    obtain ⟨_, returned, valid, _⟩ := BTreeSet.popLast_spec ih
    rw [BTreeMap.popLast, returned] at ran
    cases ran
    exact valid
  | popIndex earlier index inside ran ih =>
    obtain ⟨_, returned, valid, _⟩ := BTreeSet.popIndex_spec ih (inside.trans_eq (BTreeSet.Valid.counted ih))
    rw [BTreeMap.popIndex, returned] at ran
    cases ran
    exact valid
  | retain earlier f state ran ih =>
    obtain ⟨⟨_, _⟩, retained, same⟩ := Option.map_eq_some_iff.mp ran
    obtain ⟨_, returned, valid, _⟩ := BTreeSet.retainMut_spec (BTreeMap.visitPair f) ih (fun _ _ => rfl) state
    cases same
    cases retained.symm.trans returned
    exact valid
  | append earlier beside fuel ran ih other => exact (BTreeMap.append_sound ih other ran).1
  | appended earlier beside fuel ran ih other => exact (BTreeMap.append_sound ih other ran).2
  | splitOff earlier borrow strict key ran ih => exact (BTreeMap.splitOff_sound ih strict ran).1
  | latterHalf earlier borrow strict key ran ih => exact (BTreeMap.splitOff_sound ih strict ran).2
  | getMut earlier borrow strict key ran value ih =>
    obtain ⟨found, returned, refers⟩ := BTreeMap.getMut_spec ih strict key
    cases ran.symm.trans returned
    split at refers
    next => obtain ⟨_, same, refers⟩ := refers; cases same; exact refers.valid value
    next => cases refers
  | getMutIndex earlier index inside ran value ih =>
    have within := inside.trans_eq (BTreeSet.Valid.counted ih)
    obtain ⟨_, returned, refers⟩ := BTreeMap.getMutIndex_at ih (List.getElem?_eq_getElem within)
    cases ran.symm.trans returned
    exact refers.valid value
  | valuesMut earlier written ih =>
    apply BTreeSet.Valid.of_keys ih
    rw [List.map_map]
    apply List.map_congr_left
    intro node _
    exact List.map_map ..
  | entry earlier key ran ih =>
    obtain ⟨_, returned, _, sound, _⟩ := BTreeMap.entry_spec ih key
    cases ran.symm.trans returned
    exact sound
  | @firstEntry map entry earlier ran ih =>
    have counted : map.len = map.entries.length := BTreeSet.Valid.counted ih
    rw [BTreeMap.firstEntry] at ran
    split at ran
    next => cases ran
    next some =>
      cases ran
      exact ⟨ih, by simp only; omega⟩
  | @lastEntry map entry earlier ran ih =>
    have counted : map.len = map.entries.length := BTreeSet.Valid.counted ih
    rw [BTreeMap.lastEntry] at ran
    split at ran
    next some =>
      cases ran
      exact ⟨ih, by simp only; omega⟩
    next => cases ran
  | @andModify entry after earlier f ran ih =>
    cases entry with
    | vacant entry =>
      cases ran
      exact ih
    | occupied entry =>
      obtain ⟨ref, borrowed, same⟩ := Option.map_eq_some_iff.mp ran
      cases same
      exact OccupiedEntry.getMut_sound ih borrowed _
  | borrowed earlier ran value ih => exact OccupiedEntry.getMut_sound ih ran value
  | occupiedInsert earlier value ran ih =>
    obtain ⟨ref, borrowed, same⟩ := Option.map_eq_some_iff.mp ran
    cases same
    exact OccupiedEntry.getMut_sound ih borrowed value
  | @dropped entry earlier ih =>
    cases entry with
    | vacant entry => exact ih.1
    | occupied entry => exact ih.1
  | intoMut earlier ran value ih =>
    obtain ⟨_, returned, refers⟩ := BTreeMap.getMutIndex_at ih.1 (List.getElem?_eq_getElem ih.2)
    cases ran.symm.trans returned
    exact refers.valid value
  | occupiedRemove earlier ran ih =>
    obtain ⟨_, popped, valid, _⟩ := BTreeMap.popIndex_at ih.1 (List.getElem?_eq_getElem ih.2)
    rw [OccupiedEntry.remove, popped] at ran
    cases ran
    exact valid
  | occupiedRemoveEntry earlier ran ih =>
    obtain ⟨_, popped, valid, _⟩ := BTreeMap.popIndex_at ih.1 (List.getElem?_eq_getElem ih.2)
    cases ran.symm.trans popped
    exact valid
  | vacantInsert earlier value ran later ih =>
    obtain ⟨_, returned, _, write⟩ := VacantEntry.insert_spec ih.1 ih.2 value
    cases ran.symm.trans returned
    exact (write later).1

/-- The representation invariant holds of every set and every map that public calls lead to. -/
theorem collections_valid {α : Type} [Keyed α κ] :
    (∀ set : BTreeSet F α, set.Reachable → set.Valid) ∧ ∀ map : BTreeMap F K V, Reached (.map map) → map.set.Valid :=
  ⟨fun _ reached => reached.valid, fun _ reached => reached.sound⟩

/-- A set of three elements and a map of three pairs, in nodes of at most two. -/
theorem collections_valid_two :
    (∃ set : BTreeSet (List Nat) Nat, set.Reachable ∧ set.inner = [[1], [2, 3]] ∧ set.Valid) ∧
    ∃ map : BTreeMap (List Nat) Nat Nat, Reached (.map map) ∧ map.set.inner = [[⟨1, 10⟩], [⟨2, 20⟩, ⟨3, 30⟩]] ∧ map.set.Valid := by
  have sets : ∃ set : BTreeSet (List Nat) Nat, set.Reachable ∧ set.inner = [[1], [2, 3]] :=
    ⟨_, .insert (.insert (.insert (.withMaximumNodeSize (le_refl 2)) 1 rfl) 2 rfl) 3 rfl, rfl⟩
  have maps : ∃ map : BTreeMap (List Nat) Nat Nat, Reached (.map map) ∧ map.set.inner = [[⟨1, 10⟩], [⟨2, 20⟩, ⟨3, 30⟩]] :=
    ⟨_, .insert (.insert (.insert (.withMaximumNodeSize (le_refl 2)) 1 10 rfl) 2 20 rfl) 3 30 rfl, rfl⟩
  obtain ⟨set, reachedSet, elements⟩ := sets
  obtain ⟨map, reachedMap, pairs⟩ := maps
  exact ⟨⟨set, reachedSet, elements, collections_valid (K := Nat) (V := Nat) |>.1 set reachedSet⟩,
    map, reachedMap, pairs, collections_valid (α := Nat) |>.2 map reachedMap⟩

/-- Every public call on a reachable map or entry does what the reference does. -/
theorem refines_sorted_map {holding : Holding F K V} (reached : Reached holding) : holding.Refines := by
  have sound := reached.sound
  cases holding with
  | entry entry => exact Entry.acts sound
  | map map =>
    constructor
    case getKeyValue => exact fun borrow strict key => BTreeMap.getKeyValue_spec sound strict key
    case get => exact fun borrow strict key => BTreeMap.get_spec sound strict key
    case index => exact fun borrow strict key => BTreeMap.get_spec sound strict key
    case containsKey => exact fun borrow strict key => BTreeMap.containsKey_spec sound strict key
    case getMut => exact fun borrow strict key => BTreeMap.getMut_spec sound strict key
    case insert =>
      intro key value
      obtain ⟨after, ran, _, entries⟩ := BTreeMap.insert_spec sound key value
      exact ⟨after, ran, entries⟩
    case remove =>
      intro Q _ borrow strict key
      obtain ⟨after, ran, _, entries⟩ := BTreeMap.remove_spec sound strict key
      exact ⟨after, ran, entries⟩
    case removeEntry =>
      intro Q _ borrow strict key
      obtain ⟨after, ran, _, entries⟩ := BTreeMap.removeEntry_spec sound strict key
      exact ⟨after, ran, entries⟩
    case entry =>
      intro key
      obtain ⟨entry, ran, same, entrySound, kind⟩ := BTreeMap.entry_spec sound key
      exact ⟨entry, ran, same, Entry.acts entrySound, kind⟩

/-- A vacant entry whose insertion splits a full node, and the map that it leaves. -/
theorem refines_sorted_map_split : ∃ (entry : VacantEntry (List Nat) Nat Nat) (map : BTreeMap (List Nat) Nat Nat),
    Reached (.entry (.vacant entry)) ∧ entry.map.set.inner = [[⟨1, 10⟩, ⟨3, 30⟩]] ∧ Reached (.map map) ∧
      map.set.inner = [[⟨1, 10⟩, ⟨2, 21⟩], [⟨3, 30⟩]] ∧ (Holding.entry (.vacant entry)).Refines ∧ (Holding.map map).Refines := by
  have full : ∃ map : BTreeMap (List Nat) Nat Nat, Reached (.map map) ∧ map.set = ⟨[[⟨1, 10⟩, ⟨3, 30⟩]], [2], 2, 2⟩ :=
    ⟨_, .insert (.insert (.withMaximumNodeSize (le_refl 2)) 1 10 rfl) 3 30 rfl, rfl⟩
  obtain ⟨⟨_⟩, reached, rfl⟩ := full
  have vacant := Reached.entry reached 2 rfl
  have split := Reached.vacantInsert vacant 20 rfl 21
  exact ⟨_, _, vacant, rfl, split, rfl, refines_sorted_map vacant, refines_sorted_map split⟩

end Statements
end WorkTablesIndex.Indexset
