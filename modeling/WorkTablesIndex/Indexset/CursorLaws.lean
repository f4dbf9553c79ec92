import Mathlib.Algebra.Ring.Int.Defs
import WorkTablesIndex.Indexset.Cursor
import WorkTablesIndex.Indexset.Mutations
import WorkTablesIndex.Indexset.RangeLaws

/-! Where a map's cursor starts, and how it moves. The positions and the ghost position behind them
are a cycle; a cursor that starts on it stays on it. -/

namespace WorkTablesIndex.Indexset
open Slice

variable {F K V κ Q : Type} [FenwickTree F]

inductive Move where
  | next
  | prev
  deriving DecidableEq, Repr

def Move.offset : Move → Int
  | .next => 1
  | .prev => -1

namespace CursorMap
variable {cursor : CursorMap F K V}

def move : Move → CursorMap F K V → CursorMap F K V
  | .next => moveNext
  | .prev => movePrev

def run : List Move → CursorMap F K V → CursorMap F K V
  | [], cursor => cursor
  | step :: moves, cursor => run moves (move step cursor)

/-- A sequence of moves stays among the positions up to the ghost position, which it goes around as
on a cycle, and a move back undoes one forward. -/
structure Cycles (cursor : CursorMap F K V) (moves : List Move) : Prop where
  set : (run moves cursor).cursor.set = cursor.cursor.set
  within : (run moves cursor).cursor.idx ≤ cursor.cursor.set.len
  position : ((run moves cursor).cursor.idx : Int) =
    (cursor.cursor.idx + (moves.map Move.offset).sum) % (cursor.cursor.set.len + 1)
  undone : (run moves cursor).moveNext.movePrev = run moves cursor

omit [FenwickTree F] in
theorem move_set (step : Move) (cursor : CursorMap F K V) : (move step cursor).cursor.set = cursor.cursor.set := by
  cases step with
  | next =>
    simp only [move, moveNext, Cursor.moveNext]
    split <;> rfl
  | prev =>
    simp only [move, movePrev, Cursor.movePrev]
    split <;> rfl

omit [FenwickTree F] in
theorem move_position (step : Move) (within : cursor.cursor.idx ≤ cursor.cursor.set.len) :
    ((move step cursor).cursor.idx : Int) = (cursor.cursor.idx + step.offset) % (cursor.cursor.set.len + 1) := by
  cases step with
  | next =>
    simp only [move, moveNext, Cursor.moveNext, Move.offset]
    split
    next ghost => rw [ghost, Int.emod_self, Int.natCast_zero]
    next inside =>
      rw [Int.emod_eq_of_lt (by omega) (by omega)]
      exact Int.natCast_succ _
  | prev =>
    simp only [move, movePrev, Cursor.movePrev, Move.offset]
    split
    next first =>
      have around : ((cursor.cursor.idx : Int) + -1) % (cursor.cursor.set.len + 1) =
          (cursor.cursor.set.len : Int) % (cursor.cursor.set.len + 1) := by
        rw [first, ← Int.add_emod_right]
        congr 1
        omega
      rw [around, Int.emod_eq_of_lt (by omega) (by omega)]
    next later =>
      rw [Int.emod_eq_of_lt (by omega) (by omega)]
      simp only
      omega

omit [FenwickTree F] in
theorem move_undone (within : cursor.cursor.idx ≤ cursor.cursor.set.len) : cursor.moveNext.movePrev = cursor := by
  obtain ⟨⟨set, idx⟩⟩ := cursor
  simp only [moveNext, movePrev, Cursor.moveNext, Cursor.movePrev]
  split
  next ghost => simp [ghost]
  next => simp

omit [FenwickTree F] in
theorem cycles (moves : List Move) (within : cursor.cursor.idx ≤ cursor.cursor.set.len) : Cycles cursor moves := by
  induction moves generalizing cursor with
  | nil =>
    refine ⟨rfl, within, ?_, move_undone within⟩
    rw [List.map_nil, List.sum_nil, Int.add_zero, Int.emod_eq_of_lt (by omega) (by omega)]
    rfl
  | cons step moves ih =>
    have set := move_set step cursor
    have moved := move_position step within
    have next : (move step cursor).cursor.idx ≤ (move step cursor).cursor.set.len := by
      have below := Int.emod_lt_of_pos ((cursor.cursor.idx : Int) + step.offset)
        (by omega : (0 : Int) < cursor.cursor.set.len + 1)
      rw [set]
      omega
    obtain ⟨same, inside, position, undone⟩ := ih next
    rw [set] at same inside position
    refine ⟨same, inside, ?_, undone⟩
    rw [moved, Int.emod_add_emod] at position
    rw [List.map_cons, List.sum_cons, ← Int.add_assoc]
    exact position

/-- What a cursor shows beside it is what it shows once it has moved there. -/
structure Shows [LinearOrder κ] [Keyed K κ] (cursor : CursorMap F K V) : Prop where
  keyValue : cursor.keyValue = (cursor.cursor.set.elements[cursor.cursor.idx]?).map BTreeMap.item
  key : cursor.key = cursor.keyValue.map Prod.fst
  value : cursor.value = cursor.keyValue.map Prod.snd
  peekNext : cursor.peekNext = cursor.moveNext.keyValue
  peekIndex (index : Nat) : cursor.peekIndex index = (cursor.moveIndex index).keyValue
  peekPrev : cursor.peekPrev = cursor.movePrev.keyValue

theorem shows [LawfulFenwickTree F] [LinearOrder κ] [Keyed K κ] (reached : Reached (.map ⟨cursor.cursor.set⟩)) :
    Shows cursor := by
  have valid : cursor.cursor.set.Valid := reached.sound
  have listed := BTreeSet.getIndex_spec valid
  constructor
  case keyValue => exact congrArg (Option.map BTreeMap.item) (listed _)
  case key => simp only [key, keyValue, Option.map_map, Function.comp_def, BTreeMap.item]
  case value => simp only [value, keyValue, Option.map_map, Function.comp_def, BTreeMap.item]
  case peekNext =>
    simp only [peekNext, keyValue, moveNext, Cursor.peekNext, Cursor.moveNext, Cursor.item]
    split
    next =>
      have first : cursor.cursor.set.first = cursor.cursor.set.elements.head? := BTreeSet.head_flatten valid
      rw [first, listed, List.head?_eq_getElem?]
    next => rfl
  case peekIndex => exact fun _ => rfl
  case peekPrev =>
    simp only [peekPrev, keyValue, movePrev, Cursor.peekPrev, Cursor.movePrev, Cursor.item]
    split
    -- the ghost position lies behind the last entry
    next => rw [listed, valid.counted, List.getElem?_eq_none le_rfl]
    next => rfl

end CursorMap

namespace BTreeMap
variable [LinearOrder κ] [Keyed K κ] [LinearOrder Q] {borrow : κ → Q} {bound : Bound Q} {map : BTreeMap F K V}

/-- The cursor starts at the first entry that satisfies the bound, or at the ghost position, and
every sequence of moves from there goes around. -/
def CursorExact (borrow : κ → Q) (bound : Bound Q) (map : BTreeMap F K V) : Prop :=
  ∃ cursor, map.lowerBound borrow bound = some cursor ∧ cursor.cursor.set = map.set ∧
    cursor.cursor.idx = map.entries.findIdx (fun pair => bound.admits borrow (Keyed.key pair)) ∧
    ∀ moves, cursor.Cycles moves

def PartitionedFor (borrow : κ → Q) (map : BTreeMap F K V) : Bound Q → Prop
  | .included start | .excluded start => Prefixed (BTreeSet.passes true (keyBelow borrow start)) map.set.inner
  | .unbounded => True

omit [FenwickTree F] in
private theorem findIdx_eq_skipped (sorted : Node.Sorted map.entries) (strict : StrictMono borrow) :
    map.entries.findIdx (fun pair => bound.admits borrow (Keyed.key pair)) = skipped borrow bound map.entries := by
  have leading : map.entries.takeWhile (fun pair => !bound.admits borrow (Keyed.key pair)) = _ := List.takeWhile_eq_take_findIdx_not
  rw [← take_partitionPoint, take_eq_filter (sorted.prefixed_start strict.monotone bound)] at leading
  have length := congrArg List.length leading
  simp only [Bool.not_not, List.length_take, Nat.min_eq_left List.findIdx_le_length] at length
  exact length.symm

variable [LawfulFenwickTree F]

/-- The start is off by one where the bound excludes a key that is not there. -/
private theorem lowerBound_starts (consistent : map.set.Consistent) (sorted : Node.Sorted map.entries)
    (strict : StrictMono borrow) (partitioned : map.PartitionedFor borrow bound) :
    map.lowerBound borrow bound =
      some ⟨⟨map.set, skipped borrow bound map.entries + (startAbsent borrow map.entries bound).toNat⟩⟩ := by
  have ranked : ∀ start, Prefixed (BTreeSet.passes true (keyBelow borrow start)) map.set.inner →
      map.set.rankCmp (keyBelow borrow start) = some (map.entries.filter (BTreeSet.below borrow start)).length :=
    fun start prefixed => BTreeSet.rankCmp_partitioned consistent sorted
      (BTreeSet.descending_below strict.monotone start) prefixed
  cases bound with
  | included start =>
    simp only [lowerBound, ranked start partitioned, bind, Option.bind_some, pure, skipped_included, startAbsent,
      Bool.toNat_false, Nat.add_zero]
  | excluded start =>
    simp only [lowerBound, ranked start partitioned, bind, Option.map_some, Option.bind_some, pure,
      skipped_late sorted strict]
  | unbounded =>
    simp only [lowerBound, bind, Option.bind_some, pure, skipped_unbounded, startAbsent, Bool.toNat_false, Nat.add_zero]

theorem cursorExact_iff (consistent : map.set.Consistent) (sorted : Node.Sorted map.entries)
    (strict : StrictMono borrow) (partitioned : map.PartitionedFor borrow bound) :
    map.CursorExact borrow bound ↔ startAbsent borrow map.entries bound = false := by
  have starts := lowerBound_starts consistent sorted strict partitioned
  have first : map.entries.findIdx (fun pair => bound.admits borrow (Keyed.key pair)) = skipped borrow bound map.entries :=
    findIdx_eq_skipped sorted strict
  constructor
  · intro given
    obtain ⟨cursor, made, _, position, _⟩ := given
    cases starts.symm.trans made
    rw [first] at position
    simpa using position
  · intro placed
    rw [placed, Bool.toNat_false, Nat.add_zero] at starts
    refine ⟨_, starts, rfl, first.symm, fun moves => CursorMap.cycles moves ?_⟩
    exact (List.length_filter_le _ _).trans consistent.counted.ge

omit [FenwickTree F] [LawfulFenwickTree F] [LinearOrder κ] in
private theorem startAbsent_iff : startAbsent borrow map.entries bound = false ↔
    ∀ value, bound = .excluded value → ∃ pair ∈ map.entries, borrow (Keyed.key pair) = value := by
  cases bound with
  | included start => simp [startAbsent]
  | excluded start =>
    rw [startAbsent, Option.isNone_eq_false_iff, SortedList.find_isSome]
    constructor
    · intro stored value given
      obtain ⟨⟩ := given
      exact stored
    · exact fun stored => stored start rfl
  | unbounded => simp [startAbsent]

private theorem partitionedFor (valid : map.set.Valid) (strict : StrictMono borrow) : map.PartitionedFor borrow bound := by
  have prefixed : ∀ start, Prefixed (BTreeSet.passes true (keyBelow borrow start)) map.set.inner :=
    fun start => BTreeSet.prefixed_passes valid true (BTreeSet.descending_below strict.monotone start)
  cases bound with
  | included start => exact prefixed start
  | excluded start => exact prefixed start
  | unbounded => trivial

private theorem CursorExact.keyValue (valid : map.set.Valid) (strict : StrictMono borrow) (exact_ : map.CursorExact borrow bound) :
    ∃ cursor, map.lowerBound borrow bound = some cursor ∧
      cursor.keyValue = (map.entries.find? fun pair => bound.admits borrow (Keyed.key pair)).map item := by
  obtain ⟨cursor, made, set, position, _⟩ := exact_
  have shown : map.entries[skipped borrow bound map.entries]? =
      map.entries.find? (fun pair => !!bound.admits borrow (Keyed.key pair)) :=
    getElem?_filter_length (valid.sorted.prefixed_start strict.monotone bound)
  refine ⟨cursor, made, ?_⟩
  rw [findIdx_eq_skipped valid.sorted strict] at position
  rw [CursorMap.keyValue, Cursor.item, set, position, BTreeSet.getIndex_spec valid]
  simp only [Bool.not_not] at shown
  exact congrArg (Option.map item) shown

/-- In every map with nodes of at least two, a cursor starts as documented unless its bound excludes
an absent key; with nodes of one the same holds as long as the entries are in order and the nodes
are partitioned for the search. -/
theorem cursor_exact_iff :
    (∀ map : BTreeMap F K V, Reached (.map map) → ∀ (borrow : κ → Q) (bound : Bound Q), StrictMono borrow →
      (map.CursorExact borrow bound ↔
        ∀ value, bound = .excluded value → ∃ pair ∈ map.entries, borrow (Keyed.key pair) = value) ∧
      (map.CursorExact borrow bound → ∃ cursor, map.lowerBound borrow bound = some cursor ∧
        cursor.keyValue = (map.entries.find? fun pair => bound.admits borrow (Keyed.key pair)).map item)) ∧
    ∀ map : BTreeMap F K V, map.set.Built → Node.Sorted map.entries → ∀ (borrow : κ → Q) (bound : Bound Q), StrictMono borrow →
      map.PartitionedFor borrow bound → (map.CursorExact borrow bound ↔
        ∀ value, bound = .excluded value → ∃ pair ∈ map.entries, borrow (Keyed.key pair) = value) := by
  constructor
  · intro map reached borrow bound strict
    have valid : map.set.Valid := reached.sound
    refine ⟨?_, CursorExact.keyValue valid strict⟩
    rw [← startAbsent_iff]
    exact cursorExact_iff valid.consistent valid.sorted strict (partitionedFor valid strict)
  · intro map built sorted borrow bound strict partitioned
    rw [← startAbsent_iff]
    exact cursorExact_iff built.consistent sorted strict partitioned

/-- Behind a stored key, and at an absent one, in two nodes; and behind the only key of a map with
nodes of one. -/
theorem cursor_exact_two :
    (∃ map : BTreeMap (List Nat) Nat Nat, Reached (.map map) ∧ map.set.inner = [[⟨1, 10⟩], [⟨3, 30⟩, ⟨5, 50⟩]] ∧
      map.CursorExact id (.excluded 3) ∧ map.CursorExact id (.included 4)) ∧
    ∃ map : BTreeMap (List Nat) Nat Nat, map.set.Built ∧ map.set.inner = [[⟨1, 10⟩]] ∧ map.set.nodeCapacity = 1 ∧
      map.CursorExact id (.excluded 1) := by
  obtain ⟨valid, sized⟩ := cursor_exact_iff (F := List Nat) (K := Nat) (V := Nat) (Q := Nat)
  obtain ⟨_, reached, rfl⟩ : ∃ map : BTreeMap (List Nat) Nat Nat, Reached (.map map) ∧
      map = ⟨⟨[[⟨1, 10⟩], [⟨3, 30⟩, ⟨5, 50⟩]], [1, 2], 2, 3⟩⟩ :=
    ⟨_, .insert (.insert (.insert (.withMaximumNodeSize (le_refl 2)) 1 10 rfl) 3 30 rfl) 5 50 rfl, rfl⟩
  obtain ⟨_, one, rfl⟩ : ∃ map : BTreeMap (List Nat) Nat Nat, (Holding.calls 1 fun _ _ => True).Reaches (.map map) ∧
      map = ⟨⟨[[⟨1, 10⟩]], [1], 1, 1⟩⟩ :=
    ⟨_, .change (.make ⟨1, le_rfl, rfl⟩) (.insert 1 10 rfl), rfl⟩
  have built := Holding.calls_built.reaches one
  refine ⟨⟨_, reached, rfl, (valid _ reached id _ strictMono_id).1.mpr ?_, (valid _ reached id _ strictMono_id).1.mpr ?_⟩,
    _, built, rfl, rfl, (sized _ built ?_ id _ strictMono_id ?_).mpr ?_⟩
  · intro _ given
    obtain ⟨⟩ := given
    exact ⟨⟨3, 30⟩, by simp [entries, BTreeSet.elements], rfl⟩
  · intro _ given
    obtain ⟨⟩ := given
  · exact List.pairwise_singleton _ _
  · exact List.pairwise_singleton _ _
  · intro _ given
    obtain ⟨⟩ := given
    exact ⟨⟨1, 10⟩, by simp [entries, BTreeSet.elements], rfl⟩

/-- Behind an absent key the next entry is skipped; beyond the last entry the cursor starts behind
the ghost position. -/
theorem cursor_skips_entry : ∃ map : BTreeMap (List Nat) Nat Nat, Reached (.map map) ∧ map.entries = [⟨1, 10⟩, ⟨3, 30⟩] ∧
    map.lowerBound id (.excluded 2) = some ⟨⟨map.set, 2⟩⟩ ∧ ¬map.CursorExact id (.excluded 2) ∧
    ∃ cursor, map.lowerBound id (.excluded 4) = some cursor ∧ map.len < cursor.cursor.idx ∧
      ¬map.CursorExact id (.excluded 4) := by
  refine ⟨_, .insert (.insert (.withMaximumNodeSize (le_refl 2)) 1 10 rfl) 3 30 rfl, rfl, rfl, ?_, _, rfl, by decide, ?_⟩
  · intro given
    obtain ⟨cursor, made, _, position, _⟩ := given
    cases made
    exact absurd position (by decide)
  · intro given
    obtain ⟨cursor, made, _, position, _⟩ := given
    cases made
    exact absurd position (by decide)

end BTreeMap
end WorkTablesIndex.Indexset
