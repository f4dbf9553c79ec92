import Mathlib.Data.List.Nodup
import WorkTablesIndex.IterLaws

/-! Scans interleaved with complete calls on the set. Both ends yield in order and never
the same key, and a scan that comes to its end has yielded every value that stayed. -/

universe u v

namespace WorkTablesIndex
open SortedMap

variable {α : Type u} {κ : Type v} [LinearOrder κ]

/-- A scan under way: `sets` are the states of the set since the iterator was created, up
to the current one, and `front` and `back` the values each end has returned so far. -/
structure Scan (α : Type u) (κ : Type v) [LinearOrder κ] where
  set : BTreeSet α κ
  iter : Iter α
  sets : List (BTreeSet α κ)
  front : List α
  back : List α

variable [Keyed α κ]

/-- The scans of the sets that satisfy `begins`, with any calls on the set in between. -/
inductive Scanned (begins : BTreeSet α κ → Prop) : Scan α κ → Prop where
  | created {set : BTreeSet α κ} (begun : begins set) : Scanned begins ⟨set, set.iter, [set], [], []⟩
  | mutates {scan : Scan α κ} {after : BTreeSet α κ} (earlier : Scanned begins scan) (call : scan.set.Mutates after) :
      Scanned begins { scan with set := after, sets := after :: scan.sets }
  | next {scan : Scan α κ} {result : Option α} {iter : Iter α} (earlier : Scanned begins scan) (fuel : Nat)
      (ran : scan.iter.next scan.set fuel = some (result, iter)) :
      Scanned begins { scan with iter, front := scan.front ++ result.toList }
  | nextBack {scan : Scan α κ} {result : Option α} {iter : Iter α} (earlier : Scanned begins scan) (fuel : Nat)
      (ran : scan.iter.nextBack scan.set fuel = some (result, iter)) :
      Scanned begins { scan with iter, back := scan.back ++ result.toList }

namespace Scan
variable {scan : Scan α κ} {begins : BTreeSet α κ → Prop}

def HeldKey (scan : Scan α κ) (wanted : κ) : Prop := ∀ set ∈ scan.sets, ∃ item, set.layout.Stored item ∧ key item = wanted

def Held (scan : Scan α κ) (value : α) : Prop := ∀ set ∈ scan.sets, set.layout.Stored value

def Seen (scan : Scan α κ) (value : α) : Prop := ∃ set ∈ scan.sets, set.layout.Stored value

def watch (scan : Scan α κ) : Watch α κ := ⟨scan.HeldKey, scan.Held, scan.Seen⟩

/-- Every key that has been in the set all along is the key of exactly one returned
value, and a value that was there all along is itself that value. -/
structure Complete (scan : Scan α κ) : Prop where
  once : ∀ wanted, scan.HeldKey wanted → ((scan.front ++ scan.back).map key).count wanted = 1
  values : ∀ value, scan.Held value → value ∈ scan.front ++ scan.back

/-- The promise of the iterator. Only values of the set are returned; a call always returns,
and one that returns `None` has come to the end of a complete scan. -/
structure WeaklyConsistent (scan : Scan α κ) : Prop where
  increasing : scan.front.Pairwise fun first second => key first < key second
  decreasing : scan.back.Pairwise fun first second => key first > key second
  apart : ∀ first ∈ scan.front, ∀ second ∈ scan.back, key first ≠ key second
  genuine : ∀ value ∈ scan.front ++ scan.back, scan.Seen value
  returns : ∀ fuel, 3 ≤ fuel → (scan.iter.next scan.set fuel).isSome ∧ (scan.iter.nextBack scan.set fuel).isSome
  next_none : ∀ fuel iter, scan.iter.next scan.set fuel = some (none, iter) → scan.Complete
  nextBack_none : ∀ fuel iter, scan.iter.nextBack scan.set fuel = some (none, iter) → scan.Complete

structure Advances (scan : Scan α κ) : Prop where
  tidy : scan.set.Tidy
  current : scan.set ∈ scan.sets
  progress : Progress (· < ·) scan.watch scan.set.heap scan.iter.forward scan.iter.backward scan.front scan.back
    scan.iter.met

theorem Advances.present (advances : Advances scan) : scan.watch.Present scan.set.layout :=
  ⟨fun _ held => held scan.set advances.current, fun _ held => held scan.set advances.current,
    fun _ stored => ⟨scan.set, advances.current, stored⟩⟩

private theorem Advances.created {set : BTreeSet α κ} (tidy : set.Tidy) : Advances ⟨set, set.iter, [set], [], []⟩ := by
  have positive : 0 < initialBatch := by decide
  refine ⟨tidy, List.mem_singleton_self set, List.Pairwise.nil, List.Pairwise.nil, by simp, by simp, by simp, fun wanted _ => ?_,
    fun _ => ⟨rfl, Side.idle, fun _ => ⟨rfl, rfl, rfl⟩, positive⟩, fun _ => ⟨rfl, Side.idle, fun _ => ⟨rfl, rfl, rfl⟩, positive⟩⟩
  exact Or.inr ⟨rfl, fun last same => (by cases same), fun last same => (by cases same)⟩

private theorem Advances.mutates (advances : Advances scan) {after : BTreeSet α κ} (call : scan.set.Mutates after) :
    Advances { scan with set := after, sets := after :: scan.sets } := by
  obtain ⟨tidy, stays, _⟩ := call.tidy advances.tidy
  refine ⟨tidy, List.mem_cons_self, ?_⟩
  refine advances.progress.mutate stays advances.present ⟨fun _ held set member => held set (List.mem_cons_of_mem _ member),
    fun _ held set member => held set (List.mem_cons_of_mem _ member), fun value seen => ?_⟩
  obtain ⟨set, member, stored⟩ := seen
  exact ⟨set, List.mem_cons_of_mem _ member, stored⟩

private theorem Advances.draws (advances : Advances scan) (unmet : scan.iter.met = false) {fuel : Nat} {result : Option α}
    {iter : Iter α} (ran : scan.iter.next scan.set fuel = some (result, iter)) : iter.backward = scan.iter.backward ∧
      Draws (· < ·) scan.watch scan.set.heap scan.iter.currentFrontValue scan.iter.currentBackValue iter.forward
        result iter.met := by
  obtain ⟨_, _, enough, frame, draws⟩ := Iter.next_draws advances.tidy.layout advances.present
    (advances.progress.own unmet).2 unmet fuel
  cases (Iter.next_fuel ran 2).symm.trans enough
  exact ⟨frame, draws⟩

private theorem Advances.draws_back (advances : Advances scan) (unmet : scan.iter.met = false) {fuel : Nat} {result : Option α}
    {iter : Iter α} (ran : scan.iter.nextBack scan.set fuel = some (result, iter)) : iter.forward = scan.iter.forward ∧
      Draws (· > ·) scan.watch scan.set.heap scan.iter.currentBackValue scan.iter.currentFrontValue iter.backward
        result iter.met := by
  obtain ⟨_, _, enough, frame, draws⟩ :=
    Iter.nextBack_draws advances.tidy.layout advances.present (advances.progress.other unmet).2 unmet fuel
  cases (Iter.nextBack_fuel ran 3).symm.trans enough
  exact ⟨frame, draws⟩

private theorem next_met (met : scan.iter.met = true) {fuel : Nat} {result : Option α} {iter : Iter α}
    (ran : scan.iter.next scan.set fuel = some (result, iter)) : result = none ∧ iter = scan.iter := by
  cases fuel with
  | zero => cases ran
  | succ fuel =>
    rw [Iter.next, if_pos met] at ran
    cases ran
    exact ⟨rfl, rfl⟩

private theorem nextBack_met (met : scan.iter.met = true) {fuel : Nat} {result : Option α} {iter : Iter α}
    (ran : scan.iter.nextBack scan.set fuel = some (result, iter)) : result = none ∧ iter = scan.iter := by
  cases fuel with
  | zero => cases ran
  | succ fuel =>
    rw [Iter.nextBack, if_pos met] at ran
    cases ran
    exact ⟨rfl, rfl⟩

private theorem Advances.unmet (advances : Advances scan) (unmet : scan.iter.met = false) : Progress (· < ·) scan.watch
    scan.set.heap scan.iter.forward scan.iter.backward scan.front scan.back false :=
  unmet ▸ advances.progress

private theorem Advances.next (advances : Advances scan) {fuel : Nat} {result : Option α} {iter : Iter α}
    (ran : scan.iter.next scan.set fuel = some (result, iter)) :
    Advances { scan with iter, front := scan.front ++ result.toList } := by
  refine ⟨advances.tidy, advances.current, ?_⟩
  cases met : scan.iter.met with
  | true =>
    obtain ⟨rfl, rfl⟩ := next_met met ran
    simpa using advances.progress
  | false =>
    obtain ⟨frame, draws⟩ := advances.draws met ran
    simp only [frame]
    exact (advances.unmet met).draw draws

private theorem Advances.nextBack (advances : Advances scan) {fuel : Nat} {result : Option α} {iter : Iter α}
    (ran : scan.iter.nextBack scan.set fuel = some (result, iter)) :
    Advances { scan with iter, back := scan.back ++ result.toList } := by
  refine ⟨advances.tidy, advances.current, ?_⟩
  cases met : scan.iter.met with
  | true =>
    obtain ⟨rfl, rfl⟩ := nextBack_met met ran
    simpa using advances.progress
  | false =>
    obtain ⟨frame, draws⟩ := advances.draws_back met ran
    simp only [frame]
    exact ((advances.unmet met).flip.draw draws).flip

private theorem Advances.distinct (advances : Advances scan) : ((scan.front ++ scan.back).map key).Nodup := by
  rw [List.Nodup, List.pairwise_map, List.pairwise_append]
  exact ⟨advances.progress.ordered.imp fun below => below.ne, advances.progress.reversed.imp fun above => above.ne',
    fun first member second there => (advances.progress.apart first member second there).ne⟩

private theorem Advances.complete (advances : Advances scan)
    (yielded : ∀ wanted, scan.HeldKey wanted → ∃ item, (item ∈ scan.front ∨ item ∈ scan.back) ∧ key item = wanted) :
    scan.Complete := by
  refine ⟨fun wanted held => ?_, fun value held => ?_⟩
  · obtain ⟨item, member, rfl⟩ := yielded wanted held
    exact List.count_eq_one_of_mem advances.distinct (List.mem_map_of_mem (List.mem_append.mpr member))
  · obtain ⟨item, member, same⟩ := yielded (key value) fun set there => ⟨value, held set there, rfl⟩
    rw [advances.progress.exact item member value held same.symm]
    exact List.mem_append.mpr member

private theorem Advances.complete_met (advances : Advances scan) (met : scan.iter.met = true) : scan.Complete := by
  refine advances.complete fun wanted held => (advances.progress.yielded wanted held).resolve_right fun pending => ?_
  cases met.symm.trans pending.1

theorem Advances.weaklyConsistent (advances : Advances scan) : scan.WeaklyConsistent := by
  refine ⟨advances.progress.ordered, advances.progress.reversed,
    fun first member second there => (advances.progress.apart first member second there).ne,
    fun value member => advances.progress.known value (List.mem_append.mp member), fun fuel enough => ?_,
    fun fuel iter ran => ?_, fun fuel iter ran => ?_⟩
  · obtain ⟨more, rfl⟩ := Nat.exists_eq_add_of_le' enough
    cases met : scan.iter.met with
    | true => simp [Iter.next, Iter.nextBack, met]
    | false =>
      obtain ⟨_, _, front, _⟩ :=
        Iter.next_draws advances.tidy.layout advances.present (advances.progress.own met).2 met (more + 1)
      obtain ⟨_, _, back, _⟩ :=
        Iter.nextBack_draws advances.tidy.layout advances.present (advances.progress.other met).2 met more
      exact ⟨Option.isSome_of_eq_some front, Option.isSome_of_eq_some back⟩
  · cases met : scan.iter.met with
    | true => exact advances.complete_met met
    | false =>
      obtain ⟨_, draws⟩ := advances.draws met ran
      exact advances.complete fun wanted held => (advances.unmet met).complete draws held
  · cases met : scan.iter.met with
    | true => exact advances.complete_met met
    | false =>
      obtain ⟨_, draws⟩ := advances.draws_back met ran
      apply advances.complete
      intro wanted held
      obtain ⟨item, member, same⟩ := (advances.unmet met).flip.complete draws held
      exact ⟨item, member.symm, same⟩

end Scan

namespace Scanned
variable {scan : Scan α κ} {begins : BTreeSet α κ → Prop}

theorem advances (scanned : Scanned begins scan) (tidy : ∀ set, begins set → set.Tidy) : scan.Advances := by
  induction scanned with
  | created begun => exact .created (tidy _ begun)
  | mutates earlier call advances => exact advances.mutates call
  | next earlier fuel ran advances => exact advances.next ran
  | nextBack earlier fuel ran advances => exact advances.nextBack ran

/-- Scans are weakly consistent: whatever set is scanned and whatever calls change it in
between, both ends return in order and never the same key, and a scan that returns `None`
has returned every value that was in the set from the creation of the iterator on. -/
theorem weakly_consistent {nodeCapacity : Nat} (scanned : Scanned (BTreeSet.Reachable nodeCapacity) scan) : scan.WeaklyConsistent :=
  (scanned.advances fun _ reachable => reachable.tidy.1).weaklyConsistent

end Scanned

/-- The scan has read a node that then loses its yielded value; the other end comes from the
back, and of the values that came and went only the new one was seen. -/
theorem Scan.weakly_consistent_churn : ∃ scan : Scan Nat Nat, Scanned (BTreeSet.Reachable 3) scan ∧ scan.front = [10, 15, 20] ∧
    scan.back = [40] ∧ ((scan.front ++ scan.back).map key).count 20 = 1 := by
  obtain ⟨scan, scanned, front, back, ⟨iter, ended⟩, held⟩ : ∃ scan : Scan Nat Nat, Scanned (BTreeSet.Reachable 3) scan ∧
      scan.front = [10, 15, 20] ∧ scan.back = [40] ∧ (∃ iter, scan.iter.next scan.set 3 = some (none, iter)) ∧
      ∀ set ∈ scan.sets, 20 ∈ set.nodes.flatten :=
    ⟨_, .next (.next (.mutates (.mutates (.nextBack (.mutates (.next (.created (.mutates (.mutates (.mutates (.mutates .new
      (.insert false 10 1 rfl)) (.insert false 20 1 rfl)) (.insert false 30 1 rfl)) (.insert false 40 1 rfl))) 3 rfl)
      (.remove false 10 1 rfl)) 3 rfl) (.insert false 15 1 rfl)) (.remove false 30 1 rfl)) 3 rfl) 3 rfl, rfl, rfl,
        ⟨_, rfl⟩, by decide⟩
  refine ⟨scan, scanned, front, back, (scanned.weakly_consistent.next_none 3 iter ended).once 20 fun set member => ?_⟩
  exact ⟨20, (BTreeSet.mem_flatten_nodes 20).mp (held set member), rfl⟩

end WorkTablesIndex
