import Mathlib.Data.List.Range
import Mathlib.Logic.Function.Basic
import WorkTablesIndex.Library.GracePeriod
import WorkTablesIndex.PublishedIndex

/-! Who may follow the raw pointer to the published root (`PublishedIndex`, the drop of
`TopologyWriteGuard` and the pins of the point reads in `concurrent/set.rs`). Roots are numbered
as they are boxed; a root is gone once the reclamation domain has run its retirement. -/

universe u w

namespace WorkTablesIndex
open GraceDomain

def publicationBacklogDrainThreshold : Nat := 64

inductive PinHolder where
  | reader (reader : Nat)
  | publication
  deriving DecidableEq

inductive RootReader (ι : Type u) where
  | outside
  | pinned
  | reading (root : Nat) (borrowed : Option ι)

/-- Where the holder of the topology lock stands: `last_is` and `snapshot` follow the root, the
drop of the guard replaces and retires it. -/
inductive RootWriter (ι : Type u) where
  | editing
  | inspecting (root : Nat) (borrowed : Option ι)
  | pinned
  | swapped (retired : Nat)
  | retired
  | unpinned

/-- `allocated` holds the contents of every root ever boxed. `released` counts the guards that have
released the lock and not yet looked at the backlog, and `draining` those that found it too long. -/
structure Roots (ι : Type u) where
  calls : List (Call PinHolder Nat)
  current : Nat
  allocated : List ι
  writer : Option (RootWriter ι)
  released : Nat
  draining : Nat
  readers : Nat → RootReader ι

inductive RootAction (ι : Type u) where
  | pin (reader : Nat)
  | load (reader : Nat)
  | unpin (reader : Nat)
  | write
  | inspect
  | inspected
  | abandon
  | publish
  | replace (replacement : ι)
  | retire
  | unpinPublication
  | release
  | pending
  | advance

namespace Roots
variable {ι : Type u} {δ : Type w}

def new (empty : ι) : Roots ι := ⟨[], 0, [empty], none, 0, 0, fun _ => .outside⟩

/-- Following a pointer to a root: nothing is there any more once it is destroyed. -/
def deref (domain : GraceDomain PinHolder Nat δ) (roots : Roots ι) (root : Nat) : Option ι :=
  if root ∈ domain.destroyed roots.calls then none else roots.allocated[root]?

def step (domain : GraceDomain PinHolder Nat δ) (roots : Roots ι) : RootAction ι → Option (Roots ι)
  | .pin reader =>
    match roots.readers reader with
    | .outside => some { roots with
        calls := .pin (.reader reader) :: roots.calls
        readers := Function.update roots.readers reader .pinned }
    | _ => none
  | .load reader =>
    match roots.readers reader with
    | .pinned => some { roots with
        readers := Function.update roots.readers reader (.reading roots.current (roots.deref domain roots.current)) }
    | _ => none
  | .unpin reader =>
    match roots.readers reader with
    | .reading _ _ => some { roots with
        calls := .unpin (.reader reader) :: roots.calls
        readers := Function.update roots.readers reader .outside }
    | _ => none
  | .write =>
    match roots.writer with
    | none => some { roots with writer := some .editing }
    | _ => none
  | .inspect =>
    match roots.writer with
    | some .editing => some { roots with writer := some (.inspecting roots.current (roots.deref domain roots.current)) }
    | _ => none
  | .inspected =>
    match roots.writer with
    | some (.inspecting _ _) => some { roots with writer := some .editing }
    | _ => none
  -- a guard that does not publish, or changed nothing
  | .abandon =>
    match roots.writer with
    | some .editing => some { roots with writer := none }
    | _ => none
  | .publish =>
    match roots.writer with
    | some .editing => some { roots with calls := .pin .publication :: roots.calls, writer := some .pinned }
    | _ => none
  | .replace replacement =>
    match roots.writer with
    | some .pinned => some { roots with
        current := roots.allocated.length
        allocated := roots.allocated ++ [replacement]
        writer := some (.swapped roots.current) }
    | _ => none
  | .retire =>
    match roots.writer with
    | some (.swapped root) => some { roots with calls := .retire root :: roots.calls, writer := some .retired }
    | _ => none
  | .unpinPublication =>
    match roots.writer with
    | some .retired => some { roots with calls := .unpin .publication :: roots.calls, writer := some .unpinned }
    | _ => none
  | .release =>
    match roots.writer with
    | some .unpinned => some { roots with writer := none, released := roots.released + 1 }
    | _ => none
  -- outside the lock; others may come between the look at the backlog and the advance
  | .pending =>
    match roots.released with
    | 0 => none
    | released + 1 =>
      if publicationBacklogDrainThreshold ≤ domain.pending (domain.after roots.calls) then
        some { roots with released, draining := roots.draining + 1 }
      else some { roots with released }
  | .advance =>
    match roots.draining with
    | 0 => none
    | draining + 1 => some { roots with calls := .advance :: roots.calls, draining }

inductive Reached (domain : GraceDomain PinHolder Nat δ) (empty : ι) : Roots ι → Prop where
  | new : Reached domain empty (new empty)
  | step {before after : Roots ι} (earlier : Reached domain empty before) (action : RootAction ι)
      (taken : before.step domain action = some after) : Reached domain empty after

def run (domain : GraceDomain PinHolder Nat δ) (roots : Roots ι) : List (RootAction ι) → Option (Roots ι)
  | [] => some roots
  | action :: rest => (roots.step domain action).bind fun after => after.run domain rest

variable {domain : GraceDomain PinHolder Nat δ} {roots before after : Roots ι} {empty : ι}

theorem Reached.run (earlier : Reached domain empty before) (schedule : List (RootAction ι))
    (ran : before.run domain schedule = some after) : Reached domain empty after := by
  induction schedule generalizing before with
  | nil =>
    obtain rfl := Option.some.inj ran
    exact earlier
  | cons action rest ih =>
    obtain ⟨next, taken, ran⟩ := Option.bind_eq_some_iff.mp ran
    exact ih (earlier.step action taken) ran

def unlinked : Option (RootWriter ι) → List Nat
  | some (.swapped root) => [root]
  | _ => []

def Borrowed (domain : GraceDomain PinHolder Nat δ) (roots : Roots ι) (root : Nat) (borrowed : Option ι) : Prop :=
  ∃ index, borrowed = some index ∧ roots.deref domain root = some index

/-- What the pin of a read is for, at every stage of it. -/
def Sheltered (domain : GraceDomain PinHolder Nat δ) (roots : Roots ι) (reader : Nat) : RootReader ι → Prop
  | .outside => True
  | .pinned => Held (.reader reader) roots.calls
  | .reading root borrowed => Held (.reader reader) roots.calls ∧
      (root ∈ retirements roots.calls → Protects (.reader reader) root roots.calls) ∧ roots.Borrowed domain root borrowed

/-- Every root boxed so far is the current one, in the writer's hands, or retired, and only one of these. -/
structure Sound (domain : GraceDomain PinHolder Nat δ) (roots : Roots ι) : Prop where
  owned : (roots.current :: (unlinked roots.writer ++ retirements roots.calls)).Perm (List.range roots.allocated.length)
  readers : ∀ reader, roots.Sheltered domain reader (roots.readers reader)
  inspected : ∀ {root borrowed}, roots.writer = some (.inspecting root borrowed) →
    root = roots.current ∧ borrowed = roots.allocated[root]?

namespace Sound

theorem nodup (sound : roots.Sound domain) :
    (roots.current :: (unlinked roots.writer ++ retirements roots.calls)).Nodup :=
  sound.owned.nodup_iff.mpr List.nodup_range

theorem distinct (sound : roots.Sound domain) : (retirements roots.calls).Nodup :=
  (List.nodup_append.mp sound.nodup.of_cons).2.1

theorem linked (sound : roots.Sound domain) : roots.current ∉ retirements roots.calls := fun retired =>
  (List.nodup_cons.mp sound.nodup).1 (List.mem_append_right _ retired)

theorem current_lt (sound : roots.Sound domain) : roots.current < roots.allocated.length :=
  List.mem_range.mp (sound.owned.subset List.mem_cons_self)

theorem deref_current (grace : domain.Grace) (sound : roots.Sound domain) :
    roots.deref domain roots.current = roots.allocated[roots.current]? :=
  if_neg fun gone => sound.linked (grace.retired _ sound.distinct gone)

theorem borrowed_current (grace : domain.Grace) (sound : roots.Sound domain) :
    roots.Borrowed domain roots.current (roots.deref domain roots.current) := by
  have there := (sound.deref_current grace).trans (List.getElem?_eq_getElem sound.current_lt)
  exact ⟨_, there, there⟩

end Sound

theorem Borrowed.not_destroyed {root : Nat} {borrowed : Option ι} (there : roots.Borrowed domain root borrowed) :
    root ∉ domain.destroyed roots.calls := by
  obtain ⟨index, -, there⟩ := there
  intro gone
  rw [deref, if_pos gone] at there
  cases there

private theorem Sheltered.box {reader : Nat} {phase : RootReader ι} (replacement : ι)
    (sheltered : roots.Sheltered domain reader phase) :
    Sheltered domain { roots with allocated := roots.allocated ++ [replacement] } reader phase := by
  cases phase with
  | outside => trivial
  | pinned => exact sheltered
  | reading root borrowed =>
    obtain ⟨held, protects, there⟩ := sheltered
    have kept := there.not_destroyed
    obtain ⟨index, found, there⟩ := there
    refine ⟨held, protects, index, found, ?_⟩
    rw [deref, if_neg kept] at there ⊢
    rw [List.getElem?_append_left (List.getElem?_eq_some_iff.mp there).1]
    exact there

/-- Whatever the domain is asked but to drop the read's pin, what the read follows stays. -/
private theorem Sheltered.call (grace : domain.Grace) {reader : Nat} {phase : RootReader ι}
    (call : Call PinHolder Nat) (other : call ≠ .unpin (.reader reader)) (distinct : (retirements roots.calls).Nodup)
    (sheltered : roots.Sheltered domain reader phase) :
    Sheltered domain { roots with calls := call :: roots.calls } reader phase := by
  have still (held : Held (.reader reader) roots.calls) : Held (.reader reader) (call :: roots.calls) := by
    cases call with
    | pin holder => exact Or.inr held
    | unpin holder => exact ⟨fun same => other (congrArg Call.unpin same), held⟩
    | retire root => exact held
    | advance => exact held
  cases phase with
  | outside => trivial
  | pinned => exact still sheltered
  | reading root borrowed =>
    obtain ⟨held, protects, there⟩ := sheltered
    have kept := there.not_destroyed
    obtain ⟨index, found, there⟩ := there
    rw [deref, if_neg kept] at there
    refine ⟨still held, ?_, index, found, ?_⟩
    · intro retired
      cases call with
      | pin holder => exact protects retired
      | unpin holder => exact ⟨fun same => other (congrArg Call.unpin same), protects retired⟩
      | advance => exact protects retired
      | retire swapped =>
        rcases List.mem_cons.mp retired with rfl | before
        · exact .retire held
        · exact Or.inr (protects before)
    · have remains : root ∉ domain.destroyed (call :: roots.calls) := by
        cases call with
        | pin holder => exact kept
        | unpin holder => exact kept
        | retire swapped => exact kept
        | advance =>
          intro gone
          rcases grace.destroyed_advance distinct gone with before | ⟨retired, free⟩
          · exact kept before
          · exact free _ (protects retired)
      exact (if_neg remains).trans there

private theorem sheltered_update {reader : Nat} {phase : RootReader ι} (here : roots.Sheltered domain reader phase)
    (others : ∀ other, other ≠ reader → roots.Sheltered domain other (before.readers other)) (other : Nat) :
    roots.Sheltered domain other (Function.update before.readers reader phase other) := by
  rcases eq_or_ne other reader with rfl | apart
  · rw [Function.update_self]
    exact here
  · rw [Function.update_of_ne apart]
    exact others other apart

theorem Sound.step (grace : domain.Grace) (sound : before.Sound domain) {action : RootAction ι}
    (taken : before.step domain action = some after) : after.Sound domain := by
  have owned := sound.owned
  have called (call : Call PinHolder Nat) {reader : Nat} (other : call ≠ .unpin (.reader reader)) :=
    Sheltered.call grace call other sound.distinct (sound.readers reader)
  cases action with
  | pin reader =>
    simp only [Roots.step] at taken
    split at taken <;> cases taken
    exact ⟨owned, sheltered_update (Or.inl rfl) fun other _ => called _ nofun, sound.inspected⟩
  | load reader =>
    simp only [Roots.step] at taken
    split at taken <;> cases taken
    rename_i pinned
    have held : before.Sheltered domain reader .pinned := pinned ▸ sound.readers reader
    have here : before.Sheltered domain reader (.reading before.current (before.deref domain before.current)) :=
      ⟨held, fun retired => absurd retired sound.linked, sound.borrowed_current grace⟩
    exact ⟨owned, sheltered_update here fun other _ => sound.readers other, sound.inspected⟩
  | unpin reader =>
    simp only [Roots.step] at taken
    split at taken <;> cases taken
    refine ⟨owned, sheltered_update trivial fun other apart => called _ ?_, sound.inspected⟩
    simpa using apart.symm
  | write =>
    simp only [Roots.step] at taken
    split at taken <;> cases taken
    rename_i free
    rw [free] at owned
    exact ⟨owned, sound.readers, nofun⟩
  | inspect =>
    simp only [Roots.step] at taken
    split at taken <;> cases taken
    rename_i editing
    rw [editing] at owned
    refine ⟨owned, sound.readers, ?_⟩
    intro root borrowed at_
    cases at_
    exact ⟨rfl, sound.deref_current grace⟩
  | inspected =>
    simp only [Roots.step] at taken
    split at taken <;> cases taken
    rename_i inspecting
    rw [inspecting] at owned
    exact ⟨owned, sound.readers, nofun⟩
  | abandon =>
    simp only [Roots.step] at taken
    split at taken <;> cases taken
    rename_i editing
    rw [editing] at owned
    exact ⟨owned, sound.readers, nofun⟩
  | publish =>
    simp only [Roots.step] at taken
    split at taken <;> cases taken
    rename_i editing
    rw [editing] at owned
    exact ⟨owned, fun reader => called _ nofun, nofun⟩
  | replace replacement =>
    simp only [Roots.step] at taken
    split at taken <;> cases taken
    rename_i pinned
    rw [pinned] at owned
    refine ⟨?_, fun reader => (sound.readers reader).box replacement, nofun⟩
    rw [List.length_append, List.length_singleton, List.range_succ]
    exact (owned.cons _).trans (List.perm_append_singleton _ _).symm
  | retire =>
    simp only [Roots.step] at taken
    split at taken <;> cases taken
    rename_i root swapped
    rw [swapped] at owned
    exact ⟨owned, fun reader => called _ nofun, nofun⟩
  | unpinPublication =>
    simp only [Roots.step] at taken
    split at taken <;> cases taken
    rename_i retired
    rw [retired] at owned
    exact ⟨owned, fun reader => called _ nofun, nofun⟩
  | release =>
    simp only [Roots.step] at taken
    split at taken <;> cases taken
    rename_i unpinned
    rw [unpinned] at owned
    exact ⟨owned, sound.readers, nofun⟩
  | pending =>
    simp only [Roots.step] at taken
    split at taken
    · cases taken
    · split at taken <;> cases taken
      · exact ⟨owned, sound.readers, sound.inspected⟩
      · exact ⟨owned, sound.readers, sound.inspected⟩
  | advance =>
    simp only [Roots.step] at taken
    split at taken <;> cases taken
    exact ⟨owned, fun reader => called _ nofun, sound.inspected⟩

theorem Reached.sound (grace : domain.Grace) (reached : Reached domain empty roots) : roots.Sound domain := by
  induction reached with
  | new => exact ⟨.refl _, fun _ => trivial, nofun⟩
  | step _ action taken ih => exact ih.step grace taken

/-- In whatever order reads pin, follow and let go of the root while writers inspect, replace and
retire it and guards advance the domain: no pointer that a read or the writer follows has been
destroyed or changed under it, no root is destroyed twice, and none but a retired one is. -/
theorem roots_never_dangle (grace : domain.Grace) (reached : Reached domain empty roots) :
    (∀ reader root borrowed, roots.readers reader = .reading root borrowed → roots.Borrowed domain root borrowed) ∧
      (∀ root borrowed, roots.writer = some (.inspecting root borrowed) → roots.Borrowed domain root borrowed) ∧
      (roots.current :: (unlinked roots.writer ++ domain.destroyed roots.calls)).Nodup ∧
      (roots.current :: (unlinked roots.writer ++ retirements roots.calls)).Perm (List.range roots.allocated.length) := by
  have sound := reached.sound grace
  have retired := grace.retired roots.calls sound.distinct
  refine ⟨?_, ?_, ?_, sound.owned⟩
  · intro reader root borrowed reading
    obtain ⟨-, -, there⟩ : roots.Sheltered domain reader (.reading root borrowed) := reading ▸ sound.readers reader
    exact there
  · intro root borrowed inspecting
    obtain ⟨rfl, rfl⟩ := sound.inspected inspecting
    rw [← sound.deref_current grace]
    exact sound.borrowed_current grace
  · obtain ⟨apart, distinct⟩ := List.nodup_cons.mp sound.nodup
    obtain ⟨single, -, others⟩ := List.nodup_append.mp distinct
    have once := List.nodup_append.mpr ⟨single, grace.once _ sound.distinct,
      fun root unlinked other gone => others root unlinked other (retired gone)⟩
    refine List.nodup_cons.mpr ⟨fun gone => apart ?_, once⟩
    exact List.mem_append.mpr ((List.mem_append.mp gone).imp_right (retired ·))

private def overlapped : List (RootAction (PublishedNodeIndex Nat)) :=
  [.pin 0, .load 0, .write, .inspect, .inspected, .publish, .replace ⟨[[(5, 0)]], 1⟩, .retire, .pin 1, .load 1,
    .unpinPublication, .release, .pending, .write, .inspect]

/-- One read still follows the first root, which is retired, and another the second. -/
theorem roots_never_dangle_overlapped :
    ∃ roots, run waiting (new .new) overlapped = some roots ∧ roots.readers 0 = .reading 0 (some .new) ∧
      retirements roots.calls = [0] ∧ roots.readers 1 = .reading 1 (some ⟨[[(5, 0)]], 1⟩) ∧
      roots.Borrowed waiting 0 (some .new) := by
  refine ⟨_, rfl, rfl, rfl, rfl, ?_⟩
  exact (roots_never_dangle waiting_grace (Reached.new.run overlapped rfl)).1 0 0 (some .new) rfl

end Roots
end WorkTablesIndex
