import Mathlib.Data.Nat.Cast.Basic
import Mathlib.Algebra.Order.BigOperators.Group.Finset

/-! Threads that undo each other's work. A thread may have to start over when another has
changed what they share, but each call changes it only so often. A potential that adds the
undoing still to come to the work ahead then bounds all sections by the calls. -/

universe u v

/-- The sections each thread has ahead if it is left alone, and the changes it can still make. -/
structure Workload (σ : Type u) (ι : Type v) where
  work : σ → ι → Nat
  harm : σ → ι → Nat

namespace Workload

variable {σ : Type u} {ι : Type v} {load : Workload σ ι} {before after : σ} {thread : ι}

/-- A section. It gets on with the thread's own work, and sets the others back by the toll
only against a change that the thread could still make. -/
structure Advances (load : Workload σ ι) (toll : Nat) (thread : ι) (before after : σ) : Prop where
  works : load.work after thread < load.work before thread
  harms : ∀ other, other ≠ thread → load.harm after other ≤ load.harm before other
  spares : (load.harm after thread ≤ load.harm before thread ∧
      ∀ other, other ≠ thread → load.work after other ≤ load.work before other) ∨
    load.harm after thread < load.harm before thread ∧
      ∀ other, other ≠ thread → load.work after other ≤ load.work before other + toll

structure Begins (load : Workload σ ι) (work harm : Nat) (thread : ι) (before after : σ) : Prop where
  work : load.work after thread ≤ load.work before thread + work
  harm : load.harm after thread ≤ load.harm before thread + harm
  others : ∀ other, other ≠ thread → load.work after other ≤ load.work before other ∧
    load.harm after other ≤ load.harm before other

inductive Runs (load : Workload σ ι) (toll work harm : Nat) (threads : Finset ι) (start : σ) : σ → Nat → Nat → Prop where
  | start : Runs load toll work harm threads start start 0 0
  | advance {before after : σ} {sections calls : Nat} (earlier : Runs load toll work harm threads start before sections calls)
      (thread : ι) (listed : thread ∈ threads) (moved : load.Advances toll thread before after) :
      Runs load toll work harm threads start after (sections + 1) calls
  | begins {before after : σ} {sections calls : Nat} (earlier : Runs load toll work harm threads start before sections calls)
      (thread : ι) (listed : thread ∈ threads) (begun : load.Begins work harm thread before after) :
      Runs load toll work harm threads start after sections (calls + 1)

/-- The work ahead of all threads, with what each can still undo of the others'. -/
def potential (load : Workload σ ι) (toll : Nat) (threads : Finset ι) (state : σ) : Nat :=
  ∑ thread ∈ threads, (load.work state thread + toll * (threads.card - 1) * load.harm state thread)

variable [DecidableEq ι] {threads : Finset ι} {toll : Nat}

private theorem potential_split (load : Workload σ ι) (toll : Nat) (state : σ) (listed : thread ∈ threads) :
    load.potential toll threads state = load.work state thread + toll * (threads.card - 1) * load.harm state thread +
      ∑ other ∈ threads.erase thread, (load.work state other + toll * (threads.card - 1) * load.harm state other) :=
  (Finset.add_sum_erase threads _ listed).symm

theorem Advances.potential_lt (moved : load.Advances toll thread before after) (listed : thread ∈ threads) :
    load.potential toll threads after < load.potential toll threads before := by
  rw [potential_split load toll after listed, potential_split load toll before listed]
  have works := moved.works
  generalize factor : toll * (threads.card - 1) = share
  rcases moved.spares with ⟨kept, calm⟩ | ⟨spent, disturbed⟩
  · have own := Nat.mul_le_mul_left share kept
    have others : ∑ other ∈ threads.erase thread, (load.work after other + share * load.harm after other) ≤
        ∑ other ∈ threads.erase thread, (load.work before other + share * load.harm before other) := by
      apply Finset.sum_le_sum
      intro other member
      have different := Finset.ne_of_mem_erase member
      exact Nat.add_le_add (calm other different) (Nat.mul_le_mul_left share (moved.harms other different))
    omega
  · -- the change that the thread gives up pays the toll of each other thread
    have own := Nat.mul_le_mul_left share (Nat.succ_le_of_lt spent)
    rw [Nat.mul_succ] at own
    have others : ∑ other ∈ threads.erase thread, (load.work after other + share * load.harm after other) ≤
        ∑ other ∈ threads.erase thread, (load.work before other + share * load.harm before other) + share := by
      calc ∑ other ∈ threads.erase thread, (load.work after other + share * load.harm after other)
          ≤ ∑ other ∈ threads.erase thread, (load.work before other + share * load.harm before other + toll) := by
            apply Finset.sum_le_sum
            intro other member
            have different := Finset.ne_of_mem_erase member
            have harms := Nat.mul_le_mul_left share (moved.harms other different)
            have works := disturbed other different
            omega
        _ = ∑ other ∈ threads.erase thread, (load.work before other + share * load.harm before other) + share := by
            rw [Finset.sum_add_distrib, Finset.sum_const, Finset.card_erase_of_mem listed, nsmul_eq_mul, Nat.cast_id, ← factor, Nat.mul_comm toll]
    omega

theorem Begins.potential_le {work harm : Nat} (begun : load.Begins work harm thread before after) (listed : thread ∈ threads) :
    load.potential toll threads after ≤ load.potential toll threads before + (work + toll * (threads.card - 1) * harm) := by
  rw [potential_split load toll after listed, potential_split load toll before listed]
  have works := begun.work
  generalize toll * (threads.card - 1) = share
  have own := Nat.mul_le_mul_left share begun.harm
  rw [Nat.mul_add] at own
  have others : ∑ other ∈ threads.erase thread, (load.work after other + share * load.harm after other) ≤
      ∑ other ∈ threads.erase thread, (load.work before other + share * load.harm before other) := by
    apply Finset.sum_le_sum
    intro other member
    obtain ⟨works, harms⟩ := begun.others other (Finset.ne_of_mem_erase member)
    exact Nat.add_le_add works (Nat.mul_le_mul_left share harms)
  omega

/-- The sections of a run are paid by the potential it starts with and by its calls. -/
theorem Runs.bounded {start final : σ} {work harm sections calls : Nat}
    (runs : load.Runs toll work harm threads start final sections calls) :
    sections + load.potential toll threads final ≤
      load.potential toll threads start + calls * (work + toll * (threads.card - 1) * harm) := by
  induction runs with
  | start => omega
  | advance _ thread listed moved ih =>
    have lower := moved.potential_lt listed
    omega
  | begins _ thread listed begun ih =>
    have bound : load.potential toll threads _ ≤ _ := begun.potential_le listed
    rw [Nat.succ_mul]
    omega

end Workload
