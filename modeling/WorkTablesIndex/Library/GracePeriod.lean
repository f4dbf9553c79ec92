import Mathlib.Data.List.Nodup

/-! Deferred destruction. A thread that may be reading what others unlink holds a pin. What is
unlinked is retired, and destroyed by a later advance of the domain, once no pin that was there
at its retirement is still held. The domain is a parameter; only its contract is fixed. -/

universe u v w

/-- The operations of a domain on its own state. An advance also returns what it destroyed. -/
structure GraceDomain (π : Type u) (ρ : Type v) (δ : Type w) where
  new : δ
  pin : π → δ → δ
  unpin : π → δ → δ
  retire : ρ → δ → δ
  advance : δ → List ρ × δ
  pending : δ → Nat

namespace GraceDomain

inductive Call (π : Type u) (ρ : Type v) where
  | pin (token : π)
  | unpin (token : π)
  | retire (garbage : ρ)
  | advance
  deriving DecidableEq

variable {π : Type u} {ρ : Type v} {δ : Type w}

/-- The domain after a history of calls, latest first. -/
def after (domain : GraceDomain π ρ δ) : List (Call π ρ) → δ
  | [] => domain.new
  | .pin token :: earlier => domain.pin token (after domain earlier)
  | .unpin token :: earlier => domain.unpin token (after domain earlier)
  | .retire garbage :: earlier => domain.retire garbage (after domain earlier)
  | .advance :: earlier => (domain.advance (after domain earlier)).2

def destroyed (domain : GraceDomain π ρ δ) : List (Call π ρ) → List ρ
  | [] => []
  | .advance :: earlier => (domain.advance (domain.after earlier)).1 ++ destroyed domain earlier
  | _ :: earlier => destroyed domain earlier

def retirements : List (Call π ρ) → List ρ
  | [] => []
  | .retire garbage :: earlier => garbage :: retirements earlier
  | _ :: earlier => retirements earlier

def Held (token : π) : List (Call π ρ) → Prop
  | [] => False
  | .pin other :: earlier => other = token ∨ Held token earlier
  | .unpin other :: earlier => other ≠ token ∧ Held token earlier
  | _ :: earlier => Held token earlier

/-- The pin was held when the garbage was retired, and has been held ever since. -/
def Protects (token : π) (garbage : ρ) : List (Call π ρ) → Prop
  | [] => False
  | .retire other :: earlier => other = garbage ∧ Held token earlier ∨ Protects token garbage earlier
  | .unpin other :: earlier => other ≠ token ∧ Protects token garbage earlier
  | _ :: earlier => Protects token garbage earlier

/-- The contract with a caller that retires nothing twice: only what was retired is destroyed, each
piece once, and none that a pin protects. -/
structure Grace (domain : GraceDomain π ρ δ) : Prop where
  retired : ∀ calls, (retirements calls).Nodup → domain.destroyed calls ⊆ retirements calls
  once : ∀ calls, (retirements calls).Nodup → (domain.destroyed calls).Nodup
  spares : ∀ calls, (retirements calls).Nodup →
    ∀ garbage ∈ (domain.advance (domain.after calls)).1, ∀ token, ¬Protects token garbage calls

variable {domain : GraceDomain π ρ δ} {calls : List (Call π ρ)} {token : π} {garbage : ρ}

theorem mem_retirements : garbage ∈ retirements calls ↔ .retire garbage ∈ calls := by
  induction calls with
  | nil => simp [retirements]
  | cons call earlier ih => cases call <;> simp [retirements, ih]

theorem Protects.retired (protects : Protects token garbage calls) : garbage ∈ retirements calls := by
  induction calls with
  | nil => exact protects.elim
  | cons call earlier ih =>
    cases call with
    | pin other => exact ih protects
    | unpin other => exact ih protects.2
    | advance => exact ih protects
    | retire other =>
      rcases protects with ⟨same, -⟩ | before
      · exact same ▸ List.mem_cons_self
      · exact List.mem_cons_of_mem _ (ih before)

/-- A pin that is still held has protected every retirement made under it. -/
theorem Protects.retire (held : Held token calls) : Protects token garbage (.retire garbage :: calls) :=
  Or.inl ⟨rfl, held⟩

/-- What an advance destroys was destroyed before, or was retired and no pin protects it. -/
theorem Grace.destroyed_advance (grace : domain.Grace) (distinct : (retirements calls).Nodup)
    (gone : garbage ∈ domain.destroyed (.advance :: calls)) :
    garbage ∈ domain.destroyed calls ∨ garbage ∈ retirements calls ∧ ∀ token, ¬Protects token garbage calls := by
  rcases List.mem_append.mp gone with newly | before
  · exact Or.inr ⟨grace.retired (.advance :: calls) distinct gone, grace.spares calls distinct garbage newly⟩
  · exact Or.inl before

section Waiting
variable [DecidableEq π]

/-- The pins held, and the garbage with the pins it waits for. -/
structure Waiting (π : Type u) (ρ : Type v) where
  pins : List π
  garbage : List (ρ × List π)

/-- A domain that keeps the contract: every piece of garbage waits for the pins held at its retirement. -/
def waiting : GraceDomain π ρ (Waiting π ρ) where
  new := ⟨[], []⟩
  pin token state := { state with pins := token :: state.pins }
  unpin token state :=
    ⟨state.pins.filter (· ≠ token), state.garbage.map fun piece => (piece.1, piece.2.filter (· ≠ token))⟩
  retire garbage state := { state with garbage := (garbage, state.pins) :: state.garbage }
  advance state :=
    ((state.garbage.filter fun piece => piece.2.isEmpty).map Prod.fst,
      { state with garbage := state.garbage.filter fun piece => !piece.2.isEmpty })
  pending state := state.garbage.length

private theorem mem_pins (calls : List (Call π ρ)) : token ∈ (waiting.after calls).pins ↔ Held token calls := by
  induction calls with
  | nil => simp [after, waiting, Held]
  | cons call earlier ih =>
    cases call with
    | pin other => simpa [after, waiting, Held, eq_comm] using or_congr_right ih
    | unpin other => simpa [after, waiting, Held, ne_comm, and_comm] using and_congr_left' ih
    | retire other => exact ih
    | advance => exact ih

private theorem waiting_perm (calls : List (Call π ρ)) :
    ((waiting.after calls).garbage.map Prod.fst ++ waiting.destroyed calls).Perm (retirements calls) := by
  induction calls with
  | nil => exact .refl _
  | cons call earlier ih =>
    cases call with
    | pin other => exact ih
    | unpin other => simpa [after, waiting, destroyed, retirements, Function.comp_def] using ih
    | retire other => exact ih.cons other
    | advance =>
      refine .trans ?_ ih
      set garbage := (waiting.after earlier).garbage with there
      have parts := (List.filter_append_perm (fun piece : ρ × List π => piece.2.isEmpty) garbage).map Prod.fst
      change ((garbage.filter fun piece => !piece.2.isEmpty).map Prod.fst ++
        ((garbage.filter fun piece => piece.2.isEmpty).map Prod.fst ++ waiting.destroyed earlier)).Perm _
      rw [← List.append_assoc]
      refine .append_right _ (.trans List.perm_append_comm ?_)
      rw [← List.map_append]
      exact parts

private theorem waits (calls : List (Call π ρ)) (distinct : (retirements calls).Nodup)
    (protects : Protects token garbage calls) {blockers : List π}
    (there : (garbage, blockers) ∈ (waiting.after calls).garbage) : token ∈ blockers := by
  induction calls generalizing blockers with
  | nil => exact protects.elim
  | cons call earlier ih =>
    cases call with
    | pin other => exact ih distinct protects there
    | advance => exact ih distinct protects (List.mem_of_mem_filter there)
    | unpin other =>
      obtain ⟨⟨_, waited⟩, before, same⟩ := List.mem_map.mp there
      obtain ⟨rfl, rfl⟩ := Prod.mk.inj same
      exact List.mem_filter.mpr ⟨ih distinct protects.2 before, by simpa using protects.1.symm⟩
    | retire other =>
      obtain ⟨fresh, distinct⟩ := List.nodup_cons.mp distinct
      rcases List.mem_cons.mp there with head | tail
      · obtain ⟨rfl, rfl⟩ := Prod.mk.inj head
        rcases protects with ⟨-, held⟩ | before
        · exact (mem_pins earlier).mpr held
        · exact absurd before.retired fresh
      · have retired : garbage ∈ retirements earlier :=
          (waiting_perm earlier).subset (List.mem_append_left _ (List.mem_map_of_mem tail))
        rcases protects with ⟨rfl, -⟩ | before
        · exact absurd retired fresh
        · exact ih distinct before tail

theorem waiting_grace : (waiting (π := π) (ρ := ρ)).Grace where
  retired calls _ := List.Subset.trans (List.subset_append_right _ _) (waiting_perm calls).subset
  once calls distinct := (List.nodup_append.mp ((waiting_perm calls).nodup_iff.mpr distinct)).2.1
  spares calls distinct garbage gone token protects := by
    obtain ⟨⟨_, blockers⟩, there, rfl⟩ := List.mem_map.mp gone
    obtain ⟨there, free⟩ := List.mem_filter.mp there
    have free : blockers = [] := List.isEmpty_iff.mp free
    exact List.not_mem_nil (free ▸ waits calls distinct protects there)

end Waiting
end GraceDomain
