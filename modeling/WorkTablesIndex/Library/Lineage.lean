import Mathlib.Order.Basic

/-! Collections that are made, changed by calls on one or two of them, and cut in two. Both
collections of a call on two are kept, and both parts of a cut. -/

universe u

/-- The calls on collections of a type, by what they leave behind. -/
structure Calls (σ : Type u) where
  makes : σ → Prop
  changes : σ → σ → Prop
  exchanges : σ → σ → σ → σ → Prop
  cuts : σ → σ → σ → Prop

namespace Calls

variable {σ : Type u} {calls : Calls σ} {collection : σ}

inductive Reaches (calls : Calls σ) : σ → Prop where
  | make {collection : σ} (made : calls.makes collection) : Reaches calls collection
  | change {before after : σ} (earlier : Reaches calls before) (call : calls.changes before after) : Reaches calls after
  | receiver {first second first' second' : σ} (earlier : Reaches calls first) (beside : Reaches calls second)
      (call : calls.exchanges first second first' second') : Reaches calls first'
  | giver {first second first' second' : σ} (earlier : Reaches calls first) (beside : Reaches calls second)
      (call : calls.exchanges first second first' second') : Reaches calls second'
  | kept {before kept moved : σ} (earlier : Reaches calls before) (call : calls.cuts before kept moved) : Reaches calls kept
  | moved {before kept moved : σ} (earlier : Reaches calls before) (call : calls.cuts before kept moved) : Reaches calls moved

structure Keeps (calls : Calls σ) (holds : σ → Prop) : Prop where
  makes (collection : σ) : calls.makes collection → holds collection
  changes (before after : σ) : holds before → calls.changes before after → holds after
  exchanges (first second first' second' : σ) : holds first → holds second → calls.exchanges first second first' second' →
    holds first' ∧ holds second'
  cuts (before kept moved : σ) : holds before → calls.cuts before kept moved → holds kept ∧ holds moved

theorem Keeps.reaches {holds : σ → Prop} (keeps : calls.Keeps holds) (reached : calls.Reaches collection) :
    holds collection := by
  induction reached with
  | make made => exact keeps.makes _ made
  | change earlier call ih => exact keeps.changes _ _ ih call
  | receiver earlier beside call first second => exact (keeps.exchanges _ _ _ _ first second call).1
  | giver earlier beside call first second => exact (keeps.exchanges _ _ _ _ first second call).2
  | kept earlier call ih => exact (keeps.cuts _ _ _ ih call).1
  | moved earlier call ih => exact (keeps.cuts _ _ _ ih call).2

end Calls
