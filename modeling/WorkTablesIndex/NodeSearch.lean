import Mathlib.Algebra.Group.Nat.Defs
import WorkTablesIndex.Node

/-! The custom node search on machine words (`search_backend::search` in `core/node.rs`).
The midpoint is half the sum of two positions, the sum is a `usize`, and the element
there is read without a bounds check. A slice of a zero-sized type may have any `usize`
for its length, so the sum can overflow. -/

universe u v

namespace WorkTablesIndex.Node

variable {α : Type u} {σ : Type v}

/-- How the crate was compiled: the width of `usize`, and what the build checks. -/
structure Build where
  bits : Nat
  overflowChecks : Bool
  debugAssertions : Bool

structure SearchState where
  i : Nat
  j : Nat
  m : Nat
  deriving DecidableEq, Repr

def SearchState.Within (length : Nat) (state : SearchState) : Prop :=
  state.i ≤ state.m ∧ state.m < state.j ∧ state.j ≤ length

instance (length : Nat) (state : SearchState) : Decidable (state.Within length) :=
  inferInstanceAs (Decidable (_ ∧ _ ∧ _))

inductive SearchOutcome where
  | returned (result : Except Nat Nat)
  | panicked
  /-- An unchecked read outside the slice. -/
  | undefined

def Build.add (build : Build) (left right : Nat) : Except SearchOutcome Nat :=
  if build.overflowChecks ∧ 2 ^ build.bits ≤ left + right then .error .panicked
  else .ok ((left + right) % 2 ^ build.bits)

def SearchState.next (build : Build) (state : SearchState) : Ordering → Except SearchOutcome SearchState
  | .eq => .error (.returned (.ok state.m))
  | .lt => do
    let i ← build.add state.m 1
    let sum ← build.add i state.j
    return ⟨i, state.j, sum / 2⟩
  | .gt => do
    let sum ← build.add state.i state.m
    return ⟨state.i, state.m, sum / 2⟩

/-- The `while i != j` loop: the states in which it read an element, and how it ended,
unless it went on for all the passes it was given. The comparison may remember
earlier ones, so nothing is asked of its answers. -/
def customSearchLoop (build : Build) (haystack : List α) (cmp : σ → α → Ordering × σ) :
    Nat → σ → SearchState → List SearchState × Option SearchOutcome
  | 0, _, _ => ([], none)
  | passes + 1, memory, state =>
    if state.i = state.j then ([], some (.returned (.error state.i)))
    else if build.debugAssertions ∧ ¬ state.Within haystack.length then ([], some .panicked)
    else
      match haystack[state.m]? with
      | none => ([state], some .undefined)
      | some candidate =>
        match state.next build (cmp memory candidate).1 with
        | .error outcome => ([state], some outcome)
        | .ok next =>
          let (reads, outcome) := customSearchLoop build haystack cmp passes (cmp memory candidate).2 next
          (state :: reads, outcome)

def customSearch (build : Build) (haystack : List α) (cmp : σ → α → Ordering × σ) (passes : Nat) (memory : σ) :
    List SearchState × Option SearchOutcome :=
  customSearchLoop build haystack cmp passes memory ⟨0, haystack.length, haystack.length / 2⟩

def consistent (cmp : α → Ordering) : Unit → α → Ordering × Unit := fun _ candidate => (cmp candidate, ())

def supersliceSearch (lowerBoundBy : (α → Ordering) → List α → Nat) (haystack : List α) (cmp : α → Ordering) :
    Except Nat Nat :=
  let index := lowerBoundBy cmp haystack
  match haystack[index]? with
  | some candidate => if cmp candidate = .eq then .ok index else .error index
  | none => .error index

/-- After finitely many passes the search returns the result, and each of its reads
was inside the interval it had left. -/
def Returns (build : Build) (haystack : List α) (cmp : σ → α → Ordering × σ) (memory : σ) (result : Except Nat Nat) : Prop :=
  ∃ enough, ∀ passes, enough ≤ passes →
    (customSearch build haystack cmp passes memory).2 = some (.returned result) ∧
    ∀ read ∈ (customSearch build haystack cmp passes memory).1, read.Within haystack.length

/-- A found position holds an equal element; a missed one counts the smaller
elements, and no element is equal. -/
def Locates (haystack : List α) (cmp : α → Ordering) : Except Nat Nat → Prop
  | .ok position => ∃ candidate, haystack[position]? = some candidate ∧ cmp candidate = .eq
  | .error position =>
    (∀ item ∈ haystack, cmp item ≠ .eq) ∧ position = haystack.countP (fun item => cmp item == .lt)

def StrictlySearchable (cmp : α → Ordering) (haystack : List α) : Prop :=
  haystack.Pairwise (fun first second => cmp first ≠ .lt → cmp second = .gt)

structure SearchContract (lowerBoundBy : (α → Ordering) → List α → Nat) (build : Build) (haystack : List α) : Prop where
  safe : ∀ (σ : Type) (cmp : σ → α → Ordering × σ) (memory : σ), ∃ result, Returns build haystack cmp memory result
  locates : ∀ cmp, Searchable cmp haystack →
    ∃ result, Returns build haystack (consistent cmp) () result ∧ Locates haystack cmp result
  agrees : ∀ cmp, StrictlySearchable cmp haystack →
    Returns build haystack (consistent cmp) () (supersliceSearch lowerBoundBy haystack cmp)

/-- The documented result of `lower_bound_by`: on a slice ordered for the comparison,
the position of the first element that is not smaller. -/
def LowerBound (lowerBoundBy : (α → Ordering) → List α → Nat) : Prop :=
  ∀ cmp haystack, Searchable cmp haystack → lowerBoundBy cmp haystack ≤ haystack.length ∧
    (∀ item ∈ haystack.take (lowerBoundBy cmp haystack), cmp item = .lt) ∧
    ∀ item, haystack[lowerBoundBy cmp haystack]? = some item → cmp item ≠ .lt

/-- No sum of two positions of the slice overflows while the search goes on. -/
def Build.Fits (build : Build) (length : Nat) : Prop := 2 * length + build.overflowChecks.toNat ≤ 2 ^ build.bits

instance (build : Build) (length : Nat) : Decidable (build.Fits length) := inferInstanceAs (Decidable (_ ≤ _))

end WorkTablesIndex.Node
