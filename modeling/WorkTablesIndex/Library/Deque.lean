import Mathlib.Data.List.Basic

/-! A list that is drawn from both ends, and components that behave as one. -/

universe u v

namespace Deque

inductive End where
  | front
  | back
  deriving DecidableEq, Repr

variable {α : Type u} {σ : Type v}

def take : End → List α → Option α × List α
  | .front, values => (values.head?, values.tail)
  | .back, values => (values.getLast?, values.dropLast)

/-- What a schedule of draws gives. Each value is given once, and then `none` forever. -/
def takes : List End → List α → List (Option α)
  | [], _ => []
  | side :: schedule, values => (take side values).1 :: takes schedule (take side values).2

def seen : End → List α → List α
  | .front, values => values
  | .back, values => values.reverse

theorem seen_eq (side : End) (values : List α) :
    seen side values = (take side values).1.toList ++ seen side (take side values).2 := by
  cases side with
  | front => cases values <;> rfl
  | back =>
    rcases List.eq_nil_or_concat values with rfl | ⟨earlier, last, rfl⟩
    · rfl
    · simp [seen, take, List.concat_eq_append]

theorem take_length {side : End} {values : List α} : (take side values).2.length = values.length - 1 := by
  cases side with
  | front => exact List.length_tail
  | back => exact List.length_dropLast

def given (side : End) : List End → List (Option α) → List α
  | drawn :: schedule, result :: results =>
    (if drawn = side then result.toList else []) ++ given side schedule results
  | _, _ => []

/-- The front gives the start of a list and the back its end, in reverse; what is left lies
between them, and an end gives nothing exactly when nothing is left. -/
structure Partitions (values : List α) (schedule : List End) (results : List (Option α)) : Prop where
  length : results.length = schedule.length
  parts : ∃ rest, values = given .front schedule results ++ rest ++ (given .back schedule results).reverse ∧
    rest.length = values.length - schedule.length
  ends : ∀ index result, results[index]? = some result → (result = none ↔ values.length ≤ index)

private theorem ends_cons {values rest : List α} {first : Option α} {results : List (Option α)}
    (shorter : rest.length = values.length - 1) (empty : first = none ↔ values.length = 0)
    (ends : ∀ index result, results[index]? = some result → (result = none ↔ rest.length ≤ index)) :
    ∀ index result, (first :: results)[index]? = some result → (result = none ↔ values.length ≤ index) := by
  intro index result there
  cases index with
  | zero =>
    cases there
    rw [empty]
    omega
  | succ index =>
    rw [ends index result there]
    omega

theorem takes_partitions (schedule : List End) (values : List α) :
    Partitions values schedule (takes schedule values) := by
  induction schedule generalizing values with
  | nil => exact ⟨rfl, ⟨values, by simp [given], rfl⟩, fun index result there => by cases there⟩
  | cons side schedule ih =>
    obtain ⟨length, ⟨rest, parts, left⟩, ends⟩ := ih (take side values).2
    refine ⟨congrArg (· + 1) length, ⟨rest, ?_, ?_⟩, ends_cons take_length ?_ ends⟩
    · cases side with
      | front =>
        cases values with
        | nil => exact parts
        | cons value values => exact congrArg (value :: ·) parts
      | back =>
        rcases List.eq_nil_or_concat values with rfl | ⟨earlier, last, rfl⟩
        · exact parts
        · rw [List.concat_eq_append] at parts ⊢
          simp only [take, List.dropLast_concat] at parts
          simp only [takes, take, List.dropLast_concat, List.getLast?_concat, given, reduceCtorEq, if_false, if_true,
            Option.toList_some, List.nil_append, List.singleton_append, List.reverse_cons]
          rw [← List.append_assoc, ← parts]
    · rw [left, take_length, List.length_cons]
      omega
    · cases side with
      | front => rw [take, List.head?_eq_none_iff, List.length_eq_zero_iff]
      | back => rw [take, List.getLast?_eq_none_iff, List.length_eq_zero_iff]

section Components
variable (draw : End → σ → Option (Option α × σ))

def run : List End → σ → Option (List (Option α) × σ)
  | [], state => some ([], state)
  | side :: schedule, state =>
    match draw side state with
    | none => none
    | some (result, state) => (run schedule state).map fun (results, state) => (result :: results, state)

def drain (side : End) : Nat → σ → Option (List α)
  | 0, _ => none
  | fuel + 1, state =>
    match draw side state with
    | none => none
    | some (none, _) => some []
    | some (some value, state) => (drain side fuel state).map (value :: ·)

def Gives (side : End) (state : σ) (values : List α) : Prop :=
  ∀ fuel, values.length < fuel → drain draw side fuel state = some values

/-- Every schedule of draws returns, and shares a list between the two ends. -/
def Delivers (state : σ) (values : List α) : Prop :=
  ∀ schedule, ∃ results after, run draw schedule state = some (results, after) ∧ Partitions values schedule results

def Serves (holds : σ → List α → Prop) : Prop :=
  ∀ side state values, holds state values →
    ∃ after, draw side state = some ((take side values).1, after) ∧ holds after (take side values).2

variable {draw} {holds : σ → List α → Prop} {state : σ} {values : List α}

theorem Serves.run (serves : Serves draw holds) (held : holds state values) (schedule : List End) :
    ∃ after, run draw schedule state = some (takes schedule values, after) := by
  induction schedule generalizing state values with
  | nil => exact ⟨state, rfl⟩
  | cons side schedule ih =>
    obtain ⟨middle, drawn, rest⟩ := serves side state values held
    obtain ⟨after, ran⟩ := ih rest
    exact ⟨after, by simp only [Deque.run, drawn, ran, Option.map_some, takes]⟩

theorem Serves.drain (serves : Serves draw holds) (held : holds state values) (side : End) {fuel : Nat}
    (enough : values.length < fuel) : drain draw side fuel state = some (seen side values) := by
  induction fuel generalizing state values with
  | zero => omega
  | succ fuel ih =>
    obtain ⟨after, drawn, rest⟩ := serves side state values held
    rw [seen_eq side values, Deque.drain, drawn]
    cases first : (take side values).1 with
    | none =>
      have empty : values = [] := by
        cases side with
        | front => exact List.head?_eq_none_iff.mp first
        | back => exact List.getLast?_eq_none_iff.mp first
      subst empty
      cases side <;> rfl
    | some value =>
      have filled : values ≠ [] := by
        rintro rfl
        cases side <;> cases first
      have fewer := List.length_pos_iff.mpr filled
      simp only
      rw [ih rest (by rw [take_length]; omega)]
      rfl

theorem Serves.gives (serves : Serves draw holds) (held : holds state values) (side : End) :
    Gives draw side state (seen side values) := by
  intro fuel enough
  apply serves.drain held side
  cases side with
  | front => exact enough
  | back => rwa [seen, List.length_reverse] at enough

theorem Serves.delivers (serves : Serves draw holds) (held : holds state values) : Delivers draw state values := by
  intro schedule
  obtain ⟨after, ran⟩ := serves.run held schedule
  exact ⟨_, after, ran, takes_partitions schedule values⟩

theorem Gives.nil {side : End} {after : σ} (drawn : draw side state = some (none, after)) : Gives draw side state [] := by
  intro fuel enough
  cases fuel with
  | zero => cases enough
  | succ fuel => rw [Deque.drain, drawn]

theorem Gives.cons {side : End} {after : σ} {value : α} (drawn : draw side state = some (some value, after))
    (rest : Gives draw side after values) : Gives draw side state (value :: values) := by
  intro fuel enough
  cases fuel with
  | zero => cases enough
  | succ fuel =>
    rw [Deque.drain, drawn]
    simp only
    rw [rest fuel (Nat.lt_of_succ_lt_succ enough), Option.map_some]

theorem Gives.unique {side : End} {other : List α} (first : Gives draw side state values)
    (second : Gives draw side state other) : values = other := by
  have given := first (values.length + other.length + 1) (by omega)
  rw [second (values.length + other.length + 1) (by omega)] at given
  exact (Option.some.inj given).symm

theorem run_append {earlier : List End} {results : List (Option α)} {middle : σ}
    (ran : Deque.run draw earlier state = some (results, middle)) (later : List End) :
    Deque.run draw (earlier ++ later) state =
      (Deque.run draw later middle).map fun (further, after) => (results ++ further, after) := by
  induction earlier generalizing state results with
  | nil =>
    cases ran
    simp
  | cons side earlier ih =>
    simp only [Deque.run, List.cons_append] at ran ⊢
    cases drawn : draw side state with
    | none => simp [drawn] at ran
    | some outcome =>
      obtain ⟨result, next⟩ := outcome
      simp only [drawn, Option.map_eq_some_iff, Prod.mk.injEq, Prod.exists] at ran ⊢
      obtain ⟨rest, _, ran, rfl, rfl⟩ := ran
      rw [ih ran, Option.map_map]
      rfl

/-- An end that gives nothing too early is one schedule too many. -/
theorem not_delivers {schedule : List End} {results : List (Option α)} {middle after : σ} {side : End}
    (ran : Deque.run draw schedule state = some (results, middle)) (early : schedule.length < values.length)
    (nothing : draw side middle = some (none, after)) : ¬Delivers draw state values := by
  intro delivers
  obtain ⟨all, final, whole, length, _, ends⟩ := delivers (schedule ++ [side])
  rw [run_append ran] at whole
  simp only [Deque.run, nothing, Option.map_some, Option.some.injEq, Prod.mk.injEq] at whole
  obtain ⟨rfl, rfl⟩ := whole
  simp only [List.length_append, List.length_singleton, Nat.add_right_cancel_iff] at length
  have last := (ends schedule.length none (by rw [← length]; simp)).mp rfl
  omega

end Components

section View
universe w
variable {β : Type w} (f : α → β) (draw : End → σ → Option (Option α × σ))

def view (side : End) (state : σ) : Option (Option β × σ) :=
  (draw side state).map fun (result, after) => (result.map f, after)

variable {f draw} {state : σ} {values : List α}

theorem run_view (schedule : List End) : run (view f draw) schedule state =
    (run draw schedule state).map fun (results, after) => (results.map (Option.map f), after) := by
  induction schedule generalizing state with
  | nil => rfl
  | cons side schedule ih =>
    simp only [run, view]
    cases draw side state with
    | none => rfl
    | some outcome =>
      simp only [Option.map_some, ih, Option.map_map]
      rfl

theorem drain_view (side : End) (fuel : Nat) :
    drain (view f draw) side fuel state = (drain draw side fuel state).map (List.map f) := by
  induction fuel generalizing state with
  | zero => rfl
  | succ fuel ih =>
    simp only [drain, view]
    cases draw side state with
    | none => rfl
    | some outcome =>
      obtain ⟨result, after⟩ := outcome
      cases result with
      | none => rfl
      | some value =>
        simp only [Option.map_some, ih, Option.map_map]
        rfl

theorem gives_view {side : End} (injective : Function.Injective f) :
    Gives (view f draw) side state (values.map f) ↔ Gives draw side state values := by
  unfold Gives
  simp only [drain_view, List.length_map]
  apply forall₂_congr
  intro fuel _
  rw [← Option.map_some, (Option.map_injective (List.map_injective_iff.mpr injective)).eq_iff]

private theorem given_map (side : End) (schedule : List End) (results : List (Option α)) :
    given side schedule (results.map (Option.map f)) = (given side schedule results).map f := by
  induction schedule generalizing results with
  | nil => simp [given]
  | cons drawn schedule ih =>
    cases results with
    | nil => rfl
    | cons result results =>
      simp only [List.map_cons, given, List.map_append, ih]
      split <;> cases result <;> rfl

theorem Delivers.view (delivers : Delivers draw state values) : Delivers (view f draw) state (values.map f) := by
  intro schedule
  obtain ⟨results, after, ran, length, ⟨rest, parts, left⟩, ends⟩ := delivers schedule
  refine ⟨results.map (Option.map f), after, by rw [run_view, ran]; rfl, ?_, ⟨rest.map f, ?_, ?_⟩, ?_⟩
  · rw [List.length_map, length]
  · rw [parts, given_map, given_map, ← List.map_reverse, List.map_append, List.map_append]
  · rw [List.length_map, List.length_map, left]
  · intro index result there
    rw [List.getElem?_map, Option.map_eq_some_iff] at there
    obtain ⟨original, there, rfl⟩ := there
    rw [Option.map_eq_none_iff, List.length_map]
    exact ends index original there

end View

section OneEnd
variable (next : σ → Option (Option α × σ))

def calls : Nat → σ → Option (List (Option α) × σ)
  | 0, state => some ([], state)
  | count + 1, state =>
    match next state with
    | none => none
    | some (result, state) => (calls count state).map fun (results, state) => (result :: results, state)

def Yields (state : σ) (values : List α) : Prop :=
  ∀ count, ∃ after, calls next count state = some ((List.range count).map fun index => values[index]?, after)

def Feeds (holds : σ → List α → Prop) : Prop :=
  ∀ state values, holds state values → ∃ after, next state = some (values.head?, after) ∧ holds after values.tail

variable {next} {holds : σ → List α → Prop} {state : σ} {values other : List α}

theorem Feeds.yields (feeds : Feeds next holds) (held : holds state values) : Yields next state values := by
  intro count
  induction count generalizing state values with
  | zero => exact ⟨state, rfl⟩
  | succ count ih =>
    obtain ⟨middle, given, rest⟩ := feeds state values held
    obtain ⟨after, ran⟩ := ih rest
    refine ⟨after, ?_⟩
    rw [calls, given]
    simp only [ran, Option.map_some, List.range_succ_eq_map, List.map_cons, List.map_map, List.getElem?_tail,
      List.head?_eq_getElem?]
    rfl

theorem Yields.unique (first : Yields next state values) (second : Yields next state other) : values = other := by
  apply List.ext_getElem?
  intro index
  obtain ⟨_, ran⟩ := first (index + 1)
  obtain ⟨_, again⟩ := second (index + 1)
  have same := (Prod.mk.inj (Option.some.inj (ran.symm.trans again))).1
  exact List.map_inj_left.mp same index (List.mem_range.mpr (Nat.lt_succ_self index))

end OneEnd
end Deque
