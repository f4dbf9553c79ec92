import Mathlib.Init

/-! A component driven by complete calls beside a reference model. A call may need
fuel; one unit or more must be enough for it to return. -/

universe u v w x

structure Interface (Call : Type u) (Reply : Type v) (State : Type w) (Model : Type x) where
  start : State
  empty : Model
  run : Call → Nat → State → Option (Reply × State)
  permitted : Call → State → Prop
  answer : Call → Model → Reply × Model

namespace Interface
variable {Call : Type u} {Reply : Type v} {State : Type w} {Model : Type x} (interface : Interface Call Reply State Model)

inductive Reached : State → Model → Prop where
  | start : Reached interface.start interface.empty
  | call {state after : State} {model : Model} {reply : Reply} (earlier : Reached state model) (call : Call) (fuel : Nat)
      (allowed : interface.permitted call state) (ran : interface.run call (fuel + 1) state = some (reply, after)) :
      Reached after (interface.answer call model).2

/-- The call returns, as the reference does, and leaves related states. -/
def Answers (related : State → Model → Prop) (state : State) (model : Model) : Prop :=
  ∀ call, interface.permitted call state → ∀ fuel, ∃ after,
    interface.run call (fuel + 1) state = some ((interface.answer call model).1, after) ∧
      related after (interface.answer call model).2

variable {interface}

theorem Reached.related {related : State → Model → Prop} (initial : related interface.start interface.empty)
    (answers : ∀ state model, related state model → interface.Answers related state model) {state : State} {model : Model}
    (reached : interface.Reached state model) : related state model := by
  induction reached with
  | start => exact initial
  | call earlier call fuel allowed ran ih =>
    obtain ⟨after, returned, relates⟩ := answers _ _ ih call allowed fuel
    cases ran.symm.trans returned
    exact relates

end Interface

namespace Reference
variable {Call : Type u} {Reply : Type v} {State : Type w} {Model : Type x}

def replies (step : Call → State → Reply × State) : List Call → State → List Reply × State
  | [], state => ([], state)
  | call :: rest, state =>
    let (reply, after) := step call state
    let (others, last) := replies step rest after
    (reply :: others, last)

/-- Calls that agree one at a time agree in every sequence. -/
theorem replies_agree {step : Call → State → Reply × State} {answer : Call → Model → Reply × Model}
    {related : State → Model → Prop}
    (agrees : ∀ call state model, related state model →
      (step call state).1 = (answer call model).1 ∧ related (step call state).2 (answer call model).2)
    (calls : List Call) {state : State} {model : Model} (initial : related state model) :
    (replies step calls state).1 = (replies answer calls model).1 ∧
      related (replies step calls state).2 (replies answer calls model).2 := by
  induction calls generalizing state model with
  | nil => exact ⟨rfl, initial⟩
  | cons call rest ih =>
    obtain ⟨reply, relates⟩ := agrees call state model initial
    obtain ⟨others, last⟩ := ih relates
    simp only [replies]
    exact ⟨by rw [reply, others], last⟩

end Reference
