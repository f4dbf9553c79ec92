import Mathlib.Data.List.Nodup
import Mathlib.Data.List.Perm.Basic
import Mathlib.Logic.Function.Basic

/-! Linearizability. An object is a relation between its state, a request, an answer and
the next state. A history of invocations and responses is linearizable when the calls
can be put in one legal sequential order that respects their real-time order. An
implementation shows it by a run of the atomic object, which performs every call
at one moment between its invocation and its response. -/

universe u v w x

namespace WorkTablesIndex

structure SequentialObject (State : Type u) (Request : Type v) (Answer : Type w) where
  start : State
  performs : State → Request → Answer → State → Prop

inductive CallEvent (Call : Type u) (Request : Type v) (Answer : Type w) where
  | invoke (call : Call) (request : Request)
  | respond (call : Call) (answer : Answer)
  deriving DecidableEq

structure PerformedCall (Call : Type u) (Request : Type v) (Answer : Type w) where
  call : Call
  request : Request
  answer : Answer

inductive CallStatus (Request : Type v) (Answer : Type w) where
  | waiting (request : Request)
  | performed (request : Request) (answer : Answer)

namespace SequentialObject

variable {State : Type u} {Request : Type v} {Answer : Type w} {Call : Type x}
  (object : SequentialObject State Request Answer)

inductive Legal : List (PerformedCall Call Request Answer) → State → Prop where
  | nil : Legal [] object.start
  | snoc {calls state after} (earlier : Legal calls state) (last : PerformedCall Call Request Answer)
      (performs : object.performs state last.request last.answer after) : Legal (calls ++ [last]) after

/-- The order explains the history: it is legal, holds each call at most once, only calls
that were invoked, and every call that was answered, with its answer; a call that was
answered before another was invoked comes before it. -/
structure Explains (history : List (CallEvent Call Request Answer)) (order : List (PerformedCall Call Request Answer)) :
    Prop where
  legal : ∃ state, object.Legal order state
  once : (order.map PerformedCall.call).Nodup
  invoked : ∀ performed ∈ order, .invoke performed.call performed.request ∈ history
  answered : ∀ call answer, .respond call answer ∈ history → ∃ request, ⟨call, request, answer⟩ ∈ order
  realTime : ∀ before after call request other answer, history = before ++ .invoke call request :: after →
    .respond other answer ∈ before → ∀ performed ∈ order, performed.call = call →
      ∃ earlier later, order = earlier ++ performed :: later ∧ other ∈ earlier.map PerformedCall.call

def Linearizable (history : List (CallEvent Call Request Answer)) : Prop := ∃ order, object.Explains history order

variable [DecidableEq Call]

/-- The runs of the atomic object, with the history they leave, the state of the object and
where each call stands. -/
inductive Run : List (CallEvent Call Request Answer) → State → (Call → Option (CallStatus Request Answer)) → Prop where
  | start : Run [] object.start fun _ => none
  | invoke {history state status} (earlier : Run history state status) (call : Call) (request : Request)
      (fresh : ∀ other, .invoke call other ∉ history) :
      Run (history ++ [.invoke call request]) state (Function.update status call (some (.waiting request)))
  | perform {history state status after} (earlier : Run history state status) (call : Call) (request : Request) (answer : Answer)
      (waits : status call = some (.waiting request)) (performs : object.performs state request answer after) :
      Run history after (Function.update status call (some (.performed request answer)))
  | respond {history state status} (earlier : Run history state status) (call : Call) (request : Request) (answer : Answer)
      (done : status call = some (.performed request answer)) :
      Run (history ++ [.respond call answer]) state (Function.update status call none)

variable {object} {history : List (CallEvent Call Request Answer)} {state after : State}
  {status : Call → Option (CallStatus Request Answer)} {order : List (PerformedCall Call Request Answer)}

structure Orders (object : SequentialObject State Request Answer) (history : List (CallEvent Call Request Answer)) (state : State)
    (status : Call → Option (CallStatus Request Answer)) (order : List (PerformedCall Call Request Answer)) : Prop where
  legal : object.Legal order state
  once : (order.map PerformedCall.call).Nodup
  invoked : ∀ performed ∈ order, .invoke performed.call performed.request ∈ history
  answered : ∀ call answer, .respond call answer ∈ history → ∃ request, ⟨call, request, answer⟩ ∈ order
  realTime : ∀ before after call request other answer, history = before ++ .invoke call request :: after →
    .respond other answer ∈ before → ∀ performed ∈ order, performed.call = call →
      ∃ earlier later, order = earlier ++ performed :: later ∧ other ∈ earlier.map PerformedCall.call
  waiting : ∀ call request, status call = some (.waiting request) →
    .invoke call request ∈ history ∧ ∀ performed ∈ order, performed.call ≠ call
  performed : ∀ call request answer, status call = some (.performed request answer) → ⟨call, request, answer⟩ ∈ order

omit [DecidableEq Call] in
private theorem invoke_of_concat {last : CallEvent Call Request Answer} {before rest : List (CallEvent Call Request Answer)}
    {call : Call} {request : Request} (split : history ++ [last] = before ++ .invoke call request :: rest) :
    (∃ shorter, history = before ++ .invoke call request :: shorter) ∨ before = history ∧ last = .invoke call request := by
  rcases List.eq_nil_or_concat rest with rfl | ⟨shorter, final, rfl⟩
  · obtain ⟨same, equal⟩ := List.append_inj' split rfl
    exact Or.inr ⟨same.symm, List.singleton_inj.mp equal⟩
  · refine Or.inl ⟨shorter, ?_⟩
    rw [List.concat_eq_append, ← List.cons_append, ← List.append_assoc] at split
    exact (List.append_inj' split rfl).1

theorem Orders.invoke (orders : Orders object history state status order) (call : Call) (request : Request)
    (fresh : ∀ other, .invoke call other ∉ history) :
    Orders object (history ++ [.invoke call request]) state (Function.update status call (some (.waiting request))) order := by
  have grows : history ⊆ history ++ [.invoke call request] := List.subset_append_left _ _
  have absent : ∀ performed ∈ order, performed.call ≠ call := by
    intro performed member same
    exact fresh _ (same ▸ orders.invoked performed member)
  refine ⟨orders.legal, orders.once, fun performed member => grows (orders.invoked performed member),
    fun other answer member => orders.answered other answer ?_, ?_, fun other requested waits => ?_,
    fun other requested answer done => ?_⟩
  · simpa using member
  · intro before rest other requested answered answer split member performed there same
    rcases invoke_of_concat split with ⟨shorter, earlier⟩ | ⟨_, equal⟩
    · exact orders.realTime before shorter other requested answered answer earlier member performed there same
    · cases equal
      exact absurd same (absent performed there)
  · by_cases here : other = call
    · subst here
      rw [Function.update_self] at waits
      cases waits
      exact ⟨by simp, absent⟩
    · rw [Function.update_of_ne here] at waits
      exact (orders.waiting other requested waits).imp (fun member => grows member) id
  · by_cases here : other = call
    · subst here
      rw [Function.update_self] at done
      cases done
    · rw [Function.update_of_ne here] at done
      exact orders.performed other requested answer done

theorem Orders.perform (orders : Orders object history state status order) (call : Call) (request : Request) (answer : Answer)
    (waits : status call = some (.waiting request)) (performs : object.performs state request answer after) :
    Orders object history after (Function.update status call (some (.performed request answer)))
      (order ++ [⟨call, request, answer⟩]) := by
  obtain ⟨invoked, absent⟩ := orders.waiting call request waits
  refine ⟨.snoc orders.legal ⟨call, request, answer⟩ performs, ?_, fun performed member => ?_, fun other result member => ?_, ?_,
    fun other requested waits => ?_, fun other requested result done => ?_⟩
  · rw [List.map_append]
    apply List.Nodup.append orders.once (List.nodup_singleton _)
    intro other member last
    obtain ⟨performed, there, rfl⟩ := List.mem_map.mp member
    exact absent performed there (by simpa using last)
  · rcases List.mem_append.mp member with earlier | last
    · exact orders.invoked performed earlier
    · rw [List.mem_singleton.mp last]
      exact invoked
  · obtain ⟨requested, there⟩ := orders.answered other result member
    exact ⟨requested, List.mem_append_left _ there⟩
  · intro before rest other requested answered result split member performed there same
    rcases List.mem_append.mp there with earlier | last
    · obtain ⟨first, later, cut, found⟩ := orders.realTime before rest other requested answered result split member performed earlier same
      exact ⟨first, later ++ [⟨call, request, answer⟩], by rw [cut]; simp, found⟩
    · -- every call that has been answered was performed before this one
      rw [List.mem_singleton.mp last]
      obtain ⟨asked, there⟩ := orders.answered answered result (split ▸ List.mem_append_left _ member)
      exact ⟨order, [], rfl, List.mem_map_of_mem there⟩
  · by_cases here : other = call
    · subst here
      rw [Function.update_self] at waits
      cases waits
    · rw [Function.update_of_ne here] at waits
      obtain ⟨member, apart⟩ := orders.waiting other requested waits
      refine ⟨member, fun performed there => ?_⟩
      rcases List.mem_append.mp there with earlier | last
      · exact apart performed earlier
      · rw [List.mem_singleton.mp last]
        exact Ne.symm here
  · by_cases here : other = call
    · subst here
      rw [Function.update_self] at done
      cases done
      simp
    · rw [Function.update_of_ne here] at done
      exact List.mem_append_left _ (orders.performed other requested result done)

theorem Orders.respond (orders : Orders object history state status order) (call : Call) (request : Request) (answer : Answer)
    (done : status call = some (.performed request answer)) :
    Orders object (history ++ [.respond call answer]) state (Function.update status call none) order := by
  have grows : history ⊆ history ++ [.respond call answer] := List.subset_append_left _ _
  refine ⟨orders.legal, orders.once, fun performed member => grows (orders.invoked performed member),
    fun other result member => ?_, ?_, fun other requested waits => ?_, fun other requested result found => ?_⟩
  · rcases List.mem_append.mp member with earlier | last
    · exact orders.answered other result earlier
    · obtain ⟨rfl, rfl⟩ := CallEvent.respond.inj (List.mem_singleton.mp last)
      exact ⟨request, orders.performed _ _ _ done⟩
  · intro before rest other requested answered result split member
    rcases invoke_of_concat split with ⟨shorter, earlier⟩ | ⟨_, equal⟩
    · exact orders.realTime before shorter other requested answered result earlier member
    · cases equal
  · by_cases here : other = call
    · subst here
      rw [Function.update_self] at waits
      cases waits
    · rw [Function.update_of_ne here] at waits
      exact (orders.waiting other requested waits).imp (fun member => grows member) id
  · by_cases here : other = call
    · subst here
      rw [Function.update_self] at found
      cases found
    · rw [Function.update_of_ne here] at found
      exact orders.performed other requested result found

theorem Run.orders (run : object.Run history state status) : ∃ order, Orders object history state status order := by
  induction run with
  | start => exact ⟨[], .nil, List.nodup_nil, by simp, by simp, by simp, by simp, by simp⟩
  | invoke earlier call request fresh ih =>
    obtain ⟨order, orders⟩ := ih
    exact ⟨order, orders.invoke call request fresh⟩
  | perform earlier call request answer waits performs ih =>
    obtain ⟨order, orders⟩ := ih
    exact ⟨_, orders.perform call request answer waits performs⟩
  | respond earlier call request answer done ih =>
    obtain ⟨order, orders⟩ := ih
    exact ⟨order, orders.respond call request answer done⟩

/-- Every run of the atomic object leaves a linearizable history. -/
theorem Run.linearizable (run : object.Run history state status) : object.Linearizable history := by
  obtain ⟨order, orders⟩ := run.orders
  exact ⟨order, ⟨state, orders.legal⟩, orders.once, orders.invoked, orders.answered, orders.realTime⟩

end SequentialObject

section Tables
variable {Request : Type v} {Answer : Type w} {Call : Type x} {Slot : Type*} {Phase : Type*} [DecidableEq Slot]
  {tag : Nat → Call} {stands : Phase → CallStatus Request Answer → Prop} {slots : Slot → Option (Nat × Phase)} {next : Nat}
  {history later : List (CallEvent Call Request Answer)} {status after : Call → Option (CallStatus Request Answer)}

/-- Every running call stands as its phase says, no two slots run one call, and only numbers
below the counter have been used. -/
structure Tabulates (tag : Nat → Call) (stands : Phase → CallStatus Request Answer → Prop) (slots : Slot → Option (Nat × Phase))
    (next : Nat) (history : List (CallEvent Call Request Answer)) (status : Call → Option (CallStatus Request Answer)) : Prop where
  standing : ∀ slot call phase, slots slot = some (call, phase) → call < next ∧
    ∃ standing, status (tag call) = some standing ∧ stands phase standing
  apart : ∀ first second call left right, slots first = some (call, left) → slots second = some (call, right) → first = second
  known : ∀ call request, .invoke (tag call) request ∈ history → call < next

omit [DecidableEq Slot] in
theorem Tabulates.start : Tabulates tag stands (fun _ : Slot => none) 0 ([] : List (CallEvent Call Request Answer)) status :=
  ⟨by simp, by simp, by simp⟩

omit [DecidableEq Slot] in
theorem Tabulates.frame (table : Tabulates tag stands slots next history status)
    (others : ∀ call, after (tag call) = status (tag call))
    (quiet : ∀ call request, .invoke (tag call) request ∈ later → .invoke (tag call) request ∈ history) :
    Tabulates tag stands slots next later after := by
  refine ⟨fun slot call phase running => ?_, table.apart, fun call request member => table.known call request (quiet call request member)⟩
  rw [others call]
  exact table.standing slot call phase running

theorem Tabulates.begins (table : Tabulates tag stands slots next history status) (injective : Function.Injective tag)
    (slot : Slot) {phase : Phase} {standing : CallStatus Request Answer} (begun : after (tag next) = some standing)
    (stood : stands phase standing) (others : ∀ call, call ≠ tag next → after call = status call)
    (quiet : ∀ call request, .invoke (tag call) request ∈ later → call = next ∨ .invoke (tag call) request ∈ history) :
    Tabulates tag stands (Function.update slots slot (some (next, phase))) (next + 1) later after := by
  have old : ∀ other call found, other ≠ slot → slots other = some (call, found) → call < next :=
    fun other call found _ running => (table.standing other call found running).1
  refine ⟨fun other call found running => ?_, fun first second call left right atFirst atSecond => ?_, fun call request member => ?_⟩
  · by_cases here : other = slot
    · subst here
      rw [Function.update_self] at running
      cases running
      exact ⟨Nat.lt_succ_self _, standing, begun, stood⟩
    · rw [Function.update_of_ne here] at running
      obtain ⟨below, stays, same, holds⟩ := table.standing other call found running
      refine ⟨Nat.lt_succ_of_lt below, stays, ?_, holds⟩
      rw [others _ fun equal => Nat.ne_of_lt below (injective equal)]
      exact same
  · by_cases here : first = slot <;> by_cases there : second = slot
    · exact here.trans there.symm
    · subst here
      rw [Function.update_self] at atFirst
      rw [Function.update_of_ne there] at atSecond
      cases atFirst
      exact absurd (old second _ right there atSecond) (Nat.lt_irrefl _)
    · subst there
      rw [Function.update_self] at atSecond
      rw [Function.update_of_ne here] at atFirst
      cases atSecond
      exact absurd (old first _ left here atFirst) (Nat.lt_irrefl _)
    · rw [Function.update_of_ne here] at atFirst
      rw [Function.update_of_ne there] at atSecond
      exact table.apart first second call left right atFirst atSecond
  · rcases quiet call request member with rfl | earlier
    · exact Nat.lt_succ_self _
    · exact Nat.lt_succ_of_lt (table.known call request earlier)

theorem Tabulates.continues (table : Tabulates tag stands slots next history status) (injective : Function.Injective tag)
    {slot : Slot} {call : Nat} {phase : Phase} (running : slots slot = some (call, phase)) (following : Option Phase)
    (fits : ∀ phase, following = some phase → ∃ standing, after (tag call) = some standing ∧ stands phase standing)
    (others : ∀ other, other ≠ tag call → after other = status other)
    (quiet : ∀ call request, .invoke (tag call) request ∈ later → .invoke (tag call) request ∈ history) :
    Tabulates tag stands (Function.update slots slot (following.map fun phase => (call, phase))) next later after := by
  refine ⟨fun other owner found runs => ?_, fun first second owner left right atFirst atSecond => ?_,
    fun owner request member => table.known owner request (quiet owner request member)⟩
  · by_cases here : other = slot
    · subst here
      rw [Function.update_self] at runs
      obtain ⟨phase, rfl, same⟩ := Option.map_eq_some_iff.mp runs
      cases same
      exact ⟨(table.standing other _ _ running).1, fits _ rfl⟩
    · rw [Function.update_of_ne here] at runs
      obtain ⟨below, stays, same, holds⟩ := table.standing other owner found runs
      refine ⟨below, stays, ?_, holds⟩
      rw [others _ fun equal => here ?_]
      · exact same
      · cases injective equal
        exact table.apart other slot _ _ _ runs running
  · have still : ∀ {third held}, Function.update slots slot (following.map fun phase => (call, phase)) third = some (owner, held) →
        ∃ held, slots third = some (owner, held) := by
      intro third held runs
      by_cases here : third = slot
      · subst here
        rw [Function.update_self] at runs
        obtain ⟨_, _, same⟩ := Option.map_eq_some_iff.mp runs
        cases same
        exact ⟨phase, running⟩
      · rw [Function.update_of_ne here] at runs
        exact ⟨_, runs⟩
    obtain ⟨_, earlier⟩ := still atFirst
    obtain ⟨_, other⟩ := still atSecond
    exact table.apart first second owner _ _ earlier other

end Tables
end WorkTablesIndex
