import Mathlib.Data.List.Basic
import Mathlib.Data.List.Pairwise
import Mathlib.Data.Set.Basic

/-! Calls over reader-writer locks, one of which is a gate. A call waits at the gate only
while it holds nothing, and at another lock only while it holds the gate exclusively or
nothing beside the gate. Then no group of calls ever waits for one another, whatever the
interleaving, and some call can always go on. -/

universe u

namespace GatedLocks

inductive Mode where
  | shared
  | exclusive
  deriving DecidableEq

def Mode.compatible : Mode → Mode → Bool
  | .shared, .shared => true
  | _, _ => false

theorem Mode.compatible_comm (first second : Mode) : first.compatible second = second.compatible first := by
  cases first <;> cases second <;> rfl

/-- What a call still does to the locks. An attempt does not wait: it goes on one way when
the lock is granted and another way when it is refused. -/
inductive Program (L : Type u) where
  | done
  | acquire (lock : L) (mode : Mode) (rest : Program L)
  | attempt (lock : L) (mode : Mode) (granted refused : Program L)
  | release (lock : L) (rest : Program L)

structure World (L : Type u) where
  calls : Nat → Program L
  holders : L → List (Nat × Mode)
  queue : L → List (Nat × Mode)

inductive Action (L : Type u) where
  | invoke (call : Nat) (program : Program L)
  | advance (call : Nat)
  | refuse (call : Nat)

variable {L : Type u} [DecidableEq L]

namespace World

def start : World L := ⟨fun _ => .done, fun _ => [], fun _ => []⟩

def goto (world : World L) (call : Nat) (program : Program L) : World L :=
  { world with calls := Function.update world.calls call program }

def enqueue (world : World L) (lock : L) (call : Nat) (mode : Mode) : World L :=
  { world with queue := Function.update world.queue lock (world.queue lock ++ [(call, mode)]) }

def dequeue (world : World L) (lock : L) (call : Nat) : World L :=
  { world with queue := Function.update world.queue lock ((world.queue lock).filter fun waiter => waiter.1 != call) }

def grant (world : World L) (lock : L) (call : Nat) (mode : Mode) : World L :=
  { world with holders := Function.update world.holders lock ((call, mode) :: world.holders lock) }

def unlock (world : World L) (lock : L) (call : Nat) : World L :=
  { world with holders := Function.update world.holders lock ((world.holders lock).filter fun holder => holder.1 != call) }

def queued (world : World L) (lock : L) (call : Nat) : Bool := (world.queue lock).any fun waiter => waiter.1 == call

def ahead (world : World L) (lock : L) (call : Nat) : List (Nat × Mode) :=
  (world.queue lock).takeWhile fun waiter => waiter.1 != call

def free (world : World L) (lock : L) (mode : Mode) : Bool :=
  (world.holders lock).all fun holder => mode.compatible holder.2

/-- A queued writer blocks later readers; a writer waits for the holders alone. -/
def admits (world : World L) (lock : L) (call : Nat) (mode : Mode) : Bool :=
  world.free lock mode && (mode == .exclusive || (world.ahead lock call).all fun waiter => waiter.2 == .shared)

/-- An acquisition takes two steps, the request and the entry. -/
def step (world : World L) : Action L → Option (World L)
  | .invoke call program =>
    match world.calls call with
    | .done => some (world.goto call program)
    | _ => none
  | .advance call =>
    match world.calls call with
    | .done => none
    | .acquire lock mode rest =>
      if world.queued lock call then
        if world.admits lock call mode then some (((world.dequeue lock call).grant lock call mode).goto call rest) else none
      else some (world.enqueue lock call mode)
    | .attempt lock mode granted _ => if world.free lock mode then some ((world.grant lock call mode).goto call granted) else none
    | .release lock rest => some ((world.unlock lock call).goto call rest)
  | .refuse call =>
    match world.calls call with
    | .attempt _ _ _ refused => some (world.goto call refused)
    | _ => none

def run (world : World L) : List (Action L) → Option (World L)
  | [] => some world
  | action :: rest => (world.step action).bind fun after => after.run rest

/-- The call waits for a lock that the other one holds or has requested before it. -/
def Blocks (world : World L) (blocker waiter : Nat) : Prop :=
  ∃ lock mode rest, world.calls waiter = .acquire lock mode rest ∧ world.queued lock waiter = true ∧
    ∃ other, (blocker, other) ∈ world.holders lock ∨ (blocker, other) ∈ world.ahead lock waiter

/-- A group of calls each of which waits for a member of the group. -/
def Deadlocked (world : World L) (group : Set Nat) : Prop :=
  group.Nonempty ∧ ∀ waiter ∈ group, ∃ blocker ∈ group, world.Blocks blocker waiter

def held (world : World L) (call : Nat) (lock : L) : Option Mode :=
  ((world.holders lock).find? fun holder => holder.1 == call).map Prod.snd

end World

inductive Reached (permits : Program L → Prop) : World L → Prop where
  | start : Reached permits .start
  | step {before after : World L} (earlier : Reached permits before) (action : Action L)
      (allowed : ∀ call program, action = .invoke call program → permits program)
      (taken : before.step action = some after) : Reached permits after

theorem Reached.run {permits : Program L → Prop} : ∀ {schedule : List (Action L)} {before after : World L}, Reached permits before →
    (∀ call program, .invoke call program ∈ schedule → permits program) → before.run schedule = some after → Reached permits after
  | [], _, _, reached, _, ran => Option.some.inj ran ▸ reached
  | action :: _, _, _, reached, allowed, ran => by
    obtain ⟨middle, taken, rest⟩ := Option.bind_eq_some_iff.mp ran
    refine (reached.step action (fun call program same => ?_) taken).run (fun call program member => ?_) rest
    · exact allowed call program (same ▸ List.mem_cons_self)
    · exact allowed call program (List.mem_cons_of_mem _ member)

def MayWait (gate : L) (held : L → Option Mode) (lock : L) : Prop :=
  held lock = none ∧ (lock = gate → ∀ other, held other = none) ∧
    (lock ≠ gate → held gate = some .exclusive ∨ ∀ other, other ≠ gate → held other = none)

def Gated (gate : L) : (L → Option Mode) → Program L → Prop
  | held, .done => ∀ lock, held lock = none
  | held, .acquire lock mode rest => MayWait gate held lock ∧ Gated gate (Function.update held lock (some mode)) rest
  | held, .attempt lock mode granted refused => Gated gate (Function.update held lock (some mode)) granted ∧ Gated gate held refused
  | held, .release lock rest => Gated gate (Function.update held lock none) rest

namespace World
variable {world before after : World L} {lock : L} {call : Nat} {mode : Mode}

theorem step_cases {action : Action L} (taken : before.step action = some after) :
    (∃ call program, action = .invoke call program ∧ before.calls call = .done ∧ after = before.goto call program) ∨
    (∃ call lock mode rest, before.calls call = .acquire lock mode rest ∧ after = before.enqueue lock call mode) ∨
    (∃ call lock mode rest, before.calls call = .acquire lock mode rest ∧ before.free lock mode = true ∧
      after = ((before.dequeue lock call).grant lock call mode).goto call rest) ∨
    (∃ call lock mode granted refused, before.calls call = .attempt lock mode granted refused ∧ before.free lock mode = true ∧
      after = (before.grant lock call mode).goto call granted) ∨
    (∃ call lock rest, before.calls call = .release lock rest ∧ after = (before.unlock lock call).goto call rest) ∨
    ∃ call lock mode granted refused, before.calls call = .attempt lock mode granted refused ∧ after = before.goto call refused := by
  cases action with
  | invoke call program =>
    simp only [step] at taken
    split at taken
    next idle => exact Or.inl ⟨call, program, rfl, idle, (Option.some.inj taken).symm⟩
    next => cases taken
  | advance call =>
    simp only [step] at taken
    split at taken
    next => cases taken
    next lock mode rest waits =>
      split at taken
      next =>
        split at taken
        next admitted =>
          have open_ : before.free lock mode = true := (Bool.and_eq_true_iff.mp admitted).1
          exact Or.inr (Or.inr (Or.inl ⟨call, lock, mode, rest, waits, open_, (Option.some.inj taken).symm⟩))
        next => cases taken
      next => exact Or.inr (Or.inl ⟨call, lock, mode, rest, waits, (Option.some.inj taken).symm⟩)
    next lock mode granted refused tries =>
      split at taken
      next open_ =>
        exact Or.inr (Or.inr (Or.inr (Or.inl ⟨call, lock, mode, granted, refused, tries, open_, (Option.some.inj taken).symm⟩)))
      next => cases taken
    next lock rest leaves =>
      exact Or.inr (Or.inr (Or.inr (Or.inr (Or.inl ⟨call, lock, rest, leaves, (Option.some.inj taken).symm⟩))))
  | refuse call =>
    simp only [step] at taken
    split at taken
    next lock mode granted refused tries =>
      exact Or.inr (Or.inr (Or.inr (Or.inr (Or.inr ⟨call, lock, mode, granted, refused, tries, (Option.some.inj taken).symm⟩))))
    next => cases taken

omit [DecidableEq L] in
@[simp] theorem held_goto (other : Nat) (program : Program L) : (world.goto call program).held other = world.held other := rfl

theorem held_grant : (world.grant lock call mode).held call = Function.update (world.held call) lock (some mode) := by
  funext other
  by_cases here : other = lock
  · subst here
    simp [held, grant]
  · simp [held, grant, Function.update_of_ne here]

theorem held_grant_other {other : Nat} (different : other ≠ call) : (world.grant lock call mode).held other = world.held other := by
  funext there
  by_cases here : there = lock
  · subst here
    simp [held, grant, different.symm]
  · simp [held, grant, Function.update_of_ne here]

theorem held_unlock : (world.unlock lock call).held call = Function.update (world.held call) lock none := by
  funext other
  by_cases here : other = lock
  · subst here
    simp [held, unlock]
  · simp [held, unlock, Function.update_of_ne here]

theorem held_unlock_other {other : Nat} (different : other ≠ call) : (world.unlock lock call).held other = world.held other := by
  funext there
  by_cases here : there = lock
  · subst here
    have kept : (fun holder : Nat × Mode => decide ((holder.1 != call) = true ∧ (holder.1 == other) = true)) =
        fun holder => holder.1 == other := by
      funext holder
      by_cases same : holder.1 = other
      · simp [same, different]
      · simp [same]
    simp only [held, unlock, Function.update_self, List.find?_filter]
    exact congrArg (fun test => Option.map Prod.snd (List.find? test (world.holders there))) kept
  · simp [held, unlock, Function.update_of_ne here]

omit [DecidableEq L] in
theorem held_ne_none (holds : (call, mode) ∈ world.holders lock) : world.held call lock ≠ none := by
  intro nothing
  simp only [held, Option.map_eq_none_iff, List.find?_eq_none] at nothing
  exact nothing _ holds (by simp)

omit [DecidableEq L] in
theorem mem_holders (holds : world.held call lock = some mode) : (call, mode) ∈ world.holders lock := by
  obtain ⟨⟨holder, other⟩, found, rfl⟩ := Option.map_eq_some_iff.mp holds
  have same : holder = call := by simpa using List.find?_some found
  exact same ▸ List.mem_of_find?_eq_some found

theorem free_grant (open_ : world.free lock mode = true)
    (excluded : ∀ lock, (world.holders lock).Pairwise fun first second => first.2.compatible second.2 = true) (other : L) :
    ((world.grant lock call mode).holders other).Pairwise fun first second => first.2.compatible second.2 = true := by
  by_cases here : other = lock
  · subst here
    simp only [grant, Function.update_self]
    exact List.pairwise_cons.mpr ⟨List.all_eq_true.mp open_, excluded other⟩
  · simpa [grant, Function.update_of_ne here] using excluded other

theorem excluded_unlock (excluded : ∀ lock, (world.holders lock).Pairwise fun first second => first.2.compatible second.2 = true)
    (other : L) : ((world.unlock lock call).holders other).Pairwise fun first second => first.2.compatible second.2 = true := by
  by_cases here : other = lock
  · subst here
    simpa only [unlock, Function.update_self] using (excluded other).filter _
  · simpa [unlock, Function.update_of_ne here] using excluded other

/-- What holds between any two steps of disciplined calls. -/
structure Disciplined (gate : L) (world : World L) : Prop where
  gated : ∀ call, Gated gate (world.held call) (world.calls call)
  queued : ∀ lock call mode, (call, mode) ∈ world.queue lock → ∃ rest, world.calls call = .acquire lock mode rest
  excluded : ∀ lock, (world.holders lock).Pairwise fun first second => first.2.compatible second.2 = true

variable {gate : L}

private theorem Disciplined.moves (disciplined : Disciplined gate before) {program : Program L}
    (calls : after.calls = Function.update before.calls call program)
    (others : ∀ other, other ≠ call → after.held other = before.held other) (gated : Gated gate (after.held call) program)
    (queue : ∀ lock other mode, (other, mode) ∈ after.queue lock → (other, mode) ∈ before.queue lock ∧ other ≠ call)
    (excluded : ∀ lock, (after.holders lock).Pairwise fun first second => first.2.compatible second.2 = true) :
    Disciplined gate after := by
  refine ⟨fun other => ?_, fun lock other mode waits => ?_, excluded⟩
  · rw [calls]
    by_cases here : other = call
    · subst here
      rw [Function.update_self]
      exact gated
    · rw [Function.update_of_ne here, others other here]
      exact disciplined.gated other
  · obtain ⟨earlier, different⟩ := queue lock other mode waits
    obtain ⟨rest, asks⟩ := disciplined.queued lock other mode earlier
    exact ⟨rest, by rw [calls, Function.update_of_ne different, asks]⟩

private theorem Disciplined.absent (disciplined : Disciplined gate before)
    (elsewhere : ∀ lock mode rest, before.calls call ≠ .acquire lock mode rest)
    (lock : L) (other : Nat) (mode : Mode) (waits : (other, mode) ∈ before.queue lock) :
    (other, mode) ∈ before.queue lock ∧ other ≠ call := by
  refine ⟨waits, fun same => ?_⟩
  subst same
  obtain ⟨rest, asks⟩ := disciplined.queued lock other mode waits
  exact elsewhere lock mode rest asks

theorem Disciplined.step (disciplined : Disciplined gate before) {action : Action L}
    (allowed : ∀ call program, action = .invoke call program → Gated gate (fun _ => none) program)
    (taken : before.step action = some after) : Disciplined gate after := by
  rcases step_cases taken with ⟨call, program, rfl, idle, rfl⟩ | ⟨call, lock, mode, rest, asks, rfl⟩ |
    ⟨call, lock, mode, rest, asks, open_, rfl⟩ | ⟨call, lock, mode, granted, refused, tries, open_, rfl⟩ |
    ⟨call, lock, rest, leaves, rfl⟩ | ⟨call, lock, mode, granted, refused, tries, rfl⟩
  · have nothing : before.held call = fun _ => none := by
      have finished := disciplined.gated call
      rw [idle] at finished
      exact funext finished
    refine disciplined.moves rfl (fun _ _ => rfl) ?_ (disciplined.absent (by simp [idle])) disciplined.excluded
    rw [held_goto, nothing]
    exact allowed call program rfl
  · refine ⟨disciplined.gated, fun other waiter asked waits => ?_, disciplined.excluded⟩
    by_cases here : other = lock
    · subst here
      simp only [enqueue, Function.update_self, List.mem_append, List.mem_singleton] at waits
      rcases waits with earlier | new
      · exact disciplined.queued other waiter asked earlier
      · cases new
        exact ⟨rest, asks⟩
    · simp only [enqueue, Function.update_of_ne here] at waits
      exact disciplined.queued other waiter asked waits
  · have waiting := disciplined.gated call
    rw [asks] at waiting
    refine disciplined.moves rfl (fun other different => ?_) ?_ (fun other waiter asked waits => ?_) ?_
    · exact held_grant_other different
    · rw [held_goto, held_grant]
      exact waiting.2
    · by_cases here : other = lock
      · subst here
        simpa [dequeue, grant, goto] using waits
      · have earlier : (waiter, asked) ∈ before.queue other := by
          simpa [dequeue, grant, goto, Function.update_of_ne here] using waits
        refine ⟨earlier, fun same => here ?_⟩
        subst same
        obtain ⟨_, there⟩ := disciplined.queued other waiter asked earlier
        rw [asks] at there
        exact (Program.acquire.inj there).1.symm
    · exact @free_grant L _ (before.dequeue lock call) lock call mode open_ disciplined.excluded
  · have trying := disciplined.gated call
    rw [tries] at trying
    refine disciplined.moves rfl (fun other different => held_grant_other different) ?_ (disciplined.absent (by simp [tries]))
      (free_grant open_ disciplined.excluded)
    rw [held_goto, held_grant]
    exact trying.1
  · have leaving := disciplined.gated call
    rw [leaves] at leaving
    refine disciplined.moves rfl (fun other different => held_unlock_other different) ?_ (disciplined.absent (by simp [leaves]))
      (excluded_unlock disciplined.excluded)
    rw [held_goto, held_unlock]
    exact leaving
  · have trying := disciplined.gated call
    rw [tries] at trying
    refine disciplined.moves rfl (fun _ _ => rfl) ?_ (disciplined.absent (by simp [tries])) disciplined.excluded
    rw [held_goto]
    exact trying.2

theorem disciplined_start (gate : L) : Disciplined gate (start : World L) :=
  ⟨fun _ _ => rfl, fun _ _ _ waits => (List.not_mem_nil waits).elim, fun _ => .nil⟩

end World

theorem Reached.disciplined {gate : L} {permits : Program L → Prop} {world : World L} (reached : Reached permits world)
    (permitted : ∀ program, permits program → Gated gate (fun _ => none) program) : world.Disciplined gate := by
  induction reached with
  | start => exact World.disciplined_start gate
  | step _ action allowed taken ih =>
    exact ih.step (fun call program invoked => permitted program (allowed call program invoked)) taken

namespace World
variable {world : World L} {gate : L}

omit [DecidableEq L] in
/-- The first member of a group to have asked for a lock waits for a holder in the group. -/
private theorem first_waiter {group : Set Nat} (stuck : ∀ waiter ∈ group, ∃ blocker ∈ group, world.Blocks blocker waiter)
    (queued : ∀ lock call mode, (call, mode) ∈ world.queue lock → ∃ rest, world.calls call = .acquire lock mode rest)
    {lock : L} {call : Nat} (member : call ∈ group) (waits : world.queued lock call = true) :
    ∃ holder ∈ group, ∃ mode, (holder, mode) ∈ world.holders lock := by
  classical
  have some_ : ((world.queue lock).find? fun waiter => decide (waiter.1 ∈ group)).isSome := by
    obtain ⟨waiter, there, same⟩ := List.any_eq_true.mp waits
    refine List.find?_isSome.mpr ⟨waiter, there, ?_⟩
    rw [beq_iff_eq.mp same]
    exact decide_eq_true member
  obtain ⟨⟨first, mode⟩, found⟩ := Option.isSome_iff_exists.mp some_
  obtain ⟨inside, before, after, order, none_⟩ := List.find?_eq_some_iff_append.mp found
  have inside : first ∈ group := of_decide_eq_true inside
  have outside : ∀ waiter ∈ before, waiter.1 ∉ group := fun waiter there => by simpa using none_ waiter there
  obtain ⟨blocker, blocking, other, asked, rest, asks, _, kind, blocked⟩ := stuck first inside
  obtain ⟨_, there⟩ := queued lock first mode (by rw [order]; simp)
  rw [there] at asks
  cases asks
  rcases blocked with holds | earlier
  · exact ⟨blocker, blocking, kind, holds⟩
  · have front : world.ahead lock first = before := by
      rw [ahead, order, List.takeWhile_append_of_pos (fun waiter member => ?_)]
      · simp
      · simpa using fun same : waiter.1 = first => outside waiter member (same ▸ inside)
    exact absurd blocking (outside _ (front ▸ earlier))

/-- Who waits at another lock than the gate while holding one holds the gate exclusively. -/
private theorem Disciplined.gatekeeper (disciplined : Disciplined gate world) {call : Nat} {lock : L} {mode : Mode}
    {rest : Program L}
    (asks : world.calls call = .acquire lock mode rest) {other : L} (away : other ≠ gate) (holds : world.held call other ≠ none) :
    lock ≠ gate ∧ world.held call gate = some .exclusive := by
  have waiting := disciplined.gated call
  rw [asks] at waiting
  obtain ⟨⟨_, atGate, elsewhere⟩, _⟩ := waiting
  have apart : lock ≠ gate := fun same => holds (atGate same other)
  exact ⟨apart, (elsewhere apart).resolve_right fun nothing => holds (nothing other away)⟩

private theorem Disciplined.sole (disciplined : Disciplined gate world) {first second : Nat}
    (one : world.held first gate = some .exclusive) (two : world.held second gate = some .exclusive) : first = second := by
  by_contra different
  have symmetric : Std.Symm fun first second : Nat × Mode => first.2.compatible second.2 = true :=
    ⟨fun first second both => by rwa [Mode.compatible_comm]⟩
  have both := (disciplined.excluded gate).forall (mem_holders one) (mem_holders two) fun same => different (Prod.mk.inj same).1
  cases both

theorem Disciplined.not_deadlocked (disciplined : Disciplined gate world) (group : Set Nat) : ¬ world.Deadlocked group := by
  intro ⟨⟨someone, member⟩, stuck⟩
  -- every member asks for a lock it does not hold
  have asks : ∀ waiter ∈ group, ∃ lock mode rest, world.calls waiter = .acquire lock mode rest ∧ world.queued lock waiter = true ∧
      world.held waiter lock = none := by
    intro waiter inside
    obtain ⟨_, _, lock, mode, rest, asks, waits, _⟩ := stuck waiter inside
    have waiting := disciplined.gated waiter
    rw [asks] at waiting
    exact ⟨lock, mode, rest, asks, waits, waiting.1.1⟩
  -- behind a member at another lock than the gate stands the keeper of the gate, at a third one
  have keeper : ∀ waiter ∈ group, ∀ lock mode rest, world.calls waiter = .acquire lock mode rest → world.queued lock waiter = true →
      lock ≠ gate → ∃ holder ∈ group, world.held holder lock ≠ none ∧ world.held holder gate = some .exclusive := by
    intro waiter inside lock mode rest _ waits away
    obtain ⟨holder, among, kind, holds⟩ := first_waiter stuck disciplined.queued inside waits
    obtain ⟨next, _, _, wants, _⟩ := asks holder among
    exact ⟨holder, among, held_ne_none holds, (disciplined.gatekeeper wants away (held_ne_none holds)).2⟩
  have beyond : ∃ waiter ∈ group, ∃ lock mode rest, world.calls waiter = .acquire lock mode rest ∧
      world.queued lock waiter = true ∧ lock ≠ gate := by
    obtain ⟨lock, mode, rest, wants, waits, _⟩ := asks someone member
    by_cases here : lock = gate
    · subst here
      obtain ⟨holder, among, kind, holds⟩ := first_waiter stuck disciplined.queued member waits
      obtain ⟨next, mode, rest, wants, waits, free⟩ := asks holder among
      exact ⟨holder, among, next, mode, rest, wants, waits, fun same => held_ne_none holds (same ▸ free)⟩
    · exact ⟨someone, member, lock, mode, rest, wants, waits, here⟩
  obtain ⟨waiter, inside, lock, mode, rest, wants, waits, away⟩ := beyond
  obtain ⟨holder, among, holds, guards⟩ := keeper waiter inside lock mode rest wants waits away
  obtain ⟨next, mode, rest, wants, waits, free⟩ := asks holder among
  have apart := (disciplined.gatekeeper wants away holds).1
  obtain ⟨other, _, keeps, also⟩ := keeper holder among next mode rest wants waits apart
  cases disciplined.sole guards also
  exact keeps free

/-- Unless every call is finished, one of them can go on. -/
theorem Disciplined.progress (disciplined : Disciplined gate world) {call : Nat} (unfinished : world.calls call ≠ .done) :
    ∃ other after, world.step (.advance other) = some after ∨ world.step (.refuse other) = some after := by
  by_contra nobody
  have stops : ∀ other after, world.step (.advance other) ≠ some after ∧ world.step (.refuse other) ≠ some after := by
    intro other after
    exact ⟨fun taken => nobody ⟨other, after, Or.inl taken⟩, fun taken => nobody ⟨other, after, Or.inr taken⟩⟩
  refine disciplined.not_deadlocked {other | world.calls other ≠ .done} ⟨⟨call, unfinished⟩, fun waiter busy => ?_⟩
  have holding : ∀ lock holder mode, (holder, mode) ∈ world.holders lock → world.calls holder ≠ .done := by
    intro lock holder mode holds finished
    have idle := disciplined.gated holder
    rw [finished] at idle
    exact held_ne_none holds (idle lock)
  cases current : world.calls waiter with
  | done => exact absurd current busy
  | attempt lock mode granted refused => exact absurd (by simp [World.step, current]) (stops waiter (world.goto waiter refused)).2
  | release lock rest => exact absurd (by simp [World.step, current]) (stops waiter ((world.unlock lock waiter).goto waiter rest)).1
  | acquire lock mode rest =>
    have waits : world.queued lock waiter = true := by
      by_contra outside
      exact (stops waiter (world.enqueue lock waiter mode)).1 (by simp [World.step, current, outside])
    have refused : world.admits lock waiter mode = false := by
      by_contra admitted
      exact (stops waiter _).1 (by simp only [World.step, current, waits, if_true, eq_true_of_ne_false admitted]; rfl)
    rcases Bool.and_eq_false_iff.mp refused with taken | behind
    · obtain ⟨⟨holder, kind⟩, holds, _⟩ := List.all_eq_false.mp taken
      exact ⟨holder, holding lock holder kind holds, lock, mode, rest, current, waits, kind, Or.inl holds⟩
    · obtain ⟨⟨earlier, kind⟩, asked, _⟩ := List.all_eq_false.mp (Bool.or_eq_false_iff.mp behind).2
      obtain ⟨_, asks⟩ := disciplined.queued lock earlier kind ((List.takeWhile_sublist _).subset asked)
      exact ⟨earlier, by simp [asks], lock, mode, rest, current, waits, kind, Or.inr asked⟩

end World

end GatedLocks
