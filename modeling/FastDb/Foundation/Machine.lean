import Mathlib.Logic.Relation

/-! # Runs of a machine

A machine takes labelled steps, and an event that is not enabled in a state has
none. A condition on a state and an event singles out the runs all of whose
steps meet it (`Foundation.Machine.Reaches`); a property that holds initially and
is kept by every such step holds along them
(`Foundation.Machine.Reaches.invariant`). Fixed lists of events are executed by
`Foundation.Machine.execute`; when every step decreases a measure, a run that nothing drives
on has reached its goal (`Foundation.Machine.completes`).
-/

namespace Foundation

/-- A machine over states `σ` with events `ε`. -/
structure Machine (σ ε : Type*) where
  step : σ → ε → Option σ

namespace Machine

variable {σ ε : Type*} (machine : Machine σ ε) (allowed : σ → ε → Prop)

/-- The condition every step meets. -/
def anyStep : σ → ε → Prop := fun _ _ => True

/-- One step whose event the condition allows. -/
def Moves (before after : σ) : Prop :=
  ∃ event, allowed before event ∧ machine.step before event = some after

/-- A run all of whose steps meet the condition. -/
def Reaches : σ → σ → Prop := Relation.ReflTransGen (machine.Moves allowed)

/-- Executes a fixed list of events, all of which must be enabled and allowed. -/
def execute [∀ state event, Decidable (allowed state event)] : List ε → σ → Option σ
  | [], state => some state
  | event :: events, state =>
      if allowed state event then (machine.step state event).bind (execute events) else none

variable {machine allowed}

theorem Reaches.refl (state : σ) : machine.Reaches allowed state state :=
  Relation.ReflTransGen.refl

theorem Reaches.head {first second last : σ} {event : ε} (meets : allowed first event)
    (stepped : machine.step first event = some second)
    (rest : machine.Reaches allowed second last) : machine.Reaches allowed first last :=
  Relation.ReflTransGen.head ⟨event, meets, stepped⟩ rest

/-- A run under a condition is a run under a weaker one. -/
theorem Reaches.mono {first last : σ} {weaker : σ → ε → Prop}
    (run : machine.Reaches allowed first last)
    (implied : ∀ state event, allowed state event → weaker state event) :
    machine.Reaches weaker first last := by
  refine Relation.ReflTransGen.mono ?_ _ _ run
  rintro before after ⟨event, meets, stepped⟩
  exact ⟨event, implied before event meets, stepped⟩

/-- **Invariants.** A property of the first state that every allowed step keeps
holds of the last state of a run. -/
theorem Reaches.invariant {first last : σ} (run : machine.Reaches allowed first last)
    (holds : σ → Prop) (initially : holds first)
    (kept : ∀ before event after, holds before → allowed before event →
      machine.step before event = some after → holds after) : holds last := by
  induction run with
  | refl => exact initially
  | tail _ move ih =>
      obtain ⟨event, meets, stepped⟩ := move
      exact kept _ event _ ih meets stepped

/-- An invariant whose steps may use what is known of all reachable states. -/
theorem Reaches.invariant_given {first last : σ} (run : machine.Reaches allowed first last)
    (known : σ → Prop) (always : ∀ state, machine.Reaches allowed first state → known state)
    (holds : σ → Prop) (initially : holds first)
    (kept : ∀ before event after, known before → holds before → allowed before event →
      machine.step before event = some after → holds after) : holds last := by
  induction run with
  | refl => exact initially
  | tail earlier move ih =>
      obtain ⟨event, meets, stepped⟩ := move
      exact kept _ event _ (always _ earlier) ih meets stepped

theorem execute_append [∀ state event, Decidable (allowed state event)] (events others : List ε)
    (state : σ) : machine.execute allowed (events ++ others) state =
      (machine.execute allowed events state).bind (machine.execute allowed others) := by
  induction events generalizing state with
  | nil => rfl
  | cons event events ih =>
      simp only [List.cons_append, execute]
      split
      · cases machine.step state event with
        | none => rfl
        | some next => exact ih next
      · rfl

/-- An executed list of events is a run. -/
theorem reaches_of_execute [∀ state event, Decidable (allowed state event)] {events : List ε}
    {first last : σ} (executed : machine.execute allowed events first = some last) :
    machine.Reaches allowed first last := by
  induction events generalizing first with
  | nil => exact Option.some.inj executed ▸ Reaches.refl first
  | cons event events ih =>
      simp only [execute] at executed
      split at executed
      · next meets =>
          obtain ⟨second, stepped, rest⟩ := Option.bind_eq_some_iff.mp executed
          exact Reaches.head meets stepped (ih rest)
      · cases executed

/-- **Completion.** When every allowed step decreases a measure, and short of a goal some driving
step is enabled, runs are bounded by the measure and no driving step is left at the goal only. -/
theorem completes [∀ state event, Decidable (allowed state event)] (known goal : σ → Prop)
    (measure : σ → Nat) (driving : σ → ε → Prop)
    (decreases : ∀ before event after, known before → allowed before event →
      machine.step before event = some after → known after ∧ measure after < measure before)
    (progress : ∀ state, known state → ¬ goal state →
      ∃ event, driving state event ∧ (machine.step state event).isSome)
    {first last : σ} {events : List ε} (knows : known first)
    (executed : machine.execute allowed events first = some last) :
    events.length ≤ measure first ∧
      ((∀ event, driving last event → machine.step last event = none) →
        known last ∧ goal last) := by
  induction events generalizing first with
  | nil =>
      cases executed
      refine ⟨Nat.zero_le _, fun stuck => ⟨knows, Classical.byContradiction fun short => ?_⟩⟩
      obtain ⟨event, drives, enabled⟩ := progress _ knows short
      rw [stuck event drives] at enabled
      exact absurd enabled (by simp)
  | cons event events ih =>
      simp only [execute] at executed
      split at executed
      · next meets =>
          obtain ⟨second, stepped, rest⟩ := Option.bind_eq_some_iff.mp executed
          obtain ⟨knowsSecond, less⟩ := decreases first event second knows meets stepped
          obtain ⟨bounded, ends⟩ := ih knowsSecond rest
          exact ⟨Nat.lt_of_le_of_lt bounded less, ends⟩
      · cases executed

instance : ∀ (state : σ) (event : ε), Decidable (anyStep state event) :=
  fun _ _ => inferInstanceAs (Decidable True)

end Machine

end Foundation
