import Mathlib.Data.Option.Basic

/-! # Components that answer calls

A component answers each call with an output and a next state, or has no defined
behaviour. One that refines a specification answers every sequence of calls, with answers
that the specification allows (`Foundation.Component.Refinement.run`). One that simulates
another answers what that answers (`Foundation.Component.Simulation.run`). Two that simulate
each other give the same answers to every sequence of calls
(`Foundation.Component.Bisimulation.outputs_eq`), so what the second does not look at has
no influence on the answers of the first (`Foundation.Component.Bisimulation.outputs_map`).
-/

namespace Foundation

/-- A component over states `σ` that takes inputs `ι` and gives outputs `ο`. -/
structure Component (σ ι ο : Type*) where
  call : σ → ι → Option (σ × ο)

namespace Component

variable {σ τ ι ο : Type*}

/-- The state a sequence of calls leaves, and the answers to it. -/
def run (component : Component σ ι ο) : List ι → σ → Option (σ × List ο)
  | [], state => some (state, [])
  | input :: inputs, state =>
      (component.call state input).bind fun answer =>
        (component.run inputs answer.1).map fun rest => (rest.1, answer.2 :: rest.2)

/-- Two answers with one output that leave related states. -/
structure Agree (related : σ → τ → Prop) (left : σ × ο) (right : τ × ο) : Prop where
  states : related left.1 right.1
  outputs : left.2 = right.2

variable {concrete : Component σ ι ο} {abstract : Component τ ι ο} {related : σ → τ → Prop}

/-- What calls may be answered with: for a state and an input, next states with outputs. -/
structure Specification (σ ι ο : Type*) where
  allows : σ → ι → σ × ο → Prop

/-- The answers that a sequence of calls may have. -/
inductive Specification.Runs (specification : Specification τ ι ο) :
    τ → List ι → τ × List ο → Prop
  | nil (model : τ) : specification.Runs model [] (model, [])
  | cons {model : τ} {input : ι} {inputs : List ι} {answer : τ × ο} {rest : τ × List ο}
      (allowed : specification.allows model input answer)
      (later : specification.Runs answer.1 inputs rest) :
      specification.Runs model (input :: inputs) (rest.1, answer.2 :: rest.2)

/-- **Refinement.** The component has an answer to every call, one that is allowed. -/
structure Refinement (concrete : Component σ ι ο) (specification : Specification τ ι ο)
    (related : σ → τ → Prop) : Prop where
  answers : ∀ state model input, related state model → ∃ answer modelAnswer,
    concrete.call state input = some answer ∧ specification.allows model input modelAnswer ∧
      Agree related answer modelAnswer

/-- The run of a component that refines a specification. -/
theorem Refinement.run {specification : Specification τ ι ο}
    (refinement : Refinement concrete specification related) (inputs : List ι) {state : σ}
    {model : τ} (start : related state model) :
    ∃ result modelResult, concrete.run inputs state = some result ∧
      specification.Runs model inputs modelResult ∧ Agree related result modelResult := by
  induction inputs generalizing state model with
  | nil => exact ⟨(state, []), (model, []), rfl, .nil model, start, rfl⟩
  | cons input inputs ih =>
      obtain ⟨answer, modelAnswer, called, allowed, agree⟩ :=
        refinement.answers state model input start
      obtain ⟨rest, modelRest, ran, runs, agreeRest⟩ := ih agree.states
      refine ⟨(rest.1, answer.2 :: rest.2), (modelRest.1, modelAnswer.2 :: modelRest.2), ?_,
        .cons allowed runs, agreeRest.states, ?_⟩
      · simp only [Component.run, called, ran, Option.bind_some, Option.map_some]
      · simp only [agree.outputs, agreeRest.outputs]

/-- **Simulation.** Whatever the first component answers, the second one answers. -/
structure Simulation (first : Component σ ι ο) (second : Component τ ι ο)
    (related : σ → τ → Prop) : Prop where
  answers : ∀ state model input answer, related state model →
    first.call state input = some answer →
    ∃ modelAnswer, second.call model input = some modelAnswer ∧ Agree related answer modelAnswer

/-- A run of calls that the first component answers. -/
theorem Simulation.run {first : Component σ ι ο} {second : Component τ ι ο}
    (simulation : Simulation first second related) {inputs : List ι} {state : σ} {model : τ}
    {result : σ × List ο} (start : related state model)
    (ran : first.run inputs state = some result) :
    ∃ modelResult, second.run inputs model = some modelResult ∧
      Agree related result modelResult := by
  induction inputs generalizing state model result with
  | nil =>
      obtain rfl := Option.some.inj ran
      exact ⟨(model, []), rfl, start, rfl⟩
  | cons input inputs ih =>
      obtain ⟨answer, called, more⟩ := Option.bind_eq_some_iff.mp ran
      obtain ⟨rest, ranRest, rfl⟩ := Option.map_eq_some_iff.mp more
      obtain ⟨modelAnswer, modelCalled, agree⟩ :=
        simulation.answers state model input answer start called
      obtain ⟨modelRest, modelRan, agreeRest⟩ := ih agree.states ranRest
      refine ⟨(modelRest.1, modelAnswer.2 :: modelRest.2), ?_, agreeRest.states, ?_⟩
      · simp only [Component.run, modelCalled, modelRan, Option.bind_some, Option.map_some]
      · simp only [agree.outputs, agreeRest.outputs]

/-- **Bisimulation.** Both components answer, alike, or neither does. -/
structure Bisimulation (concrete : Component σ ι ο) (abstract : Component τ ι ο)
    (related : σ → τ → Prop) : Prop where
  answers : ∀ state model input, related state model →
    Option.Rel (Agree related) (concrete.call state input) (abstract.call model input)

/-- A run of calls of two bisimilar components. -/
theorem Bisimulation.run (bisimulation : Bisimulation concrete abstract related)
    (inputs : List ι) {state : σ} {model : τ} (start : related state model) :
    Option.Rel (Agree related) (concrete.run inputs state) (abstract.run inputs model) := by
  induction inputs generalizing state model with
  | nil => exact .some ⟨start, rfl⟩
  | cons input inputs ih =>
      have first := bisimulation.answers state model input start
      simp only [Component.run]
      generalize concrete.call state input = left at first
      generalize abstract.call model input = right at first
      cases first with
      | none => exact .none
      | some agree =>
          simp only [Option.bind_some]
          have rest := ih agree.states
          generalize concrete.run inputs _ = leftRest at rest
          generalize abstract.run inputs _ = rightRest at rest
          cases rest with
          | none => exact .none
          | some agreeRest =>
              exact .some ⟨agreeRest.states, congrArg₂ List.cons agree.outputs agreeRest.outputs⟩

/-- Bisimilar components give the same answers. -/
theorem Bisimulation.outputs_eq (bisimulation : Bisimulation concrete abstract related)
    (inputs : List ι) {state : σ} {model : τ} (start : related state model) :
    (concrete.run inputs state).map Prod.snd = (abstract.run inputs model).map Prod.snd := by
  have ran := bisimulation.run inputs start
  generalize concrete.run inputs state = left at ran
  generalize abstract.run inputs model = right at ran
  cases ran with
  | none => rfl
  | some agree => exact congrArg some agree.outputs

/-- A part of the inputs that a component does not look at. -/
theorem run_map_of_blind {mask : ι → ι}
    (blind : ∀ model input, abstract.call model (mask input) = abstract.call model input)
    (inputs : List ι) (model : τ) :
    abstract.run (inputs.map mask) model = abstract.run inputs model := by
  induction inputs generalizing model with
  | nil => rfl
  | cons input inputs ih => simp only [List.map_cons, Component.run, blind, ih]

/-- What the abstract component does not look at has no influence on the answers of a
bisimilar one. -/
theorem Bisimulation.outputs_map (bisimulation : Bisimulation concrete abstract related)
    {mask : ι → ι}
    (blind : ∀ model input, abstract.call model (mask input) = abstract.call model input)
    (inputs : List ι) {state : σ} {model : τ} (start : related state model) :
    (concrete.run (inputs.map mask) state).map Prod.snd =
      (concrete.run inputs state).map Prod.snd := by
  rw [bisimulation.outputs_eq _ start, bisimulation.outputs_eq _ start, run_map_of_blind blind]

end Component

end Foundation
