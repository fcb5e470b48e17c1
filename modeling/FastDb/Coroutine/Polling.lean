import Mathlib.Data.Seq.Defs
import FastDb.Foundation.Machine

/-! # Polling a generator

The `Generator` of `test/std_coroutine.cpp` that hands out what its body emits with
`co_yield` or with `co_await`. `yield_value` sets `is_ready`, so that `has_next` does not
resume the body again before `next` has taken the value; `await_transform` does not, and
`next` itself begins with a call of `has_next`. Polling loses no value exactly as long as
`has_next` is not called where the next value comes from a `co_await`
(`FastDb.Coroutine.Generator.transparent_step_iff`).
-/

namespace FastDb.Coroutine

open Foundation Stream'

/-- What a body hands out at a suspension point, by how it does. -/
inductive Emission
  | coYield (value : Int)
  | coAwait (value : Int)
deriving DecidableEq

/-- The value of an emission. -/
def Emission.value : Emission → Int
  | .coYield value | .coAwait value => value

/-- The emission is of `co_yield`. -/
def Emission.isYield : Emission → Bool
  | .coYield _ => true
  | .coAwait _ => false

/-- `Generator`, by how often its body has emitted and whether it has returned. The value is
indeterminate until the body has emitted one. -/
structure Generator where
  emitted : Nat := 0
  done : Bool := false
  value : Int := 0
  isReady : Bool := false

namespace Generator

/-- `handle.resume()`, up to the next emission or the end of the body, with `yield_value` or
`await_transform`. -/
def resume (body : Seq Emission) (generator : Generator) : Generator :=
  match body.get? generator.emitted with
  | some (.coYield value) =>
      { generator with emitted := generator.emitted + 1, value, isReady := true }
  | some (.coAwait value) => { generator with emitted := generator.emitted + 1, value }
  | none => { generator with done := true }

/-- `has_next()`. -/
def hasNext (body : Seq Emission) (generator : Generator) : Bool × Generator :=
  if generator.done then (false, generator)
  else
    let generator := if generator.isReady then generator else generator.resume body
    if generator.done then (false, generator) else (true, generator)

/-- `next()`, which throws when there is none. -/
def next (body : Seq Emission) (generator : Generator) : Except Unit Int × Generator :=
  let has := generator.hasNext body
  if has.1 then (.ok has.2.value, { has.2 with isReady := false }) else (.error (), has.2)

/-- A generator that is polled, and what `next()` has returned so far. -/
structure Polled where
  generator : Generator := {}
  taken : List Int := []

/-- The calls of a consumer. -/
inductive Call
  | hasNext
  | next
deriving DecidableEq

/-- Any sequence of calls. -/
def machine (body : Seq Emission) : Machine Polled Call where
  step polled
    | .hasNext => some { polled with generator := (polled.generator.hasNext body).2 }
    | .next =>
        match polled.generator.next body with
        | (.ok value, generator) => some ⟨generator, polled.taken ++ [value]⟩
        | (.error _, generator) => some { polled with generator }

/-- **Transparency.** The values taken are the first ones emitted, `has_next()` tells whether
there is another one, and `next()` hands out that one and no later one. -/
structure Transparent (body : Seq Emission) (polled : Polled) : Prop where
  inOrder : ∀ index < polled.taken.length,
    polled.taken[index]? = (body.get? index).map Emission.value
  has : (polled.generator.hasNext body).1 = (body.get? polled.taken.length).isSome
  next : ∀ emission, body.get? polled.taken.length = some emission →
    (polled.generator.next body).1 = .ok emission.value ∧
      (polled.generator.next body).2.emitted = polled.taken.length + 1
  ended : body.get? polled.taken.length = none → (polled.generator.next body).1 = .error ()

/-- `has_next()` is not called where the next value comes from a `co_await`. -/
def Permits (body : Seq Emission) (polled : Polled) : Call → Prop
  | .hasNext => ∀ emission ∈ body.get? polled.taken.length, emission.isYield = true
  | .next => True

instance (body : Seq Emission) (polled : Polled) : ∀ call, Decidable (Permits body polled call)
  | .hasNext => inferInstanceAs (Decidable
      (∀ emission ∈ body.get? polled.taken.length, emission.isYield = true))
  | .next => .isTrue trivial

/-- Where a generator is of which that many values are taken: suspended before the next
emission, at the end, or with the next value ready. -/
inductive Holds (body : Seq Emission) (taken : Nat) : Generator → Prop
  | before (value : Int) : Holds body taken ⟨taken, false, value, false⟩
  | ended (value : Int) (none : body.get? taken = none) :
      Holds body taken ⟨taken, true, value, false⟩
  | ready (value : Int) (some : body.get? taken = some (.coYield value)) :
      Holds body taken ⟨taken + 1, false, value, true⟩

section Calls

variable {body : Seq Emission} {taken : Nat} {generator : Generator}

/-- Suspended before an emission, `has_next()` resumes the body to the next one. -/
theorem hasNext_of_some {emission : Emission} (found : body.get? taken = some emission)
    (value : Int) : Generator.hasNext body ⟨taken, false, value, false⟩ =
      (true, ⟨taken + 1, false, emission.value, emission.isYield⟩) := by
  cases emission with
  | coYield emitted => simp [Generator.hasNext, resume, found, Emission.value, Emission.isYield]
  | coAwait emitted => simp [Generator.hasNext, resume, found, Emission.value, Emission.isYield]

/-- `has_next` at the end of the body. -/
theorem hasNext_of_none (none : body.get? taken = none) (value : Int) :
    Generator.hasNext body ⟨taken, false, value, false⟩ =
      (false, ⟨taken, true, value, false⟩) := by
  simp [Generator.hasNext, resume, none]

/-- What `next()` hands out is the emission after the ones taken. -/
theorem Holds.next_some (holds : Holds body taken generator) {emission : Emission}
    (found : body.get? taken = some emission) :
    ∃ after, generator.next body = (.ok emission.value, after) ∧ Holds body (taken + 1) after ∧
      after.emitted = taken + 1 := by
  cases holds with
  | before value =>
      refine ⟨⟨taken + 1, false, emission.value, false⟩, ?_, .before _, rfl⟩
      simp [Generator.next, hasNext_of_some found]
  | ended value none =>
      rw [none] at found
      cases found
  | ready value ready =>
      rw [ready] at found
      cases found
      exact ⟨⟨taken + 1, false, value, false⟩, rfl, .before _, rfl⟩

/-- `next` at the end of the body throws. -/
theorem Holds.next_none (holds : Holds body taken generator) (none : body.get? taken = none) :
    ∃ after, generator.next body = (.error (), after) ∧ Holds body taken after := by
  cases holds with
  | before value =>
      refine ⟨⟨taken, true, value, false⟩, ?_, .ended _ none⟩
      simp [Generator.next, hasNext_of_none none]
  | ended value => exact ⟨⟨taken, true, value, false⟩, rfl, .ended _ none⟩
  | ready value found =>
      rw [none] at found
      cases found

/-- Before a `co_yield` or the end, `has_next()` changes nothing but what is ready. -/
theorem Holds.hasNext (holds : Holds body taken generator)
    (permitted : ∀ emission ∈ body.get? taken, emission.isYield = true) :
    Holds body taken (generator.hasNext body).2 := by
  cases holds with
  | before value =>
      cases found : body.get? taken with
      | none =>
          rw [hasNext_of_none found]
          exact .ended value found
      | some emission =>
          rw [hasNext_of_some found]
          cases emission with
          | coYield emitted => exact .ready emitted found
          | coAwait emitted => cases permitted _ found
  | ended value none => exact .ended value none
  | ready value some => exact .ready value some

/-- `has_next()` tells whether the body emits another value. -/
theorem Holds.hasNext_fst (holds : Holds body taken generator) :
    (generator.hasNext body).1 = (body.get? taken).isSome := by
  cases holds with
  | before value =>
      cases found : body.get? taken with
      | none => rw [hasNext_of_none found, Option.isSome_none]
      | some emission => rw [hasNext_of_some found, Option.isSome_some]
  | ended value none =>
      rw [none]
      rfl
  | ready value some =>
      rw [some]
      rfl

/-- Before a `co_await` it loses the value: the next call resumes the body again. -/
theorem Holds.lost (holds : Holds body taken generator) {value : Int}
    (found : body.get? taken = some (.coAwait value)) :
    ((generator.hasNext body).2.next body).1 = .error () ∨
      ((generator.hasNext body).2.next body).2.emitted = taken + 2 := by
  cases holds with
  | before old =>
      rw [hasNext_of_some found, Emission.isYield, Emission.value]
      cases further : body.get? (taken + 1) with
      | none =>
          left
          simp [Generator.next, hasNext_of_none further]
      | some emission =>
          right
          simp [Generator.next, hasNext_of_some further]
  | ended old none =>
      rw [none] at found
      cases found
  | ready old some =>
      rw [some] at found
      cases found

end Calls

section Steps

variable {body : Seq Emission} {polled after : Polled}

/-- The values taken, and where the generator is after them. -/
structure Settled (body : Seq Emission) (polled : Polled) : Prop where
  inOrder : ∀ index < polled.taken.length,
    polled.taken[index]? = (body.get? index).map Emission.value
  holds : Holds body polled.taken.length polled.generator

/-- Polling that is settled is transparent. -/
theorem Settled.transparent (settled : Settled body polled) : Transparent body polled where
  inOrder := settled.inOrder
  has := settled.holds.hasNext_fst
  next emission found := by
    obtain ⟨generator, result, -, emitted⟩ := settled.holds.next_some found
    rw [result]
    exact ⟨rfl, emitted⟩
  ended none := by
    obtain ⟨generator, result, -⟩ := settled.holds.next_none none
    rw [result]

/-- **One call** that is permitted keeps the place. -/
theorem Settled.step (settled : Settled body polled) {call : Call}
    (permitted : Permits body polled call)
    (stepped : (machine body).step polled call = some after) : Settled body after := by
  obtain ⟨inOrder, holds⟩ := settled
  cases call with
  | hasNext =>
      cases stepped
      exact ⟨inOrder, holds.hasNext permitted⟩
  | next =>
      simp only [machine] at stepped
      cases found : body.get? polled.taken.length with
      | some emission =>
          obtain ⟨generator, result, holds, -⟩ := holds.next_some found
          rw [result] at stepped
          cases stepped
          constructor
          · intro index inside
            rw [List.length_append, List.length_singleton] at inside
            rcases Nat.lt_or_eq_of_le (Nat.le_of_lt_succ inside) with earlier | rfl
            · rw [List.getElem?_append_left earlier]
              exact inOrder index earlier
            · rw [List.getElem?_concat_length, found]
              rfl
          · rwa [List.length_append, List.length_singleton]
      | none =>
          obtain ⟨generator, result, holds⟩ := holds.next_none found
          rw [result] at stepped
          cases stepped
          exact ⟨inOrder, holds⟩

/-- **One call** that is not permitted loses a value. -/
theorem Settled.not_transparent (settled : Settled body polled) {call : Call}
    (forbidden : ¬ Permits body polled call)
    (stepped : (machine body).step polled call = some after) : ¬ Transparent body after := by
  intro transparent
  cases call with
  | hasNext =>
      cases stepped
      refine forbidden fun emission found => ?_
      cases emission with
      | coYield value => rfl
      | coAwait value =>
          obtain ⟨result, emitted⟩ := transparent.next _ found
          rcases settled.holds.lost found with threw | further
          · rw [threw] at result
            cases result
          · have skipped : polled.taken.length + 2 = polled.taken.length + 1 :=
              further.symm.trans emitted
            omega
  | next => exact forbidden trivial

end Steps

section Runs

variable {body : Seq Emission} {polled : Polled}

/-- A generator that has just been created. -/
def initial : Polled := {}

theorem settled_of_reaches (run : (machine body).Reaches (Permits body) initial polled) :
    Settled body polled := by
  refine run.invariant (Settled body) ⟨?_, .before 0⟩ ?_
  · intro index inside
    exact absurd inside (Nat.not_lt_zero _)
  · intro before call after settled permitted stepped
    exact settled.step permitted stepped

/-- **Polling is transparent** in every state of a run whose calls are all permitted, and the
first call that is not permitted leads to a state in which it is not. -/
theorem transparent_step_iff (run : (machine body).Reaches (Permits body) initial polled) :
    Transparent body polled ∧
      ∀ call after, (machine body).step polled call = some after →
        (Transparent body after ↔ Permits body polled call) := by
  have settled := settled_of_reaches run
  refine ⟨settled.transparent, fun call after stepped => ?_⟩
  constructor
  · intro transparent
    by_contra forbidden
    exact settled.not_transparent forbidden stepped transparent
  · intro permitted
    exact (settled.step permitted stepped).transparent

/-- A body that yields 1, awaits 2 and yields 3: the first and the last may be polled for. -/
theorem transparent_step_iff_mixed :
    ∃ polled, (machine (Seq.ofList [.coYield 1, .coAwait 2, .coYield 3])).Reaches
        (Permits (Seq.ofList [.coYield 1, .coAwait 2, .coYield 3])) initial polled ∧
      polled.taken = [1, 2, 3] ∧
      Transparent (Seq.ofList [.coYield 1, .coAwait 2, .coYield 3]) polled := by
  have ran : ((machine (Seq.ofList [.coYield 1, .coAwait 2, .coYield 3])).execute
      (Permits (Seq.ofList [.coYield 1, .coAwait 2, .coYield 3]))
      [.hasNext, .hasNext, .next, .next, .hasNext, .next, .hasNext, .next] initial).map
        (fun polled => decide (polled.taken = [1, 2, 3])) = some true := by
    decide
  obtain ⟨polled, executed, checked⟩ := Option.map_eq_some_iff.mp ran
  have run := Machine.reaches_of_execute executed
  exact ⟨polled, run, of_decide_eq_true checked, (transparent_step_iff run).1⟩

/-- `sequence()`, which awaits 0, 1, 2 and so on: after one call of `has_next()` the first
value that `next()` returns is 1. -/
theorem not_transparent_sequence :
    ∃ polled, (machine ⟨fun index => some (.coAwait index), nofun⟩).Reaches Machine.anyStep
        initial polled ∧
      polled.taken = [1] ∧
      ¬ Transparent ⟨fun index => some (.coAwait index), nofun⟩ polled := by
  have ran : ((machine ⟨fun index => some (.coAwait index), nofun⟩).execute Machine.anyStep
      [.hasNext, .next] initial).map (fun polled => decide (polled.taken = [1])) = some true := by
    decide
  obtain ⟨polled, executed, checked⟩ := Option.map_eq_some_iff.mp ran
  have taken := of_decide_eq_true checked
  refine ⟨polled, Machine.reaches_of_execute executed, taken, fun transparent => ?_⟩
  have first := transparent.inOrder 0 (by rw [taken]; exact Nat.zero_lt_one)
  rw [taken] at first
  exact absurd first (by decide)

end Runs

end Generator

end FastDb.Coroutine
