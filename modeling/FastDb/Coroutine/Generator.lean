import Mathlib.Algebra.BigOperators.Group.List.Basic
import FastDb.Foundation.Resumables

/-! # Generators

`Generator_t` of `test/std_coroutine.cpp`: a handle to a suspended coroutine, `has_next` and
`next` to resume it and to take what it yields, and the combinators, each a coroutine of its own
that takes from the generator it is called on. A pipeline of combinators over a list hands out
what the list functions give, to the loops that drain it, and a drained `take` has had its
source produce no more than it hands on (`FastDb.Coroutine.Pipeline.equals_list`).
-/

namespace FastDb.Coroutine

open Foundation

universe u v

variable {α : Type u} [Inhabited α]

/-- `Generator_t`; it also counts the values yielded to it. The value is indeterminate until
then. -/
structure GeneratorT (coroutine : Resumable α) where
  frame : coroutine.State
  done : Bool := false
  value : α := default
  isReady : Bool := false
  yielded : Nat := 0

namespace GeneratorT

variable {coroutine : Resumable α}

/-- A call of the coroutine, suspended at its start. -/
def new (coroutine : Resumable α) : GeneratorT coroutine := { frame := coroutine.start }

/-- What `handle.resume()` leaves, with `yield_value` and `return_void`. -/
def resumed (generator : GeneratorT coroutine) :
    Resumed α coroutine.State → GeneratorT coroutine
  | .yields value frame =>
      { generator with frame, value, isReady := true, yielded := generator.yielded + 1 }
  | .returns frame => { generator with frame, done := true }

/-- `handle.resume()`. -/
def resume (fuel : Nat) (generator : GeneratorT coroutine) : Option (GeneratorT coroutine) :=
  (coroutine.resume fuel generator.frame).map generator.resumed

/-- `has_next()`. -/
def hasNext (fuel : Nat) (generator : GeneratorT coroutine) :
    Option (Bool × GeneratorT coroutine) :=
  if generator.done then some (false, generator)
  else if generator.isReady then some (true, generator)
  else (generator.resume fuel).map fun generator => (!generator.done, generator)

/-- `next()`, which throws when there is none. -/
def next (fuel : Nat) (generator : GeneratorT coroutine) :
    Option (Except Unit α × GeneratorT coroutine) :=
  (generator.hasNext fuel).map fun has =>
    if has.1 then (.ok has.2.value, { has.2 with isReady := false }) else (.error (), has.2)

end GeneratorT

/-- What comes of `has_next()` and then `next()`. -/
inductive Polled (coroutine : Resumable α)
  | taken (value : α) (generator : GeneratorT coroutine)
  | ended (generator : GeneratorT coroutine)
  | threw (generator : GeneratorT coroutine)

/-- What the round of a loop makes of `next()`. -/
def Polled.ofNext {coroutine : Resumable α} :
    Except Unit α × GeneratorT coroutine → Polled coroutine
  | (.ok value, generator) => .taken value generator
  | (.error _, generator) => .threw generator

namespace GeneratorT

variable {coroutine : Resumable α}

/-- `while (has_next()) { ... next() ...`: the test of a round and the value it takes. -/
def poll (fuel : Nat) (generator : GeneratorT coroutine) : Option (Polled coroutine) :=
  (generator.hasNext fuel).bind fun has =>
    if has.1 then (has.2.next fuel).map Polled.ofNext else some (.ended has.2)

/-- `fold`. An exception out of `next()` goes through. -/
def fold {R : Type*} : Nat → GeneratorT coroutine → (R → α → R) → R →
    Option (Except Unit R × GeneratorT coroutine)
  | 0, _, _, _ => none
  | fuel + 1, generator, f, acc =>
      (generator.poll fuel).bind fun
        | .taken value generator => fold fuel generator f (f acc value)
        | .ended generator => some (.ok acc, generator)
        | .threw generator => some (.error (), generator)

/-- `for_each`, where `f` acts on the world. -/
def forEach {W : Type*} (fuel : Nat) (generator : GeneratorT coroutine) (f : α → W → W)
    (world : W) : Option (Except Unit W × GeneratorT coroutine) :=
  generator.fold fuel (fun world value => f value world) world

/-- `sum`. -/
def sum [Zero α] [Add α] (fuel : Nat) (generator : GeneratorT coroutine) :
    Option (Except Unit α × GeneratorT coroutine) :=
  generator.fold fuel (fun sum value => sum + value) 0

end GeneratorT

/-- `from_list`: the rest of the list. -/
def fromList (list : List α) : Resumable α where
  State := List α
  start := list
  resume _ rest :=
    match rest with
    | value :: rest => some (.yields value rest)
    | [] => some (.returns [])

variable {source : Resumable α}

/-- The loop of `filter`. -/
def filterLoop (f : α → Bool) : Nat → GeneratorT source → Option (Resumed α (GeneratorT source))
  | 0, _ => none
  | fuel + 1, generator =>
      (generator.poll fuel).bind fun
        | .taken value generator =>
            if f value then some (.yields value generator) else filterLoop f fuel generator
        | .ended generator | .threw generator => some (.returns generator)

/-- `filter`: the generator it is called on, which outlives it. -/
def filter (f : α → Bool) (source : Resumable α) : Resumable α where
  State := GeneratorT source
  start := .new source
  resume := filterLoop f

/-- `map`: the generator it is called on, which outlives it. -/
def map (f : α → α) (source : Resumable α) : Resumable α where
  State := GeneratorT source
  start := .new source
  resume fuel generator :=
    (generator.poll fuel).map fun
      | .taken value generator => .yields (f value) generator
      | .ended generator | .threw generator => .returns generator

/-- The generator `flat_map` is called on, which outlives it, and the `generator` being
flattened, with what its function has called combinators on. -/
structure FlatMap (f : α → Resumable α) (source : Resumable α) where
  outer : GeneratorT source
  inner : Option (Σ value, GeneratorT (f value)) := none

/-- The two loops of `flat_map`, the inner one while there is a generator being flattened. -/
def flatMapLoop {f : α → Resumable α} :
    Nat → FlatMap f source → Option (Resumed α (FlatMap f source))
  | 0, _ => none
  | fuel + 1, ⟨outer, none⟩ =>
      (outer.poll fuel).bind fun
        | .taken value outer => flatMapLoop fuel ⟨outer, some ⟨value, .new (f value)⟩⟩
        | .ended outer | .threw outer => some (.returns ⟨outer, none⟩)
  | fuel + 1, ⟨outer, some ⟨value, generator⟩⟩ =>
      (generator.poll fuel).bind fun
        | .taken element generator =>
            some (.yields element ⟨outer, some ⟨value, generator⟩⟩)
        | .ended _ => flatMapLoop fuel ⟨outer, none⟩
        | .threw _ => some (.returns ⟨outer, none⟩)

/-- `flat_map`. The generators that the given function starts outlive the stages on top of
them as well. -/
def flatMap (f : α → Resumable α) (source : Resumable α) : Resumable α where
  State := FlatMap f source
  start := { outer := .new source }
  resume := flatMapLoop

/-- The generator `take` is called on, which outlives it, and `i`. -/
structure Take (source : Resumable α) where
  generator : GeneratorT source
  i : Int := 0

/-- `take`. -/
def take (n : Int) (source : Resumable α) : Resumable α where
  State := Take source
  start := { generator := .new source }
  resume fuel frame :=
    if frame.i < n then
      (frame.generator.poll fuel).map fun
        | .taken value generator => .yields value ⟨generator, frame.i + 1⟩
        | .ended generator | .threw generator => .returns ⟨generator, frame.i + 1⟩
    else some (.returns { frame with i := frame.i + 1 })

/-- `take_while`: the generator it is called on, which outlives it. -/
def takeWhile (f : α → Bool) (source : Resumable α) : Resumable α where
  State := GeneratorT source
  start := .new source
  resume fuel generator :=
    (generator.poll fuel).map fun
      | .taken value generator =>
          if f value then .yields value generator else .returns generator
      | .ended generator | .threw generator => .returns generator

/-- A coroutine with a body of its own that yields finitely many values, such as the
functions given to `flat_map` start. -/
structure FiniteCoroutine (α : Type u) where
  coroutine : Resumable α
  list : List α
  emits : ∃ last, coroutine.Emits coroutine.start list last

/-- A composition of the combinators over `from_list`, or over other coroutines. -/
inductive Pipeline (α : Type u)
  | fromList (list : List α)
  | other (body : FiniteCoroutine α)
  | filter (f : α → Bool) (source : Pipeline α)
  | map (f : α → α) (source : Pipeline α)
  | flatMap (f : α → Pipeline α) (source : Pipeline α)
  | take (n : Int) (source : Pipeline α)
  | takeWhile (f : α → Bool) (source : Pipeline α)

namespace Pipeline

/-- The coroutines that the calls start. -/
def coroutine : Pipeline α → Resumable α
  | .fromList list => Coroutine.fromList list
  | .other body => body.coroutine
  | .filter f source => Coroutine.filter f source.coroutine
  | .map f source => Coroutine.map f source.coroutine
  | .flatMap f source => Coroutine.flatMap (fun value => (f value).coroutine) source.coroutine
  | .take n source => Coroutine.take n source.coroutine
  | .takeWhile f source => Coroutine.takeWhile f source.coroutine

/-- The generator that the last call of the pipeline returns. -/
def generator (pipeline : Pipeline α) : GeneratorT pipeline.coroutine := .new pipeline.coroutine

omit [Inhabited α] in
/-- The list functions in place of the combinators. -/
def list : Pipeline α → List α
  | .fromList list => list
  | .other body => body.list
  | .filter f source => source.list.filter f
  | .map f source => source.list.map f
  | .flatMap f source => source.list.flatMap fun value => (f value).list
  | .take n source => source.list.take n.toNat
  | .takeWhile f source => source.list.takeWhile f

/-- The pipeline of `get_gener_algorithm`. -/
example :
    ((flatMap (fun i => fromList ((List.range i.toNat).map Int.ofNat))
        (map (· * 3) (filter (· % 2 = 0) (fromList [1, 2, 3, 4, 5, 6, 7, 8, 9, 10]))) |>.take
          3).generator.forEach 12 (fun i printed => printed ++ [i]) []).map Prod.fst =
      some (.ok [(0 : Int), 1, 2]) := rfl

end Pipeline

namespace GeneratorT

variable {coroutine : Resumable α} {generator : GeneratorT coroutine} {values : List α}
  {last : coroutine.State} {total : Nat}

/-- **What a generator still hands out** through `next()`, the frame its coroutine ends in, and
how many values it has then yielded. -/
structure Generates (generator : GeneratorT coroutine) (values : List α)
    (last : coroutine.State) (total : Nat) : Prop where
  count : generator.yielded + values.length = total + if generator.isReady then 1 else 0
  ended : generator.done = true →
    values = [] ∧ generator.isReady = false ∧ generator.frame = last
  ready : generator.done = false → generator.isReady = true →
    ∃ rest, values = generator.value :: rest ∧ coroutine.Emits generator.frame rest last
  suspended : generator.done = false → generator.isReady = false →
    coroutine.Emits generator.frame values last

/-- The coroutine has returned, in this frame and after so many values. -/
structure Ended (generator : GeneratorT coroutine) (last : coroutine.State) (total : Nat) :
    Prop where
  done : generator.done = true
  frame : generator.frame = last
  yielded : generator.yielded = total

theorem generates_new (emits : coroutine.Emits coroutine.start values last) :
    Generates (new coroutine) values last values.length where
  count := Nat.add_comm _ _
  ended := fun ends => nomatch ends
  ready := fun _ ready => nomatch ready
  suspended := fun _ _ => emits

/-- `has_next()` finds the next value, and finds it again. -/
theorem hasNext_cons {value : α} (generates : Generates generator (value :: values) last total) :
    ∃ found, Settles (fun fuel => generator.hasNext fuel) (true, found) ∧
      found.done = false ∧ found.isReady = true ∧ found.value = value ∧
      coroutine.Emits found.frame values last ∧ found.yielded + values.length = total := by
  have count := generates.count
  cases done : generator.done with
  | true => cases (generates.ended done).1
  | false =>
      cases ready : generator.isReady with
      | true =>
          obtain ⟨rest, same, emits⟩ := generates.ready done ready
          cases same
          refine ⟨generator, ?_, done, ready, rfl, emits, ?_⟩
          · simpa only [hasNext, done, ready, Bool.false_eq_true, ↓reduceIte] using
              Settles.const (true, generator)
          · simp only [ready, ↓reduceIte, List.length_cons] at count
            omega
      | false =>
          obtain ⟨frame, yields, emits⟩ := generates.suspended done ready
          refine ⟨{ generator with
            frame, value, isReady := true, yielded := generator.yielded + 1 }, ?_, done, rfl, rfl,
            emits, ?_⟩
          · have resumes := (yields.map generator.resumed).map
              fun generator => (!generator.done, generator)
            simpa only [hasNext, resume, done, ready, Bool.false_eq_true, ↓reduceIte, resumed,
              Bool.not_false] using resumes
          · simp only [ready, Bool.false_eq_true, ↓reduceIte, List.length_cons] at count
            simp only
            omega

theorem hasNext_nil (generates : Generates generator [] last total) :
    ∃ found, Settles (fun fuel => generator.hasNext fuel) (false, found) ∧
      found.Ended last total := by
  have count := generates.count
  cases done : generator.done with
  | true =>
      obtain ⟨-, ready, frame⟩ := generates.ended done
      refine ⟨generator, ?_, done, frame, ?_⟩
      · simpa only [hasNext, done, ↓reduceIte] using Settles.const (false, generator)
      · simpa [ready] using count
  | false =>
      cases ready : generator.isReady with
      | true =>
          obtain ⟨rest, same, -⟩ := generates.ready done ready
          cases same
      | false =>
          have returns := (generates.suspended done ready).map generator.resumed
          refine ⟨{ generator with frame := last, done := true }, ?_, rfl, rfl, ?_⟩
          · have ends := returns.map fun generator => (!generator.done, generator)
            simpa only [hasNext, resume, done, ready, Bool.false_eq_true, ↓reduceIte, resumed,
              Bool.not_true] using ends
          · simpa [ready] using count

/-- `next()` takes the value that `has_next()` has found. -/
theorem poll_cons {value : α} (generates : Generates generator (value :: values) last total) :
    ∃ taken, Settles (fun fuel => generator.poll fuel) (.taken value taken) ∧
      Generates taken values last total ∧ taken.isReady = false := by
  obtain ⟨found, finds, going, ready, rfl, emits, count⟩ := hasNext_cons generates
  refine ⟨{ found with isReady := false }, ?_, ?_, rfl⟩
  · refine finds.bind ?_
    have again : Settles (fun fuel => found.hasNext fuel) (true, found) := by
      simpa only [hasNext, going, ready, Bool.false_eq_true, ↓reduceIte] using
        Settles.const (true, found)
    exact (again.map _).map Polled.ofNext
  · constructor
    · simpa using count
    · intro ends
      simp only [going] at ends
      cases ends
    · exact fun _ never => nomatch never
    · exact fun _ _ => emits

theorem poll_nil (generates : Generates generator [] last total) :
    ∃ found, Settles (fun fuel => generator.poll fuel) (.ended found) ∧
      found.Ended last total := by
  obtain ⟨found, finds, ended⟩ := hasNext_nil generates
  exact ⟨found, finds.bind (Settles.const _), ended⟩

/-- **Draining** folds what the generator hands out. -/
theorem fold_settles {R : Type*} (f : R → α → R) (acc : R)
    (generates : Generates generator values last total) :
    ∃ drained, Settles (fun fuel => generator.fold fuel f acc)
        (.ok (values.foldl f acc), drained) ∧ drained.Ended last total := by
  induction values generalizing generator acc with
  | nil =>
      obtain ⟨drained, polls, ended⟩ := poll_nil generates
      refine ⟨drained, .succ ?_, ended⟩
      simp only [fold]
      exact polls.bind (Settles.const _)
  | cons value values ih =>
      obtain ⟨taken, polls, rest, -⟩ := poll_cons generates
      obtain ⟨drained, folds, ended⟩ := ih (f acc value) rest
      refine ⟨drained, .succ ?_, ended⟩
      simp only [fold]
      exact polls.bind folds

end GeneratorT

section Combinators

open GeneratorT

variable {source : Resumable α} {generator : GeneratorT source} {values : List α}
  {last : source.State} {total : Nat}

omit [Inhabited α] in
/-- `from_list` yields the list. -/
theorem fromList_emits (list rest : List α) : (fromList list).Emits rest rest [] := by
  induction rest with
  | nil => exact Settles.const _
  | cons value rest ih => exact ⟨rest, Settles.const _, ih⟩

/-- `filter` yields what passes. -/
theorem filter_emits (f : α → Bool) (generates : Generates generator values last total) :
    ∃ ended, (filter f source).Emits generator (values.filter f) ended ∧
      GeneratorT.Ended ended last total := by
  induction values generalizing generator with
  | nil =>
      obtain ⟨ended, polls, done⟩ := poll_nil generates
      refine ⟨ended, Settles.succ ?_, done⟩
      simp only [filter, filterLoop]
      exact polls.bind (Settles.const _)
  | cons value values ih =>
      obtain ⟨taken, polls, rest, -⟩ := poll_cons generates
      obtain ⟨ended, emits, done⟩ := ih rest
      refine ⟨ended, ?_, done⟩
      cases passes : f value with
      | true =>
          rw [List.filter_cons_of_pos passes]
          refine ⟨taken, Settles.succ ?_, emits⟩
          simp only [filter, filterLoop]
          refine polls.bind ?_
          simp only [passes, ↓reduceIte]
          exact Settles.const _
      | false =>
          rw [List.filter_cons_of_neg (by simp [passes])]
          -- the value is left out, and the loop goes on with the next one
          refine emits.of_resume fun resumed resumes => Settles.succ ?_
          simp only [filter, filterLoop]
          refine polls.bind ?_
          simp only [passes, Bool.false_eq_true, ↓reduceIte]
          exact resumes

/-- `map` yields the images. -/
theorem map_emits (f : α → α) (generates : Generates generator values last total) :
    ∃ ended, (map f source).Emits generator (values.map f) ended ∧
      GeneratorT.Ended ended last total := by
  induction values generalizing generator with
  | nil =>
      obtain ⟨ended, polls, done⟩ := poll_nil generates
      exact ⟨ended, polls.map _, done⟩
  | cons value values ih =>
      obtain ⟨taken, polls, rest, -⟩ := poll_cons generates
      obtain ⟨ended, emits, done⟩ := ih rest
      exact ⟨ended, ⟨taken, polls.map _, emits⟩, done⟩

/-- `take_while` yields what passes up to the first that does not. -/
theorem takeWhile_emits (f : α → Bool) (generates : Generates generator values last total) :
    ∃ ended, (takeWhile f source).Emits generator (values.takeWhile f) ended := by
  induction values generalizing generator with
  | nil =>
      obtain ⟨ended, polls, -⟩ := poll_nil generates
      exact ⟨ended, polls.map _⟩
  | cons value values ih =>
      obtain ⟨taken, polls, rest, -⟩ := poll_cons generates
      have resumes : Settles (fun fuel => (takeWhile f source).resume fuel generator)
          (if f value then .yields value taken else .returns taken) := polls.map _
      cases passes : f value with
      | true =>
          obtain ⟨ended, emits⟩ := ih rest
          rw [List.takeWhile_cons_of_pos passes]
          refine ⟨ended, taken, ?_, emits⟩
          simpa only [passes, ↓reduceIte] using resumes
      | false =>
          rw [List.takeWhile_cons_of_neg (by simp [passes])]
          simp only [passes, Bool.false_eq_true, ↓reduceIte] at resumes
          exact ⟨taken, resumes⟩

/-- The rest of the `generator` being flattened comes first. -/
theorem flatMap_inner {f : α → Resumable α} {outer : GeneratorT source} {value : α}
    {inner : GeneratorT (f value)} {elements : List α} {lastInner : (f value).State}
    {totalInner : Nat} (generates : Generates inner elements lastInner totalInner)
    {ended : FlatMap f source}
    (emits : (flatMap f source).Emits ⟨outer, none⟩ values ended) :
    (flatMap f source).Emits ⟨outer, some ⟨value, inner⟩⟩ (elements ++ values) ended := by
  induction elements generalizing inner with
  | nil =>
      obtain ⟨found, polls, -⟩ := poll_nil generates
      refine emits.of_resume fun resumed resumes => Settles.succ ?_
      simp only [flatMap, flatMapLoop]
      exact polls.bind resumes
  | cons element elements ih =>
      obtain ⟨taken, polls, rest, -⟩ := poll_cons generates
      refine ⟨⟨outer, some ⟨value, taken⟩⟩, Settles.succ ?_, ih rest⟩
      simp only [flatMap, flatMapLoop]
      exact polls.bind (Settles.const _)

/-- `flat_map` yields what the started generators do, one after another. -/
theorem flatMap_emits (f : α → Resumable α) {flattened : α → List α}
    (inner : ∀ value, ∃ last, (f value).Emits (f value).start (flattened value) last)
    (generates : Generates generator values last total) :
    ∃ ended, (flatMap f source).Emits ⟨generator, none⟩ (values.flatMap flattened) ended ∧
      ended.outer.Ended last total := by
  induction values generalizing generator with
  | nil =>
      obtain ⟨found, polls, done⟩ := poll_nil generates
      refine ⟨⟨found, none⟩, Settles.succ ?_, done⟩
      simp only [flatMap, flatMapLoop]
      exact polls.bind (Settles.const _)
  | cons value values ih =>
      obtain ⟨taken, polls, rest, -⟩ := poll_cons generates
      obtain ⟨ended, emits, done⟩ := ih rest
      obtain ⟨lastInner, emitsInner⟩ := inner value
      refine ⟨ended, ?_, done⟩
      rw [List.flatMap_cons]
      have flattens := flatMap_inner (generates_new emitsInner) emits
      refine flattens.of_resume fun resumed resumes => Settles.succ ?_
      simp only [flatMap, flatMapLoop]
      exact polls.bind resumes

/-- A turn of `take` that finds a value. -/
theorem take_taken {n i : Int} (more : i < n) {value : α} {taken : GeneratorT source}
    (polls : Settles (fun fuel => generator.poll fuel) (.taken value taken)) :
    Settles (fun fuel => (take n source).resume fuel ⟨generator, i⟩)
      (.yields value ⟨taken, i + 1⟩) := by
  simp only [take, more, ↓reduceIte]
  exact polls.map _

/-- A turn of `take` that finds none. -/
theorem take_ended {n i : Int} (more : i < n) {ended : GeneratorT source}
    (polls : Settles (fun fuel => generator.poll fuel) (.ended ended)) :
    Settles (fun fuel => (take n source).resume fuel ⟨generator, i⟩)
      (.returns ⟨ended, i + 1⟩) := by
  simp only [take, more, ↓reduceIte]
  exact polls.map _

/-- Once it has taken `n` values, `take` does not ask for another. -/
theorem take_enough {n i : Int} (enough : n ≤ i) (values : List α) :
    ∃ ended, (take n source).Emits ⟨generator, i⟩ (values.take (n - i).toNat) ended ∧
      ended.generator.yielded = generator.yielded + min (n - i).toNat values.length := by
  have none : (n - i).toNat = 0 := Int.toNat_of_nonpos (Int.sub_nonpos_of_le enough)
  have returns : Settles (fun fuel => (take n source).resume fuel ⟨generator, i⟩)
      (.returns ⟨generator, i + 1⟩) := by
    simp only [take, Int.not_lt.mpr enough, ↓reduceIte]
    exact Settles.const _
  rw [none, List.take_zero, Nat.zero_min]
  exact ⟨⟨generator, i + 1⟩, returns, rfl⟩

/-- **`take`** has its source yield what it hands on, and no more. -/
theorem take_emits (n i : Int) (generates : Generates generator values last total)
    (suspended : generator.isReady = false) :
    ∃ ended, (take n source).Emits ⟨generator, i⟩ (values.take (n - i).toNat) ended ∧
      ended.generator.yielded = generator.yielded + min (n - i).toNat values.length := by
  induction values generalizing generator i with
  | nil =>
      rcases Int.lt_or_le i n with more | enough
      · have count := generates.count
        simp only [suspended, Bool.false_eq_true, ↓reduceIte, Nat.add_zero] at count
        obtain ⟨ended, polls, done⟩ := poll_nil generates
        rw [List.take_nil]
        refine ⟨⟨ended, i + 1⟩, take_ended more polls, ?_⟩
        simpa using done.yielded.trans count.symm
      · exact take_enough enough []
  | cons value values ih =>
      rcases Int.lt_or_le i n with more | enough
      · have count := generates.count
        obtain ⟨taken, polls, rest, suspendedToo⟩ := poll_cons generates
        have countRest := rest.count
        simp only [suspended, suspendedToo, Bool.false_eq_true, ↓reduceIte, List.length_cons]
          at count countRest
        obtain ⟨ended, emits, yielded⟩ := ih (i + 1) rest suspendedToo
        have oneLess : (n - i).toNat = (n - (i + 1)).toNat + 1 := by omega
        rw [oneLess, List.take_succ_cons, List.length_cons]
        refine ⟨ended, ⟨⟨taken, i + 1⟩, take_taken more polls, emits⟩, ?_⟩
        rw [yielded]
        omega
      · exact take_enough enough (value :: values)

end Combinators

namespace Pipeline

/-- **Each stage** of a pipeline hands out what the list function gives. -/
theorem emits (pipeline : Pipeline α) : ∃ last,
    pipeline.coroutine.Emits pipeline.coroutine.start pipeline.list last := by
  induction pipeline with
  | fromList list => exact ⟨[], fromList_emits list list⟩
  | other body => exact body.emits
  | filter f source ih =>
      obtain ⟨last, emits⟩ := ih
      obtain ⟨ended, filtered, -⟩ := filter_emits f (GeneratorT.generates_new emits)
      exact ⟨ended, filtered⟩
  | map f source ih =>
      obtain ⟨last, emits⟩ := ih
      obtain ⟨ended, mapped, -⟩ := map_emits f (GeneratorT.generates_new emits)
      exact ⟨ended, mapped⟩
  | flatMap f source inner ih =>
      obtain ⟨last, emits⟩ := ih
      obtain ⟨ended, flattened, -⟩ := flatMap_emits _ inner (GeneratorT.generates_new emits)
      exact ⟨ended, flattened⟩
  | take n source ih =>
      obtain ⟨last, emits⟩ := ih
      obtain ⟨ended, taken, -⟩ := take_emits n 0 (GeneratorT.generates_new emits) rfl
      rw [Int.sub_zero] at taken
      exact ⟨ended, taken⟩
  | takeWhile f source ih =>
      obtain ⟨last, emits⟩ := ih
      exact takeWhile_emits f (GeneratorT.generates_new emits)

/-- `take` hands out its values with as many yielded by its source. -/
theorem take_demands (n : Int) (source : Pipeline α) : ∃ ended : Coroutine.Take source.coroutine,
    (take n source).coroutine.Emits (take n source).coroutine.start (take n source).list ended ∧
      ended.generator.yielded = (min (max n 0) source.list.length).toNat := by
  obtain ⟨last, emits⟩ := source.emits
  obtain ⟨ended, taken, yielded⟩ := take_emits n 0 (GeneratorT.generates_new emits) rfl
  rw [Int.sub_zero] at taken yielded
  refine ⟨ended, taken, yielded.trans ?_⟩
  simp only [GeneratorT.new]
  omega

/-- **Pipelines are list pipelines.** The loops that drain a pipeline see the values that the
list functions give, and a `take` that is drained has had its source yield `min(max(n, 0),
length)` values. -/
theorem equals_list [AddMonoid α] (pipeline : Pipeline α) :
    (∀ (R : Type v) (f : R → α → R) (initial : R), ∃ drained,
        Settles (fun fuel => pipeline.generator.fold fuel f initial)
          (.ok (pipeline.list.foldl f initial), drained)) ∧
      (∀ (W : Type v) (f : α → W → W) (world : W), ∃ drained,
        Settles (fun fuel => pipeline.generator.forEach fuel f world)
          (.ok (pipeline.list.foldl (fun world value => f value world) world), drained)) ∧
      (∃ drained, Settles (fun fuel => pipeline.generator.sum fuel)
        (.ok pipeline.list.sum, drained)) ∧
      ∀ n : Int, ∃ ended : Coroutine.Take pipeline.coroutine,
        ended.generator.yielded = (min (max n 0) pipeline.list.length).toNat ∧
          (take n pipeline).coroutine.Emits (take n pipeline).coroutine.start
            (take n pipeline).list ended ∧
          ∀ (R : Type v) (f : R → α → R) (initial : R), ∃ drained,
            Settles (fun fuel => (take n pipeline).generator.fold fuel f initial)
              (.ok ((take n pipeline).list.foldl f initial), drained) ∧ drained.frame = ended := by
  obtain ⟨last, emits⟩ := pipeline.emits
  have generates := GeneratorT.generates_new emits
  refine ⟨fun R f initial => ?_, fun W f world => ?_, ?_, fun n => ?_⟩
  · obtain ⟨drained, folds, -⟩ := GeneratorT.fold_settles f initial generates
    exact ⟨drained, folds⟩
  · obtain ⟨drained, folds, -⟩ := GeneratorT.fold_settles
      (fun world value => f value world) world generates
    exact ⟨drained, folds⟩
  · obtain ⟨drained, folds, -⟩ := GeneratorT.fold_settles
      (fun sum value => sum + value) 0 generates
    rw [← List.sum_eq_foldl] at folds
    exact ⟨drained, folds⟩
  · obtain ⟨ended, taken, yielded⟩ := take_demands n pipeline
    refine ⟨ended, yielded, taken, fun R f initial => ?_⟩
    obtain ⟨drained, folds, ends⟩ := GeneratorT.fold_settles f initial
      (GeneratorT.generates_new taken)
    exact ⟨drained, folds, ends.frame⟩

end Pipeline

end FastDb.Coroutine
