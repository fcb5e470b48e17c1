import Mathlib.Data.List.Basic
import FastDb.Foundation.Machine

/-! # Task callbacks

`TaskPromise` of `test/std_coroutine.cpp` and the callbacks that `then`, `catching` and
`finally` register. A registration and the completion of the task each hold the completion
lock. `notify_callbacks` stops at a callback that lets an exception out, and an exception out
of `return_value` is the task's own: the coroutine catches it and completes once more with
`unhandled_exception`. Callbacks are delivered exactly once as long as neither happens, and
`catching` is told what it can catch (`FastDb.Coroutine.TaskPromise.delivered_step_iff`).
-/

namespace FastDb.Coroutine

open Foundation

/-- An exception, by whether it is a `std::exception`. -/
inductive Thrown (S O : Type)
  | std (e : S)
  | other (e : O)
deriving DecidableEq

/-- `Result`, by what `get_or_throw` does. -/
abbrev Result (V S O : Type) := Except (Thrown S O) V

/-- A callback, with the function given to it: what the function throws, if anything. -/
inductive Callback (V S O : Type)
  | onThen (func : V → Option (Thrown S O))
  | onCatching (func : S → Option (Thrown S O))
  | onFinally (func : Option (Thrown S O))

variable {V S O : Type}

/-- `catch (std::exception &e)` without a use of `e`. -/
def Thrown.uncaught : Thrown S O → Option (Thrown S O)
  | .std _ => none
  | .other e => some (.other e)

namespace Callback

/-- A call of the callback: whether its function runs, and what comes out of it. -/
def call : Callback V S O → Result V S O → Bool × Option (Thrown S O)
  | .onThen func, .ok value => (true, (func value).bind Thrown.uncaught)
  | .onThen _, .error thrown => (false, thrown.uncaught)
  | .onCatching _, .ok _ => (false, none)
  | .onCatching func, .error (.std e) => (true, func e)
  | .onCatching _, .error (.other e) => (false, some (.other e))
  | .onFinally func, _ => (true, func)

/-- Whether the function is to run. -/
def expected : Callback V S O → Result V S O → Bool
  | .onThen _, .ok _ | .onCatching _, .error _ | .onFinally _, _ => true
  | .onThen _, .error _ | .onCatching _, .ok _ => false

end Callback

/-- What a call of a callback was given, and whether its function ran. -/
structure Invocation (V S O : Type) where
  callback : Callback V S O
  result : Result V S O
  ran : Bool

/-- `TaskPromise`, with its history: what the task did, the callbacks registered, and the
calls made. -/
structure TaskPromise (V S O : Type) where
  result : Option (Result V S O) := none
  completionCallbacks : List (Callback V S O) := []
  completion : Option (Result V S O) := none
  registered : List (Callback V S O) := []
  log : List (Invocation V S O) := []

/-- What a call of the callback shows. -/
def Callback.invocation (callback : Callback V S O) (result : Result V S O) :
    Invocation V S O where
  callback
  result
  ran := (callback.call result).1

namespace TaskPromise

/-- The loop of `notify_callbacks`: the calls made, and the exception that ends it. -/
def notify (value : Result V S O) :
    List (Callback V S O) → List (Invocation V S O) × Option (Thrown S O)
  | [] => ([], none)
  | callback :: callbacks =>
      match (callback.call value).2 with
      | some thrown => ([callback.invocation value], some thrown)
      | none =>
          let rest := notify value callbacks
          (callback.invocation value :: rest.1, rest.2)

/-- The result is set and the callbacks are called; the list is cleared after the last of
them. -/
def complete (promise : TaskPromise V S O) (result : Result V S O) :
    TaskPromise V S O × Option (Thrown S O) :=
  let notified := notify result promise.completionCallbacks
  ({ promise with
      result := some result
      completionCallbacks := if notified.2.isSome then promise.completionCallbacks else []
      log := promise.log ++ notified.1 }, notified.2)

/-- `unhandled_exception`. -/
def unhandledException (promise : TaskPromise V S O) (thrown : Thrown S O) :
    TaskPromise V S O × Option (Thrown S O) := promise.complete (.error thrown)

/-- `return_value`. -/
def returnValue (promise : TaskPromise V S O) (value : V) :
    TaskPromise V S O × Option (Thrown S O) := promise.complete (.ok value)

/-- `co_return`: an exception out of `return_value` is caught in the coroutine. -/
def coReturn (promise : TaskPromise V S O) (value : V) : TaskPromise V S O :=
  match promise.returnValue value with
  | (promise, none) => promise
  | (promise, some thrown) => (promise.unhandledException thrown).1

/-- `on_completed`: the callback is called at once if there is a result. -/
def onCompleted (promise : TaskPromise V S O) (func : Callback V S O) : TaskPromise V S O :=
  match promise.result with
  | some value =>
      { promise with
        registered := promise.registered ++ [func]
        log := promise.log ++ [func.invocation value] }
  | none =>
      { promise with
        registered := promise.registered ++ [func]
        completionCallbacks := promise.completionCallbacks ++ [func] }

/-- A registration, or the end of the coroutine's body. -/
inductive Event (V S O : Type)
  | onCompleted (func : Callback V S O)
  | returns (value : V)
  | throws (thrown : Thrown S O)

/-- The body ends once. -/
def machine : Machine (TaskPromise V S O) (Event V S O) where
  step promise
    | .onCompleted func => some (promise.onCompleted func)
    | .returns value =>
        if promise.completion.isSome then none
        else some { promise.coReturn value with completion := some (.ok value) }
    | .throws thrown =>
        if promise.completion.isSome then none
        else
          some { (promise.unhandledException thrown).1 with completion := some (.error thrown) }

/-- **Exactly once.** Nothing is called before the task is completed, whose result is what the
task did; afterwards the callbacks called are those registered, each with that result, and
their functions have run when they were to. -/
structure Delivered (promise : TaskPromise V S O) : Prop where
  early : promise.completion = none → promise.log = []
  settled : promise.result = promise.completion
  once : promise.completion ≠ none →
    promise.log.map Invocation.callback = promise.registered
  final : ∀ invocation ∈ promise.log, promise.completion = some invocation.result
  ran : ∀ invocation ∈ promise.log,
    invocation.ran = invocation.callback.expected invocation.result

end TaskPromise

/-- The exception is a `std::exception`. -/
def Thrown.isStd : Thrown S O → Bool
  | .std _ => true
  | .other _ => false

namespace Callback

/-- `catching` cannot be told of an exception that is no `std::exception`. -/
def misses : Callback V S O → Result V S O → Bool
  | .onCatching _, .error (.other _) => true
  | _, _ => false

/-- The function of `then` throws no other exception than a `std::exception`, that of
`catching` or `finally` none at all, and what `then` and `catching` are told of an exception is
a `std::exception`. -/
def contained : Callback V S O → Result V S O → Bool
  | .onThen func, .ok value => (func value).all Thrown.isStd
  | .onThen _, .error thrown => thrown.isStd
  | .onCatching _, .ok _ => true
  | .onCatching func, .error (.std e) => (func e).isNone
  | .onCatching _, .error (.other _) => false
  | .onFinally func, _ => func.isNone

end Callback

namespace TaskPromise

/-- A `catching` comes only after a `std::exception`, if after any; when the task returns, no
callback that waits lets an exception out; when it throws, none but the last, and none is a
`catching` that misses the exception. -/
def Permits (promise : TaskPromise V S O) : Event V S O → Prop
  | .onCompleted func => ∀ value ∈ promise.result, func.misses value = false
  | .returns value =>
      ∀ callback ∈ promise.completionCallbacks, callback.contained (.ok value) = true
  | .throws thrown =>
      (∀ callback ∈ promise.completionCallbacks.dropLast,
        callback.contained (.error thrown) = true) ∧
      ∀ callback ∈ promise.completionCallbacks, callback.misses (.error thrown) = false

instance (promise : TaskPromise V S O) : ∀ event, Decidable (promise.Permits event)
  | .onCompleted func =>
      inferInstanceAs (Decidable (∀ value ∈ promise.result, func.misses value = false))
  | .returns value =>
      inferInstanceAs (Decidable
        (∀ callback ∈ promise.completionCallbacks, callback.contained (.ok value) = true))
  | .throws thrown =>
      inferInstanceAs (Decidable
        ((∀ callback ∈ promise.completionCallbacks.dropLast,
          callback.contained (.error thrown) = true) ∧
        ∀ callback ∈ promise.completionCallbacks, callback.misses (.error thrown) = false))

end TaskPromise

section Calls

variable {callback : Callback V S O} {value : Result V S O}

/-- What is caught is a `std::exception`. -/
theorem Thrown.uncaught_eq_none_iff {thrown : Thrown S O} :
    thrown.uncaught = none ↔ thrown.isStd = true := by
  cases thrown with
  | std e => exact iff_of_true rfl rfl
  | other e => exact iff_of_false (fun same => nomatch same) (fun same => nomatch same)

/-- A callback lets no exception out exactly when it is contained. -/
theorem Callback.call_snd_eq_none_iff :
    (callback.call value).2 = none ↔ callback.contained value = true := by
  cases callback with
  | onThen func =>
      cases value with
      | ok value =>
          rw [call, contained]
          cases func value with
          | none => exact iff_of_true rfl rfl
          | some thrown => exact Thrown.uncaught_eq_none_iff
      | error thrown => exact Thrown.uncaught_eq_none_iff
  | onCatching func =>
      cases value with
      | ok value => exact iff_of_true rfl rfl
      | error thrown =>
          cases thrown with
          | std e => exact Option.isNone_iff_eq_none.symm
          | other e => exact iff_of_false (fun same => nomatch same) (fun same => nomatch same)
  | onFinally func => exact Option.isNone_iff_eq_none.symm

/-- The function runs when it is to unless it is a `catching` that misses the exception. -/
theorem Callback.call_fst_eq_expected_iff :
    (callback.call value).1 = callback.expected value ↔ callback.misses value = false := by
  rcases callback with func | func | func <;> rcases value with (e | e) | value <;>
    simp [call, expected, misses]

end Calls

namespace TaskPromise

section Notify

variable {callbacks : List (Callback V S O)} {value : Result V S O}

/-- The callbacks that are called come first. -/
theorem notify_calls (value : Result V S O) (callbacks : List (Callback V S O)) :
    ∃ called rest, callbacks = called ++ rest ∧
      (notify value callbacks).1 = called.map (Callback.invocation · value) := by
  induction callbacks with
  | nil => exact ⟨[], [], rfl, rfl⟩
  | cons callback callbacks ih =>
      rw [notify]
      split
      · exact ⟨[callback], callbacks, rfl, rfl⟩
      · obtain ⟨called, rest, split, calls⟩ := ih
        refine ⟨callback :: called, rest, by rw [split, List.cons_append], ?_⟩
        rw [List.map_cons, ← calls]

/-- The loop runs to its end exactly when every callback is contained. -/
theorem notify_snd_eq_none_iff :
    (notify value callbacks).2 = none ↔
      ∀ callback ∈ callbacks, callback.contained value = true := by
  induction callbacks with
  | nil => exact iff_of_true rfl fun _ member => absurd member List.not_mem_nil
  | cons callback callbacks ih =>
      rw [List.forall_mem_cons, ← Callback.call_snd_eq_none_iff, ← ih, notify]
      split
      · next thrown escapes => exact iff_of_false (fun same => nomatch same) (by simp [escapes])
      · next escapes => simp [escapes]

/-- All callbacks are called exactly when every one but the last is contained. -/
theorem notify_fst_eq_map_iff :
    (notify value callbacks).1 = callbacks.map (Callback.invocation · value) ↔
      ∀ callback ∈ callbacks.dropLast, callback.contained value = true := by
  induction callbacks with
  | nil => exact iff_of_true rfl fun _ member => absurd member List.not_mem_nil
  | cons callback callbacks ih =>
      rw [notify, List.map_cons]
      by_cases last : callbacks = []
      · subst last
        refine iff_of_true ?_ fun _ member => absurd member List.not_mem_nil
        split <;> rfl
      · rw [List.dropLast_cons_of_ne_nil last, List.forall_mem_cons,
          ← Callback.call_snd_eq_none_iff, ← ih]
        split
        · next thrown escapes =>
            refine iff_of_false ?_ (by simp [escapes])
            intro same
            exact last (List.map_eq_nil_iff.mp (List.cons_eq_cons.mp same).2.symm)
        · next escapes => simp [escapes]

end Notify

section Steps

variable {promise after : TaskPromise V S O}

/-- Until the task is completed all callbacks registered wait. -/
structure Waiting (promise : TaskPromise V S O) : Prop where
  result : promise.completion = none → promise.result = none
  queued : promise.completion = none → promise.completionCallbacks = promise.registered

/-- **Every step** keeps the invariant. -/
theorem Waiting.step (waiting : Waiting promise) {event : Event V S O}
    (stepped : machine.step promise event = some after) : Waiting after := by
  cases event with
  | onCompleted func =>
      cases stepped
      rw [onCompleted]
      split
      · next value found =>
          refine ⟨fun pending => ?_, fun pending => ?_⟩
          · rw [waiting.result pending] at found
            cases found
          · rw [waiting.result pending] at found
            cases found
      · next absent =>
          refine ⟨fun _ => absent, fun pending => ?_⟩
          rw [← waiting.queued pending]
  | returns value =>
      simp only [machine] at stepped
      split at stepped
      · cases stepped
      · cases stepped
        exact ⟨fun pending => (nomatch pending), fun pending => (nomatch pending)⟩
  | throws thrown =>
      simp only [machine] at stepped
      split at stepped
      · cases stepped
      · cases stepped
        exact ⟨fun pending => (nomatch pending), fun pending => (nomatch pending)⟩

/-- A promise whose callbacks have all been called with the result. -/
private theorem delivered_of_log (result : promise.result = promise.completion)
    {value : Result V S O} (completed : promise.completion = some value)
    (calls : promise.log = promise.registered.map (Callback.invocation · value))
    (misses : ∀ callback ∈ promise.registered, callback.misses value = false) :
    Delivered promise := by
  refine ⟨?_, result, ?_, ?_, ?_⟩
  · intro pending
    rw [completed] at pending
    cases pending
  · intro _
    rw [calls, List.map_map]
    exact List.map_id _
  · intro invocation member
    rw [calls] at member
    obtain ⟨callback, -, rfl⟩ := List.mem_map.mp member
    exact completed
  · intro invocation member
    rw [calls] at member
    obtain ⟨callback, isRegistered, rfl⟩ := List.mem_map.mp member
    exact Callback.call_fst_eq_expected_iff.mpr (misses callback isRegistered)

/-- **A registration** keeps delivery exactly when it is permitted. -/
theorem Delivered.onCompleted_iff (delivered : Delivered promise) (func : Callback V S O) :
    Delivered (promise.onCompleted func) ↔
      ∀ value ∈ promise.result, func.misses value = false := by
  have settled := delivered.settled
  rw [onCompleted]
  split
  · next value found =>
      rw [settled] at found
      constructor
      · intro after other same
        rw [settled, found] at same
        cases same
        have ran := after.ran (func.invocation value)
          (List.mem_append_right _ (List.mem_singleton.mpr rfl))
        exact Callback.call_fst_eq_expected_iff.mp ran
      · intro catches
        have misses := catches value (settled.trans found)
        refine ⟨?_, settled, ?_, ?_, ?_⟩
        · intro pending
          rw [found] at pending
          cases pending
        · intro completed
          rw [List.map_append, delivered.once completed]
          rfl
        · intro invocation member
          rcases List.mem_append.mp member with earlier | last
          · exact delivered.final invocation earlier
          · obtain rfl := List.mem_singleton.mp last
            exact found
        · intro invocation member
          rcases List.mem_append.mp member with earlier | last
          · exact delivered.ran invocation earlier
          · obtain rfl := List.mem_singleton.mp last
            exact Callback.call_fst_eq_expected_iff.mpr misses
  · next absent =>
      refine iff_of_true ⟨delivered.early, settled, ?_, delivered.final, delivered.ran⟩ ?_
      · intro completed
        exact absurd (settled.symm.trans absent) completed
      · intro value found
        rw [absent] at found
        cases found

/-- **An exception of the task** keeps delivery exactly when it is permitted. -/
theorem Delivered.unhandledException_iff (delivered : Delivered promise)
    (waiting : Waiting promise) (pending : promise.completion = none) (thrown : Thrown S O) :
    Delivered { (promise.unhandledException thrown).1 with completion := some (.error thrown) } ↔
      promise.Permits (.throws thrown) := by
  have queued := waiting.queued pending
  have empty := delivered.early pending
  have log : (promise.unhandledException thrown).1.log =
      (notify (.error thrown) promise.completionCallbacks).1 := by
    rw [unhandledException, complete, empty]
    rfl
  obtain ⟨called, rest, split, calls⟩ := notify_calls (.error thrown) promise.completionCallbacks
  constructor
  · intro after
    have once := after.once (Option.some_ne_none _)
    dsimp only at once
    rw [log, calls, List.map_map] at once
    have all : called = promise.completionCallbacks := by
      rw [queued]
      exact (List.map_id called).symm.trans once
    rw [all] at calls
    refine ⟨notify_fst_eq_map_iff.mp calls, fun callback member => ?_⟩
    have ran := after.ran (callback.invocation (.error thrown)) (by
      dsimp only
      rw [log, calls]
      exact List.mem_map_of_mem member)
    exact Callback.call_fst_eq_expected_iff.mp ran
  · rintro ⟨contained, misses⟩
    refine delivered_of_log rfl rfl ?_ ?_
    · dsimp only
      rw [log, notify_fst_eq_map_iff.mpr contained, queued]
      rfl
    · intro callback member
      exact misses callback (queued ▸ member)

/-- Where all callbacks are contained, `return_value` is all there is. -/
theorem coReturn_of_none {value : V}
    (contained : (notify (.ok value) promise.completionCallbacks).2 = none) :
    promise.coReturn value = (promise.returnValue value).1 := by
  rw [coReturn]
  split
  · next other same => rw [same]
  · next other thrown same =>
      have some : (promise.returnValue value).2 = some thrown := congrArg Prod.snd same
      rw [returnValue, complete, contained] at some
      cases some

/-- Else the result is the exception that came out, not the value. -/
theorem coReturn_result_of_some {value : V} {thrown : Thrown S O}
    (escapes : (notify (.ok value) promise.completionCallbacks).2 = some thrown) :
    (promise.coReturn value).result = some (.error thrown) := by
  rw [coReturn]
  split
  · next other same =>
      have none : (promise.returnValue value).2 = none := congrArg Prod.snd same
      rw [returnValue, complete, escapes] at none
      cases none
  · next other otherThrown same =>
      have some : (promise.returnValue value).2 = some otherThrown := congrArg Prod.snd same
      rw [returnValue, complete, escapes] at some
      cases some
      rfl

/-- **A value of the task** keeps delivery exactly when it is permitted. -/
theorem Delivered.coReturn_iff (delivered : Delivered promise) (waiting : Waiting promise)
    (pending : promise.completion = none) (value : V) :
    Delivered { promise.coReturn value with completion := some (.ok value) } ↔
      promise.Permits (.returns value) := by
  have queued := waiting.queued pending
  have empty := delivered.early pending
  rw [Permits, ← notify_snd_eq_none_iff]
  cases escapes : (notify (.ok value) promise.completionCallbacks).2 with
  | some thrown =>
      refine iff_of_false (fun after => ?_) (fun same => nomatch same)
      have settled := after.settled
      dsimp only at settled
      rw [coReturn_result_of_some escapes] at settled
      cases settled
  | none =>
      refine iff_of_true ?_ rfl
      have contained := notify_snd_eq_none_iff.mp escapes
      rw [coReturn_of_none escapes]
      apply delivered_of_log rfl rfl
      · dsimp only [returnValue, complete]
        rw [empty, List.nil_append, queued]
        apply notify_fst_eq_map_iff.mpr
        intro callback member
        exact contained callback (queued ▸ List.dropLast_subset _ member)
      · intro callback _
        cases callback <;> rfl

/-- **One step** keeps delivery exactly when it is permitted. -/
theorem Delivered.step_iff (delivered : Delivered promise) (waiting : Waiting promise)
    {event : Event V S O} (stepped : machine.step promise event = some after) :
    Delivered after ↔ promise.Permits event := by
  cases event with
  | onCompleted func =>
      cases stepped
      exact delivered.onCompleted_iff func
  | returns value =>
      simp only [machine] at stepped
      split at stepped
      · cases stepped
      · next pending =>
          cases stepped
          exact delivered.coReturn_iff waiting (Option.not_isSome_iff_eq_none.mp pending) value
  | throws thrown =>
      simp only [machine] at stepped
      split at stepped
      · cases stepped
      · next pending =>
          cases stepped
          exact delivered.unhandledException_iff waiting
            (Option.not_isSome_iff_eq_none.mp pending) thrown

end Steps

section Runs

variable {promise : TaskPromise V S O}

/-- A task that has just been called. -/
def initial : TaskPromise V S O := {}

theorem delivered_initial : Delivered (initial : TaskPromise V S O) where
  early _ := rfl
  settled := rfl
  once completed := absurd rfl completed
  final _ member := absurd member List.not_mem_nil
  ran _ member := absurd member List.not_mem_nil

theorem waiting_of_reaches {allowed : TaskPromise V S O → Event V S O → Prop}
    (run : machine.Reaches allowed initial promise) : Waiting promise :=
  run.invariant Waiting ⟨fun _ => rfl, fun _ => rfl⟩ fun _ _ _ waiting _ stepped =>
    waiting.step stepped

/-- **Callbacks are delivered exactly once** in every state of a run whose steps are all
permitted, and the first step that is not permitted leads to a state in which they are not. -/
theorem delivered_step_iff (run : machine.Reaches Permits initial promise) :
    Delivered promise ∧
      ∀ event after, machine.step promise event = some after →
        (Delivered after ↔ promise.Permits event) := by
  have delivered : Delivered promise := by
    refine run.invariant_given Waiting (fun _ => waiting_of_reaches) Delivered
      delivered_initial ?_
    intro before event after waiting delivered permitted stepped
    exact (delivered.step_iff waiting stepped).mpr permitted
  refine ⟨delivered, fun event after stepped => ?_⟩
  exact delivered.step_iff (waiting_of_reaches run) stepped

/-- A value is delivered to a `then` and a `finally` that wait for it, and not to a late
`catching`. -/
theorem delivered_step_iff_value :
    ∃ promise : TaskPromise Int Unit Unit,
      machine.Reaches Permits initial promise ∧ Delivered promise ∧
        promise.log.map Invocation.ran = [true, true, false] := by
  have ran : (machine.execute Permits
      [.onCompleted (.onThen fun _ => some (.std ())), .onCompleted (.onFinally none),
        .returns 3, .onCompleted (.onCatching fun _ => none)]
      (initial : TaskPromise Int Unit Unit)).map
        (fun promise => decide (promise.log.map Invocation.ran = [true, true, false])) =
          some true := by
    decide
  obtain ⟨promise, executed, checked⟩ := Option.map_eq_some_iff.mp ran
  have run := Machine.reaches_of_execute executed
  exact ⟨promise, run, (delivered_step_iff run).1, of_decide_eq_true checked⟩

/-- An exception that is no `std::exception` goes through the `then` in front, and the
`finally` behind it is not called; an exception out of a `finally` has both called twice,
first with the value and then with the exception. -/
theorem delivered_escapes :
    (∃ promise : TaskPromise Int Unit Unit,
      machine.Reaches Machine.anyStep initial promise ∧ promise.registered.length = 2 ∧
        promise.log.map Invocation.ran = [false] ∧ ¬ Delivered promise) ∧
    (∃ promise : TaskPromise Int Unit Unit,
      machine.Reaches Machine.anyStep initial promise ∧ promise.registered.length = 2 ∧
        promise.log.map Invocation.ran = [true, true, false, true] ∧ ¬ Delivered promise) := by
  have breaks {promise : TaskPromise Int Unit Unit} (completed : promise.completion.isSome)
      (different : promise.log.length ≠ promise.registered.length) : ¬ Delivered promise := by
    intro delivered
    have once := delivered.once (Option.isSome_iff_ne_none.mp completed)
    apply different
    rw [← once, List.length_map]
  refine ⟨?_, ?_⟩
  · have ran : (machine.execute Machine.anyStep
        [.onCompleted (.onThen fun _ => none), .onCompleted (.onFinally none),
          .throws (.other ())] (initial : TaskPromise Int Unit Unit)).map
        (fun promise => decide (promise.completion.isSome ∧ promise.registered.length = 2 ∧
          promise.log.map Invocation.ran = [false])) = some true := by
      decide
    obtain ⟨promise, executed, checked⟩ := Option.map_eq_some_iff.mp ran
    obtain ⟨completed, two, calls⟩ := of_decide_eq_true checked
    have one := congrArg List.length calls
    rw [List.length_map] at one
    refine ⟨promise, Machine.reaches_of_execute executed, two, calls, breaks completed ?_⟩
    rw [one, two]
    decide
  · have ran : (machine.execute Machine.anyStep
        [.onCompleted (.onThen fun _ => none), .onCompleted (.onFinally (some (.std ()))),
          .returns 3] (initial : TaskPromise Int Unit Unit)).map
        (fun promise => decide (promise.completion.isSome ∧ promise.registered.length = 2 ∧
          promise.log.map Invocation.ran = [true, true, false, true])) = some true := by
      decide
    obtain ⟨promise, executed, checked⟩ := Option.map_eq_some_iff.mp ran
    obtain ⟨completed, two, calls⟩ := of_decide_eq_true checked
    have four := congrArg List.length calls
    rw [List.length_map] at four
    refine ⟨promise, Machine.reaches_of_execute executed, two, calls, breaks completed ?_⟩
    rw [four, two]
    decide

end Runs

end TaskPromise

end FastDb.Coroutine
