import Mathlib.Logic.Function.Basic
import FastDb.Foundation.Threads

/-! # Awaiting tasks

`co_await` of a task in `test/std_coroutine.cpp`: the coroutines with their promises, the
executors that resume them, and the callbacks by which the end of a task has the coroutine
resumed that awaits it. A coroutine that runs goes on in atomic steps: it calls another one and
dispatches it, it registers the callback under the completion lock of the task, or it completes
and calls the callbacks under its own. The executors, to which `execute` gives in one step, run
meanwhile what they have been given. Only after the callbacks a coroutine comes to
`final_suspend`, and the one that awaits it may have destroyed it before. `Scheduler` can run one
sleeper's function and pop another's, and `~Task` can join a looper that sleeps through its
shutdown. In every interleaving without the first two of these a task does what its body does as
a plain function, and no handle is resumed twice or dangles
(`FastDb.Coroutine.Awaiting.direct_style`).
-/

namespace FastDb.Coroutine.Awaiting

open Foundation

/-- The executors that run later what they are given. -/
inductive Executor
  | looperExecutor
  | sharedLooperExecutor
  | newThreadExecutor
  deriving DecidableEq

/-- The body of a coroutine, by what it does next. -/
inductive Body (V E : Type)
  | coReturn (value : V)
  | throws (thrown : E)
  /-- `co_await` of a call of another coroutine. -/
  | coAwait (executor : Executor) (task : Body V E) (rest : V → Body V E)
  /-- `co_await` of a duration. -/
  | sleep (rest : Body V E)

/-- What comes of a body. -/
inductive Outcome (V E : Type)
  | returned (value : V)
  | threw (thrown : E)
  /-- `std::terminate` was called. -/
  | terminated
  deriving DecidableEq

variable {V E : Type}

/-- What follows on what is awaited; `await_resume` is `noexcept`. -/
def Outcome.bind (outcome : Outcome V E) (rest : V → Outcome V E) : Outcome V E :=
  match outcome with
  | .returned value => rest value
  | .threw _ | .terminated => .terminated

/-- What comes of a result. -/
def Outcome.ofResult : Except E V → Outcome V E
  | .ok value => .returned value
  | .error thrown => .threw thrown

/-- **Direct style:** the outcome of the body as a plain function, whose calls return at the
`co_await`. -/
def Body.outcome : Body V E → Outcome V E
  | .coReturn value => .returned value
  | .throws thrown => .threw thrown
  | .coAwait _ task rest => task.outcome.bind fun value => (rest value).outcome
  | .sleep rest => rest.outcome

/-- `TaskAwaiter`: the handle of the task, and the call that made it. -/
structure TaskAwaiter (V E : Type) where
  task : Nat
  called : Body V E

/-- Where a coroutine is. -/
inductive Stage (V E : Type)
  /-- In `initial_suspend` or in a `SleepAwaiter`. -/
  | suspended (body : Body V E)
  | running (body : Body V E)
  /-- In `TaskAwaiter::await_suspend`. -/
  | suspending (awaiter : TaskAwaiter V E) (rest : V → Body V E)
  | awaiting (awaiter : TaskAwaiter V E) (rest : V → Body V E)
  /-- In `TaskAwaiter::await_resume`. -/
  | resuming (awaiter : TaskAwaiter V E) (rest : V → Body V E)
  /-- In `~LooperExecutor` of the task that was awaited, for ever: `join()` of a looper that sleeps
  through its shutdown. -/
  | joining (body : Body V E)
  /-- Past `return_value` or `unhandled_exception`. -/
  | completed
  /-- In `final_suspend`. -/
  | final

/-- A thread runs the coroutine. -/
def Stage.active : Stage V E → Bool
  | .running _ | .suspending _ _ | .resuming _ _ | .joining _ | .completed => true
  | .suspended _ | .awaiting _ _ | .final => false

/-- `TaskPromise`, in the frame of its coroutine. The call that made it and the coroutine that
called are history. -/
structure TaskPromise (V E : Type) where
  executor : Executor
  result : Option (Except E V) := none
  /-- The callbacks, each of which gives a handle to the executor of its coroutine. -/
  completionCallbacks : List Nat := []
  stage : Stage V E
  called : Body V E
  caller : Option Nat

/-- The objects that queue what they are given. -/
inductive Queue
  /-- The looper in the promise of a coroutine. -/
  | looper (task : Nat)
  /-- `sharedLooperExecutor`. -/
  | sharedLooper
  /-- The threads that have not begun to run. -/
  | newThreads
  deriving DecidableEq

/-- Where the handle of a coroutine is given to its executor. -/
def TaskPromise.queue (promise : TaskPromise V E) (task : Nat) : Queue :=
  match promise.executor with
  | .looperExecutor => .looper task
  | .sharedLooperExecutor => .sharedLooper
  | .newThreadExecutor => .newThreads

/-- The coroutines of a process, by handle. The handles and calls of outside threads are
history. -/
structure Process (V E : Type) where
  promises : Nat → Option (TaskPromise V E) := fun _ => none
  /-- The number of coroutines called. -/
  calls : Nat := 0
  queues : Queue → List Nat := fun _ => []
  /-- The coroutine that the thread of a looper has resumed. -/
  workers : Queue → Option Nat := fun _ => none
  /-- The coroutines that `Scheduler` is to give to their executors. -/
  scheduled : List Nat := []
  /-- `std::terminate` was called. -/
  terminated : Bool := false
  /-- A handle was resumed or destroyed that is not suspended, or used that is destroyed. -/
  undefined : Bool := false
  roots : List (Nat × Body V E) := []

namespace Process

/-- `execute` of the executor in the promise, with `handle.resume()`. -/
def execute (process : Process V E) (task : Nat) : Process V E :=
  match process.promises task with
  | some promise =>
      { process with
        queues := Function.update process.queues (promise.queue task)
          (process.queues (promise.queue task) ++ [task]) }
  | none => { process with undefined := true }

/-- Replaces a promise. -/
def setPromise (process : Process V E) (task : Nat) (promise : TaskPromise V E) : Process V E :=
  { process with promises := Function.update process.promises task (some promise) }

/-- The thread that resumed the coroutine returns to its executor. -/
def leave (process : Process V E) (queue : Queue) : Process V E :=
  { process with workers := Function.update process.workers queue none }

/-- A call: the coroutine's frame, and `initial_suspend` with its `DispatchAwaiter`. -/
def call (process : Process V E) (executor : Executor) (body : Body V E) (caller : Option Nat) :
    Process V E :=
  ({ process with calls := process.calls + 1 }.setPromise process.calls
    { executor, stage := .suspended body, called := body, caller }).execute process.calls

/-- `return_value` or `unhandled_exception`. -/
def complete (process : Process V E) (task : Nat) (promise : TaskPromise V E)
    (result : Except E V) : Process V E :=
  promise.completionCallbacks.foldl execute (process.setPromise task
    { promise with result := some result, completionCallbacks := [], stage := .completed })

/-- `TaskAwaiter::await_suspend`: `finally` of the task with a callback for the coroutine. -/
def awaitSuspend (process : Process V E) (task : Nat) (promise : TaskPromise V E)
    (awaiter : TaskAwaiter V E) (rest : V → Body V E) : Process V E :=
  let suspended := (process.setPromise task { promise with stage := .awaiting awaiter rest }).leave
    (promise.queue task)
  match process.promises awaiter.task with
  | some awaited =>
      if awaited.result.isSome then suspended.execute task
      else suspended.setPromise awaiter.task
        { awaited with completionCallbacks := awaited.completionCallbacks ++ [task] }
  | none => { process with undefined := true }

/-- `~Task`: the frame is destroyed, with the looper in its promise and what that has queued. -/
def destroy (process : Process V E) (task : Nat) : Process V E :=
  match process.promises task with
  | some promise =>
      if promise.stage.active then { process with undefined := true }
      else { process with
        promises := Function.update process.promises task none
        queues := Function.update process.queues (.looper task) [] }
  | none => { process with undefined := true }

/-- `TaskAwaiter::await_resume`, which blocks without a result, and `~TaskAwaiter`. -/
def awaitResume (process : Process V E) (task : Nat) (promise : TaskPromise V E)
    (awaiter : TaskAwaiter V E) (rest : V → Body V E) : Option (Process V E) :=
  match process.promises awaiter.task with
  | some awaited =>
      awaited.result.map fun
        | .ok value =>
            (process.setPromise task { promise with stage := .running (rest value) }).destroy
              awaiter.task
        | .error _ => { process with terminated := true }
  | none => some { process with undefined := true }

/-- `TaskAwaiter::await_resume`, and `~TaskAwaiter` with a looper that sleeps through its
shutdown: the destruction of the frame does not end. -/
def hang (process : Process V E) (task : Nat) (promise : TaskPromise V E) :
    Option (Process V E) :=
  match promise.stage with
  | .resuming awaiter rest =>
      match process.promises awaiter.task with
      | some awaited =>
          match awaited.executor, awaited.stage.active, awaited.result with
          | .looperExecutor, false, some (.ok value) =>
              some ((process.setPromise task { promise with
                stage := .joining (rest value) }).destroy awaiter.task)
          | _, _, _ => none
      | none => none
  | _ => none

/-- A coroutine goes on in the thread that resumed it. -/
def go (process : Process V E) (task : Nat) (promise : TaskPromise V E) : Option (Process V E) :=
  match promise.stage with
  | .running (.coReturn value) => some (process.complete task promise (.ok value))
  | .running (.throws thrown) => some (process.complete task promise (.error thrown))
  | .running (.coAwait executor body rest) =>
      some ((process.call executor body (some task)).setPromise task
        { promise with stage := .suspending ⟨process.calls, body⟩ rest })
  | .running (.sleep rest) =>
      some { (process.setPromise task { promise with stage := .suspended rest }).leave
          (promise.queue task) with scheduled := process.scheduled ++ [task] }
  | .suspending awaiter rest => some (process.awaitSuspend task promise awaiter rest)
  | .resuming awaiter rest => process.awaitResume task promise awaiter rest
  | .completed =>
      some ((process.setPromise task { promise with stage := .final }).leave (promise.queue task))
  | .suspended _ | .awaiting _ _ | .joining _ | .final => none

/-- `handle.resume()`. -/
def resume (process : Process V E) (task : Nat) : Process V E :=
  match process.promises task with
  | some promise =>
      match promise.stage with
      | .suspended body => process.setPromise task { promise with stage := .running body }
      | .awaiting awaiter rest =>
          process.setPromise task { promise with stage := .resuming awaiter rest }
      | .running _ | .suspending _ _ | .resuming _ _ | .joining _ | .completed | .final =>
          { process with undefined := true }
  | none => { process with undefined := true }

/-- A looper whose thread is idle runs the first function of its queue, and new threads begin
in any order. -/
def take (process : Process V E) (queue : Queue) (index : Nat) : Option (Process V E) :=
  if queue = .newThreads ∨ process.workers queue = none ∧ index = 0 then
    (process.queues queue)[index]?.map fun task =>
      resume { process with
        queues := Function.update process.queues queue ((process.queues queue).eraseIdx index)
        workers := if queue = .newThreads then process.workers
          else Function.update process.workers queue (some task) } task
  else none

end Process

/-- The steps of the process. -/
inductive Event (V E : Type)
  /-- A thread outside of the coroutines calls one, and keeps its task. -/
  | call (executor : Executor) (body : Body V E)
  /-- An executor runs what it was given. -/
  | take (queue : Queue) (index : Nat)
  | go (task : Nat)
  /-- A coroutine destroys the task it has awaited, whose looper sleeps through its shutdown. -/
  | hang (task : Nat)
  /-- The time of a sleeper is over. -/
  | wake (index : Nat)
  /-- The time of a sleeper is over, and `Scheduler` pops another one, which is on top by then. -/
  | misfire (index other : Nat)

/-- The coroutines with their executors. -/
def machine : Machine (Process V E) (Event V E) where
  step process event :=
    if process.terminated then none
    else
      match event with
      | .call executor body =>
          some { process.call executor body none with
            roots := process.roots ++ [(process.calls, body)] }
      | .take queue index => process.take queue index
      | .go task => (process.promises task).bind (process.go task)
      | .hang task => (process.promises task).bind (process.hang task)
      | .wake index =>
          process.scheduled[index]?.map
            { process with scheduled := process.scheduled.eraseIdx index }.execute
      | .misfire index other =>
          if other < process.scheduled.length ∧ other ≠ index then
            process.scheduled[index]?.map
              { process with scheduled := process.scheduled.eraseIdx other }.execute
          else none

end FastDb.Coroutine.Awaiting
