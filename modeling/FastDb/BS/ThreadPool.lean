import Mathlib.Algebra.Order.BigOperators.Group.Finset
import FastDb.Foundation.Monitor

/-! # The task pool

`BS::thread_pool` of `common/thread_pool/BS_thread_pool.hpp` in the build with
`std::jthread`: workers that take tasks from a queue, by priority where that is enabled, and
any number of threads, among them tasks that are being run, that submit tasks, pause, purge
and wait. A critical section is one step, since all that it reads and writes is used under
`tasks_mutex` only; waiting for a condition variable ends one and begins another. When
`wait()` returns, no task is running, and unless the pool is paused all that were submitted
have been run or purged (`FastDb.BS.ThreadPool.wait_returns`).
-/

namespace FastDb.BS

open Foundation

/-- `pr_task`. -/
structure PrTask (T : Type) where
  task : T
  priority : Int := 0
  deriving DecidableEq

/-- The template parameter `OptFlags`. -/
structure OptFlags where
  priorityEnabled : Bool := false
  pauseEnabled : Bool := false
  waitDeadlockChecksEnabled : Bool := false

/-- The array `threads`; `determine_thread_count` gives it one thread at least. -/
structure Workers (τ : Type) where
  threads : List τ
  nodup : threads.Nodup
  inhabited : threads ≠ []

/-- `thread_pool`. What was submitted, what was run to its end and what was purged is
history. -/
structure ThreadPool (τ T : Type) where
  tasks : List (PrTask T) := []
  tasksRunning : Nat
  paused : Bool := false
  waiting : Bool := false
  taskAvailableCv : Condition τ := {}
  tasksDoneCv : Condition τ := {}
  /-- The workers whose `stop_token` has been told to stop. -/
  stopRequested : Finset τ := ∅
  /-- The workers whose `worker()` has returned. -/
  returned : Finset τ := ∅
  /-- `~thread_pool()` has begun. -/
  begun : Bool := false
  submitted : Multiset T := 0
  finished : Multiset T := 0
  purged : Multiset T := 0

namespace ThreadPool

/-- Who calls a member function. -/
inductive Caller (T : Type)
  | outside
  /-- A task that a worker runs. -/
  | task (task : T)
  /-- `~thread_pool()`. -/
  | destructor
  deriving DecidableEq

/-- Where a thread is, named by what it does next. -/
inductive Stage (τ T : Type)
  | outside
  /-- `worker`: at the head of its loop. -/
  | turning
  /-- `worker`: in `task_available_cv.wait`. -/
  | sleeping
  /-- `worker`: in `task()`. -/
  | running (task : T)
  /-- `worker` has returned. -/
  | returned
  /-- `detach_task`: `task_available_cv.notify_one()`. -/
  | notifying (caller : Caller T)
  /-- `unpause`: `task_available_cv.notify_all()`. -/
  | unpausing (caller : Caller T)
  /-- `wait`, or `wait_for` and `wait_until`: to lock the mutex. -/
  | entering (caller : Caller T) (timed : Bool)
  /-- `wait`, or `wait_for` and `wait_until`: in `tasks_done_cv`. -/
  | waiting (caller : Caller T) (timed : Bool)
  /-- `~jthread` of the first of these workers: `request_stop()`. -/
  | stopping (workers : List τ)
  /-- `~jthread`: `join()`. -/
  | joining (worker : τ) (workers : List τ)
  | destructed
  deriving DecidableEq

/-- The beginning of a call, or the next step of the one that is under way. -/
inductive Event (τ T : Type)
  | detachTask (task : PrTask T)
  | pause
  | unpause
  | purge
  /-- `wait`, or `wait_for` and `wait_until`. -/
  | wait (timed : Bool)
  | destruct
  /-- A task returns or throws. -/
  | finish
  /-- `notify_one()` wakes this sleeper. -/
  | notify (sleeper : τ)
  /-- A sleeper wakes up by itself. -/
  | wakeUp
  /-- The time of `wait_for` or `wait_until` is over. -/
  | timeOut
  /-- A worker that takes a task takes the one at this place of the queue. -/
  | proceed (choice : Nat)
  deriving DecidableEq

/-- The stages in which user code is free to call. -/
def Stage.caller {τ T : Type} : Stage τ T → Option (Caller T)
  | .outside => some .outside
  | .running task => some (.task task)
  | _ => none

/-- Where a thread goes on after a call; the array of workers is destroyed from its end. -/
def Stage.back {τ T : Type} (workers : Workers τ) : Caller T → Stage τ T
  | .outside => .outside
  | .task task => .running task
  | .destructor => .stopping workers.threads.reverse

section Functions

variable {τ T : Type}

/-- Whether the pool is paused, where pausing is enabled. -/
def isPaused (flags : OptFlags) (pool : ThreadPool τ T) : Bool :=
  flags.pauseEnabled && pool.paused

/-- What `wait` waits for. -/
def tasksDone (flags : OptFlags) (pool : ThreadPool τ T) : Bool :=
  pool.tasksRunning = 0 && (pool.isPaused flags || pool.tasks.isEmpty)

/-- `pop_task`: the front of the queue, or some task of the highest priority. -/
def popTask (flags : OptFlags) (tasks : List (PrTask T)) (choice : Nat) :
    Option (T × List (PrTask T)) :=
  match tasks[choice]? with
  | none => none
  | some first =>
      if (if flags.priorityEnabled then ∀ other ∈ tasks, ¬ first.priority < other.priority
          else choice = 0) then
        some (first.task, tasks.eraseIdx choice)
      else none

variable [DecidableEq τ]

/-- `worker`: the test of `task_available_cv.wait` and what follows it. -/
def retrieve (flags : OptFlags) (thread : τ) (pool : ThreadPool τ T) (choice : Nat) :
    Option (ThreadPool τ T × Stage τ T) :=
  if thread ∈ pool.stopRequested then
    some ({ pool with returned := insert thread pool.returned }, .returned)
  else if pool.isPaused flags ∨ pool.tasks = [] then
    some ({ pool with taskAvailableCv := pool.taskAvailableCv.sleep thread }, .sleeping)
  else
    (popTask flags pool.tasks choice).map fun popped =>
      ({ pool with tasks := popped.2, tasksRunning := pool.tasksRunning + 1 },
        .running popped.1)

/-- `worker`: `--tasks_running`. -/
def countDown (pool : ThreadPool τ T) : ThreadPool τ T :=
  { pool with tasksRunning := pool.tasksRunning - 1 }

/-- `worker`: the head of its loop, which wakes who waits. -/
def finishTask (flags : OptFlags) (pool : ThreadPool τ T) : ThreadPool τ T where
  __ := pool.countDown
  tasksDoneCv :=
    if pool.waiting ∧ pool.countDown.tasksDone flags = true then pool.tasksDoneCv.wakeAll
    else pool.tasksDoneCv

/-- `request_stop()` of a worker; a worker that waits has left a callback that notifies. -/
def requestStop (worker : τ) (pool : ThreadPool τ T) : ThreadPool τ T where
  __ := pool
  stopRequested := insert worker pool.stopRequested
  taskAvailableCv :=
    if worker ∈ pool.taskAvailableCv.asleep ∨ worker ∈ pool.taskAvailableCv.woken then
      pool.taskAvailableCv.wakeAll
    else pool.taskAvailableCv

/-- One step of a thread. -/
def atomic (flags : OptFlags) (workers : Workers τ) (thread : τ) :
    ThreadPool τ T × Stage τ T → Event τ T → Option (ThreadPool τ T × Stage τ T)
  | (pool, stage), .detachTask task =>
      stage.caller.map fun caller =>
        ({ pool with
          tasks := pool.tasks ++ [task]
          submitted := pool.submitted + {task.task} }, .notifying caller)
  | (pool, stage), .pause =>
      if flags.pauseEnabled then stage.caller.map fun _ => ({ pool with paused := true }, stage)
      else none
  | (pool, stage), .unpause =>
      if flags.pauseEnabled then
        stage.caller.map fun caller => ({ pool with paused := false }, .unpausing caller)
      else none
  | (pool, stage), .purge =>
      stage.caller.map fun _ =>
        ({ pool with
          tasks := []
          purged := pool.purged + (pool.tasks.map PrTask.task : List T) }, stage)
  | (pool, .outside), .wait timed => some (pool, .entering .outside timed)
  | (pool, .running task), .wait timed =>
      -- A task that would wait for itself gets an exception instead.
      if flags.waitDeadlockChecksEnabled then some (pool, .running task)
      else some (pool, .entering (.task task) timed)
  | (pool, .outside), .destruct =>
      if pool.begun then none
      else some ({ pool with begun := true }, .entering .destructor false)
  | (pool, .notifying caller), .notify sleeper =>
      if sleeper ∈ pool.taskAvailableCv.asleep then
        some ({ pool with taskAvailableCv := pool.taskAvailableCv.wake sleeper },
          .back workers caller)
      else none
  | (pool, .notifying caller), .proceed _ =>
      if pool.taskAvailableCv.asleep = ∅ then some (pool, .back workers caller) else none
  | (pool, .unpausing caller), .proceed _ =>
      some ({ pool with taskAvailableCv := pool.taskAvailableCv.wakeAll }, .back workers caller)
  | (pool, .entering caller timed), .proceed _ =>
      if pool.tasksDone flags then
        some ({ pool with waiting := false }, .back workers caller)
      else
        some ({ pool with
          waiting := true
          tasksDoneCv := pool.tasksDoneCv.sleep thread }, .waiting caller timed)
  | (pool, .waiting caller timed), .wakeUp =>
      if thread ∈ pool.tasksDoneCv.asleep then
        some ({ pool with tasksDoneCv := pool.tasksDoneCv.wake thread }, .waiting caller timed)
      else none
  | (pool, .waiting caller timed), .proceed _ =>
      if thread ∈ pool.tasksDoneCv.woken then
        if pool.tasksDone flags then
          some ({ pool with
            waiting := false
            tasksDoneCv := pool.tasksDoneCv.leave thread }, .back workers caller)
        else
          some ({ pool with tasksDoneCv := (pool.tasksDoneCv.leave thread).sleep thread },
            .waiting caller timed)
      else none
  | (pool, .waiting caller true), .timeOut =>
      some ({ pool with
        waiting := false
        tasksDoneCv := pool.tasksDoneCv.leave thread }, .back workers caller)
  | (pool, .turning), .proceed choice => retrieve flags thread (pool.finishTask flags) choice
  | (pool, .sleeping), .wakeUp =>
      if thread ∈ pool.taskAvailableCv.asleep then
        some ({ pool with taskAvailableCv := pool.taskAvailableCv.wake thread }, .sleeping)
      else none
  | (pool, .sleeping), .proceed choice =>
      if thread ∈ pool.taskAvailableCv.woken then
        retrieve flags thread
          { pool with taskAvailableCv := pool.taskAvailableCv.leave thread } choice
      else none
  | (pool, .running task), .finish =>
      some ({ pool with finished := pool.finished + {task} }, .turning)
  | (pool, .stopping []), .proceed _ => some (pool, .destructed)
  | (pool, .stopping (worker :: workers)), .proceed _ =>
      some (pool.requestStop worker, .joining worker workers)
  | (pool, .joining worker workers), .proceed _ =>
      if worker ∈ pool.returned then some (pool, .stopping workers) else none
  | _, _ => none

end Functions

/-- The threads of a program around one pool. -/
abbrev State (τ T : Type) := Threads (ThreadPool τ T) τ (Stage τ T)

variable {τ T : Type} [DecidableEq τ]

/-- The thread pool with its workers and callers. -/
def machine (flags : OptFlags) (workers : Workers τ) : Machine (State τ T) (τ × Event τ T) :=
  Threads.interleave (atomic flags workers)

/-- A new pool: its workers begin, and each is counted as running until its first turn. -/
def start (workers : Workers τ) : State τ T where
  shared := { tasksRunning := workers.threads.length }
  threads thread := if thread ∈ workers.threads then .turning else .outside

/-! ## What a step does -/

/-- A popped task is taken out of its place in the queue. -/
theorem popTask_queued {flags : OptFlags} {tasks rest : List (PrTask T)} {choice : Nat} {task : T}
    (popped : popTask flags tasks choice = some (task, rest)) :
    ∃ first before after, tasks = before ++ first :: after ∧ task = first.task ∧
      rest = before ++ after := by
  unfold popTask at popped
  split at popped
  · cases popped
  · next first found =>
      simp only [Option.ite_none_right_eq_some, Option.some.injEq, Prod.mk.injEq] at popped
      obtain ⟨-, rfl, rfl⟩ := popped
      obtain ⟨bound, first_eq⟩ := List.getElem?_eq_some_iff.mp found
      refine ⟨first, tasks.take choice, tasks.drop (choice + 1), ?_, rfl,
        List.eraseIdx_eq_take_drop_succ ..⟩
      rw [← first_eq, ← List.drop_eq_getElem_cons bound, List.take_append_drop]

/-- What a worker does when it may take a task. -/
inductive Retrieves (flags : OptFlags) (thread : τ) (pool : ThreadPool τ T) :
    ThreadPool τ T × Stage τ T → Prop
  | stop (requested : thread ∈ pool.stopRequested) :
      Retrieves flags thread pool
        ({ pool with returned := insert thread pool.returned }, .returned)
  | sleep (runs : thread ∉ pool.stopRequested)
      (none : pool.isPaused flags = true ∨ pool.tasks = []) :
      Retrieves flags thread pool
        ({ pool with taskAvailableCv := pool.taskAvailableCv.sleep thread }, .sleeping)
  | take {task : PrTask T} {before after : List (PrTask T)} (runs : thread ∉ pool.stopRequested)
      (ready : pool.isPaused flags = false) (queued : pool.tasks = before ++ task :: after) :
      Retrieves flags thread pool
        ({ pool with tasks := before ++ after, tasksRunning := pool.tasksRunning + 1 },
          .running task.task)

/-- What `retrieve` does is one of the cases. -/
theorem retrieve_retrieves {flags : OptFlags} {thread : τ} {pool : ThreadPool τ T} {choice : Nat}
    {after : ThreadPool τ T × Stage τ T} (ran : retrieve flags thread pool choice = some after) :
    Retrieves flags thread pool after := by
  unfold retrieve at ran
  split at ran
  · next requested =>
      cases ran
      exact .stop requested
  · next runs =>
      split at ran
      · next none =>
          cases ran
          exact .sleep runs none
      · next ready =>
          obtain ⟨⟨task, rest⟩, popped, rfl⟩ := Option.map_eq_some_iff.mp ran
          obtain ⟨first, before, behind, queued, rfl, rfl⟩ := popTask_queued popped
          exact .take runs (by simpa using (not_or.mp ready).1) queued

/-- What one step of a thread does. -/
inductive Moves (flags : OptFlags) (workers : Workers τ) (thread : τ) :
    Event τ T → ThreadPool τ T × Stage τ T → ThreadPool τ T × Stage τ T → Prop
  | detachTask {pool : ThreadPool τ T} {stage : Stage τ T} {caller : Caller T} (task : PrTask T)
      (calls : stage.caller = some caller) :
      Moves flags workers thread (.detachTask task) (pool, stage) ({ pool with
        tasks := pool.tasks ++ [task]
        submitted := pool.submitted + {task.task} }, .notifying caller)
  | pause {pool : ThreadPool τ T} {stage : Stage τ T} {caller : Caller T}
      (calls : stage.caller = some caller) :
      Moves flags workers thread .pause (pool, stage) ({ pool with paused := true }, stage)
  | unpause {pool : ThreadPool τ T} {stage : Stage τ T} {caller : Caller T}
      (calls : stage.caller = some caller) :
      Moves flags workers thread .unpause (pool, stage)
        ({ pool with paused := false }, .unpausing caller)
  | purge {pool : ThreadPool τ T} {stage : Stage τ T} {caller : Caller T}
      (calls : stage.caller = some caller) :
      Moves flags workers thread .purge (pool, stage) ({ pool with
        tasks := []
        purged := pool.purged + (pool.tasks.map PrTask.task : List T) }, stage)
  | wait {pool : ThreadPool τ T} {stage : Stage τ T} {caller : Caller T} (timed : Bool)
      (calls : stage.caller = some caller)
      (unchecked : flags.waitDeadlockChecksEnabled = true → caller = .outside) :
      Moves flags workers thread (.wait timed) (pool, stage) (pool, .entering caller timed)
  | throws {pool : ThreadPool τ T} {task : T} (timed : Bool)
      (checked : flags.waitDeadlockChecksEnabled = true) :
      Moves flags workers thread (.wait timed) (pool, .running task) (pool, .running task)
  | destruct {pool : ThreadPool τ T} (first : pool.begun = false) :
      Moves flags workers thread .destruct (pool, .outside)
        ({ pool with begun := true }, .entering .destructor false)
  | notifyOne {pool : ThreadPool τ T} {sleeper : τ} (caller : Caller T)
      (sleeps : sleeper ∈ pool.taskAvailableCv.asleep) :
      Moves flags workers thread (.notify sleeper) (pool, .notifying caller)
        ({ pool with taskAvailableCv := pool.taskAvailableCv.wake sleeper },
          .back workers caller)
  | notifyNone {pool : ThreadPool τ T} (caller : Caller T) (choice : Nat)
      (awake : pool.taskAvailableCv.asleep = ∅) :
      Moves flags workers thread (.proceed choice) (pool, .notifying caller)
        (pool, .back workers caller)
  | notifyAll {pool : ThreadPool τ T} (caller : Caller T) (choice : Nat) :
      Moves flags workers thread (.proceed choice) (pool, .unpausing caller)
        ({ pool with taskAvailableCv := pool.taskAvailableCv.wakeAll }, .back workers caller)
  | pass {pool : ThreadPool τ T} (caller : Caller T) (timed : Bool) (choice : Nat)
      (done : pool.tasksDone flags = true) :
      Moves flags workers thread (.proceed choice) (pool, .entering caller timed)
        ({ pool with waiting := false }, .back workers caller)
  | sleepDone {pool : ThreadPool τ T} (caller : Caller T) (timed : Bool) (choice : Nat)
      (busy : pool.tasksDone flags = false) :
      Moves flags workers thread (.proceed choice) (pool, .entering caller timed) ({ pool with
        waiting := true
        tasksDoneCv := pool.tasksDoneCv.sleep thread }, .waiting caller timed)
  | wakeUpDone {pool : ThreadPool τ T} (caller : Caller T) (timed : Bool)
      (sleeps : thread ∈ pool.tasksDoneCv.asleep) :
      Moves flags workers thread .wakeUp (pool, .waiting caller timed)
        ({ pool with tasksDoneCv := pool.tasksDoneCv.wake thread }, .waiting caller timed)
  | leave {pool : ThreadPool τ T} (caller : Caller T) (timed : Bool) (choice : Nat)
      (woke : thread ∈ pool.tasksDoneCv.woken) (done : pool.tasksDone flags = true) :
      Moves flags workers thread (.proceed choice) (pool, .waiting caller timed) ({ pool with
        waiting := false
        tasksDoneCv := pool.tasksDoneCv.leave thread }, .back workers caller)
  | sleepAgain {pool : ThreadPool τ T} (caller : Caller T) (timed : Bool) (choice : Nat)
      (woke : thread ∈ pool.tasksDoneCv.woken) (busy : pool.tasksDone flags = false) :
      Moves flags workers thread (.proceed choice) (pool, .waiting caller timed)
        ({ pool with tasksDoneCv := (pool.tasksDoneCv.leave thread).sleep thread },
          .waiting caller timed)
  | timeOut {pool : ThreadPool τ T} (caller : Caller T) :
      Moves flags workers thread .timeOut (pool, .waiting caller true) ({ pool with
        waiting := false
        tasksDoneCv := pool.tasksDoneCv.leave thread }, .back workers caller)
  | turn {pool : ThreadPool τ T} (choice : Nat) {after : ThreadPool τ T × Stage τ T}
      (retrieves : Retrieves flags thread (pool.finishTask flags) after) :
      Moves flags workers thread (.proceed choice) (pool, .turning) after
  | wakeUp {pool : ThreadPool τ T} (sleeps : thread ∈ pool.taskAvailableCv.asleep) :
      Moves flags workers thread .wakeUp (pool, .sleeping)
        ({ pool with taskAvailableCv := pool.taskAvailableCv.wake thread }, .sleeping)
  | retry {pool : ThreadPool τ T} (choice : Nat) {after : ThreadPool τ T × Stage τ T}
      (woke : thread ∈ pool.taskAvailableCv.woken)
      (retrieves : Retrieves flags thread
        { pool with taskAvailableCv := pool.taskAvailableCv.leave thread } after) :
      Moves flags workers thread (.proceed choice) (pool, .sleeping) after
  | finish {pool : ThreadPool τ T} (task : T) :
      Moves flags workers thread .finish (pool, .running task)
        ({ pool with finished := pool.finished + {task} }, .turning)
  | destruction {pool : ThreadPool τ T} (choice : Nat) :
      Moves flags workers thread (.proceed choice) (pool, .stopping []) (pool, .destructed)
  | requestStop {pool : ThreadPool τ T} (worker : τ) (rest : List τ) (choice : Nat) :
      Moves flags workers thread (.proceed choice) (pool, .stopping (worker :: rest))
        (pool.requestStop worker, .joining worker rest)
  | join {pool : ThreadPool τ T} (worker : τ) (rest : List τ) (choice : Nat)
      (gone : worker ∈ pool.returned) :
      Moves flags workers thread (.proceed choice) (pool, .joining worker rest)
        (pool, .stopping rest)

/-- Every atomic step is one of the cases. -/
theorem atomic_moves {flags : OptFlags} {workers : Workers τ} {thread : τ}
    {pool after : ThreadPool τ T} {before stage : Stage τ T} {event : Event τ T}
    (ran : atomic flags workers thread (pool, before) event = some (after, stage)) :
    Moves flags workers thread event (pool, before) (after, stage) := by
  unfold atomic at ran
  split at ran
  all_goals rename_i same
  all_goals try obtain ⟨rfl, rfl⟩ := Prod.mk.inj same
  · obtain ⟨caller, calls, done⟩ := Option.map_eq_some_iff.mp ran
    cases done
    exact .detachTask _ calls
  · split at ran
    · obtain ⟨caller, calls, done⟩ := Option.map_eq_some_iff.mp ran
      cases done
      exact .pause calls
    · cases ran
  · split at ran
    · obtain ⟨caller, calls, done⟩ := Option.map_eq_some_iff.mp ran
      cases done
      exact .unpause calls
    · cases ran
  · obtain ⟨caller, calls, done⟩ := Option.map_eq_some_iff.mp ran
    cases done
    exact .purge calls
  · cases ran
    exact .wait _ rfl fun _ => rfl
  · split at ran
    · next checked =>
        cases ran
        exact .throws _ checked
    · next unchecked =>
        cases ran
        exact .wait _ rfl fun checked => absurd checked unchecked
  · split at ran
    · cases ran
    · next first =>
        cases ran
        exact .destruct (by simpa using first)
  · split at ran
    · next sleeps =>
        cases ran
        exact .notifyOne _ sleeps
    · cases ran
  · split at ran
    · next awake =>
        cases ran
        exact .notifyNone _ _ awake
    · cases ran
  · cases ran
    exact .notifyAll _ _
  · split at ran
    · next done =>
        cases ran
        exact .pass _ _ _ done
    · next busy =>
        cases ran
        exact .sleepDone _ _ _ (by simpa using busy)
  · split at ran
    · next sleeps =>
        cases ran
        exact .wakeUpDone _ _ sleeps
    · cases ran
  · split at ran
    · next woke =>
        split at ran
        · next done =>
            cases ran
            exact .leave _ _ _ woke done
        · next busy =>
            cases ran
            exact .sleepAgain _ _ _ woke (by simpa using busy)
    · cases ran
  · cases ran
    exact .timeOut _
  · exact .turn _ (retrieve_retrieves ran)
  · split at ran
    · next sleeps =>
        cases ran
        exact .wakeUp sleeps
    · cases ran
  · split at ran
    · next woke => exact .retry _ woke (retrieve_retrieves ran)
    · cases ran
  · cases ran
    exact .finish _
  · cases ran
    exact .destruction _
  · cases ran
    exact .requestStop _ _ _
  · split at ran
    · next gone =>
        cases ran
        exact .join _ _ _ gone
    · cases ran
  · cases ran

/-! ## The tasks -/

/-- The task that calls. -/
def Caller.tasks : Caller T → Multiset T
  | .task current => {current}
  | _ => 0

/-- The task that a thread runs. -/
def Stage.tasks : Stage τ T → Multiset T
  | .running task => {task}
  | .notifying caller | .unpausing caller | .entering caller _ | .waiting caller _ => caller.tasks
  | _ => 0

/-- Whether a thread is counted in `tasks_running`. -/
def Stage.busy : Stage τ T → Nat
  | .turning => 1
  | stage => stage.tasks.card

omit [DecidableEq τ] in
@[simp]
theorem tasks_back (workers : Workers τ) (caller : Caller T) :
    (Stage.back workers caller).tasks = caller.tasks := by
  cases caller <;> rfl

omit [DecidableEq τ] in
@[simp]
theorem busy_back (workers : Workers τ) (caller : Caller T) :
    (Stage.back workers caller).busy = caller.tasks.card := by
  cases caller <;> rfl

omit [DecidableEq τ] in
/-- In a call a thread holds the task that called. -/
theorem tasks_of_caller {stage : Stage τ T} {caller : Caller T}
    (calls : stage.caller = some caller) :
    stage.tasks = caller.tasks ∧ stage.busy = caller.tasks.card := by
  cases stage <;> simp only [Stage.caller, reduceCtorEq, Option.some.injEq] at calls
  all_goals
    subst calls
    exact ⟨rfl, rfl⟩

omit [DecidableEq τ] in
/-- An idle thread holds no task. -/
theorem tasks_of_idle {stage : Stage τ T} (idle : stage.busy = 0) : stage.tasks = 0 := by
  cases stage with
  | turning => rfl
  | _ => exact Multiset.card_eq_zero.mp idle

/-- The tasks that are in the pool and no thread runs. -/
def held (pool : ThreadPool τ T) : Multiset T :=
  pool.finished + pool.purged + (pool.tasks.map PrTask.task : List T)

theorem Retrieves.balanced {flags : OptFlags} {thread : τ} {pool after : ThreadPool τ T}
    {stage : Stage τ T} (retrieves : Retrieves flags thread pool (after, stage)) :
    after.submitted + pool.held = pool.submitted + stage.tasks + after.held ∧
      after.tasksRunning = pool.tasksRunning + stage.busy := by
  cases retrieves with
  | stop | sleep => exact ⟨by simp [held, Stage.tasks], rfl⟩
  | take runs ready queued =>
      refine ⟨?_, rfl⟩
      simp only [held, queued, Stage.tasks, List.map_append, List.map_cons, ← Multiset.coe_add,
        ← Multiset.cons_coe, ← Multiset.singleton_add]
      ac_rfl

/-- A step balances the tasks that came in against those that are held and run. -/
theorem Moves.balanced {flags : OptFlags} {workers : Workers τ} {thread : τ}
    {pool after : ThreadPool τ T} {before stage : Stage τ T} {event : Event τ T}
    (moves : Moves flags workers thread event (pool, before) (after, stage)) :
    after.submitted + before.tasks + pool.held = pool.submitted + stage.tasks + after.held := by
  cases moves with
  | detachTask task calls =>
      rw [(tasks_of_caller calls).1]
      simp only [Stage.tasks, held, List.map_append, List.map_singleton, ← Multiset.coe_add,
        Multiset.coe_singleton]
      ac_rfl
  | pause | throws | requestStop | wakeUpDone | sleepAgain | wakeUp | join | destruction
  | sleepDone => rfl
  | unpause calls | wait _ calls => rw [(tasks_of_caller calls).1]; rfl
  | purge =>
      simp only [held, List.map_nil, Multiset.coe_nil]
      ac_rfl
  | destruct => rfl
  | notifyOne | notifyNone | notifyAll | pass | leave | timeOut => rw [tasks_back]; rfl
  | turn choice retrieves | retry choice woke retrieves =>
      rw [show Stage.tasks _ = 0 from rfl, add_zero]
      exact retrieves.balanced.1
  | finish task =>
      simp only [held, Stage.tasks]
      ac_rfl

/-- `tasks_running` counts the busy workers through every step. -/
theorem Moves.counted {flags : OptFlags} {workers : Workers τ} {thread : τ}
    {pool after : ThreadPool τ T} {before stage : Stage τ T} {event : Event τ T}
    (moves : Moves flags workers thread event (pool, before) (after, stage))
    (within : before.busy ≤ pool.tasksRunning) :
    after.tasksRunning + before.busy = pool.tasksRunning + stage.busy := by
  cases moves with
  | detachTask task calls | unpause calls | wait _ calls => rw [(tasks_of_caller calls).2]; rfl
  | pause | purge | throws | requestStop | wakeUpDone | sleepAgain | wakeUp | join | destruction
  | sleepDone | destruct | finish => rfl
  | notifyOne | notifyNone | notifyAll | pass | leave | timeOut => rw [busy_back]; rfl
  | turn choice retrieves =>
      have total : after.tasksRunning = pool.tasksRunning - 1 + stage.busy := retrieves.balanced.2
      have within : 1 ≤ pool.tasksRunning := within
      rw [total, show Stage.busy .turning = 1 from rfl]
      omega
  | retry choice woke retrieves => exact retrieves.balanced.2

/-- Every task is accounted for, and `tasks_running` counts the threads that are busy. -/
structure Accounted [Fintype τ] (state : State τ T) : Prop where
  account : state.shared.submitted =
    state.shared.held + ∑ thread, (state.threads thread).tasks
  count : state.shared.tasksRunning = ∑ thread, (state.threads thread).busy

theorem accounted_of_reaches [Fintype τ] {flags : OptFlags} {workers : Workers τ}
    {allowed : State τ T → τ × Event τ T → Prop} {state : State τ T}
    (reached : (machine flags workers).Reaches allowed (start workers) state) :
    Accounted state := by
  refine Threads.reaches_invariant reached Accounted ⟨?_, ?_⟩ ?_
  · have idle : ∀ thread, ((start workers : State τ T).threads thread).tasks = 0 := fun thread => by
      by_cases works : thread ∈ workers.threads <;> simp [start, works, Stage.tasks]
    rw [Finset.sum_eq_zero fun thread _ => idle thread]
    rfl
  · have busy : ∀ thread, ((start workers : State τ T).threads thread).busy =
        if thread ∈ workers.threads.toFinset then 1 else 0 := fun thread => by
      by_cases works : thread ∈ workers.threads <;> simp [start, works, Stage.busy, Stage.tasks]
    rw [Finset.sum_congr rfl fun thread _ => busy thread, Finset.sum_ite_mem, Finset.univ_inter,
      ← Finset.card_eq_sum_ones]
    exact (List.toFinset_card_of_nodup workers.nodup).symm
  · intro pool threads thread event after stage accounted _ ran
    have moves := atomic_moves ran
    refine ⟨Threads.account_update accounted.account moves.balanced, ?_⟩
    have total := Threads.sum_update Stage.busy threads thread stage
    have within : (threads thread).busy ≤ pool.tasksRunning := by
      rw [show pool.tasksRunning = _ from accounted.count]
      exact Finset.single_le_sum (f := fun thread => (threads thread).busy)
        (fun _ _ => Nat.zero_le _) (Finset.mem_univ thread)
    have counted := moves.counted within
    have count := accounted.count
    dsimp only at count ⊢
    omega

/-- A thread in `wait`, or in `wait_for` and `wait_until`. -/
def Stage.inWait : Stage τ T → Option (Caller T)
  | .entering caller _ | .waiting caller _ => some caller
  | _ => none

/-- Nobody returns from `wait` but by a timeout before the tasks are done. -/
theorem Moves.done_of_back {flags : OptFlags} {workers : Workers τ} {thread : τ}
    {pool after : ThreadPool τ T} {before : Stage τ T} {choice : Nat} {caller : Caller T}
    (waits : before.inWait = some caller)
    (moves : Moves flags workers thread (.proceed choice) (pool, before)
      (after, .back workers caller)) : after.tasksDone flags = true := by
  generalize ended : Stage.back workers caller = stage at moves
  cases moves with
  | pass _ _ _ done | leave _ _ _ _ done => exact done
  | sleepDone | sleepAgain => cases caller <;> cases ended
  | _ => simp [Stage.inWait] at waits

/-- **Quiescence.** When `wait()` returns, as it does in the destructor and as `wait_for` and
`wait_until` do unless their time is over, no thread runs a task; and unless the pool is
paused none is queued, and every task that was ever submitted has been run to its end or
purged. -/
theorem wait_returns [Fintype τ] {flags : OptFlags} {workers : Workers τ}
    {allowed : State τ T → τ × Event τ T → Prop} {state next : State τ T}
    (reached : (machine flags workers).Reaches allowed (start workers) state) {thread : τ}
    {choice : Nat} (meets : allowed state (thread, .proceed choice))
    (stepped : (machine flags workers).step state (thread, .proceed choice) = some next)
    {caller : Caller T} (waits : (state.threads thread).inWait = some caller)
    (returned : next.threads thread = .back workers caller) :
    (∀ other, (next.threads other).tasks = 0) ∧
      next.shared.submitted = next.shared.held ∧
      (next.shared.isPaused flags = false → next.shared.tasks = []) := by
  obtain ⟨account, count⟩ := accounted_of_reaches (reached.tail ⟨_, meets, stepped⟩)
  obtain ⟨after, stage, ran, rfl⟩ := Threads.interleave_step stepped
  have moves := atomic_moves ran
  rw [show stage = .back workers caller by simpa using returned] at moves
  have done := moves.done_of_back waits
  simp only [tasksDone, Bool.and_eq_true, decide_eq_true_eq, Bool.or_eq_true,
    List.isEmpty_iff] at done
  have idle : ∀ other, (Function.update state.threads thread stage other).tasks = 0 :=
    fun other => tasks_of_idle
      (Finset.sum_eq_zero_iff.mp (count.symm.trans done.1) other (Finset.mem_univ _))
  refine ⟨idle, ?_, fun runs => done.2.resolve_left (by simp [runs])⟩
  rw [account, Finset.sum_eq_zero fun other _ => idle other, add_zero]

/-- Two workers. -/
def twoWorkers : Workers (Fin 4) := ⟨[0, 1], by simp, by simp⟩

/-- Both workers sleep; two tasks are submitted and waited for, and run at the same time. -/
def twoTasks : List (Fin 4 × Event (Fin 4) Nat) :=
  [(0, .proceed 0), (1, .proceed 0), (2, .detachTask ⟨7, 0⟩), (2, .notify 0),
    (2, .detachTask ⟨8, 0⟩), (2, .notify 1), (2, .wait false), (2, .proceed 0), (0, .proceed 0),
    (1, .proceed 0), (0, .finish), (0, .proceed 0), (1, .finish), (1, .proceed 0)]

/-- The last worker wakes the thread that waits, which finds both tasks finished. -/
theorem wait_returns_both :
    ∃ state next : State (Fin 4) Nat,
      (machine {} twoWorkers).execute Machine.anyStep twoTasks (start twoWorkers) = some state ∧
      (machine {} twoWorkers).step state (2, .proceed 0) = some next ∧
      next.shared.submitted = {7, 8} ∧ next.shared.submitted = next.shared.held ∧
      next.shared.tasks = [] := by
  have ran : (((machine {} twoWorkers).execute Machine.anyStep twoTasks (start twoWorkers)).bind
      fun state => ((machine {} twoWorkers).step state (2, .proceed 0)).map fun next => decide (
        (state.threads 2).inWait = some .outside ∧ next.threads 2 = .outside ∧
          next.shared.submitted = {7, 8})) = some true := by
    decide +kernel
  obtain ⟨state, executed, rest⟩ := Option.bind_eq_some_iff.mp ran
  obtain ⟨next, stepped, checked⟩ := Option.map_eq_some_iff.mp rest
  obtain ⟨waits, returned, submitted⟩ := of_decide_eq_true checked
  obtain ⟨-, complete, empty⟩ :=
    wait_returns (Machine.reaches_of_execute executed) trivial stepped waits returned
  exact ⟨state, next, executed, stepped, submitted, complete, empty rfl⟩

end ThreadPool

end FastDb.BS
