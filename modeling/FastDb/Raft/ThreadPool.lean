import FastDb.Foundation.Monitor

/-! # The thread pool

`thread_pool` of `test/raft/thread_pool.h` in the build with coroutines: a queue of
coroutine handles under a mutex, workers that take and resume them, and a destructor that
makes the workers return, joins them and destroys what is still queued. Any number of
threads submits, a coroutine that is being resumed too. Handles are resumed in the order
of submission, each by one worker, or destroyed
(`FastDb.Raft.ThreadPool.resumed_in_order`); a worker sleeps on only while as many others
have been woken as handles are queued (`FastDb.Raft.ThreadPool.no_lost_wakeup`); and the
destructor waits for nothing but resumptions that do not return
(`FastDb.Raft.ThreadPool.destructor_completes`).
-/

namespace FastDb.Raft

open Foundation

/-- `thread_pool` with its `thread_saft_queue`; what was submitted, taken by a worker,
resumed to its next suspension and destroyed is history. -/
structure ThreadPool (τ H : Type) where
  queue : List H := []
  mustReturnNullptr : Bool := false
  monitor : Monitor τ := {}
  /-- The threads whose `worker()` has returned. -/
  returned : Finset τ := ∅
  /-- `~thread_pool()` has begun. -/
  begun : Bool := false
  /-- `~thread_pool()` has joined all workers. -/
  joined : Bool := false
  submitted : List H := []
  started : List (τ × H) := []
  finished : List (τ × H) := []
  destroyed : List H := []

namespace ThreadPool

/-- Where a thread is, named by what it does next; in `submit_coroutine` with the handle that
it is resuming, if any. -/
inductive Stage (H : Type)
  | outside
  /-- `put`: `m_queue.emplace(e)`. -/
  | emplacing (handle : H) (resuming : Option H)
  /-- `put`: `m_cv.notify_one()`. -/
  | notifying (resuming : Option H)
  /-- The end of `put`. -/
  | leaving (resuming : Option H)
  /-- `worker`: `m_queue.take()`, which locks the mutex. -/
  | working
  /-- `take`: the condition of `m_cv.wait`. -/
  | testing
  /-- `take`: in `m_cv.wait`, without the mutex. -/
  | sleeping
  /-- `take`: behind `m_cv.wait`. -/
  | taking
  /-- `worker`: `task.value().resume()`. -/
  | resuming (handle : H)
  /-- `worker` has returned. -/
  | returned
  /-- `destroy`: `m_must_return_nullptr.test_and_set()`. -/
  | setting
  /-- `destroy`: `m_cv.notify_all()`. -/
  | notifyingAll
  /-- The end of `destroy`. -/
  | destroying
  /-- `~thread_pool`: `m_threads.pop()` until no thread is left. -/
  | joining
  /-- `~thread_pool`: the loop over what is queued. -/
  | draining
  | destructed
  deriving DecidableEq

/-- The beginning of a call, or the next step of the one that is under way. -/
inductive Event (τ H : Type)
  | submit (handle : H)
  | destruct
  /-- `notify_one()` wakes this sleeper. -/
  | notify (sleeper : τ)
  /-- A sleeper wakes up by itself. -/
  | wakeUp
  /-- The coroutine that is being resumed suspends again or ends, so that `resume()` returns. It
  runs the function that was submitted, which may as well never return. -/
  | finish
  | proceed
  deriving DecidableEq

/-- Where a thread goes on after `submit_coroutine`. -/
def Stage.back {H : Type} : Option H → Stage H
  | none => .outside
  | some handle => .resuming handle

variable {τ H : Type} [DecidableEq τ]

/-- One step of a thread; locking a locked mutex and joining a running thread block, and using
the queue without the mutex while the destructor does is not defined. -/
def atomic (workers : Finset τ) (thread : τ) :
    ThreadPool τ H × Stage H → Event τ H → Option (ThreadPool τ H × Stage H)
  | (pool, .outside), .submit handle =>
      if pool.monitor.owner = none ∧ ¬ pool.joined then
        some ({ pool with monitor := pool.monitor.lock thread }, .emplacing handle none)
      else none
  | (pool, .resuming current), .submit handle =>
      if pool.monitor.owner = none then
        some ({ pool with monitor := pool.monitor.lock thread },
          .emplacing handle (some current))
      else none
  | (pool, .emplacing handle current), .proceed =>
      if pool.joined then none
      else some ({ pool with
        queue := pool.queue ++ [handle]
        submitted := pool.submitted ++ [handle] }, .notifying current)
  | (pool, .notifying current), .notify sleeper =>
      if sleeper ∈ pool.monitor.asleep then
        some ({ pool with monitor := pool.monitor.wake sleeper }, .leaving current)
      else none
  | (pool, .notifying current), .proceed =>
      if pool.monitor.asleep = ∅ then some (pool, .leaving current) else none
  | (pool, .leaving current), .proceed =>
      some ({ pool with monitor := pool.monitor.unlock }, .back current)
  | (pool, .working), .proceed =>
      if pool.monitor.owner = none then
        some ({ pool with monitor := pool.monitor.lock thread }, .testing)
      else none
  | (pool, .testing), .proceed =>
      if pool.mustReturnNullptr ∨ pool.queue ≠ [] then some (pool, .taking)
      else some ({ pool with monitor := pool.monitor.sleep thread }, .sleeping)
  | (pool, .sleeping), .wakeUp =>
      if thread ∈ pool.monitor.asleep then
        some ({ pool with monitor := pool.monitor.wake thread }, .sleeping)
      else none
  | (pool, .sleeping), .proceed =>
      if thread ∈ pool.monitor.woken ∧ pool.monitor.owner = none then
        some ({ pool with monitor := pool.monitor.relock thread }, .testing)
      else none
  | (pool, .taking), .proceed =>
      if pool.mustReturnNullptr then
        some ({ pool with
          monitor := pool.monitor.unlock
          returned := insert thread pool.returned }, .returned)
      else match pool.queue with
        | [] => none
        | handle :: queue =>
            some ({ pool with
              queue
              monitor := pool.monitor.unlock
              started := pool.started ++ [(thread, handle)] }, .resuming handle)
  | (pool, .resuming handle), .finish =>
      some ({ pool with finished := pool.finished ++ [(thread, handle)] }, .working)
  | (pool, .outside), .destruct =>
      if pool.monitor.owner = none ∧ ¬ pool.begun then
        some ({ pool with begun := true, monitor := pool.monitor.lock thread }, .setting)
      else none
  | (pool, .setting), .proceed => some ({ pool with mustReturnNullptr := true }, .notifyingAll)
  | (pool, .notifyingAll), .proceed =>
      some ({ pool with monitor := pool.monitor.wakeAll }, .destroying)
  | (pool, .destroying), .proceed =>
      some ({ pool with monitor := pool.monitor.unlock }, .joining)
  | (pool, .joining), .proceed =>
      if workers ⊆ pool.returned then some ({ pool with joined := true }, .draining) else none
  | (pool, .draining), .proceed =>
      match pool.queue with
      | [] => some (pool, .destructed)
      | handle :: queue =>
          some ({ pool with queue, destroyed := pool.destroyed ++ [handle] }, .draining)
  | _, _ => none

/-- The threads of a program around one pool. -/
abbrev State (τ H : Type) := Threads (ThreadPool τ H) τ (Stage H)

/-- The pool with its workers and callers. -/
def machine (workers : Finset τ) : Machine (State τ H) (τ × Event τ H) :=
  Threads.interleave (atomic workers)

/-- A new pool: its workers begin their loops. -/
def start (workers : Finset τ) : State τ H where
  shared := {}
  threads thread := if thread ∈ workers then .working else .outside

/-! ## What a step does -/

/-- What one step of a thread does. -/
inductive Moves (workers : Finset τ) (thread : τ) :
    Event τ H → ThreadPool τ H × Stage H → ThreadPool τ H × Stage H → Prop
  | submit {pool : ThreadPool τ H} (handle : H) (current : Option H)
      (free : pool.monitor.owner = none) (opened : current = none → pool.joined = false) :
      Moves workers thread (.submit handle) (pool, .back current)
        ({ pool with monitor := pool.monitor.lock thread }, .emplacing handle current)
  | emplace {pool : ThreadPool τ H} (handle : H) (current : Option H)
      (opened : pool.joined = false) :
      Moves workers thread .proceed (pool, .emplacing handle current) ({ pool with
        queue := pool.queue ++ [handle]
        submitted := pool.submitted ++ [handle] }, .notifying current)
  | notifyOne {pool : ThreadPool τ H} {sleeper : τ} (current : Option H)
      (sleeps : sleeper ∈ pool.monitor.asleep) :
      Moves workers thread (.notify sleeper) (pool, .notifying current)
        ({ pool with monitor := pool.monitor.wake sleeper }, .leaving current)
  | notifyNone {pool : ThreadPool τ H} (current : Option H) (awake : pool.monitor.asleep = ∅) :
      Moves workers thread .proceed (pool, .notifying current) (pool, .leaving current)
  | leave {pool : ThreadPool τ H} (current : Option H) :
      Moves workers thread .proceed (pool, .leaving current)
        ({ pool with monitor := pool.monitor.unlock }, .back current)
  | work {pool : ThreadPool τ H} (free : pool.monitor.owner = none) :
      Moves workers thread .proceed (pool, .working)
        ({ pool with monitor := pool.monitor.lock thread }, .testing)
  | pass {pool : ThreadPool τ H} (some : pool.mustReturnNullptr = true ∨ pool.queue ≠ []) :
      Moves workers thread .proceed (pool, .testing) (pool, .taking)
  | sleep {pool : ThreadPool τ H} (opened : pool.mustReturnNullptr = false)
      (empty : pool.queue = []) :
      Moves workers thread .proceed (pool, .testing)
        ({ pool with monitor := pool.monitor.sleep thread }, .sleeping)
  | wakeUp {pool : ThreadPool τ H} (sleeps : thread ∈ pool.monitor.asleep) :
      Moves workers thread .wakeUp (pool, .sleeping)
        ({ pool with monitor := pool.monitor.wake thread }, .sleeping)
  | relock {pool : ThreadPool τ H} (woke : thread ∈ pool.monitor.woken)
      (free : pool.monitor.owner = none) :
      Moves workers thread .proceed (pool, .sleeping)
        ({ pool with monitor := pool.monitor.relock thread }, .testing)
  | stop {pool : ThreadPool τ H} (must : pool.mustReturnNullptr = true) :
      Moves workers thread .proceed (pool, .taking) ({ pool with
        monitor := pool.monitor.unlock
        returned := insert thread pool.returned }, .returned)
  | take {pool : ThreadPool τ H} {handle : H} {queue : List H}
      (opened : pool.mustReturnNullptr = false) (first : pool.queue = handle :: queue) :
      Moves workers thread .proceed (pool, .taking) ({ pool with
        queue
        monitor := pool.monitor.unlock
        started := pool.started ++ [(thread, handle)] }, .resuming handle)
  | finish {pool : ThreadPool τ H} (handle : H) :
      Moves workers thread .finish (pool, .resuming handle)
        ({ pool with finished := pool.finished ++ [(thread, handle)] }, .working)
  | destruct {pool : ThreadPool τ H} (free : pool.monitor.owner = none)
      (first : pool.begun = false) :
      Moves workers thread .destruct (pool, .outside)
        ({ pool with begun := true, monitor := pool.monitor.lock thread }, .setting)
  | set {pool : ThreadPool τ H} :
      Moves workers thread .proceed (pool, .setting)
        ({ pool with mustReturnNullptr := true }, .notifyingAll)
  | notifyAll {pool : ThreadPool τ H} :
      Moves workers thread .proceed (pool, .notifyingAll)
        ({ pool with monitor := pool.monitor.wakeAll }, .destroying)
  | destroy {pool : ThreadPool τ H} :
      Moves workers thread .proceed (pool, .destroying)
        ({ pool with monitor := pool.monitor.unlock }, .joining)
  | join {pool : ThreadPool τ H} (all : workers ⊆ pool.returned) :
      Moves workers thread .proceed (pool, .joining) ({ pool with joined := true }, .draining)
  | drain {pool : ThreadPool τ H} {handle : H} {queue : List H}
      (first : pool.queue = handle :: queue) :
      Moves workers thread .proceed (pool, .draining)
        ({ pool with queue, destroyed := pool.destroyed ++ [handle] }, .draining)
  | drained {pool : ThreadPool τ H} (empty : pool.queue = []) :
      Moves workers thread .proceed (pool, .draining) (pool, .destructed)

/-- Every atomic step is one of the cases. -/
theorem atomic_moves {workers : Finset τ} {thread : τ} {pool after : ThreadPool τ H}
    {before stage : Stage H} {event : Event τ H}
    (ran : atomic workers thread (pool, before) event = some (after, stage)) :
    Moves workers thread event (pool, before) (after, stage) := by
  unfold atomic at ran
  split at ran
  all_goals rename_i same
  all_goals try obtain ⟨rfl, rfl⟩ := Prod.mk.inj same
  · split at ran
    · next free =>
        cases ran
        exact .submit _ none free.1 fun _ => by simpa using free.2
    · cases ran
  · split at ran
    · next current handle free =>
        cases ran
        exact .submit handle (some current) free (by simp)
    · cases ran
  · split at ran
    · cases ran
    · next opened =>
        cases ran
        exact .emplace _ _ (by simpa using opened)
  · split at ran
    · next sleeps =>
        cases ran
        exact .notifyOne _ sleeps
    · cases ran
  · split at ran
    · next awake =>
        cases ran
        exact .notifyNone _ awake
    · cases ran
  · cases ran
    exact .leave _
  · split at ran
    · next free =>
        cases ran
        exact .work free
    · cases ran
  · split at ran
    · next some =>
        cases ran
        exact .pass some
    · next none =>
        cases ran
        obtain ⟨opened, empty⟩ := not_or.mp none
        exact .sleep (by simpa using opened) (by simpa using empty)
  · split at ran
    · next sleeps =>
        cases ran
        exact .wakeUp sleeps
    · cases ran
  · split at ran
    · next woke =>
        cases ran
        exact .relock woke.1 woke.2
    · cases ran
  · split at ran
    · next must =>
        cases ran
        exact .stop must
    · next opened =>
        split at ran
        · cases ran
        · next first =>
            cases ran
            exact .take (by simpa using opened) first
  · cases ran
    exact .finish _
  · split at ran
    · next free =>
        cases ran
        exact .destruct free.1 (by simpa using free.2)
    · cases ran
  · cases ran
    exact .set
  · cases ran
    exact .notifyAll
  · cases ran
    exact .destroy
  · split at ran
    · next all =>
        cases ran
        exact .join all
    · cases ran
  · split at ran
    · next empty =>
        cases ran
        exact .drained empty
    · next first =>
        cases ran
        exact .drain first
  · cases ran

/-! ## Who is where -/

/-- What a stage is to the mutex and to the condition variable. -/
def Stage.role : Stage H → Monitor.Role
  | .sleeping => .waiting
  | .outside | .working | .resuming _ | .returned | .joining | .draining | .destructed => .outside
  | _ => .inside

/-- The stages of `worker()`. -/
def Stage.worker : Stage H → Bool
  | .working | .testing | .sleeping | .taking | .resuming _ | .returned => true
  | .emplacing _ current | .notifying current | .leaving current => current.isSome
  | _ => false

/-- How far `~thread_pool()` is. -/
def Stage.phase : Stage H → Nat
  | .setting => 1
  | .notifyingAll => 2
  | .destroying => 3
  | .joining => 4
  | .draining => 5
  | .destructed => 6
  | _ => 0

@[simp]
theorem role_back (current : Option H) : (Stage.back current).role = .outside := by
  cases current <;> rfl

@[simp]
theorem worker_back (current : Option H) : (Stage.back current).worker = current.isSome := by
  cases current <;> rfl

@[simp]
theorem phase_back (current : Option H) : (Stage.back current).phase = 0 := by
  cases current <;> rfl

/-- The pool uses its mutex and condition variable as a monitor. -/
theorem Moves.monitor {workers : Finset τ} {thread : τ} {pool after : ThreadPool τ H}
    {before stage : Stage H} {event : Event τ H}
    (moves : Moves workers thread event (pool, before) (after, stage)) :
    Monitor.Moves thread (pool.monitor, before.role) (after.monitor, stage.role) := by
  cases moves with
  | submit handle current free => exact role_back current ▸ .lock free
  | emplace | notifyNone | pass | finish | set | join | drain | drained => exact .stay _ _
  | notifyOne current sleeps => exact .wake _ sleeps
  | leave current => exact role_back current ▸ .unlock _
  | work free => exact .lock free
  | sleep => exact .sleep _
  | wakeUp sleeps => exact .wake _ sleeps
  | relock woke free => exact .relock woke free
  | stop | take | destroy => exact .unlock _
  | destruct free => exact .lock free
  | notifyAll => exact .wakeAll _ _

/-- What a thread at a stage knows of the pool. -/
structure Settled (workers : Finset τ) (thread : τ) (pool : ThreadPool τ H) (stage : Stage H) :
    Prop where
  placed : Monitor.Placed thread pool.monitor stage.role
  worker : stage.worker = true ↔ thread ∈ workers
  returned : stage = .returned ↔ thread ∈ pool.returned
  begun : 0 < stage.phase → pool.begun = true
  flagged : 1 < stage.phase → pool.mustReturnNullptr = true
  joined : 4 < stage.phase → pool.joined = true
  drained : stage = .destructed → pool.queue = []
  available : stage = .taking → pool.mustReturnNullptr = true ∨ pool.queue ≠ []

namespace Settled

variable {workers : Finset τ} {thread other : τ} {pool after : ThreadPool τ H}
  {before stage idle : Stage H} {event : Event τ H}

/-- A step keeps what its own thread knows. -/
theorem own (settled : Settled workers thread pool before)
    (moves : Moves workers thread event (pool, before) (after, stage)) :
    Settled workers thread after stage := by
  have placed := settled.placed.own moves.monitor
  obtain ⟨-, worker, returned, begun, flagged, joined, drained, available⟩ := settled
  cases moves with
  | submit handle current free opened =>
      simp only [worker_back] at worker
      have away : thread ∉ pool.returned := fun gone => by
        cases current <;> exact absurd (returned.mpr gone) (by simp [Stage.back])
      exact ⟨placed, worker, by simpa using away, by simp [Stage.phase], by simp [Stage.phase],
        by simp [Stage.phase], by simp, by simp⟩
  | leave current =>
      have away : thread ∉ pool.returned := fun gone => by simpa using returned.mpr gone
      refine ⟨placed, by rw [worker_back]; exact worker, ?_, by simp, by simp, by simp, ?_, ?_⟩
      all_goals cases current <;> simp [Stage.back, away]
  | stop must => exact ⟨placed, worker, by simp, by simp [Stage.phase], by simp [Stage.phase],
      by simp [Stage.phase], by simp, by simp⟩
  | emplace | notifyOne | notifyNone | work | sleep | wakeUp | relock | take | finish | set
  | notifyAll | destroy | join | destruct | pass | drain | drained =>
      constructor <;> grind [Stage.worker, Stage.phase]

/-- A step does not disturb what another thread knows. -/
theorem undisturbed (settled : Settled workers thread pool before)
    (idler : Settled workers other pool idle) (different : other ≠ thread)
    (moves : Moves workers thread event (pool, before) (after, stage)) :
    Settled workers other after idle := by
  have placed := settled.placed.undisturbed idler.placed different moves.monitor
  have alone : before.role = .inside → idle.role ≠ .inside := fun inside insideToo =>
    different (Option.some.inj
      ((idler.placed.owner.mp insideToo).symm.trans (settled.placed.owner.mp inside)))
  obtain ⟨-, worker, returned, begun, flagged, joined, drained, available⟩ := idler
  cases moves with
  | submit | notifyOne | notifyNone | leave | work | pass | sleep | wakeUp | relock | finish
  | notifyAll | destroy | drained =>
      exact ⟨placed, worker, returned, begun, flagged, joined, drained, available⟩
  | emplace handle current opened =>
      exact ⟨placed, worker, returned, begun, flagged, joined, by grind [Stage.phase], by simp⟩
  | stop => exact ⟨placed, worker, by simpa [different] using returned, begun, flagged, joined,
      drained, available⟩
  | take opened first =>
      exact ⟨placed, worker, returned, begun, flagged, joined, by grind [Stage.phase],
        fun taking => absurd (taking ▸ rfl) (alone rfl)⟩
  | destruct | set | join =>
      exact ⟨placed, worker, returned, by simp_all, by simp_all, by simp_all, drained, by simp_all⟩
  | drain first =>
      exact ⟨placed, worker, returned, begun, flagged, joined, by grind [Stage.phase],
        fun _ => .inl (settled.flagged (by simp [Stage.phase]))⟩

end Settled

/-- Every thread is settled in every state of a run. -/
theorem settled_of_reaches {workers : Finset τ} {allowed : State τ H → τ × Event τ H → Prop}
    {state : State τ H} (reached : (machine workers).Reaches allowed (start workers) state)
    (thread : τ) : Settled workers thread state.shared (state.threads thread) := by
  refine Threads.reaches_assertions reached (Settled workers) ?_
    (fun _ _ _ _ _ _ settled ran => (settled _).own (atomic_moves ran))
    (fun _ _ _ _ _ other different _ settled ran =>
      (settled _).undisturbed (settled other) different (atomic_moves ran)) thread
  intro thread
  by_cases works : thread ∈ workers
  all_goals
    simp only [start, works, if_true, if_false]
    refine ⟨Monitor.placed_initial thread, ?_, ?_, ?_, ?_, ?_, ?_, ?_⟩
    all_goals simp [Stage.worker, Stage.phase, works]

/-! ## The order of the handles -/

/-- The handles that a thread is resuming. -/
def Stage.current : Stage H → List H
  | .resuming handle => [handle]
  | .emplacing _ current | .notifying current | .leaving current => current.toList
  | _ => []

/-- The handles of a history that are a thread's. -/
def resumedBy (thread : τ) (history : List (τ × H)) : List H :=
  (history.filter (·.1 = thread)).map Prod.snd

/-- What a thread has resumed after one more resumption. -/
@[simp]
theorem resumedBy_append (thread worker : τ) (handle : H) (history : List (τ × H)) :
    resumedBy thread (history ++ [(worker, handle)]) =
      resumedBy thread history ++ if worker = thread then [handle] else [] := by
  by_cases same : worker = thread <;> simp [resumedBy, same]

/-- Every submitted handle is accounted for once, and destroyed after the last was taken. -/
structure Ordered (pool : ThreadPool τ H) : Prop where
  account : pool.submitted = pool.started.map Prod.snd ++ pool.destroyed ++ pool.queue
  intact : pool.destroyed ≠ [] → pool.joined = true
  joined : pool.joined = true → pool.mustReturnNullptr = true

/-- **Every step** keeps the order. -/
theorem Ordered.kept {workers : Finset τ} {thread : τ} {pool after : ThreadPool τ H}
    {before stage : Stage H} {event : Event τ H} (ordered : Ordered pool)
    (settled : Settled workers thread pool before)
    (moves : Moves workers thread event (pool, before) (after, stage)) : Ordered after := by
  obtain ⟨account, intact, joined⟩ := ordered
  cases moves with
  | submit | notifyOne | notifyNone | leave | work | pass | sleep | wakeUp | relock | stop
  | finish | destruct | notifyAll | destroy | drained => exact ⟨account, intact, joined⟩
  | emplace handle => exact ⟨by simp [account], intact, joined⟩
  | take opened first =>
      have none : pool.destroyed = [] := by
        by_contra some
        simp [joined (intact some)] at opened
      exact ⟨by simp [account, first, none], intact, joined⟩
  | set => exact ⟨account, intact, fun _ => rfl⟩
  | join => exact ⟨account, fun _ => rfl, fun _ => settled.flagged (by simp [Stage.phase])⟩
  | drain first =>
      exact ⟨by simp [account, first], fun _ => settled.joined (by simp [Stage.phase]), joined⟩

theorem ordered_of_reaches {workers : Finset τ} {allowed : State τ H → τ × Event τ H → Prop}
    {state : State τ H} (reached : (machine workers).Reaches allowed (start workers) state) :
    Ordered state.shared :=
  Threads.reaches_invariant_given reached _
    (fun _ earlier thread => settled_of_reaches earlier thread) (fun state => Ordered state.shared)
    ⟨rfl, by simp [start], by simp [start]⟩
    (fun _ _ thread _ _ _ settled ordered _ ran =>
      ordered.kept (settled thread) (atomic_moves ran))

/-- What a step of a thread does to the histories of all threads. -/
theorem Moves.resumed {workers : Finset τ} {thread : τ} {pool after : ThreadPool τ H}
    {before stage : Stage H} {event : Event τ H}
    (moves : Moves workers thread event (pool, before) (after, stage))
    (other : τ) (idle : Stage H)
    (same : other = thread → idle = before)
    (resumed : resumedBy other pool.started = resumedBy other pool.finished ++ idle.current) :
    resumedBy other after.started =
      resumedBy other after.finished ++ (if other = thread then stage else idle).current := by
  by_cases own : other = thread
  · obtain rfl := same own
    subst own
    cases moves
    case submit current _ _ | leave current =>
      cases current <;> simpa [Stage.back, Stage.current] using resumed
    all_goals simp_all [Stage.current]
  · cases moves
    all_goals simp_all [Ne.symm own]

theorem resumed_of_reaches {workers : Finset τ} {allowed : State τ H → τ × Event τ H → Prop}
    {state : State τ H} (reached : (machine workers).Reaches allowed (start workers) state)
    (thread : τ) : resumedBy thread state.shared.started =
      resumedBy thread state.shared.finished ++ (state.threads thread).current := by
  refine Threads.reaches_invariant reached (fun state => ∀ thread,
    resumedBy thread state.shared.started =
      resumedBy thread state.shared.finished ++ (state.threads thread).current) ?_ ?_ thread
  · intro thread
    by_cases works : thread ∈ workers <;> simp [start, works, Stage.current]
  · intro pool threads thread event after stage resumed _ ran other
    have step := (atomic_moves ran).resumed other (threads other) (by rintro rfl; rfl)
      (resumed other)
    by_cases own : other = thread <;> simpa [own] using step

/-- **First in, first out.** The handles are taken in the order of their submission and the
rest of them destroyed, each once, and a worker resumes one of its handles after the other. -/
theorem resumed_in_order {workers : Finset τ} {allowed : State τ H → τ × Event τ H → Prop}
    {state : State τ H} (reached : (machine workers).Reaches allowed (start workers) state) :
    state.shared.submitted =
        state.shared.started.map Prod.snd ++ state.shared.destroyed ++ state.shared.queue ∧
      ∀ thread, resumedBy thread state.shared.started =
        resumedBy thread state.shared.finished ++ (state.threads thread).current :=
  ⟨(ordered_of_reaches reached).account, resumed_of_reaches reached⟩

/-- Two workers fall asleep; a thread submits 7, and the coroutine that the woken worker
resumes submits 8. -/
def resubmission : List (Fin 3 × Event (Fin 3) Nat) :=
  [(0, .proceed), (0, .proceed), (1, .proceed), (1, .proceed), (2, .submit 7), (2, .proceed),
    (2, .notify 0), (2, .proceed), (0, .proceed), (0, .proceed), (0, .proceed), (0, .submit 8),
    (0, .proceed), (0, .notify 1), (0, .proceed)]

/-- One handle is being resumed, and the next is queued. -/
theorem resumed_in_order_resubmitted :
    ∃ state : State (Fin 3) Nat,
      (machine {0, 1}).execute Machine.anyStep resubmission (start {0, 1}) = some state ∧
      state.threads 0 = .resuming 7 ∧ state.shared.queue = [8] ∧
      resumedBy 0 state.shared.started = resumedBy 0 state.shared.finished ++ [7] := by
  have ran : ((machine {0, 1}).execute Machine.anyStep resubmission (start {0, 1})).map
      (fun state => decide (state.threads 0 = .resuming 7 ∧ state.shared.queue = [8])) =
        some true := by
    decide +kernel
  obtain ⟨state, executed, checked⟩ := Option.map_eq_some_iff.mp ran
  obtain ⟨resuming, queued⟩ := of_decide_eq_true checked
  have resumed := (resumed_in_order (Machine.reaches_of_execute executed)).2 0
  exact ⟨state, executed, resuming, queued, by simpa [resuming, Stage.current] using resumed⟩

/-! ## Wakeups -/

/-- Whether a thread with the mutex will take a handle or wake a sleeper. -/
def Stage.heeds : Stage H → Nat
  | .testing | .taking | .notifying _ => 1
  | _ => 0

/-- A step keeps the handles covered that are queued while somebody sleeps. -/
theorem Moves.covered {workers : Finset τ} {thread : τ} {pool after : ThreadPool τ H}
    {before stage : Stage H} {event : Event τ H}
    (moves : Moves workers thread event (pool, before) (after, stage))
    (settled : Settled workers thread pool before)
    (apart : ∀ sleeper, sleeper ∈ pool.monitor.asleep → sleeper ∉ pool.monitor.woken)
    (opened : after.mustReturnNullptr = false) {total total' : Nat}
    (change : total' + before.heeds = total + stage.heeds)
    (covered : pool.monitor.asleep.Nonempty →
      pool.queue.length ≤ pool.monitor.woken.card + total)
    (asleep : after.monitor.asleep.Nonempty) :
    after.queue.length ≤ after.monitor.woken.card + total' := by
  cases moves with
  | submit handle current | leave current =>
      have same : total' = total := by cases current <;> exact change
      exact same ▸ covered asleep
  | emplace =>
      have := covered asleep
      simp only [Stage.heeds] at change
      simp only [List.length_append, List.length_singleton]
      omega
  | notifyOne current sleeps =>
      have := covered ⟨_, sleeps⟩
      simp only [Stage.heeds] at change
      simp only [Monitor.wake, Condition.wake, Finset.card_insert_of_notMem (apart _ sleeps)]
      omega
  | notifyNone current awake => simp [awake] at asleep
  | work =>
      have := covered asleep
      simp only [Stage.heeds] at change
      simp only [Monitor.lock]
      omega
  | pass | finish | destruct | destroy | join | drained =>
      have same : total' = total := Nat.add_right_cancel change
      exact same ▸ covered asleep
  | sleep opened empty => simp [empty]
  | wakeUp sleeps =>
      have := covered ⟨_, sleeps⟩
      simp only [Stage.heeds] at change
      simp only [Monitor.wake, Condition.wake, Finset.card_insert_of_notMem (apart _ sleeps)]
      omega
  | relock woke =>
      have := covered (asleep.mono (Finset.erase_subset _ _))
      have := Finset.card_erase_add_one woke
      simp only [Stage.heeds] at change
      simp only [Monitor.relock, Condition.leave]
      omega
  | stop must => simp [must] at opened
  | take opened first =>
      have := covered asleep
      simp only [Stage.heeds] at change
      simp only [first, List.length_cons] at this
      simp only [Monitor.unlock]
      omega
  | set => simp at opened
  | notifyAll => simp [Monitor.wakeAll, Condition.wakeAll] at asleep
  | drain => simp [settled.flagged (by simp [Stage.phase])] at opened

/-- Nobody sleeps once the destructor has notified all. -/
def Notified (state : State τ H) : Prop :=
  state.shared.mustReturnNullptr = true →
    state.shared.monitor.asleep = ∅ ∨ ∃ thread, state.threads thread = .notifyingAll

/-- **Every step** keeps the invariant. -/
theorem Notified.kept {workers : Finset τ} {thread : τ} {pool after : ThreadPool τ H}
    {threads : τ → Stage H} {stage : Stage H} {event : Event τ H}
    (notified : Notified ⟨pool, threads⟩)
    (moves : Moves workers thread event (pool, threads thread) (after, stage)) :
    Notified ⟨after, Function.update threads thread stage⟩ := by
  intro must
  have stays : ∀ other, threads other = .notifyingAll → threads thread ≠ .notifyingAll →
      ∃ other, Function.update threads thread stage other = .notifyingAll := by
    intro other notifying elsewhere
    refine ⟨other, ?_⟩
    rw [Function.update_of_ne (by rintro rfl; exact elsewhere notifying), notifying]
  generalize before : threads thread = own at moves
  cases moves with
  | set => exact .inr ⟨thread, Function.update_self ..⟩
  | notifyAll => exact .inl rfl
  | sleep opened => simp [opened] at must
  | submit handle current | leave current =>
      refine (notified must).imp id fun notifying => ?_
      obtain ⟨other, notifying⟩ := notifying
      exact stays other notifying (by rw [before]; cases current <;> simp [Stage.back])
  | notifyOne | wakeUp =>
      refine (notified must).imp (fun none => by simp_all) fun notifying => ?_
      obtain ⟨other, notifying⟩ := notifying
      exact stays other notifying (by simp [before])
  | relock =>
      refine (notified must).imp (fun none => ?_) fun notifying => ?_
      · simp_all [Monitor.relock, Condition.leave]
      · obtain ⟨other, notifying⟩ := notifying
        exact stays other notifying (by simp [before])
  | emplace | notifyNone | work | pass | stop | take | finish | destruct | destroy | join | drain
  | drained =>
      refine (notified must).imp id fun notifying => ?_
      obtain ⟨other, notifying⟩ := notifying
      exact stays other notifying (by simp [before])

theorem notified_of_reaches {workers : Finset τ} {allowed : State τ H → τ × Event τ H → Prop}
    {state : State τ H} (reached : (machine workers).Reaches allowed (start workers) state) :
    Notified state :=
  Threads.reaches_invariant reached Notified (fun must => by simp [start] at must)
    fun _ _ _ _ _ _ notified _ ran => notified.kept (atomic_moves ran)

theorem covered_of_reaches [Fintype τ] {workers : Finset τ}
    {allowed : State τ H → τ × Event τ H → Prop} {state : State τ H}
    (reached : (machine workers).Reaches allowed (start workers) state)
    (opened : state.shared.mustReturnNullptr = false)
    (asleep : state.shared.monitor.asleep.Nonempty) :
    state.shared.queue.length ≤
      state.shared.monitor.woken.card + ∑ thread, (state.threads thread).heeds := by
  refine Threads.reaches_invariant_given reached _
    (fun _ earlier thread => settled_of_reaches earlier thread)
    (fun state => state.shared.mustReturnNullptr = false → state.shared.monitor.asleep.Nonempty →
      state.shared.queue.length ≤
        state.shared.monitor.woken.card + ∑ thread, (state.threads thread).heeds)
    (fun _ _ => by simp [start]) ?_ opened asleep
  intro pool threads thread event after stage settled covered _ ran opened asleep
  have moves := atomic_moves ran
  have opened_before : pool.mustReturnNullptr = false := by
    cases pool_flag : pool.mustReturnNullptr with
    | false => rfl
    | true =>
        generalize threads thread = own at moves
        cases moves <;> simp_all
  exact moves.covered (settled thread) (fun sleeper => (settled sleeper).placed.waits.apart) opened
    (Threads.sum_update Stage.heeds threads thread stage) (covered opened_before) asleep

/-- **No lost wakeup.** When nobody has the mutex and a worker sleeps on, as many others have been
woken as handles are queued, and a worker that has left `wait` finds a handle to take. -/
theorem no_lost_wakeup [Fintype τ] {workers : Finset τ}
    {allowed : State τ H → τ × Event τ H → Prop} {state : State τ H}
    (reached : (machine workers).Reaches allowed (start workers) state) :
    (state.shared.monitor.owner = none → state.shared.monitor.asleep.Nonempty →
      state.shared.mustReturnNullptr = false ∧
        state.shared.queue.length ≤ state.shared.monitor.woken.card) ∧
      ∀ thread, state.threads thread = .taking →
        state.shared.mustReturnNullptr = true ∨ state.shared.queue ≠ [] := by
  have settled := settled_of_reaches reached
  refine ⟨fun free asleep => ?_, fun thread => (settled thread).available⟩
  have nobody : ∀ thread, (state.threads thread).role ≠ .inside := fun thread inside => by
    simpa [free] using (settled thread).placed.owner.mp inside
  have opened : state.shared.mustReturnNullptr = false := by
    by_contra must
    obtain none | ⟨thread, notifying⟩ := notified_of_reaches reached (by simpa using must)
    · simp [none] at asleep
    · exact nobody thread (by simp [notifying, Stage.role])
  have idle : ∑ thread, (state.threads thread).heeds = 0 := by
    refine Finset.sum_eq_zero fun thread _ => ?_
    have outside := nobody thread
    generalize state.threads thread = stage at outside
    cases stage <;> simp_all [Stage.role, Stage.heeds]
  exact ⟨opened, by simpa [idle] using covered_of_reaches reached opened asleep⟩

/-- One worker is woken for the one handle, the other sleeps on. -/
theorem no_lost_wakeup_resubmitted :
    ∃ state : State (Fin 3) Nat,
      (machine {0, 1}).execute Machine.anyStep (resubmission.take 8) (start {0, 1}) =
        some state ∧
      state.shared.monitor.asleep = {1} ∧
      state.shared.queue.length ≤ state.shared.monitor.woken.card := by
  have ran : ((machine {0, 1}).execute Machine.anyStep (resubmission.take 8) (start {0, 1})).map
      (fun state => decide (state.shared.monitor.owner = none ∧
        state.shared.monitor.asleep = {1})) = some true := by
    decide +kernel
  obtain ⟨state, executed, checked⟩ := Option.map_eq_some_iff.mp ran
  obtain ⟨free, asleep⟩ := of_decide_eq_true checked
  have covered := (no_lost_wakeup (Machine.reaches_of_execute executed)).1 free
  exact ⟨state, executed, asleep, (covered (by simp [asleep])).2⟩

/-! ## Destruction -/

/-- The next steps of the calls that are under way, whatever is being resumed. -/
def Event.prompt : Event τ H → Bool
  | .proceed | .notify _ => true
  | _ => false

/-- The next steps of the calls that are under way, and the returns of resumptions. -/
def Event.underWay : Event τ H → Bool
  | .finish => true
  | event => event.prompt

/-- The destructor stays under way, and has joined all workers once it says so. -/
structure Destructing (workers : Finset τ) (state : State τ H) : Prop where
  begun : state.shared.begun = true → ∃ thread, 0 < (state.threads thread).phase
  joined : state.shared.joined = true → ∃ thread, 4 < (state.threads thread).phase
  returned : state.shared.joined = true → workers ⊆ state.shared.returned

/-- No step takes the destructor back. -/
theorem Moves.phase {workers : Finset τ} {thread : τ} {pool after : ThreadPool τ H}
    {before stage : Stage H} {event : Event τ H}
    (moves : Moves workers thread event (pool, before) (after, stage)) :
    before.phase ≤ stage.phase := by
  cases moves with
  | submit handle current | leave current => cases current <;> simp [Stage.phase, Stage.back]
  | _ => simp [Stage.phase]

/-- **Every step** keeps the invariant. -/
theorem Destructing.kept {workers : Finset τ} {thread : τ} {pool after : ThreadPool τ H}
    {threads : τ → Stage H} {stage : Stage H} {event : Event τ H}
    (destructing : Destructing workers ⟨pool, threads⟩)
    (moves : Moves workers thread event (pool, threads thread) (after, stage)) :
    Destructing workers ⟨after, Function.update threads thread stage⟩ := by
  obtain ⟨begun, joined, returned⟩ := destructing
  have stays : ∀ phase, (∃ other, phase < (threads other).phase) →
      ∃ other, phase < (Function.update threads thread stage other).phase := by
    rintro phase ⟨other, further⟩
    refine ⟨other, ?_⟩
    by_cases own : other = thread
    · subst own
      rw [Function.update_self]
      exact further.trans_le moves.phase
    · rwa [Function.update_of_ne own]
  generalize threads thread = own at moves
  cases moves with
  | destruct => exact ⟨fun _ => ⟨thread, by simp [Stage.phase]⟩, stays 4 ∘ joined, returned⟩
  | join all =>
      exact ⟨stays 0 ∘ begun, fun _ => ⟨thread, by simp [Stage.phase]⟩, fun _ => all⟩
  | stop => exact ⟨stays 0 ∘ begun, stays 4 ∘ joined,
      fun all => (returned all).trans (Finset.subset_insert _ _)⟩
  | _ => exact ⟨stays 0 ∘ begun, stays 4 ∘ joined, returned⟩

theorem destructing_of_reaches {workers : Finset τ}
    {allowed : State τ H → τ × Event τ H → Prop} {state : State τ H}
    (reached : (machine workers).Reaches allowed (start workers) state) :
    Destructing workers state :=
  Threads.reaches_invariant reached (Destructing workers)
    ⟨by simp [start], by simp [start], by simp [start]⟩
    fun _ _ _ _ _ _ destructing _ ran => destructing.kept (atomic_moves ran)

/-- How many steps a thread can take until it has left the pool. -/
def Stage.rank : Stage H → Nat
  | .outside | .returned | .destructed => 0
  | .emplacing _ current => current.elim 4 fun _ => 8
  | .notifying current => current.elim 2 fun _ => 6
  | .leaving current => current.elim 1 fun _ => 5
  | .resuming _ => 4
  | .working | .sleeping => 3
  | .testing => 2
  | .taking => 1
  | .setting => 5
  | .notifyingAll => 4
  | .destroying => 3
  | .joining => 2
  | .draining => 1

/-- The steps that are left for a pool under destruction. -/
def left [Fintype τ] (state : State τ H) : Nat :=
  state.shared.queue.length + ∑ thread, (state.threads thread).rank

/-- A step of a call that is under way leads a pool under destruction nearer to its end. -/
theorem Moves.nearer {workers : Finset τ} {thread : τ} {pool after : ThreadPool τ H}
    {before stage : Stage H} {event : Event τ H} (underWay : event.underWay = true)
    (moves : Moves workers thread event (pool, before) (after, stage))
    (closing : before.role = .inside → pool.mustReturnNullptr = true ∨ 0 < before.phase) :
    after.queue.length + stage.rank < pool.queue.length + before.rank := by
  cases moves with
  | submit | wakeUp | destruct => simp [Event.underWay, Event.prompt] at underWay
  | emplace _ current | notifyOne current | notifyNone current | leave current =>
      cases current <;> simp [Stage.rank, Stage.back]
  | sleep opened | take opened => simp [opened, Stage.phase, Stage.role] at closing
  | drain first => simp [first]
  | work | pass | relock | stop | finish | set | notifyAll | destroy | join | drained =>
      simp [Stage.rank]

/-- Who has the mutex is not kept from going on. -/
theorem inside_proceeds {workers : Finset τ} {thread : τ} {pool : ThreadPool τ H}
    {stage : Stage H} (inside : stage.role = .inside) (opened : pool.joined = false)
    (available : stage = .taking → pool.mustReturnNullptr = true ∨ pool.queue ≠ []) :
    ∃ event, event.prompt = true ∧ (atomic workers thread (pool, stage) event).isSome := by
  cases stage with
  | outside | working | sleeping | resuming | returned | joining | draining | destructed =>
      simp [Stage.role] at inside
  | emplacing => exact ⟨.proceed, rfl, by simp [atomic, opened]⟩
  | notifying =>
      obtain awake | ⟨sleeper, sleeps⟩ := pool.monitor.asleep.eq_empty_or_nonempty
      · exact ⟨.proceed, rfl, by simp [atomic, awake]⟩
      · exact ⟨.notify sleeper, rfl, by simp [atomic, sleeps]⟩
  | leaving | setting | notifyingAll | destroying => exact ⟨.proceed, rfl, by simp [atomic]⟩
  | testing =>
      refine ⟨.proceed, rfl, ?_⟩
      simp only [atomic]
      split <;> rfl
  | taking =>
      refine ⟨.proceed, rfl, ?_⟩
      obtain must | some := available rfl
      · simp [atomic, must]
      · obtain ⟨handle, queue, first⟩ := List.exists_cons_of_ne_nil some
        simp only [atomic, first]
        split <;> rfl

section Completion

variable {workers : Finset τ} {allowed : State τ H → τ × Event τ H → Prop} {state : State τ H}

/-- Under destruction only the destructor has the mutex before the flag is set. -/
theorem closing_of_reaches (reached : (machine workers).Reaches allowed (start workers) state)
    (begun : state.shared.begun = true) {thread : τ}
    (inside : (state.threads thread).role = .inside) :
    state.shared.mustReturnNullptr = true ∨ 0 < (state.threads thread).phase := by
  have settled := settled_of_reaches reached
  obtain ⟨destructor, destructs⟩ := (destructing_of_reaches reached).begun begun
  by_cases further : 1 < (state.threads destructor).phase
  · exact .inl ((settled destructor).flagged further)
  · have setting : state.threads destructor = .setting := by
      generalize state.threads destructor = stage at destructs further
      cases stage <;> simp_all [Stage.phase]
    have owns := (settled destructor).placed.owner.mp (by rw [setting]; rfl)
    have same := Option.some.inj (owns.symm.trans ((settled thread).placed.owner.mp inside))
    exact .inr (same ▸ destructs)

/-- The workers have returned, or are in resumptions that have not. -/
def Awaited (workers : Finset τ) (state : State τ H) : Prop :=
  ∀ worker ∈ workers, worker ∈ state.shared.returned ∨
    ∃ handle, state.threads worker = .resuming handle

/-- The destructor is through, or it waits for workers that are in resumptions. -/
def Halted (workers : Finset τ) (state : State τ H) : Prop :=
  Awaited workers state ∧ ((∃ thread, state.threads thread = .destructed) ∨
    ∃ worker ∈ workers, ∃ handle, state.threads worker = .resuming handle)

/-- Short of its end, and of resumptions that do not return, some call that is under way keeps a
pool under destruction going. -/
theorem exists_step (reached : (machine workers).Reaches allowed (start workers) state)
    (begun : state.shared.begun = true) (short : ¬Halted workers state) :
    ∃ thread event, event.prompt = true ∧
      (atomic workers thread (state.shared, state.threads thread) event).isSome := by
  have settled := settled_of_reaches reached
  have destructing := destructing_of_reaches reached
  cases joined : state.shared.joined with
  | true =>
      obtain ⟨destructor, drains⟩ := destructing.joined joined
      have all : Awaited workers state := fun worker works =>
        .inl (destructing.returned joined works)
      have draining : state.threads destructor = .draining := by
        have through : state.threads destructor ≠ .destructed := fun destructed =>
          short ⟨all, .inl ⟨destructor, destructed⟩⟩
        generalize state.threads destructor = stage at drains through
        cases stage <;> simp_all [Stage.phase]
      refine ⟨destructor, .proceed, rfl, ?_⟩
      rw [draining]
      simp only [atomic]
      split <;> rfl
  | false =>
      cases free : state.shared.monitor.owner with
      | some owner =>
          exact ⟨owner, inside_proceeds ((settled owner).placed.owner.mpr free) joined
            (settled owner).available⟩
      | none =>
          have nobody : ∀ thread, (state.threads thread).role ≠ .inside := fun thread inside => by
            simpa [free] using (settled thread).placed.owner.mp inside
          obtain ⟨destructor, destructs⟩ := destructing.begun begun
          have joining : state.threads destructor = .joining := by
            have outside := nobody destructor
            have before := (settled destructor).joined
            generalize state.threads destructor = stage at destructs outside before
            cases stage <;> simp_all [Stage.phase, Stage.role]
          by_cases all : workers ⊆ state.shared.returned
          · exact ⟨destructor, .proceed, rfl, by simp [joining, atomic, all]⟩
          obtain ⟨worker, works, runs, active⟩ : ∃ worker ∈ workers,
              worker ∉ state.shared.returned ∧
                ∀ handle, state.threads worker ≠ .resuming handle := by
            by_contra none
            obtain ⟨late, works, runs⟩ := Finset.not_subset.mp all
            have awaited : Awaited workers state := by
              intro worker works
              by_contra neither
              obtain ⟨runs, active⟩ := not_or.mp neither
              exact none ⟨worker, works, runs, not_exists.mp active⟩
            exact short ⟨awaited, .inr ⟨late, works, (awaited late works).resolve_left runs⟩⟩
          refine ⟨worker, .proceed, rfl, ?_⟩
          have outside := nobody worker
          have wakes : state.threads worker = .sleeping → worker ∈ state.shared.monitor.woken := by
            intro sleeping
            obtain none | ⟨other, notifying⟩ := notified_of_reaches reached
              ((settled destructor).flagged (by simp [joining, Stage.phase]))
            · simpa [none, sleeping, Stage.role] using (settled worker).placed.waits.waiter
            · exact absurd (notifying ▸ rfl) (nobody other)
          have works := (settled worker).worker.mpr works
          have runs := mt (settled worker).returned.mp runs
          generalize state.threads worker = stage at outside wakes works runs active
          cases stage <;> simp_all [Stage.role, Stage.worker, atomic]

/-- A reachable state in which `~thread_pool()` has begun. -/
def Closing (workers : Finset τ) (state : State τ H) : Prop :=
  (machine workers).Reaches Machine.anyStep (start workers) state ∧ state.shared.begun = true

/-- **Every step** under way brings the destruction nearer to its end. -/
theorem Closing.nearer [Fintype τ] {before after : State τ H} {event : τ × Event τ H}
    (closing : Closing workers before) (underWay : event.2.underWay = true)
    (stepped : (machine workers).step before event = some after) :
    Closing workers after ∧ left after < left before := by
  obtain ⟨reached, begun⟩ := closing
  obtain ⟨thread, event⟩ := event
  obtain ⟨pool, stage, ran, rfl⟩ := Threads.interleave_step stepped
  have moves := atomic_moves ran
  refine ⟨⟨reached.tail ⟨_, trivial, stepped⟩, ?_⟩, ?_⟩
  · generalize before.threads thread = own at moves
    cases moves <;> simp_all
  · have nearer := moves.nearer underWay (closing_of_reaches reached begun)
    have total := Threads.sum_update Stage.rank before.threads thread stage
    simp only [left]
    omega

/-- What is left behind when the destructor is through. -/
theorem Closing.completed (closing : Closing workers state)
    (through : ∃ thread, state.threads thread = .destructed) :
    workers ⊆ state.shared.returned ∧ state.shared.queue = [] ∧
      state.shared.submitted = state.shared.started.map Prod.snd ++ state.shared.destroyed ∧
      ∀ thread, resumedBy thread state.shared.started =
        resumedBy thread state.shared.finished := by
  obtain ⟨reached, -⟩ := closing
  obtain ⟨destructor, destructed⟩ := through
  have settled := settled_of_reaches reached
  have empty := (settled destructor).drained destructed
  have all := (destructing_of_reaches reached).returned
    ((settled destructor).joined (by simp [destructed, Stage.phase]))
  refine ⟨all, empty, by simpa [empty] using (ordered_of_reaches reached).account,
    fun thread => ?_⟩
  have idle : (state.threads thread).current = [] := by
    by_cases works : thread ∈ workers
    · rw [(settled thread).returned.mpr (all works)]
      rfl
    · have away := mt (settled thread).worker.mp works
      generalize state.threads thread = stage at away
      cases stage <;> simp_all [Stage.worker, Stage.current]
  simpa [idle] using resumed_of_reaches reached thread

/-- **Destruction waits for resumptions only.** Once `~thread_pool()` has begun, the calls that are
under way and the returns of resumptions are boundedly many steps. When none of the calls can go
on, every worker has returned or is in a resumption that has not; and when no worker is in a
resumption, the destructor is through, the workers have returned from all handles that they
took, and all others are destroyed. -/
theorem destructor_completes [Fintype τ]
    (reached : (machine workers).Reaches Machine.anyStep (start workers) state)
    (begun : state.shared.begun = true) {events : List (τ × Event τ H)} {last : State τ H}
    (executed : (machine workers).execute (fun _ event => event.2.underWay = true) events state =
      some last) :
    events.length ≤ left state ∧
      ((∀ event, event.2.prompt = true → (machine workers).step last event = none) →
        (∀ worker ∈ workers, worker ∈ last.shared.returned ∨
          ∃ handle, last.threads worker = .resuming handle) ∧
        ((∀ worker ∈ workers, ∀ handle, last.threads worker ≠ .resuming handle) →
          (∃ thread, last.threads thread = .destructed) ∧ workers ⊆ last.shared.returned ∧
            last.shared.queue = [] ∧
            last.shared.submitted = last.shared.started.map Prod.snd ++ last.shared.destroyed ∧
            ∀ thread, resumedBy thread last.shared.started =
              resumedBy thread last.shared.finished)) := by
  have progress : ∀ state, Closing workers state → ¬Halted workers state →
      ∃ event : τ × Event τ H, event.2.prompt = true ∧
        ((machine workers).step state event).isSome := by
    intro state closing short
    obtain ⟨thread, event, prompt, enabled⟩ := exists_step closing.1 closing.2 short
    exact ⟨(thread, event), prompt, by simpa [machine, Threads.interleave] using enabled⟩
  obtain ⟨bounded, ends⟩ := Machine.completes (Closing workers) (Halted workers) left
    (fun _ event => event.2.prompt = true) (fun _ _ _ closing => closing.nearer) progress
    ⟨reached, begun⟩ executed
  refine ⟨bounded, fun stuck => ?_⟩
  obtain ⟨closing, awaited, halted⟩ := ends stuck
  refine ⟨awaited, fun idle => ?_⟩
  have through := halted.resolve_right fun waits => by
    obtain ⟨worker, works, handle, resuming⟩ := waits
    exact idle worker works handle resuming
  exact ⟨through, closing.completed through⟩

/-- What is left to do when the destructor begins after the resubmission. -/
def shutdown : List (Fin 3 × Event (Fin 3) Nat) :=
  [(2, .proceed), (2, .proceed), (2, .proceed), (0, .finish), (0, .proceed), (0, .proceed),
    (0, .proceed), (1, .proceed), (1, .proceed), (1, .proceed), (2, .proceed), (2, .proceed),
    (2, .proceed)]

/-- The worker that was resuming a handle returns, and so does the one that slept. -/
theorem destructor_completes_resubmitted :
    ∃ state last : State (Fin 3) Nat,
      (machine {0, 1}).execute Machine.anyStep (resubmission ++ [(2, .destruct)])
        (start {0, 1}) = some state ∧
      (machine {0, 1}).execute (fun _ event => event.2.underWay = true) shutdown state =
        some last ∧
      last.shared.submitted = [7, 8] ∧ last.shared.destroyed = [8] ∧
      ∀ thread, resumedBy thread last.shared.started =
        resumedBy thread last.shared.finished := by
  have ran : (((machine {0, 1}).execute Machine.anyStep (resubmission ++ [(2, .destruct)])
      (start {0, 1})).bind fun state =>
        ((machine {0, 1}).execute (fun _ event => event.2.underWay = true) shutdown
          state).map fun last => decide (
          state.shared.begun = true ∧ last.shared.submitted = [7, 8] ∧
            last.shared.destroyed = [8] ∧ last.threads 0 = .returned ∧
            last.threads 1 = .returned ∧ last.threads 2 = .destructed)) = some true := by
    decide +kernel
  obtain ⟨state, first, rest⟩ := Option.bind_eq_some_iff.mp ran
  obtain ⟨last, second, checked⟩ := Option.map_eq_some_iff.mp rest
  obtain ⟨begun, submitted, destroyed, zero, one, two⟩ := of_decide_eq_true checked
  have every : ∀ thread : Fin 3, thread = 0 ∨ thread = 1 ∨ thread = 2 := by decide
  have stuck : ∀ event : Fin 3 × Event (Fin 3) Nat, event.2.prompt = true →
      (machine {0, 1}).step last event = none := by
    rintro ⟨thread, event⟩ prompt
    obtain rfl | rfl | rfl := every thread
    all_goals cases event <;> simp [machine, Threads.interleave, atomic, zero, one, two]
  have idle : ∀ worker ∈ ({0, 1} : Finset (Fin 3)), ∀ handle,
      last.threads worker ≠ .resuming handle := by
    intro worker works handle
    obtain rfl | rfl | rfl := every worker
    · simp [zero]
    · simp [one]
    · simp at works
  have completes := (destructor_completes (Machine.reaches_of_execute first) begun second).2 stuck
  exact ⟨state, last, first, second, submitted, destroyed, (completes.2 idle).2.2.2.2⟩

end Completion

end ThreadPool

end FastDb.Raft
