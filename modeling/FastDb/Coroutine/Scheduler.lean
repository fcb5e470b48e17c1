import Mathlib.Data.List.MinMax
import Mathlib.Data.List.Perm.Subperm
import FastDb.Foundation.Threads
import FastDb.Coroutine.LooperExecutor

/-! # The scheduler

`Scheduler` of `test/std_coroutine.cpp`: a looper whose queue is a priority queue. The worker
copies the task on top, waits for its time without the lock, and pops whatever is on top when
the wait returns with a timeout. In the runs in which that is still the task it copied, every
task is run once and nothing is popped off an empty queue; a timeout that finds anything else
on top breaks this (`FastDb.Coroutine.Scheduler.runs_once`).
-/

namespace FastDb.Coroutine

open Foundation

/-- A task and the time it is scheduled for, in milliseconds. -/
structure DelayedExecutable (F : Type*) where
  scheduledTime : Int
  func : F
  deriving DecidableEq

namespace DelayedExecutable

variable {F : Type*}

/-- The constructor, with the clock at `now`. -/
def schedule (func : F) (delay now : Int) : DelayedExecutable F := ⟨now + delay, func⟩

/-- `delay()`, with the clock at `now`. -/
def delay (executable : DelayedExecutable F) (now : Int) : Int := executable.scheduledTime - now

/-- The priority queue of some tasks: an earliest one on top, the rest in no particular
order. -/
def heaped (executables : List (DelayedExecutable F)) (top : Nat) :
    Option (List (DelayedExecutable F)) :=
  match executables[top]? with
  | some first =>
      if executables.all (fun other => first.scheduledTime ≤ other.scheduledTime) then
        some (first :: executables.eraseIdx top)
      else none
  | none => if executables.isEmpty then some [] else none

/-- Heaping orders the tasks anew. -/
theorem heaped_perm {executables queue : List (DelayedExecutable F)} {top : Nat}
    (heaps : heaped executables top = some queue) : queue.Perm executables := by
  unfold heaped at heaps
  split at heaps
  · next first found =>
      simp only [Option.ite_none_right_eq_some, Option.some.injEq] at heaps
      obtain ⟨-, rfl⟩ := heaps
      obtain ⟨bound, rfl⟩ := List.getElem?_eq_some_iff.mp found
      exact List.getElem_cons_eraseIdx_perm bound
  · simp only [Option.ite_none_right_eq_some, Option.some.injEq, List.isEmpty_iff] at heaps
    obtain ⟨rfl, rfl⟩ := heaps
    exact .refl _

/-- Some task is the earliest. -/
theorem exists_heaped (executables : List (DelayedExecutable F)) :
    ∃ top queue, heaped executables top = some queue := by
  cases earliest : executables.argmin scheduledTime with
  | none => exact ⟨0, [], by simp [heaped, List.argmin_eq_none.mp earliest]⟩
  | some first =>
      obtain ⟨top, found⟩ := List.mem_iff_getElem?.mp (List.argmin_mem earliest)
      refine ⟨top, first :: executables.eraseIdx top, ?_⟩
      have first_le : ∀ other ∈ executables, first.scheduledTime ≤ other.scheduledTime :=
        fun other member => List.le_of_mem_argmin member earliest
      simpa [heaped, found] using first_le

end DelayedExecutable

namespace Scheduler

/-- Where the worker is in `run_loop`, named by what it does next. -/
inductive Worker (F : Type*)
  /-- `while (is_active ...` -/
  | checking
  /-- `... || !executable_queue.empty())`, without the lock. -/
  | checkingQueue
  /-- `std::unique_lock lock(queue_lock)`. -/
  | locking
  /-- `if (executable_queue.empty())`. -/
  | testing
  /-- `queue_condition.wait(lock)`. -/
  | waiting
  /-- Blocked in `wait`, without the lock. -/
  | asleep
  /-- In `wait`, about to lock again. -/
  | woken
  /-- The second `if (executable_queue.empty())`. -/
  | retesting
  /-- `executable_queue.top()` and `executable.delay()`. -/
  | looking
  /-- `queue_condition.wait_for(lock, ...)`. -/
  | delaying (executable : DelayedExecutable F)
  /-- Blocked in `wait_for`, without the lock. -/
  | dozing (executable : DelayedExecutable F)
  /-- In `wait_for`, about to lock again. -/
  | roused (executable : DelayedExecutable F)
  /-- `executable_queue.pop()` and `lock.unlock()`. -/
  | popping (executable : DelayedExecutable F)
  /-- `executable()`. -/
  | running (executable : DelayedExecutable F)
  | finished
  deriving DecidableEq

/-- Where a thread is in a call, named by what it does next. -/
inductive Caller (F : Type*)
  | outside
  /-- `execute`, with the lock: `if (is_active ...)`. -/
  | executing (func : F) (delay : Int)
  /-- `execute`, with the lock: `need_notify`, `push` and `unlock`. -/
  | pushing (func : F) (delay : Int)
  /-- `execute`: `notify_one()`. -/
  | notifyingOne
  /-- `shutdown(false)`: `std::unique_lock lock(queue_lock)`. -/
  | locking
  /-- `shutdown(false)`, with the lock: `swap` and `unlock`. -/
  | swapping
  /-- `shutdown`: `notify_all()`. -/
  | notifyingAll

end Scheduler

open Scheduler in
/-- `Scheduler`, with its worker and the threads that call it, and what became of the tasks. -/
structure Scheduler (τ F : Type*) where
  isActive : Bool := true
  /-- The task on top first. -/
  executableQueue : List (DelayedExecutable F) := []
  queueLock : Option (Party τ) := none
  worker : Worker F := .checking
  callers : τ → Caller F := fun _ => .outside
  /-- Pushed before a shutdown cleared the flag. -/
  accepted : List (DelayedExecutable F) := []
  /-- Pushed after a shutdown cleared the flag, by a call that had found it set. -/
  late : List (DelayedExecutable F) := []
  ran : List (DelayedExecutable F) := []
  /-- Swapped away by `shutdown(false)`. -/
  dropped : List (DelayedExecutable F) := []

namespace Scheduler

/-- What a notification makes of the worker. -/
def Worker.notified {F : Type*} : Worker F → Worker F
  | .asleep => .woken
  | .dozing executable => .roused executable
  | worker => worker

/-- The steps of the worker and of the callers, with what the clock and the heap answer. -/
inductive Event (τ F : Type*)
  | worker
  /-- The worker reads the clock and looks at the task on top. -/
  | look (now : Int)
  /-- The worker wakes up by itself, or because its time has come. -/
  | wakeUp
  /-- `wait_for` returns. -/
  | returns (timeout : Bool)
  /-- The worker pops, and another task comes to the top. -/
  | pop (top : Nat)
  | execute (thread : τ) (func : F) (delay : Int)
  | shutdown (thread : τ) (waitForComplete : Bool)
  /-- The next step of a call. -/
  | proceed (thread : τ)
  /-- A call reads the clock for `need_notify` and for the task, and pushes. -/
  | push (thread : τ) (reading now : Int) (top : Nat)

variable {τ F : Type*}

/-- The next step of `run_loop`, where it does not depend on the clock or the heap. -/
def runLoop (scheduler : Scheduler τ F) : Option (Scheduler τ F) :=
  match scheduler.worker with
  | .checking =>
      some { scheduler with worker := if scheduler.isActive then .locking else .checkingQueue }
  | .checkingQueue =>
      some { scheduler with
        worker := if scheduler.executableQueue.isEmpty then .finished else .locking }
  | .locking =>
      if scheduler.queueLock.isNone then
        some { scheduler with queueLock := some .worker, worker := .testing }
      else none
  | .testing =>
      some { scheduler with
        worker := if scheduler.executableQueue.isEmpty then .waiting else .looking }
  | .waiting => some { scheduler with queueLock := none, worker := .asleep }
  | .woken =>
      if scheduler.queueLock.isNone then
        some { scheduler with queueLock := some .worker, worker := .retesting }
      else none
  | .retesting =>
      if scheduler.executableQueue.isEmpty then
        some { scheduler with queueLock := none, worker := .checking }
      else some { scheduler with worker := .looking }
  | .delaying executable =>
      some { scheduler with queueLock := none, worker := .dozing executable }
  | .running executable =>
      some { scheduler with worker := .checking, ran := scheduler.ran ++ [executable] }
  | .asleep | .looking | .dozing _ | .roused _ | .popping _ | .finished => none

variable [DecidableEq τ]

/-- Moves a caller. -/
def setCaller (scheduler : Scheduler τ F) (thread : τ) (caller : Caller F) : Scheduler τ F :=
  { scheduler with callers := Function.update scheduler.callers thread caller }

/-- The next step of a call, where it does not depend on the clock or the heap. -/
def proceed (scheduler : Scheduler τ F) (thread : τ) : Option (Scheduler τ F) :=
  match scheduler.callers thread with
  | .executing func delay =>
      if scheduler.isActive then some (scheduler.setCaller thread (.pushing func delay))
      else some ({ scheduler with queueLock := none }.setCaller thread .outside)
  | .notifyingOne | .notifyingAll =>
      some ({ scheduler with worker := scheduler.worker.notified }.setCaller thread .outside)
  | .locking =>
      if scheduler.queueLock.isNone then
        some ({ scheduler with queueLock := some (.caller thread) }.setCaller thread .swapping)
      else none
  | .swapping =>
      some ({ scheduler with
        executableQueue := []
        dropped := scheduler.dropped ++ scheduler.executableQueue
        queueLock := none }.setCaller thread .notifyingAll)
  | .outside | .pushing _ _ => none

/-- `need_notify`. -/
def needNotify (scheduler : Scheduler τ F) (delay reading : Int) : Bool :=
  match scheduler.executableQueue with
  | first :: _ => decide (delay < first.delay reading)
  | [] => true

/-- The task enters the priority queue. -/
def enqueue (scheduler : Scheduler τ F) (executable : DelayedExecutable F)
    (queue : List (DelayedExecutable F)) : Scheduler τ F :=
  { scheduler with
    executableQueue := queue
    queueLock := none
    accepted := if scheduler.isActive then scheduler.accepted ++ [executable]
      else scheduler.accepted
    late := if scheduler.isActive then scheduler.late else scheduler.late ++ [executable] }

/-- One atomic step of the worker or of a caller. -/
def step (scheduler : Scheduler τ F) : Event τ F → Option (Scheduler τ F)
  | .worker => scheduler.runLoop
  | .look now =>
      match scheduler.worker, scheduler.executableQueue with
      | .looking, executable :: _ =>
          some { scheduler with
            worker := if 0 < executable.delay now then .delaying executable
              else .popping executable }
      | _, _ => none
  | .wakeUp =>
      match scheduler.worker with
      | .asleep | .dozing _ => some { scheduler with worker := scheduler.worker.notified }
      | _ => none
  | .returns timeout =>
      match scheduler.worker with
      | .roused executable =>
          if scheduler.queueLock.isNone then
            if timeout then
              some { scheduler with queueLock := some .worker, worker := .popping executable }
            else some { scheduler with worker := .checking }
          else none
      | _ => none
  | .pop top =>
      match scheduler.worker, scheduler.executableQueue with
      | .popping executable, _ :: rest =>
          (DelayedExecutable.heaped rest top).map fun queue =>
            { scheduler with
              executableQueue := queue, queueLock := none, worker := .running executable }
      | _, _ => none
  | .execute thread func delay =>
      match scheduler.callers thread with
      | .outside =>
          if scheduler.queueLock.isNone then
            some ({ scheduler with queueLock := some (.caller thread) }.setCaller thread
              (.executing func (if delay < 0 then 0 else delay)))
          else none
      | _ => none
  | .shutdown thread waitForComplete =>
      match scheduler.callers thread with
      | .outside =>
          some ({ scheduler with isActive := false }.setCaller thread
            (if waitForComplete then .notifyingAll else .locking))
      | _ => none
  | .proceed thread => scheduler.proceed thread
  | .push thread reading now top =>
      match scheduler.callers thread with
      | .pushing func delay =>
          (DelayedExecutable.heaped
            (.schedule func delay now :: scheduler.executableQueue) top).map fun queue =>
              (scheduler.enqueue (.schedule func delay now) queue).setCaller thread
                (if scheduler.needNotify delay reading then .notifyingOne else .outside)
      | _ => none

/-- The scheduler with its worker and callers. -/
def machine : Machine (Scheduler τ F) (Event τ F) where
  step := step

/-- `Scheduler()`. -/
def new : Scheduler τ F := {}

/-- The task off the queue that the worker is about to run. -/
def Worker.inHand : Worker F → List (DelayedExecutable F)
  | .running executable => [executable]
  | _ => []

/-- The call will still notify. -/
def Notifies : Caller F → Prop
  | .notifyingOne | .locking | .swapping | .notifyingAll => True
  | .outside | .executing _ _ | .pushing _ _ => False

/-- **Every task once.** A task pushed is queued, in hand, run or dropped by `shutdown(false)`,
and once only; the worker pops off a queue that is not empty; it finishes when the tasks pushed
before the shutdown are run or dropped; and it does not sleep on tasks with nobody left to wake
it. -/
structure RunsOnce (scheduler : Scheduler τ F) : Prop where
  accounted : (scheduler.accepted ++ scheduler.late).Perm
    (scheduler.executableQueue ++ scheduler.worker.inHand ++ scheduler.ran ++ scheduler.dropped)
  poppable : ∀ executable, scheduler.worker = .popping executable →
    scheduler.executableQueue ≠ []
  complete : scheduler.worker = .finished →
    scheduler.accepted.Subperm (scheduler.ran ++ scheduler.dropped)
  attended : scheduler.worker = .asleep → scheduler.executableQueue ≠ [] →
    ∃ thread, Notifies (scheduler.callers thread)

/-- The wait times out with the task on top that the worker copied before it. -/
def TimesOutInPlace (scheduler : Scheduler τ F) : Event τ F → Prop
  | .returns timeout =>
      timeout = true →
        scheduler.executableQueue.head?.map Worker.roused = some scheduler.worker
  | _ => True

instance [DecidableEq F] (scheduler : Scheduler τ F) :
    ∀ event, Decidable (TimesOutInPlace scheduler event)
  | .returns timeout =>
      inferInstanceAs (Decidable (timeout = true →
        scheduler.executableQueue.head?.map Worker.roused = some scheduler.worker))
  | .worker | .look _ | .wakeUp | .pop _ | .execute _ _ _ | .shutdown _ _ | .proceed _
  | .push _ _ _ _ => inferInstanceAs (Decidable True)

/-- The worker is where the lock is held. -/
def Worker.Holds : Worker F → Prop
  | .testing | .waiting | .retesting | .looking | .delaying _ | .popping _ => True
  | _ => False

/-- The thread is where the lock is held. -/
def Caller.Holds : Caller F → Prop
  | .executing _ _ | .pushing _ _ | .swapping => True
  | _ => False

/-- The party is where the lock is held. -/
def Holds (scheduler : Scheduler τ F) : Party τ → Prop :=
  Party.Among scheduler.worker.Holds fun thread => (scheduler.callers thread).Holds

/-- What the worker has found out. -/
def Found (scheduler : Scheduler τ F) : Prop :=
  match scheduler.worker with
  | .checkingQueue => scheduler.isActive = false
  | .waiting => scheduler.executableQueue = []
  | .asleep => scheduler.executableQueue ≠ [] → ∃ thread, Notifies (scheduler.callers thread)
  | .looking => scheduler.executableQueue ≠ []
  | .popping executable => scheduler.executableQueue.head? = some executable
  | .finished =>
      scheduler.isActive = false ∧ scheduler.executableQueue.Subperm scheduler.late
  | .checking | .locking | .testing | .woken | .retesting | .delaying _ | .dozing _ | .roused _
  | .running _ => True

/-- The invariant: the lock guards the code where it is held, every task is accounted for, and
what the worker has found out still holds. -/
structure Kept (scheduler : Scheduler τ F) : Prop where
  guarded : Guards scheduler.queueLock scheduler.Holds
  accounted : (scheduler.accepted ++ scheduler.late).Perm
    (scheduler.executableQueue ++ scheduler.worker.inHand ++ scheduler.ran ++ scheduler.dropped)
  found : scheduler.Found

section Steps

variable {scheduler next : Scheduler τ F}

/-- A notification leaves the lock where it is. -/
theorem Worker.notified_holds (worker : Worker F) : worker.notified.Holds ↔ worker.Holds := by
  cases worker <;> rfl

/-- A notification leaves what is in hand. -/
theorem Worker.notified_inHand (worker : Worker F) : worker.notified.inHand = worker.inHand := by
  cases worker <;> rfl

omit [DecidableEq τ] in
/-- The worker moves on, with the lock or without it. -/
theorem Kept.moves (kept : Kept scheduler) {worker : Worker F}
    (holds : worker.Holds ↔ scheduler.worker.Holds)
    (sameHand : worker.inHand = scheduler.worker.inHand)
    (found : Found { scheduler with worker }) : Kept { scheduler with worker } :=
  ⟨kept.guarded.move .worker holds Party.among_worker, sameHand ▸ kept.accounted, found⟩

omit [DecidableEq τ] in
/-- The worker locks. -/
theorem Kept.locks (kept : Kept scheduler) {worker : Worker F}
    (free : scheduler.queueLock = none) (holds : worker.Holds)
    (sameHand : worker.inHand = scheduler.worker.inHand)
    (found : Found { scheduler with queueLock := some .worker, worker }) :
    Kept { scheduler with queueLock := some .worker, worker } := by
  have guarded := kept.guarded
  rw [free] at guarded
  exact ⟨guarded.acquire .worker holds Party.among_worker, sameHand ▸ kept.accounted, found⟩

omit [DecidableEq τ] in
/-- The worker unlocks. -/
theorem Kept.unlocks (kept : Kept scheduler) {worker : Worker F}
    (held : scheduler.worker.Holds) (left : ¬worker.Holds)
    (sameHand : worker.inHand = scheduler.worker.inHand)
    (found : Found { scheduler with queueLock := none, worker }) :
    Kept { scheduler with queueLock := none, worker } :=
  ⟨kept.guarded.release .worker held left Party.among_worker, sameHand ▸ kept.accounted, found⟩

omit [DecidableEq τ] in
/-- **One step** of the worker, where it does not depend on the clock or the heap. -/
theorem Kept.runLoop (kept : Kept scheduler) (ran : scheduler.runLoop = some next) :
    Kept next := by
  have found := kept.found
  unfold Scheduler.runLoop at ran
  unfold Found at found
  cases stage : scheduler.worker with
  | checking =>
      simp only [stage, Option.some.injEq] at ran
      split at ran
      · subst ran
        exact kept.moves (by rw [stage]; rfl) (by rw [stage]; rfl) trivial
      · next inactive =>
          subst ran
          exact kept.moves (by rw [stage]; rfl) (by rw [stage]; rfl)
            (Bool.eq_false_iff.mpr inactive)
  | checkingQueue =>
      simp only [stage] at found
      simp only [stage, Option.some.injEq] at ran
      split at ran
      · next empty =>
          subst ran
          exact kept.moves (by rw [stage]; rfl) (by rw [stage]; rfl)
            ⟨found, List.isEmpty_iff.mp empty ▸ List.nil_subperm⟩
      · subst ran
        exact kept.moves (by rw [stage]; rfl) (by rw [stage]; rfl) trivial
  | locking | woken =>
      simp only [stage, Option.ite_none_right_eq_some, Option.some.injEq,
        Option.isNone_iff_eq_none] at ran
      obtain ⟨free, rfl⟩ := ran
      exact kept.locks free trivial (by rw [stage]; rfl) trivial
  | testing =>
      simp only [stage, Option.some.injEq] at ran
      split at ran
      · next empty =>
          subst ran
          exact kept.moves (by rw [stage]; rfl) (by rw [stage]; rfl) (List.isEmpty_iff.mp empty)
      · next queued =>
          subst ran
          exact kept.moves (by rw [stage]; rfl) (by rw [stage]; rfl)
            fun empty => queued (List.isEmpty_iff.mpr empty)
  | waiting =>
      simp only [stage] at found
      simp only [stage, Option.some.injEq] at ran
      subst ran
      exact kept.unlocks (by rw [stage]; trivial) id (by rw [stage]; rfl)
        fun queued => absurd found queued
  | retesting =>
      simp only [stage] at ran
      split at ran
      · cases ran
        exact kept.unlocks (by rw [stage]; trivial) id (by rw [stage]; rfl) trivial
      · next queued =>
          cases ran
          exact kept.moves (by rw [stage]; rfl) (by rw [stage]; rfl)
            fun empty => queued (List.isEmpty_iff.mpr empty)
  | delaying executable =>
      simp only [stage, Option.some.injEq] at ran
      subst ran
      exact kept.unlocks (by rw [stage]; trivial) id (by rw [stage]; rfl) trivial
  | running executable =>
      have accounted := kept.accounted
      simp only [stage, Option.some.injEq] at ran
      subst ran
      rw [stage] at accounted
      refine ⟨kept.guarded.move .worker (by simp [Holds, Party.Among, stage, Worker.Holds])
        Party.among_worker, accounted.trans ?_, trivial⟩
      -- from in hand to the end of those run
      simp only [Worker.inHand, List.append_nil, List.append_assoc]
      refine List.Perm.append_left _ ?_
      rw [← List.append_assoc, ← List.append_assoc]
      exact List.perm_append_comm.append_right _
  | asleep | looking | dozing | roused | popping | finished =>
      simp only [stage] at ran
      cases ran

omit [DecidableEq τ] in
/-- What the worker has found out depends on the flag, the queue and who will notify. -/
theorem Found.moved (found : scheduler.Found) (sameWorker : next.worker = scheduler.worker)
    (cleared : scheduler.isActive = false → next.isActive = false)
    (sameQueue : next.executableQueue = scheduler.executableQueue)
    (sameLate : next.late = scheduler.late)
    (notifies : scheduler.worker = .asleep → ∀ thread, Notifies (scheduler.callers thread) →
      ∃ other, Notifies (next.callers other)) : next.Found := by
  unfold Found at found ⊢
  rw [sameWorker, sameQueue, sameLate]
  cases stage : scheduler.worker with
  | checkingQueue =>
      rw [stage] at found
      exact cleared found
  | asleep =>
      rw [stage] at found
      intro queued
      obtain ⟨thread, will⟩ := found queued
      exact notifies stage thread will
  | finished =>
      rw [stage] at found
      exact ⟨cleared found.1, found.2⟩
  | waiting | looking | popping =>
      rw [stage] at found
      exact found
  | checking | locking | testing | woken | retesting | delaying | dozing | roused | running =>
      trivial

omit [DecidableEq τ] in
/-- A notification wakes a worker that sleeps. -/
theorem Kept.notify (kept : Kept scheduler) :
    Kept { scheduler with worker := scheduler.worker.notified } := by
  refine kept.moves (Worker.notified_holds _) (Worker.notified_inHand _) ?_
  have found := kept.found
  unfold Found at found ⊢
  cases stage : scheduler.worker with
  | asleep | dozing => trivial
  | checking | checkingQueue | locking | testing | waiting | woken | retesting | looking
  | delaying | roused | popping | running | finished =>
      rw [stage] at found
      exact found

/-- Who is notified does not sleep. -/
theorem Worker.notified_awake (worker : Worker F) : worker.notified ≠ .asleep := by
  cases worker <;> exact fun sleeps => nomatch sleeps

/-- A thread that is on its way to notify stays on it, or is not missed. -/
theorem notifies_setCaller {thread : τ} {caller : Caller F}
    (stays : Notifies (scheduler.callers thread) → Notifies caller) :
    ∀ other, Notifies (scheduler.callers other) →
      ∃ third, Notifies ((scheduler.setCaller thread caller).callers third) := by
  intro other will
  refine ⟨other, ?_⟩
  by_cases same : other = thread
  · subst same
    simpa only [setCaller, Function.update_self] using stays will
  · simpa only [setCaller, Function.update_of_ne same] using will

/-- A thread moves on, with the lock or without it. -/
theorem Kept.setCaller (kept : Kept scheduler) {thread : τ} {caller : Caller F}
    (holds : caller.Holds ↔ (scheduler.callers thread).Holds)
    (stays : scheduler.worker = .asleep → Notifies (scheduler.callers thread) →
      Notifies caller) : Kept (scheduler.setCaller thread caller) := by
  refine ⟨kept.guarded.move (.caller thread) ?_ (Party.among_caller Caller.Holds Iff.rfl),
    kept.accounted, kept.found.moved rfl id rfl rfl fun sleeps => notifies_setCaller (stays sleeps)⟩
  simpa only [Holds, Party.Among, Scheduler.setCaller, Function.update_self] using holds

/-- A thread locks. -/
theorem Kept.lock (kept : Kept scheduler) (free : scheduler.queueLock = none) {thread : τ}
    {caller : Caller F} (holds : caller.Holds)
    (stays : Notifies (scheduler.callers thread) → Notifies caller) :
    Kept ({ scheduler with queueLock := some (.caller thread) }.setCaller thread caller) := by
  have guarded := kept.guarded
  rw [free] at guarded
  refine ⟨guarded.acquire (.caller thread) ?_ (Party.among_caller Caller.Holds Iff.rfl),
    kept.accounted, kept.found.moved rfl id rfl rfl fun _ => notifies_setCaller stays⟩
  simpa only [Holds, Party.Among, Scheduler.setCaller, Function.update_self] using holds

omit [DecidableEq τ] in
/-- While a thread holds the lock, the worker does not. -/
theorem Kept.excludes (kept : Kept scheduler) {thread : τ}
    (held : (scheduler.callers thread).Holds) : ¬scheduler.worker.Holds := by
  intro heldToo
  have same : Party.worker = Party.caller thread := kept.guarded.unique heldToo held
  cases same

/-- A thread unlocks. -/
theorem Kept.unlock (kept : Kept scheduler) {thread : τ} (caller : Caller F)
    (held : (scheduler.callers thread).Holds) (left : ¬caller.Holds)
    (sameWorker : next.worker = scheduler.worker) (free : next.queueLock = none)
    (moved : next.callers = Function.update scheduler.callers thread caller)
    (accounted : (next.accepted ++ next.late).Perm
      (next.executableQueue ++ next.worker.inHand ++ next.ran ++ next.dropped))
    (found : next.Found) : Kept next := by
  refine ⟨?_, accounted, found⟩
  rw [free]
  refine kept.guarded.release (.caller thread) held ?_ ?_
  · simpa only [Holds, Party.Among, moved, Function.update_self] using left
  · simp only [Holds, moved, sameWorker]
    exact Party.among_caller Caller.Holds Iff.rfl

/-- **One step** of a call, where it does not depend on the clock or the heap. -/
theorem Kept.proceed (kept : Kept scheduler) {thread : τ}
    (ran : scheduler.proceed thread = some next) : Kept next := by
  unfold Scheduler.proceed at ran
  cases stage : scheduler.callers thread with
  | executing func delay =>
      have held : (scheduler.callers thread).Holds := by rw [stage]; trivial
      simp only [stage] at ran
      split at ran
      · cases ran
        exact kept.setCaller (by rw [stage]; rfl) fun _ will => by rw [stage] at will; exact will
      · cases ran
        exact kept.unlock .outside held id rfl rfl rfl kept.accounted
          (kept.found.moved rfl id rfl rfl fun _ =>
            notifies_setCaller fun will => by rw [stage] at will; exact will)
  | notifyingOne | notifyingAll =>
      simp only [stage, Option.some.injEq] at ran
      subst ran
      exact kept.notify.setCaller (by rw [stage]; rfl)
        fun sleeps => absurd sleeps (Worker.notified_awake _)
  | locking =>
      simp only [stage, Option.ite_none_right_eq_some, Option.some.injEq,
        Option.isNone_iff_eq_none] at ran
      obtain ⟨free, rfl⟩ := ran
      exact kept.lock free trivial fun _ => trivial
  | swapping =>
      have held : (scheduler.callers thread).Holds := by rw [stage]; trivial
      simp only [stage, Option.some.injEq] at ran
      subst ran
      refine kept.unlock .notifyingAll held id rfl rfl rfl (kept.accounted.trans ?_) ?_
      · simp only [Scheduler.setCaller, List.nil_append, List.append_assoc]
        refine List.perm_append_comm.trans (.of_eq ?_)
        simp only [List.append_assoc]
      · have found := kept.found
        have outside := kept.excludes held
        unfold Found at found ⊢
        cases worker : scheduler.worker with
        | checking | locking | woken | dozing | roused | running => trivial
        | checkingQueue =>
            rw [worker] at found
            exact found
        | asleep => exact fun queued => absurd rfl queued
        | finished =>
            rw [worker] at found
            exact ⟨found.1, List.nil_subperm⟩
        | testing | waiting | retesting | looking | delaying | popping =>
            rw [worker] at outside
            exact absurd trivial outside
  | outside | pushing =>
      simp only [stage] at ran
      cases ran

/-- **One step** of a call that pushes its task. -/
theorem Kept.push (kept : Kept scheduler) {thread : τ} {executable : DelayedExecutable F}
    {queue : List (DelayedExecutable F)} {caller : Caller F}
    (held : (scheduler.callers thread).Holds) (quiet : ¬Notifies (scheduler.callers thread))
    (left : ¬caller.Holds)
    (heaps : queue.Perm (executable :: scheduler.executableQueue))
    (notifies : scheduler.executableQueue = [] → Notifies caller) :
    Kept ((scheduler.enqueue executable queue).setCaller thread caller) := by
  refine kept.unlock caller held left rfl rfl rfl ?_ ?_
  · have pushed : (scheduler.accepted ++ scheduler.late ++ [executable]).Perm
        (queue ++ scheduler.worker.inHand ++ scheduler.ran ++ scheduler.dropped) := by
      refine (List.perm_append_singleton _ _).trans ((kept.accounted.cons executable).trans ?_)
      simp only [List.append_assoc, ← List.cons_append]
      exact heaps.symm.append_right _
    refine List.Perm.trans ?_ pushed
    simp only [Scheduler.setCaller, enqueue]
    split
    · simp only [List.append_assoc]
      exact List.perm_append_comm.append_left _
    · rw [List.append_assoc]
  · have found := kept.found
    have outside := kept.excludes held
    unfold Found at found ⊢
    simp only [Scheduler.setCaller, enqueue]
    cases worker : scheduler.worker with
    | checking | locking | woken | dozing | roused | running => trivial
    | checkingQueue =>
        rw [worker] at found
        exact found
    | asleep =>
        rw [worker] at found
        intro _
        by_cases empty : scheduler.executableQueue = []
        · exact ⟨thread, by simpa only [Function.update_self] using notifies empty⟩
        · obtain ⟨other, will⟩ := found empty
          have different : other ≠ thread := fun same => quiet (same ▸ will)
          exact ⟨other, by simpa only [Function.update_of_ne different] using will⟩
    | finished =>
        rw [worker] at found
        obtain ⟨inactive, rest⟩ := found
        refine ⟨inactive, ?_⟩
        simp only [inactive, Bool.false_eq_true, ↓reduceIte]
        have grown : (executable :: scheduler.executableQueue).Subperm
            (executable :: scheduler.late) := (List.subperm_cons executable).mpr rest
        exact (heaps.subperm.trans grown).trans (List.perm_append_singleton _ _).symm.subperm
    | testing | waiting | retesting | looking | delaying | popping =>
        rw [worker] at outside
        exact absurd trivial outside

/-- **One step** of the worker with the clock: it goes to wait or to pop what is on top. -/
theorem Kept.look (kept : Kept scheduler) {now : Int}
    (stepped : scheduler.step (.look now) = some next) : Kept next := by
  simp only [Scheduler.step] at stepped
  split at stepped
  · next executable rest stage queued =>
      simp only [Option.some.injEq] at stepped
      split at stepped
      · subst stepped
        exact kept.moves (by rw [stage]; rfl) (by rw [stage]; rfl) trivial
      · subst stepped
        refine kept.moves (by rw [stage]; rfl) (by rw [stage]; rfl) ?_
        exact (congrArg List.head? queued).trans List.head?_cons
  · cases stepped

/-- **One step** out of the wait, which may have timed out only in place. -/
theorem Kept.returns (kept : Kept scheduler) {timeout : Bool}
    (inPlace : TimesOutInPlace scheduler (.returns timeout))
    (stepped : scheduler.step (.returns timeout) = some next) : Kept next := by
  simp only [Scheduler.step] at stepped
  split at stepped
  · next executable stage =>
      simp only [Option.ite_none_right_eq_some, Option.isNone_iff_eq_none] at stepped
      obtain ⟨free, stepped⟩ := stepped
      split at stepped
      · next timedOut =>
          cases stepped
          obtain ⟨first, onTop, same⟩ := Option.map_eq_some_iff.mp (inPlace timedOut)
          rw [stage] at same
          cases same
          exact kept.locks free trivial (by rw [stage]; rfl) onTop
      · cases stepped
        exact kept.moves (by rw [stage]; rfl) (by rw [stage]; rfl) trivial
  · cases stepped

/-- **One step** of the worker with the heap: the task on top comes into its hand. -/
theorem Kept.pop (kept : Kept scheduler) {top : Nat}
    (stepped : scheduler.step (.pop top) = some next) : Kept next := by
  simp only [Scheduler.step] at stepped
  split at stepped
  · next executable first rest stage queued =>
      obtain ⟨queue, heaps, rfl⟩ := Option.map_eq_some_iff.mp stepped
      have found := kept.found
      have accounted := kept.accounted
      simp only [Found, stage, queued, List.head?_cons, Option.some.injEq] at found
      subst found
      refine ⟨kept.guarded.release .worker (by simp [Holds, Party.Among, stage, Worker.Holds]) id
        Party.among_worker, accounted.trans ?_, trivial⟩
      simp only [stage, queued, Worker.inHand, List.append_nil]
      refine List.Perm.append_right _ (List.Perm.append_right _ ?_)
      exact (List.perm_append_singleton _ _).symm.trans
        ((DelayedExecutable.heaped_perm heaps).symm.append_right _)
  · cases stepped

/-- **Every step** that times out in place keeps the invariant. -/
theorem Kept.step (kept : Kept scheduler) {event : Event τ F}
    (inPlace : TimesOutInPlace scheduler event) (stepped : scheduler.step event = some next) :
    Kept next := by
  cases event with
  | worker => exact kept.runLoop stepped
  | look now => exact kept.look stepped
  | wakeUp =>
      simp only [Scheduler.step] at stepped
      split at stepped
      all_goals cases stepped
      all_goals exact kept.notify
  | returns timeout => exact kept.returns inPlace stepped
  | pop top => exact kept.pop stepped
  | execute thread func delay =>
      simp only [Scheduler.step] at stepped
      split at stepped
      · next outside =>
          simp only [Option.ite_none_right_eq_some, Option.some.injEq,
            Option.isNone_iff_eq_none] at stepped
          obtain ⟨free, rfl⟩ := stepped
          exact kept.lock free trivial fun will => by rw [outside] at will; exact will
      · cases stepped
  | shutdown thread waitForComplete =>
      simp only [Scheduler.step] at stepped
      split at stepped
      · next outside =>
          cases stepped
          have cleared : Kept { scheduler with isActive := false } :=
            ⟨kept.guarded, kept.accounted,
              kept.found.moved rfl (fun _ => rfl) rfl rfl fun _ thread will => ⟨thread, will⟩⟩
          refine cleared.setCaller ?_ fun _ will => by rw [outside] at will; cases will
          rw [outside]
          cases waitForComplete <;> rfl
      · cases stepped
  | proceed thread => exact kept.proceed stepped
  | push thread reading now top =>
      simp only [Scheduler.step] at stepped
      split at stepped
      · next func delay stage =>
          obtain ⟨queue, heaps, rfl⟩ := Option.map_eq_some_iff.mp stepped
          refine kept.push (by rw [stage]; trivial) (by rw [stage]; exact id) ?_
            (DelayedExecutable.heaped_perm heaps) fun empty => ?_
          · split <;> exact id
          · simp only [needNotify, empty, ↓reduceIte]
            trivial
      · cases stepped

omit [DecidableEq τ] in
/-- With the invariant every task is run once. -/
theorem Kept.runsOnce (kept : Kept scheduler) : RunsOnce scheduler := by
  have found := kept.found
  have accounted := kept.accounted
  unfold Found at found
  constructor
  · exact accounted
  · intro executable stage empty
    rw [stage, empty] at found
    cases found
  · intro stage
    rw [stage] at found accounted
    -- what is still queued is late
    have behind : (scheduler.accepted ++ scheduler.late).Subperm
        (scheduler.ran ++ scheduler.dropped ++ scheduler.late) := by
      refine accounted.subperm.trans ?_
      simp only [Worker.inHand, List.append_nil, List.append_assoc]
      refine List.perm_append_comm.subperm.trans ?_
      rw [← List.append_assoc]
      exact (List.subperm_append_left _).mpr found.2
    exact (List.subperm_append_right _).mp behind
  · intro stage queued
    rw [stage] at found
    exact found queued

end Steps

omit [DecidableEq τ] in
theorem kept_new : Kept (new : Scheduler τ F) := by
  refine ⟨fun party => ⟨fun owns => (nomatch owns), fun holds => ?_⟩, .refl _, trivial⟩
  cases party <;> exact holds.elim

theorem kept_of_reaches {scheduler : Scheduler τ F}
    (reached : machine.Reaches TimesOutInPlace new scheduler) : Kept scheduler :=
  reached.invariant Kept kept_new fun _ _ _ kept inPlace stepped => kept.step inPlace stepped

/-- Left to itself, the worker can go on until no task is left. -/
def Settles (scheduler : Scheduler τ F) : Prop :=
  ∃ later, machine.Reaches TimesOutInPlace scheduler later ∧
    (later.executableQueue = [] ∧ later.worker.inHand = []) ∧
    later.accepted = scheduler.accepted ∧ later.late = scheduler.late ∧
    later.dropped = scheduler.dropped

section Settling

variable {scheduler next : Scheduler τ F}

theorem settles_here (empty : scheduler.executableQueue = [])
    (emptyHand : scheduler.worker.inHand = []) : Settles scheduler :=
  ⟨scheduler, .refl _, ⟨empty, emptyHand⟩, rfl, rfl, rfl⟩

/-- A scheduler settles when it does after one step. -/
theorem Settles.head (settles : Settles next) {event : Event τ F}
    (inPlace : TimesOutInPlace scheduler event) (stepped : scheduler.step event = some next)
    (sameTasks : next.accepted = scheduler.accepted ∧ next.late = scheduler.late ∧
      next.dropped = scheduler.dropped) : Settles scheduler := by
  obtain ⟨later, run, done, accepted, late, dropped⟩ := settles
  exact ⟨later, Machine.Reaches.head inPlace stepped run, done, accepted.trans sameTasks.1,
    late.trans sameTasks.2.1, dropped.trans sameTasks.2.2⟩

/-- A scheduler settles when it does after one step of the worker. -/
theorem Settles.runLoop (settles : Settles next) (ran : scheduler.runLoop = some next)
    (sameTasks : next.accepted = scheduler.accepted ∧ next.late = scheduler.late ∧
      next.dropped = scheduler.dropped) : Settles scheduler :=
  settles.head (show TimesOutInPlace scheduler .worker from trivial) ran sameTasks

theorem settles_popping {executable first : DelayedExecutable F}
    {rest : List (DelayedExecutable F)} (queued : scheduler.executableQueue = first :: rest)
    (stage : scheduler.worker = .popping executable)
    (fewer : ∀ shorter : Scheduler τ F, shorter.executableQueue.length = rest.length →
      shorter.queueLock = none → shorter.worker = .checking → Settles shorter) :
    Settles scheduler := by
  obtain ⟨top, queue, heaps⟩ := DelayedExecutable.exists_heaped rest
  have sameLength := (DelayedExecutable.heaped_perm heaps).length_eq
  have running : Settles { scheduler with
      executableQueue := queue, queueLock := none, worker := .running executable } :=
    Settles.runLoop (fewer { scheduler with
        executableQueue := queue, queueLock := none, worker := .checking
        ran := scheduler.ran ++ [executable] } sameLength rfl rfl) rfl ⟨rfl, rfl, rfl⟩
  refine running.head (show TimesOutInPlace scheduler (.pop top) from trivial) ?_ ⟨rfl, rfl, rfl⟩
  simp only [step, stage, queued, heaps, Option.map_some]

theorem settles_looking {first : DelayedExecutable F} {rest : List (DelayedExecutable F)}
    (queued : scheduler.executableQueue = first :: rest) (stage : scheduler.worker = .looking)
    (fewer : ∀ shorter : Scheduler τ F, shorter.executableQueue.length = rest.length →
      shorter.queueLock = none → shorter.worker = .checking → Settles shorter) :
    Settles scheduler := by
  have popping : Settles { scheduler with worker := .popping first } :=
    settles_popping queued rfl fewer
  refine popping.head (show TimesOutInPlace scheduler (.look first.scheduledTime) from trivial)
    ?_ ⟨rfl, rfl, rfl⟩
  simp [step, stage, queued, DelayedExecutable.delay]

theorem settles_locking {first : DelayedExecutable F} {rest : List (DelayedExecutable F)}
    (queued : scheduler.executableQueue = first :: rest) (stage : scheduler.worker = .locking)
    (free : scheduler.queueLock = none)
    (fewer : ∀ shorter : Scheduler τ F, shorter.executableQueue.length = rest.length →
      shorter.queueLock = none → shorter.worker = .checking → Settles shorter) :
    Settles scheduler := by
  have looking : Settles { scheduler with queueLock := some .worker, worker := .looking } :=
    settles_looking queued rfl fewer
  have testing : Settles { scheduler with queueLock := some .worker, worker := .testing } :=
    looking.runLoop (by simp [Scheduler.runLoop, queued]) ⟨rfl, rfl, rfl⟩
  exact testing.runLoop (by simp [Scheduler.runLoop, stage, free]) ⟨rfl, rfl, rfl⟩

/-- **One round** of the loop after another, by the number of tasks queued. -/
theorem settles_checking (count : Nat) : ∀ scheduler : Scheduler τ F,
    scheduler.executableQueue.length = count → scheduler.queueLock = none →
    scheduler.worker = .checking → Settles scheduler := by
  induction count with
  | zero =>
      intro scheduler length free stage
      exact settles_here (List.length_eq_zero_iff.mp length) (by rw [stage]; rfl)
  | succ count fewer =>
      intro scheduler length free stage
      obtain ⟨first, rest, queued⟩ := List.exists_cons_of_length_eq_add_one length
      have restLength : rest.length = count := by
        rw [queued] at length
        exact Nat.succ.inj length
      have locking : Settles { scheduler with worker := .locking } :=
        settles_locking queued rfl free (restLength ▸ fewer)
      cases active : scheduler.isActive with
      | true => exact locking.runLoop (by simp [Scheduler.runLoop, stage, active]) ⟨rfl, rfl, rfl⟩
      | false =>
          have checkingQueue : Settles { scheduler with worker := .checkingQueue } :=
            locking.runLoop (by simp [Scheduler.runLoop, queued]) ⟨rfl, rfl, rfl⟩
          exact checkingQueue.runLoop (by simp [Scheduler.runLoop, stage, active]) ⟨rfl, rfl, rfl⟩

/-- A `wait_for` that is woken before its time starts the next round. -/
theorem settles_roused {executable : DelayedExecutable F} (free : scheduler.queueLock = none)
    (stage : scheduler.worker = .roused executable) : Settles scheduler := by
  have checking : Settles { scheduler with worker := .checking } :=
    settles_checking _ _ rfl free rfl
  refine checking.head (show TimesOutInPlace scheduler (.returns false) from fun never => ?_) ?_
    ⟨rfl, rfl, rfl⟩
  · cases never
  · simp [step, stage, free]

theorem settles_dozing {executable : DelayedExecutable F} (free : scheduler.queueLock = none)
    (stage : scheduler.worker = .dozing executable) : Settles scheduler := by
  have roused : Settles { scheduler with worker := .roused executable } :=
    settles_roused free rfl
  refine roused.head (show TimesOutInPlace scheduler .wakeUp from trivial) ?_ ⟨rfl, rfl, rfl⟩
  simp [step, stage, Worker.notified]

/-- With no call under way, a worker that has not finished runs all that is queued. -/
theorem Kept.settles (kept : Kept scheduler)
    (quiet : ∀ thread, scheduler.callers thread = .outside)
    (going : scheduler.worker ≠ .finished) : Settles scheduler := by
  have found := kept.found
  have free (outside : ¬scheduler.worker.Holds) : scheduler.queueLock = none := by
    refine kept.guarded.free fun party holds => ?_
    cases party with
    | worker => exact outside holds
    | caller thread =>
        simp only [Holds, Party.Among, quiet thread] at holds
        exact holds
  unfold Found at found
  cases queued : scheduler.executableQueue with
  | nil =>
      cases stage : scheduler.worker with
      | running executable =>
          have checking : Settles { scheduler with
              worker := .checking, ran := scheduler.ran ++ [executable] } :=
            settles_here queued rfl
          exact checking.runLoop (by simp [Scheduler.runLoop, stage]) ⟨rfl, rfl, rfl⟩
      | finished => exact absurd stage going
      | checking | checkingQueue | locking | testing | waiting | asleep | woken | retesting
      | looking | delaying | dozing | roused | popping =>
          exact settles_here queued (by rw [stage]; rfl)
  | cons first rest =>
      have fewer : ∀ shorter : Scheduler τ F, shorter.executableQueue.length = rest.length →
          shorter.queueLock = none → shorter.worker = .checking → Settles shorter :=
        fun shorter => settles_checking _ shorter
      cases stage : scheduler.worker with
      | checking => exact settles_checking _ _ rfl (free (by rw [stage]; exact id)) stage
      | checkingQueue =>
          have locking : Settles { scheduler with worker := .locking } :=
            settles_locking queued rfl (free (by rw [stage]; exact id)) fewer
          exact locking.runLoop (by simp [Scheduler.runLoop, stage, queued]) ⟨rfl, rfl, rfl⟩
      | locking => exact settles_locking queued stage (free (by rw [stage]; exact id)) fewer
      | testing | retesting =>
          have looking : Settles { scheduler with worker := .looking } :=
            settles_looking queued rfl fewer
          exact looking.runLoop (by simp [Scheduler.runLoop, stage, queued]) ⟨rfl, rfl, rfl⟩
      | woken =>
          have looking : Settles { scheduler with
              queueLock := some .worker, worker := .looking } := settles_looking queued rfl fewer
          have retesting : Settles { scheduler with
              queueLock := some .worker, worker := .retesting } :=
            looking.runLoop (by simp [Scheduler.runLoop, queued]) ⟨rfl, rfl, rfl⟩
          exact retesting.runLoop
            (by simp [Scheduler.runLoop, stage, free (by rw [stage]; exact id)]) ⟨rfl, rfl, rfl⟩
      | waiting =>
          rw [stage, queued] at found
          cases found
      | asleep =>
          rw [stage] at found
          obtain ⟨thread, will⟩ := found (by rw [queued]; exact List.cons_ne_nil _ _)
          rw [quiet thread] at will
          cases will
      | looking => exact settles_looking queued stage fewer
      | delaying executable =>
          have dozing : Settles { scheduler with
              queueLock := none, worker := .dozing executable } := settles_dozing rfl rfl
          exact dozing.runLoop (by simp [Scheduler.runLoop, stage]) ⟨rfl, rfl, rfl⟩
      | dozing executable => exact settles_dozing (free (by rw [stage]; exact id)) stage
      | roused executable => exact settles_roused (free (by rw [stage]; exact id)) stage
      | popping executable => exact settles_popping queued stage fewer
      | running executable =>
          have checking : Settles { scheduler with
              worker := .checking, ran := scheduler.ran ++ [executable] } :=
            settles_checking _ _ rfl (free (by rw [stage]; exact id)) rfl
          exact checking.runLoop (by simp [Scheduler.runLoop, stage]) ⟨rfl, rfl, rfl⟩
      | finished => exact absurd stage going

end Settling

/-- A wait that times out goes on to pop. -/
theorem returns_timeout {scheduler next : Scheduler τ F}
    (stepped : scheduler.step (.returns true) = some next) :
    ∃ executable, scheduler.worker = .roused executable ∧
      next = { scheduler with queueLock := some .worker, worker := .popping executable } := by
  simp only [step] at stepped
  split at stepped
  · next executable stage =>
      simp only [↓reduceIte, Option.ite_none_right_eq_some, Option.some.injEq] at stepped
      exact ⟨executable, stage, stepped.2.symm⟩
  · cases stepped

/-- A timeout that finds another task on top than the one the worker copied, or none, leads to
a task that is lost or to a pop off an empty queue. -/
theorem not_runsOnce_of_replaced {scheduler next : Scheduler τ F} (kept : Kept scheduler)
    {event : Event τ F} (replaced : ¬TimesOutInPlace scheduler event)
    (stepped : machine.step scheduler event = some next) :
    ∃ later, machine.Reaches Machine.anyStep next later ∧ ¬RunsOnce later := by
  have accounted := kept.accounted
  cases event with
  | returns timeout =>
      simp only [TimesOutInPlace, Classical.not_imp] at replaced
      obtain ⟨timedOut, replaced⟩ := replaced
      obtain ⟨executable, stage, rfl⟩ := returns_timeout (timedOut ▸ stepped)
      cases queued : scheduler.executableQueue with
      | nil => exact ⟨_, .refl _, fun once => once.poppable executable rfl rfl⟩
      | cons first rest =>
          obtain ⟨top, queue, heaps⟩ := DelayedExecutable.exists_heaped rest
          have pops : machine.step { scheduler with
              queueLock := some .worker, worker := .popping executable } (.pop top) =
              some { scheduler with
                executableQueue := queue, queueLock := none, worker := .running executable } := by
            simp only [machine, step, queued, heaps, Option.map_some]
          rw [← queued]
          refine ⟨_, Machine.Reaches.head trivial pops (.refl _), fun once => ?_⟩
          -- the task in hand is not the one popped
          have same := accounted.symm.trans once.accounted
          simp only [stage, queued, Worker.inHand, List.append_nil,
            List.perm_append_right_iff] at same
          have heaped := (DelayedExecutable.heaped_perm heaps).append_right [executable]
          have swapped : ([first] ++ rest).Perm ([executable] ++ rest) :=
            same.trans (heaped.trans (List.perm_append_singleton executable rest))
          have replacedBy := List.singleton_perm_singleton.mp
            ((List.perm_append_right_iff rest).mp swapped)
          apply replaced
          rw [queued, stage, replacedBy]
          rfl
  | worker | look | wakeUp | pop | execute | shutdown | proceed | push =>
      exact absurd trivial replaced

/-- **Timeouts in place.** In every run in which each timeout finds on top the task that the
worker copied, every task is run once, and with no call under way the worker can go on to run
all that is queued. A timeout that finds another task on top, or none, leads to a pop off an
empty queue or to a task that is lost while another is run twice. -/
theorem runs_once :
    (∀ scheduler : Scheduler τ F, machine.Reaches TimesOutInPlace new scheduler →
        RunsOnce scheduler ∧
          ((∀ thread, scheduler.callers thread = .outside) → scheduler.worker ≠ .finished →
            ∃ later, machine.Reaches TimesOutInPlace scheduler later ∧
              (scheduler.accepted ++ scheduler.late).Perm (later.ran ++ scheduler.dropped))) ∧
      ∀ (scheduler next : Scheduler τ F) (event : Event τ F),
        machine.Reaches TimesOutInPlace new scheduler → ¬TimesOutInPlace scheduler event →
        machine.step scheduler event = some next →
        ∃ later, machine.Reaches Machine.anyStep next later ∧ ¬RunsOnce later := by
  constructor
  · intro scheduler reached
    have kept := kept_of_reaches reached
    refine ⟨kept.runsOnce, fun quiet going => ?_⟩
    obtain ⟨later, run, ⟨empty, emptyHand⟩, accepted, late, dropped⟩ := kept.settles quiet going
    have accounted := (kept_of_reaches (reached.trans run)).accounted
    rw [empty, emptyHand, accepted, late, dropped] at accounted
    exact ⟨later, run, accounted⟩
  · intro scheduler next event reached replaced stepped
    exact not_runsOnce_of_replaced (kept_of_reaches reached) replaced stepped

/-- The wait for a task times out, and the task is run. -/
theorem runs_once_timeout :
    ∃ scheduler : Scheduler Unit Nat, machine.Reaches TimesOutInPlace new scheduler ∧
      scheduler.worker = .finished ∧ scheduler.ran = [⟨10, 1⟩] ∧ RunsOnce scheduler := by
  have ran : ((machine (τ := Unit) (F := Nat)).execute TimesOutInPlace
      [.execute () 1 10, .proceed (), .push () 0 0 0, .proceed (),
        .worker, .worker, .worker, .look 0, .worker, .wakeUp, .returns true, .pop 0, .worker,
        .shutdown () true, .proceed (), .worker, .worker] new).map
      (fun scheduler => decide (scheduler.worker = .finished ∧
        scheduler.ran = [⟨10, 1⟩])) = some true := by decide
  obtain ⟨scheduler, executed, checked⟩ := Option.map_eq_some_iff.mp ran
  obtain ⟨finished, once⟩ := of_decide_eq_true checked
  have reached := Machine.reaches_of_execute executed
  exact ⟨scheduler, reached, finished, once, (runs_once.1 scheduler reached).1⟩

/-- An earlier task comes during the wait, the wait times out, and the later task is run twice.
A `shutdown(false)` empties the queue during the wait, the wait times out, and the worker pops
off the empty queue. -/
theorem not_once :
    (∃ scheduler : Scheduler Unit Nat, machine.Reaches Machine.anyStep new scheduler ∧
        scheduler.worker = .finished ∧ scheduler.accepted = [⟨10, 1⟩, ⟨9, 2⟩] ∧
        scheduler.ran = [⟨10, 1⟩, ⟨10, 1⟩] ∧ scheduler.dropped = []) ∧
      ∃ scheduler : Scheduler Unit Nat, machine.Reaches Machine.anyStep new scheduler ∧
        scheduler.worker = .popping ⟨10, 1⟩ ∧ scheduler.executableQueue = [] := by
  constructor
  · have ran : ((machine (τ := Unit) (F := Nat)).execute Machine.anyStep
        [.execute () 1 10, .proceed (), .push () 0 0 0, .proceed (),
          .worker, .worker, .worker, .look 0, .worker,
          .execute () 2 0, .proceed (), .push () 9 9 0, .wakeUp, .returns true, .pop 0, .worker,
          .proceed (), .worker, .worker, .worker, .look 10, .pop 0, .worker,
          .shutdown () true, .proceed (), .worker, .worker] new).map
        (fun scheduler => decide (scheduler.worker = .finished ∧
          scheduler.accepted = [⟨10, 1⟩, ⟨9, 2⟩] ∧ scheduler.ran = [⟨10, 1⟩, ⟨10, 1⟩] ∧
          scheduler.dropped = [])) = some true := by decide
    obtain ⟨scheduler, executed, checked⟩ := Option.map_eq_some_iff.mp ran
    exact ⟨scheduler, Machine.reaches_of_execute executed, of_decide_eq_true checked⟩
  · have ran : ((machine (τ := Unit) (F := Nat)).execute Machine.anyStep
        [.execute () 1 10, .proceed (), .push () 0 0 0, .proceed (),
          .worker, .worker, .worker, .look 0, .worker,
          .shutdown () false, .proceed (), .proceed (), .wakeUp, .returns true] new).map
        (fun scheduler => decide (scheduler.worker = .popping ⟨10, 1⟩ ∧
          scheduler.executableQueue = [])) = some true := by decide
    obtain ⟨scheduler, executed, checked⟩ := Option.map_eq_some_iff.mp ran
    exact ⟨scheduler, Machine.reaches_of_execute executed, of_decide_eq_true checked⟩

end Scheduler

end FastDb.Coroutine
