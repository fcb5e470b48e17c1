import FastDb.Foundation.Threads

/-! # The looper executor

`LooperExecutor` of `test/std_coroutine.cpp`: its worker, and any number of threads that
call `execute` and `shutdown`, in atomic steps. The active flag is cleared and
`notify_all` is sent without the queue lock, so a shutdown can do both between the
worker's loop test and its wait. In the runs in which no notification of a shutdown falls
between the two while the queue is empty, the worker never sleeps with nobody left to wake
it, and any that does with no other call under way sends it to sleep for good
(`FastDb.Coroutine.LooperExecutor.never_stuck`).
-/

namespace FastDb.Coroutine

open Foundation

namespace LooperExecutor

/-- Where the worker is in `run_loop`, named by what it does next. -/
inductive Worker (F : Type*)
  /-- `while (is_active ...` -/
  | checking
  /-- `... || !executable_queue.empty())`, without the lock. -/
  | checkingQueue
  /-- `std::unique_lock lock(queue_lock)`. -/
  | locking
  /-- `if (executable_queue.empty())`. -/
  | testing
  /-- `queue_condition.wait(lock)`. -/
  | waiting
  /-- Blocked in `wait`, without the lock. -/
  | asleep
  /-- In `wait`, about to lock again. -/
  | woken
  /-- The second `if (executable_queue.empty())`. -/
  | retesting
  /-- `executable_queue.pop()` and `lock.unlock()`. -/
  | popping
  /-- `func()`. -/
  | running (func : F)
  | finished
  deriving DecidableEq

/-- Where a thread is in a call, named by what it does next. -/
inductive Caller (F : Type*)
  | outside
  /-- `execute`, with the lock: `if (is_active ...)`. -/
  | executing (func : F)
  /-- `execute`, with the lock: `push` and `unlock`. -/
  | pushing (func : F)
  /-- `execute`: `notify_one()`. -/
  | notifyingOne
  /-- `shutdown(false)`: `std::unique_lock lock(queue_lock)`. -/
  | locking
  /-- `shutdown(false)`, with the lock: `swap` and `unlock`. -/
  | swapping
  /-- `shutdown`: `notify_all()`. -/
  | notifyingAll
  deriving DecidableEq

end LooperExecutor

open LooperExecutor in
/-- `LooperExecutor`, with its worker and the threads that call it. -/
structure LooperExecutor (τ F : Type*) where
  isActive : Bool := true
  queue : List F := []
  lock : Option (Party τ) := none
  worker : Worker F := .checking
  callers : τ → Caller F := fun _ => .outside

namespace LooperExecutor

/-- What a notification makes of the worker. -/
def Worker.notified {F : Type*} : Worker F → Worker F
  | .asleep => .woken
  | worker => worker

/-- The steps of the worker and of the callers. -/
inductive Event (τ F : Type*)
  | worker
  /-- The worker wakes up by itself. -/
  | wakeUp
  | execute (thread : τ) (func : F)
  | shutdown (thread : τ) (waitForComplete : Bool)
  /-- The next step of a call. -/
  | proceed (thread : τ)

variable {τ F : Type*}

/-- The next step of `run_loop`. -/
def runLoop (executor : LooperExecutor τ F) : Option (LooperExecutor τ F) :=
  match executor.worker with
  | .checking =>
      some { executor with worker := if executor.isActive then .locking else .checkingQueue }
  | .checkingQueue =>
      some { executor with worker := if executor.queue.isEmpty then .finished else .locking }
  | .locking =>
      if executor.lock.isNone then
        some { executor with lock := some .worker, worker := .testing }
      else none
  | .testing =>
      some { executor with worker := if executor.queue.isEmpty then .waiting else .popping }
  | .waiting => some { executor with lock := none, worker := .asleep }
  | .asleep => none
  | .woken =>
      if executor.lock.isNone then
        some { executor with lock := some .worker, worker := .retesting }
      else none
  | .retesting =>
      if executor.queue.isEmpty then some { executor with lock := none, worker := .checking }
      else some { executor with worker := .popping }
  | .popping =>
      match executor.queue with
      | func :: queue => some { executor with queue, lock := none, worker := .running func }
      | [] => none
  | .running _ => some { executor with worker := .checking }
  | .finished => none

variable [DecidableEq τ]

/-- Moves a caller. -/
def setCaller (executor : LooperExecutor τ F) (thread : τ) (caller : Caller F) :
    LooperExecutor τ F :=
  { executor with callers := Function.update executor.callers thread caller }

/-- The next step of a call. -/
def proceed (executor : LooperExecutor τ F) (thread : τ) : Option (LooperExecutor τ F) :=
  match executor.callers thread with
  | .outside => none
  | .executing func =>
      if executor.isActive then some (executor.setCaller thread (.pushing func))
      else some ({ executor with lock := none }.setCaller thread .outside)
  | .pushing func =>
      some ({ executor with
        queue := executor.queue ++ [func]
        lock := none }.setCaller thread .notifyingOne)
  | .notifyingOne =>
      some ({ executor with worker := executor.worker.notified }.setCaller thread .outside)
  | .locking =>
      if executor.lock.isNone then
        some ({ executor with lock := some (.caller thread) }.setCaller thread .swapping)
      else none
  | .swapping =>
      some ({ executor with queue := [], lock := none }.setCaller thread .notifyingAll)
  | .notifyingAll =>
      some ({ executor with worker := executor.worker.notified }.setCaller thread .outside)

/-- One atomic step of the worker or of a caller. -/
def step (executor : LooperExecutor τ F) : Event τ F → Option (LooperExecutor τ F)
  | .worker => executor.runLoop
  | .wakeUp =>
      match executor.worker with
      | .asleep => some { executor with worker := .woken }
      | _ => none
  | .execute thread func =>
      match executor.callers thread with
      | .outside =>
          if executor.lock.isNone then
            some ({ executor with lock := some (.caller thread) }.setCaller thread
              (.executing func))
          else none
      | _ => none
  | .shutdown thread waitForComplete =>
      match executor.callers thread with
      | .outside =>
          some ({ executor with isActive := false }.setCaller thread
            (if waitForComplete then .notifyingAll else .locking))
      | _ => none
  | .proceed thread => executor.proceed thread

/-- The executor with its worker and callers. -/
def machine : Machine (LooperExecutor τ F) (Event τ F) where
  step := step

/-- `LooperExecutor()`. -/
def new : LooperExecutor τ F := {}

/-- The call will still notify. -/
def Notifies : Caller F → Prop
  | .pushing _ | .notifyingOne | .locking | .swapping | .notifyingAll => True
  | .outside | .executing _ => False

/-- The worker sleeps through the shutdown. -/
def Stuck (executor : LooperExecutor τ F) : Prop :=
  executor.worker = .asleep ∧ executor.isActive = false ∧ executor.queue = [] ∧
    ∀ thread, ¬Notifies (executor.callers thread)

/-- The worker has passed its loop test and has yet to wait. -/
def Between : Worker F → Prop
  | .locking | .testing | .waiting => True
  | _ => False

/-- No shutdown notifies while the worker is between its loop test and its wait and the queue
is empty. -/
def NotifiesInTime (executor : LooperExecutor τ F) : Event τ F → Prop
  | .proceed thread =>
      executor.callers thread = .notifyingAll →
        ¬(Between executor.worker ∧ executor.queue = [])
  | _ => True

instance : (worker : Worker F) → Decidable (Between worker)
  | .locking | .testing | .waiting => inferInstanceAs (Decidable True)
  | .checking | .checkingQueue | .asleep | .woken | .retesting | .popping | .running _
  | .finished => inferInstanceAs (Decidable False)

instance [DecidableEq F] (executor : LooperExecutor τ F) :
    (event : Event τ F) → Decidable (NotifiesInTime executor event)
  | .proceed _ => inferInstanceAs (Decidable (_ = _ → ¬(_ ∧ _)))
  | .worker | .wakeUp | .execute _ _ | .shutdown _ _ => inferInstanceAs (Decidable True)

/-- A shutdown that has yet to notify. -/
def ShutsDown : Caller F → Prop
  | .locking | .swapping | .notifyingAll => True
  | _ => False

/-- The worker is where the lock is held. -/
def Worker.Holds : Worker F → Prop
  | .testing | .waiting | .retesting | .popping => True
  | _ => False

/-- The thread is where the lock is held. -/
def Caller.Holds : Caller F → Prop
  | .executing _ | .pushing _ | .swapping => True
  | _ => False

/-- The party is where the lock is held. -/
def Holds (executor : LooperExecutor τ F) : Party τ → Prop :=
  Party.Among executor.worker.Holds fun thread => (executor.callers thread).Holds

/-- The lock guards the code where it is held, and a shutdown under way has cleared the
flag. -/
structure Owned (executor : LooperExecutor τ F) : Prop where
  guarded : Guards executor.lock executor.Holds
  cleared : ∀ thread, ShutsDown (executor.callers thread) → executor.isActive = false

section Owners

variable {executor next : LooperExecutor τ F}

omit [DecidableEq τ] in
/-- The worker moves on, with the lock or without it. -/
theorem Owned.moves (owned : Owned executor) {worker : Worker F}
    (holds : worker.Holds ↔ executor.worker.Holds) : Owned { executor with worker } :=
  ⟨owned.guarded.move .worker holds Party.among_worker, owned.cleared⟩

omit [DecidableEq τ] in
/-- The worker locks. -/
theorem Owned.locks (owned : Owned executor) (free : executor.lock = none) {worker : Worker F}
    (holds : worker.Holds) : Owned { executor with lock := some .worker, worker } := by
  have guarded := owned.guarded
  rw [free] at guarded
  exact ⟨guarded.acquire .worker holds Party.among_worker, owned.cleared⟩

omit [DecidableEq τ] in
/-- The worker unlocks. -/
theorem Owned.unlocks (owned : Owned executor) (queue : List F) {worker : Worker F}
    (held : executor.worker.Holds) (left : ¬worker.Holds) :
    Owned { executor with queue, lock := none, worker } :=
  ⟨owned.guarded.release .worker held left Party.among_worker, owned.cleared⟩

omit [DecidableEq τ] in
/-- **One step** of the worker. -/
theorem Owned.runLoop (owned : Owned executor) (ran : executor.runLoop = some next) :
    Owned next := by
  unfold LooperExecutor.runLoop at ran
  cases stage : executor.worker with
  | checking | checkingQueue | testing =>
      simp only [stage, Option.some.injEq] at ran
      split at ran
      all_goals
        subst ran
        exact owned.moves (by rw [stage]; rfl)
  | running func =>
      simp only [stage, Option.some.injEq] at ran
      subst ran
      exact owned.moves (by rw [stage]; rfl)
  | locking | woken =>
      simp only [stage, Option.ite_none_right_eq_some, Option.some.injEq,
        Option.isNone_iff_eq_none] at ran
      obtain ⟨free, rfl⟩ := ran
      exact owned.locks free trivial
  | waiting =>
      simp only [stage, Option.some.injEq] at ran
      subst ran
      exact owned.unlocks _ (by rw [stage]; trivial) id
  | retesting =>
      simp only [stage] at ran
      split at ran
      · cases ran
        exact owned.unlocks _ (by rw [stage]; trivial) id
      · cases ran
        exact owned.moves (by rw [stage]; rfl)
  | popping =>
      simp only [stage] at ran
      split at ran
      · cases ran
        exact owned.unlocks _ (by rw [stage]; trivial) id
      · cases ran
  | asleep | finished =>
      simp only [stage] at ran
      cases ran

/-- A caller that moves leaves the flag cleared for the shutdowns. -/
theorem cleared_setCaller (owned : Owned executor) {thread : τ} {caller : Caller F}
    (cleared : ShutsDown caller → executor.isActive = false) :
    ∀ other, ShutsDown ((executor.setCaller thread caller).callers other) →
      executor.isActive = false := by
  intro other shuts
  by_cases same : other = thread
  · subst same
    simp only [setCaller, Function.update_self] at shuts
    exact cleared shuts
  · simp only [setCaller, Function.update_of_ne same] at shuts
    exact owned.cleared other shuts

/-- A thread moves on, with the lock or without it. -/
theorem Owned.setCaller (owned : Owned executor) {thread : τ} {caller : Caller F}
    (holds : caller.Holds ↔ (executor.callers thread).Holds)
    (cleared : ShutsDown caller → executor.isActive = false) :
    Owned (executor.setCaller thread caller) := by
  refine ⟨owned.guarded.move (.caller thread) ?_ (Party.among_caller Caller.Holds Iff.rfl),
    cleared_setCaller owned cleared⟩
  simpa only [Holds, Party.Among, LooperExecutor.setCaller, Function.update_self] using holds

/-- A thread locks. -/
theorem Owned.lock (owned : Owned executor) (free : executor.lock = none) {thread : τ}
    {caller : Caller F} (holds : caller.Holds)
    (cleared : ShutsDown caller → executor.isActive = false) :
    Owned ({ executor with lock := some (.caller thread) }.setCaller thread caller) := by
  have guarded := owned.guarded
  rw [free] at guarded
  refine ⟨guarded.acquire (.caller thread) ?_ (Party.among_caller Caller.Holds Iff.rfl),
    cleared_setCaller owned cleared⟩
  simpa only [Holds, Party.Among, LooperExecutor.setCaller, Function.update_self] using holds

/-- A thread unlocks. -/
theorem Owned.unlock (owned : Owned executor) (queue : List F) {thread : τ} {caller : Caller F}
    (held : (executor.callers thread).Holds) (left : ¬caller.Holds)
    (cleared : ShutsDown caller → executor.isActive = false) :
    Owned ({ executor with queue, lock := none }.setCaller thread caller) := by
  refine ⟨owned.guarded.release (.caller thread) held ?_
    (Party.among_caller Caller.Holds Iff.rfl), cleared_setCaller owned cleared⟩
  simpa only [Holds, Party.Among, LooperExecutor.setCaller, Function.update_self] using left

omit [DecidableEq τ] in
/-- A notification leaves the lock to its owner. -/
theorem Owned.notify (owned : Owned executor) :
    Owned { executor with worker := executor.worker.notified } :=
  owned.moves (by cases executor.worker <;> rfl)

/-- **One step** of a call. -/
theorem Owned.proceed (owned : Owned executor) {thread : τ}
    (ran : executor.proceed thread = some next) : Owned next := by
  unfold LooperExecutor.proceed at ran
  cases stage : executor.callers thread with
  | outside =>
      simp only [stage] at ran
      cases ran
  | executing func =>
      simp only [stage] at ran
      split at ran
      · cases ran
        exact owned.setCaller (by rw [stage]; rfl) fun shuts => nomatch shuts
      · cases ran
        exact owned.unlock _ (by rw [stage]; trivial) id fun shuts => nomatch shuts
  | pushing func =>
      simp only [stage, Option.some.injEq] at ran
      subst ran
      exact owned.unlock _ (by rw [stage]; trivial) id fun shuts => nomatch shuts
  | swapping =>
      have inactive := owned.cleared thread (by rw [stage]; trivial)
      simp only [stage, Option.some.injEq] at ran
      subst ran
      exact owned.unlock _ (by rw [stage]; trivial) id fun _ => inactive
  | locking =>
      have inactive := owned.cleared thread (by rw [stage]; trivial)
      simp only [stage, Option.ite_none_right_eq_some, Option.some.injEq,
        Option.isNone_iff_eq_none] at ran
      obtain ⟨free, rfl⟩ := ran
      exact owned.lock free trivial fun _ => inactive
  | notifyingOne | notifyingAll =>
      simp only [stage, Option.some.injEq] at ran
      subst ran
      exact owned.notify.setCaller (by rw [stage]; rfl) fun shuts => nomatch shuts

/-- **Every step** keeps the lock with its owner. -/
theorem Owned.step (owned : Owned executor) {event : Event τ F}
    (stepped : executor.step event = some next) : Owned next := by
  cases event with
  | worker => exact owned.runLoop stepped
  | wakeUp =>
      simp only [LooperExecutor.step] at stepped
      split at stepped
      · next stage =>
          cases stepped
          exact owned.moves (by rw [stage]; rfl)
      · cases stepped
  | execute thread func =>
      simp only [LooperExecutor.step] at stepped
      split at stepped
      · simp only [Option.ite_none_right_eq_some, Option.some.injEq,
          Option.isNone_iff_eq_none] at stepped
        obtain ⟨free, rfl⟩ := stepped
        exact owned.lock free trivial fun shuts => nomatch shuts
      · cases stepped
  | shutdown thread waitForComplete =>
      simp only [LooperExecutor.step] at stepped
      split at stepped
      · next outside =>
          cases stepped
          have cleared : Owned { executor with isActive := false } :=
            ⟨owned.guarded, fun _ _ => rfl⟩
          refine cleared.setCaller ?_ fun _ => rfl
          rw [outside]
          cases waitForComplete <;> rfl
      · cases stepped
  | proceed thread => exact owned.proceed stepped

theorem owned_of_reaches (reached : machine.Reaches Machine.anyStep new executor) :
    Owned executor := by
  refine reached.invariant Owned ⟨fun party => ⟨fun owns => (nomatch owns), fun holds => ?_⟩,
    fun _ shuts => (nomatch shuts)⟩ fun _ _ _ owned _ stepped => owned.step stepped
  cases party <;> exact holds.elim

end Owners

/-- While the flag is cleared, a worker that is to sleep on an empty queue has a shutdown to
wake it. -/
def Awaited (executor : LooperExecutor τ F) : Prop :=
  Between executor.worker ∨ executor.worker = .asleep → executor.isActive = false →
    executor.queue = [] → ∃ thread, ShutsDown (executor.callers thread)

section Steps

variable {executor next : LooperExecutor τ F}

omit [DecidableEq τ] in
/-- A step of the worker comes between the test and the wait only with the flag set or the
queue filled, and changes neither the flag nor the callers. -/
theorem runLoop_cases (ran : executor.runLoop = some next) :
    next.isActive = executor.isActive ∧ next.callers = executor.callers ∧
      (Between next.worker ∨ next.worker = .asleep →
        next.queue = executor.queue ∧ (Between executor.worker ∨ executor.worker = .asleep) ∨
          next.isActive = true ∨ next.queue ≠ []) := by
  unfold runLoop at ran
  cases stage : executor.worker with
  | checking =>
      simp only [stage, Option.some.injEq] at ran
      subst ran
      refine ⟨rfl, rfl, fun sleeps => Or.inr (Or.inl ?_)⟩
      cases active : executor.isActive with
      | true => rfl
      | false => simp [active, Between] at sleeps
  | checkingQueue =>
      simp only [stage, Option.some.injEq] at ran
      subst ran
      refine ⟨rfl, rfl, fun sleeps => Or.inr (Or.inr fun empty => ?_)⟩
      simp [show executor.queue = [] from empty, Between] at sleeps
  | locking =>
      simp only [stage, Option.ite_none_right_eq_some, Option.some.injEq] at ran
      obtain ⟨-, rfl⟩ := ran
      exact ⟨rfl, rfl, fun _ => Or.inl ⟨rfl, Or.inl trivial⟩⟩
  | testing =>
      simp only [stage, Option.some.injEq] at ran
      subst ran
      exact ⟨rfl, rfl, fun _ => Or.inl ⟨rfl, Or.inl trivial⟩⟩
  | waiting =>
      simp only [stage, Option.some.injEq] at ran
      subst ran
      exact ⟨rfl, rfl, fun _ => Or.inl ⟨rfl, Or.inl trivial⟩⟩
  | asleep =>
      simp only [stage] at ran
      cases ran
  | woken =>
      simp only [stage, Option.ite_none_right_eq_some, Option.some.injEq] at ran
      obtain ⟨-, rfl⟩ := ran
      exact ⟨rfl, rfl, fun sleeps => by simp [Between] at sleeps⟩
  | retesting =>
      simp only [stage] at ran
      split at ran
      all_goals
        simp only [Option.some.injEq] at ran
        subst ran
        exact ⟨rfl, rfl, fun sleeps => by simp [Between] at sleeps⟩
  | popping =>
      simp only [stage] at ran
      split at ran
      · simp only [Option.some.injEq] at ran
        subst ran
        exact ⟨rfl, rfl, fun sleeps => by simp [Between] at sleeps⟩
      · cases ran
  | running func =>
      simp only [stage, Option.some.injEq] at ran
      subst ran
      exact ⟨rfl, rfl, fun sleeps => by simp [Between] at sleeps⟩
  | finished =>
      simp only [stage] at ran
      cases ran

/-- After a notification nobody sleeps. -/
theorem Worker.notified_between {worker : Worker F}
    (after : Between worker.notified ∨ worker.notified = .asleep) : Between worker := by
  cases worker with
  | asleep => exact after.elim (fun between => between) (fun sleeps => nomatch sleeps)
  | checking | checkingQueue | locking | testing | waiting | woken | retesting | popping
  | running | finished => exact after.elim (fun between => between) (fun sleeps => nomatch sleeps)

omit [DecidableEq τ] in
/-- **One step** of the worker. -/
theorem Awaited.runLoop (awaited : Awaited executor) (ran : executor.runLoop = some next) :
    Awaited next := by
  obtain ⟨sameFlag, sameCallers, comes⟩ := runLoop_cases ran
  intro sleeps inactive empty
  rw [sameCallers]
  rcases comes sleeps with ⟨sameQueue, slept⟩ | active | filled
  · exact awaited slept (sameFlag ▸ inactive) (sameQueue ▸ empty)
  · rw [active] at inactive
    cases inactive
  · exact absurd empty filled

/-- A caller that is not in a shutdown does not stand in for one. -/
theorem Awaited.setCaller (awaited : Awaited executor) {thread : τ} {caller : Caller F}
    (outside : ¬ShutsDown (executor.callers thread)) :
    Awaited (executor.setCaller thread caller) := by
  intro sleeps inactive empty
  obtain ⟨other, shuts⟩ := awaited sleeps inactive empty
  refine ⟨other, ?_⟩
  have different : other ≠ thread := fun same => outside (same ▸ shuts)
  simpa only [LooperExecutor.setCaller, Function.update_of_ne different] using shuts

omit [DecidableEq τ] in
/-- A notification wakes a worker that sleeps. -/
theorem Awaited.notify (awaited : Awaited executor) :
    Awaited { executor with worker := executor.worker.notified } :=
  fun sleeps => awaited (Or.inl (Worker.notified_between sleeps))

/-- A thread that shuts down will wake the worker. -/
theorem awaited_of_shutsDown {thread : τ} {caller : Caller F} (shuts : ShutsDown caller) :
    Awaited (executor.setCaller thread caller) :=
  fun _ _ _ => ⟨thread, by
    simpa only [LooperExecutor.setCaller, Function.update_self] using shuts⟩

/-- **One step** of a call keeps the worker awaited, unless it notifies too early. -/
theorem Awaited.proceed (awaited : Awaited executor) {thread : τ}
    (inTime : NotifiesInTime executor (.proceed thread))
    (ran : executor.proceed thread = some next) : Awaited next := by
  unfold LooperExecutor.proceed at ran
  cases stage : executor.callers thread with
  | outside =>
      simp only [stage] at ran
      cases ran
  | executing func =>
      have outside : ¬ShutsDown (executor.callers thread) := by simp [stage, ShutsDown]
      simp only [stage] at ran
      split at ran
      · cases ran
        exact awaited.setCaller outside
      · cases ran
        have released : Awaited { executor with lock := none } := awaited
        exact released.setCaller outside
  | pushing func =>
      simp only [stage] at ran
      cases ran
      intro _ _ empty
      exact absurd empty (List.append_ne_nil_of_right_ne_nil _ (List.cons_ne_nil _ _))
  | notifyingOne =>
      simp only [stage] at ran
      cases ran
      exact awaited.notify.setCaller (by simp [stage, ShutsDown])
  | locking =>
      simp only [stage, Option.ite_none_right_eq_some, Option.some.injEq] at ran
      obtain ⟨-, rfl⟩ := ran
      exact awaited_of_shutsDown trivial
  | swapping =>
      simp only [stage, Option.some.injEq] at ran
      subst ran
      exact awaited_of_shutsDown trivial
  | notifyingAll =>
      simp only [stage, Option.some.injEq] at ran
      subst ran
      intro sleeps _ empty
      exact absurd ⟨Worker.notified_between sleeps, empty⟩ (inTime stage)

/-- **Every step** that notifies in time keeps the worker awaited. -/
theorem Awaited.step (awaited : Awaited executor) {event : Event τ F}
    (inTime : NotifiesInTime executor event) (stepped : executor.step event = some next) :
    Awaited next := by
  cases event with
  | worker => exact awaited.runLoop stepped
  | wakeUp =>
      simp only [LooperExecutor.step] at stepped
      split at stepped
      · cases stepped
        exact fun sleeps => by simp [Between] at sleeps
      · cases stepped
  | execute thread func =>
      simp only [LooperExecutor.step] at stepped
      split at stepped
      · next outside =>
          simp only [Option.ite_none_right_eq_some, Option.some.injEq] at stepped
          obtain ⟨-, rfl⟩ := stepped
          have locked : Awaited { executor with lock := some (.caller thread) } := awaited
          exact locked.setCaller (by simp [outside, ShutsDown])
      · cases stepped
  | shutdown thread waitForComplete =>
      simp only [LooperExecutor.step] at stepped
      split at stepped
      · cases stepped
        refine awaited_of_shutsDown ?_
        split <;> trivial
      · cases stepped
  | proceed thread => exact awaited.proceed inTime stepped

omit [DecidableEq τ] in
/-- A worker that is awaited does not sleep for good. -/
theorem Awaited.not_stuck (awaited : Awaited executor) : ¬Stuck executor := by
  intro stuck
  obtain ⟨sleeps, inactive, empty, quiet⟩ := stuck
  obtain ⟨thread, shuts⟩ := awaited (Or.inr sleeps) inactive empty
  apply quiet thread
  cases stage : executor.callers thread with
  | outside | executing =>
      rw [stage] at shuts
      cases shuts
  | pushing | notifyingOne | locking | swapping | notifyingAll => trivial

/-- A run may begin with a step of the worker. -/
theorem reaches_worker {next later : LooperExecutor τ F} (ran : executor.runLoop = some next)
    (rest : machine.Reaches Machine.anyStep next later) :
    machine.Reaches Machine.anyStep executor later :=
  Machine.Reaches.head trivial (show machine.step executor .worker = some next from ran) rest

/-- A worker past its loop test goes to sleep when nobody else moves and there is nothing to
do. -/
theorem falls_asleep (between : Between executor.worker) (empty : executor.queue = [])
    (free : executor.worker = .locking → executor.lock = none) :
    machine.Reaches Machine.anyStep executor
      { executor with lock := none, worker := .asleep } := by
  have waits : ∀ executor : LooperExecutor τ F, executor.worker = .waiting →
      machine.Reaches Machine.anyStep executor
        { executor with lock := none, worker := .asleep } := by
    intro executor stage
    exact reaches_worker (by simp only [runLoop, stage]) (.refl _)
  have tests : ∀ executor : LooperExecutor τ F, executor.worker = .testing →
      executor.queue = [] → machine.Reaches Machine.anyStep executor
        { executor with lock := none, worker := .asleep } := by
    intro executor stage empty
    refine reaches_worker ?_ (waits { executor with worker := .waiting } rfl)
    simp only [runLoop, stage, empty, List.isEmpty_nil, ↓reduceIte]
  cases stage : executor.worker with
  | locking =>
      refine reaches_worker ?_ (tests { executor with lock := some .worker, worker := .testing }
        rfl empty)
      simp only [runLoop, stage, free stage, Option.isNone_none, ↓reduceIte]
  | testing => exact tests executor stage empty
  | waiting => exact waits executor stage
  | checking | checkingQueue | asleep | woken | retesting | popping | running | finished =>
      simp [stage, Between] at between

end Steps

/-- A shutdown that notifies too early, with no other call under way, leaves the worker to
go to sleep for good. -/
theorem stuck_of_early {executor next : LooperExecutor τ F} {thread : τ} (owned : Owned executor)
    (stage : executor.callers thread = .notifyingAll)
    (early : ¬NotifiesInTime executor (.proceed thread))
    (quiet : ∀ other, other ≠ thread → executor.callers other = .outside)
    (stepped : machine.step executor (.proceed thread) = some next) :
    ∃ later, machine.Reaches Machine.anyStep next later ∧ Stuck later := by
  have inactive := owned.cleared thread (by rw [stage]; trivial)
  simp only [NotifiesInTime, stage, true_implies, not_not] at early
  obtain ⟨between, empty⟩ := early
  have awake : executor.worker.notified = executor.worker := by
    cases worker : executor.worker with
    | locking | testing | waiting => rfl
    | checking | checkingQueue | asleep | woken | retesting | popping | running | finished =>
        simp [worker, Between] at between
  simp only [machine, step, proceed, stage, Option.some.injEq, awake] at stepped
  subst stepped
  have outside : ∀ other, (executor.setCaller thread .outside).callers other = .outside := by
    intro other
    by_cases same : other = thread
    · subst same
      exact Function.update_self _ _ _
    · exact (Function.update_of_ne same _ _).trans (quiet other same)
  have free (locking : executor.worker = .locking) : executor.lock = none := by
    refine owned.guarded.free fun party held => ?_
    cases party with
    | worker =>
        simp only [Holds, Party.Among, locking] at held
        exact held
    | caller other =>
        by_cases same : other = thread
        · subst same
          simp only [Holds, Party.Among, stage] at held
          exact held
        · simp only [Holds, Party.Among, quiet other same] at held
          exact held
  refine ⟨_, falls_asleep between empty free, rfl, inactive, empty, fun other notifies => ?_⟩
  rw [show ({ executor.setCaller thread .outside with
    lock := none, worker := .asleep } : LooperExecutor τ F).callers other = .outside from
      outside other] at notifies
  exact notifies

/-- **Sleeping through a shutdown.** In every run in which no shutdown notifies while the
worker is between its loop test and its wait and the queue is empty, the worker never sleeps
with the flag cleared, the queue empty and no notification to come. A shutdown that does, with
no other call under way, leaves the worker to go to sleep so. -/
theorem never_stuck :
    (∀ executor : LooperExecutor τ F, machine.Reaches NotifiesInTime new executor →
        ¬Stuck executor) ∧
      ∀ (executor next : LooperExecutor τ F) (thread : τ),
        machine.Reaches Machine.anyStep new executor →
        executor.callers thread = .notifyingAll →
        ¬NotifiesInTime executor (.proceed thread) →
        (∀ other, other ≠ thread → executor.callers other = .outside) →
        machine.step executor (.proceed thread) = some next →
        ∃ later, machine.Reaches Machine.anyStep next later ∧ Stuck later := by
  constructor
  · intro executor reached
    have awaited : Awaited executor := by
      refine reached.invariant Awaited (fun sleeps => ?_)
        fun before event after awaited inTime stepped => awaited.step inTime stepped
      simp [new, Between] at sleeps
    exact awaited.not_stuck
  · intro executor next thread reached stage early quiet stepped
    exact stuck_of_early (owned_of_reaches reached) stage early quiet stepped

/-- The worker sleeps when a shutdown clears the flag, and the notification lets it finish; one
that a shutdown of one of two threads notifies too early sleeps for good. -/
theorem never_stuck_woken :
    (∃ asleep last : LooperExecutor Unit Unit,
      machine.execute NotifiesInTime
        [.worker, .worker, .worker, .worker, .shutdown () true] new = some asleep ∧
      asleep.worker = .asleep ∧ asleep.isActive = false ∧ asleep.queue = [] ∧ ¬Stuck asleep ∧
      machine.execute NotifiesInTime
        [.proceed (), .worker, .worker, .worker, .worker] asleep = some last ∧
      last.worker = .finished ∧ ¬Stuck last) ∧
    ∃ early next later : LooperExecutor Bool Unit,
      machine.execute Machine.anyStep [.worker, .worker, .shutdown true true] new = some early ∧
      machine.step early (.proceed true) = some next ∧
      machine.Reaches Machine.anyStep next later ∧ Stuck later := by
  constructor
  · have ran : ((machine (τ := Unit) (F := Unit)).execute NotifiesInTime
        [.worker, .worker, .worker, .worker, .shutdown () true] new).bind (fun asleep =>
          (machine.execute NotifiesInTime
            [.proceed (), .worker, .worker, .worker, .worker] asleep).map fun last =>
              decide (asleep.worker = .asleep ∧ asleep.isActive = false ∧ asleep.queue = [] ∧
                last.worker = .finished)) = some true := by decide
    obtain ⟨asleep, first, rest⟩ := Option.bind_eq_some_iff.mp ran
    obtain ⟨last, woken, checked⟩ := Option.map_eq_some_iff.mp rest
    obtain ⟨sleeps, inactive, empty, finished⟩ := of_decide_eq_true checked
    have reached := Machine.reaches_of_execute first
    exact ⟨asleep, last, first, sleeps, inactive, empty, never_stuck.1 asleep reached, woken,
      finished, never_stuck.1 last
        (Relation.ReflTransGen.trans reached (Machine.reaches_of_execute woken))⟩
  · have ran : ((machine (τ := Bool) (F := Unit)).execute Machine.anyStep
        [.worker, .worker, .shutdown true true] new).bind (fun early =>
          (machine.step early (.proceed true)).map fun _ =>
            decide (early.callers true = .notifyingAll ∧ early.callers false = .outside ∧
              ¬NotifiesInTime early (.proceed true))) = some true := by decide
    obtain ⟨early, first, rest⟩ := Option.bind_eq_some_iff.mp ran
    obtain ⟨next, stepped, checked⟩ := Option.map_eq_some_iff.mp rest
    obtain ⟨notifies, outside, tooEarly⟩ := of_decide_eq_true checked
    have quiet : ∀ other, other ≠ true → early.callers other = .outside := by
      intro other different
      rw [Bool.eq_false_of_not_eq_true different]
      exact outside
    obtain ⟨later, reached, stuck⟩ := never_stuck.2 early next true
      (Machine.reaches_of_execute first) notifies tooEarly quiet stepped
    exact ⟨early, next, later, first, stepped, reached, stuck⟩

/-- The worker finds the flag set and the queue empty, a shutdown clears the flag and
notifies, and the worker waits. -/
theorem sleeps_through_shutdown :
    ∃ executor : LooperExecutor Unit Unit, machine.Reaches Machine.anyStep new executor ∧
      Stuck executor := by
  have ran : ((machine (τ := Unit) (F := Unit)).execute Machine.anyStep
      [.worker, .worker, .worker, .shutdown () true, .proceed (), .worker] new).map
      (fun executor => decide (executor.worker = .asleep ∧ executor.isActive = false ∧
        executor.queue = [] ∧ executor.callers () = .outside)) = some true := by decide
  obtain ⟨executor, executed, checked⟩ := Option.map_eq_some_iff.mp ran
  obtain ⟨sleeps, inactive, empty, outside⟩ := of_decide_eq_true checked
  refine ⟨executor, Machine.reaches_of_execute executed, sleeps, inactive, empty, ?_⟩
  intro thread notifies
  rw [outside] at notifies
  exact notifies

end LooperExecutor

end FastDb.Coroutine
