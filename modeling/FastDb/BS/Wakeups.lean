import FastDb.BS.ThreadPool

/-! # Wakeups in the task pool

Who waits for which condition variable of `BS::thread_pool`. A worker sleeps on only while as
many others have been woken as tasks are queued, or the pool is paused
(`FastDb.BS.ThreadPool.workers_woken`). -/

namespace FastDb.BS.ThreadPool

open Foundation

variable {τ T : Type} [DecidableEq τ] {flags : OptFlags} {workers : Workers τ}

/-- In `tasks_done_cv`. -/
def Stage.waits : Stage τ T → Bool
  | .waiting _ _ => true
  | _ => false

/-- The stages of `worker()`. -/
def Stage.worker : Stage τ T → Bool
  | .turning | .sleeping | .running _ | .returned => true
  | .notifying (.task _) | .unpausing (.task _) | .entering (.task _) _ | .waiting (.task _) _ =>
      true
  | _ => false

/-- The stages of `~thread_pool()`. -/
def Stage.destroys : Stage τ T → Bool
  | .entering .destructor _ | .waiting .destructor _ | .stopping _ | .joining _ _
  | .destructed => true
  | .notifying .destructor | .unpausing .destructor => true
  | _ => false

/-- The workers that `~thread_pool()` has still to join, once it stops them. -/
def Stage.unjoined : Stage τ T → Option (List τ)
  | .stopping workers => some workers
  | .joining worker workers => some (worker :: workers)
  | .destructed => some []
  | _ => none

/-- What a thread at a stage knows of the pool. -/
structure Settled (workers : Workers τ) (thread : τ) (pool : ThreadPool τ T)
    (stage : Stage τ T) : Prop where
  available : Condition.Waits thread pool.taskAvailableCv (stage = .sleeping)
  done : Condition.Waits thread pool.tasksDoneCv (stage.waits = true)
  worker : stage.worker = true ↔ thread ∈ workers.threads
  returned : stage = .returned ↔ thread ∈ pool.returned
  gone : thread ∈ pool.returned → thread ∈ pool.stopRequested
  awake : thread ∈ pool.stopRequested → thread ∉ pool.taskAvailableCv.asleep
  begun : stage.destroys = true → pool.begun = true
  joins : ∀ worker rest, stage = .joining worker rest → worker ∈ pool.stopRequested
  joined : ∀ unjoined, stage.unjoined = some unjoined → unjoined ⊆ workers.threads ∧
    ∀ worker ∈ workers.threads, worker ∈ pool.returned ∨ worker ∈ unjoined

omit [DecidableEq τ] in
/-- Who calls is outside, or runs a task. -/
theorem caller_cases {stage : Stage τ T} {caller : Caller T} (calls : stage.caller = some caller) :
    (stage = .outside ∧ caller = .outside) ∨
      ∃ task, stage = .running task ∧ caller = .task task := by
  cases stage <;> simp only [Stage.caller, reduceCtorEq, Option.some.injEq] at calls
  · exact .inl ⟨rfl, calls.symm⟩
  · next task => exact .inr ⟨task, rfl, calls.symm⟩

omit [DecidableEq τ] in
@[simp]
theorem back_ne_sleeping (caller : Caller T) : Stage.back workers caller ≠ .sleeping := by
  cases caller <;> simp [Stage.back]

omit [DecidableEq τ] in
@[simp]
theorem waits_back (caller : Caller T) : (Stage.back workers caller).waits = false := by
  cases caller <;> rfl

/-- Retrieving a task lets a worker sleep or go on. -/
theorem Retrieves.available {thread : τ} {pool after : ThreadPool τ T} {stage : Stage τ T}
    (retrieves : Retrieves flags thread pool (after, stage)) :
    Condition.Moves thread (pool.taskAvailableCv, False)
      (after.taskAvailableCv, stage = .sleeping) := by
  cases retrieves with
  | stop | take => simpa using Condition.Moves.stay _ False
  | sleep => exact .sleep _ not_false rfl

/-- The workers use `task_available_cv` as a condition. -/
theorem Moves.available {thread : τ} {pool after : ThreadPool τ T} {before stage : Stage τ T}
    {event : Event τ T}
    (moves : Moves flags workers thread event (pool, before) (after, stage)) :
    Condition.Moves thread (pool.taskAvailableCv, before = .sleeping)
      (after.taskAvailableCv, stage = .sleeping) := by
  cases moves with
  | detachTask _ calls | unpause calls | wait _ calls =>
      obtain ⟨rfl, rfl⟩ | ⟨task, rfl, rfl⟩ := caller_cases calls
      all_goals simpa using Condition.Moves.stay _ False
  | pause | purge => exact .stay _ _
  | throws | destruct | notifyNone | pass | sleepDone | wakeUpDone | leave | sleepAgain | timeOut
  | finish | destruction | join => simpa using Condition.Moves.stay _ False
  | notifyOne _ sleeps => simpa using Condition.Moves.wake False sleeps
  | notifyAll => simpa using Condition.Moves.wakeAll _ False
  | turn _ retrieves =>
      have moved : Condition.Moves thread (pool.taskAvailableCv, False)
        (after.taskAvailableCv, stage = .sleeping) := retrieves.available
      simpa using moved
  | wakeUp sleeps => exact .wake _ sleeps
  | retry _ woke retrieves =>
      cases retrieves with
      | stop | take => exact .leave _ _ (by simp)
      | sleep => exact .sleepAgain _ _ rfl
  | requestStop worker =>
      simp only [ThreadPool.requestStop, reduceCtorEq]
      split
      · exact .wakeAll _ _
      · exact .stay _ _

/-- The head of the loop wakes all in `tasks_done_cv` or none. -/
theorem finishTask_done (flags : OptFlags) (thread : τ) (pool : ThreadPool τ T) :
    Condition.Moves thread (pool.tasksDoneCv, False)
      ((pool.finishTask flags).tasksDoneCv, False) := by
  unfold finishTask
  dsimp only
  split
  · exact .wakeAll _ _
  · exact .stay _ _

/-- The threads in `wait` use `tasks_done_cv` as a condition. -/
theorem Moves.done {thread : τ} {pool after : ThreadPool τ T} {before stage : Stage τ T}
    {event : Event τ T}
    (moves : Moves flags workers thread event (pool, before) (after, stage)) :
    Condition.Moves thread (pool.tasksDoneCv, before.waits = true)
      (after.tasksDoneCv, stage.waits = true) := by
  cases moves with
  | detachTask _ calls | unpause calls | wait _ calls =>
      obtain ⟨rfl, rfl⟩ | ⟨task, rfl, rfl⟩ := caller_cases calls
      all_goals exact .stay _ _
  | pause | purge | throws | destruct | wakeUp | finish | destruction | join | requestStop =>
      exact .stay _ _
  | notifyOne | notifyNone | notifyAll | pass =>
      rw [waits_back]
      exact .stay _ _
  | sleepDone => exact .sleep _ (by simp [Stage.waits]) rfl
  | wakeUpDone _ _ sleeps => exact .wake _ sleeps
  | leave | timeOut => exact .leave _ _ (by simp)
  | sleepAgain => exact .sleepAgain _ _ rfl
  | turn _ retrieves =>
      have woken := finishTask_done flags thread pool
      cases retrieves <;> simpa [Stage.waits] using woken
  | retry _ _ retrieves => cases retrieves <;> exact .stay _ _

namespace Settled

variable {thread other : τ} {pool after : ThreadPool τ T} {before stage idle : Stage τ T}
  {event : Event τ T}

/-- A worker returns only if it has been told to stop, and does not sleep then. -/
theorem ends (retrieves : Retrieves flags thread pool (after, stage))
    (stays : thread ∉ pool.returned)
    (awake : thread ∈ pool.stopRequested → thread ∉ pool.taskAvailableCv.asleep) :
    (stage = .returned ↔ thread ∈ after.returned) ∧
      (thread ∈ after.returned → thread ∈ after.stopRequested) ∧
      (thread ∈ after.stopRequested → thread ∉ after.taskAvailableCv.asleep) ∧
      stage.worker = true ∧ stage.destroys = false ∧ stage.unjoined = none := by
  cases retrieves with
  | stop requested => exact ⟨by simp, fun _ => requested, awake, rfl, rfl, rfl⟩
  | sleep runs =>
      exact ⟨by simp [stays], fun returned => absurd returned stays,
        fun stopped => absurd stopped runs, rfl, rfl, rfl⟩
  | take =>
      exact ⟨by simp [stays], fun returned => absurd returned stays, awake, rfl, rfl, rfl⟩

/-- A step keeps what its own thread knows. -/
theorem own (settled : Settled workers thread pool before)
    (moves : Moves flags workers thread event (pool, before) (after, stage)) :
    Settled workers thread after stage := by
  have available := settled.available.own moves.available
  have done := settled.done.own moves.done
  obtain ⟨-, -, worker, returned, gone, awake, begun, joins, joined⟩ := settled
  cases moves with
  | detachTask _ calls | unpause calls | wait _ calls =>
      obtain ⟨rfl, rfl⟩ | ⟨task, rfl, rfl⟩ := caller_cases calls
      all_goals
        exact ⟨available, done, worker, by simpa using returned, gone, awake,
          by simp [Stage.destroys], by simp, by simp [Stage.unjoined]⟩
  | pause | purge | throws | wakeUpDone =>
      exact ⟨available, done, worker, returned, gone, awake, begun, joins, joined⟩
  | destruct =>
      exact ⟨available, done, worker, by simpa using returned, gone, awake, by simp, by simp,
        by simp [Stage.unjoined]⟩
  | notifyNone caller | pass caller | leave caller | timeOut caller =>
      cases caller
      all_goals
        exact ⟨available, done, worker, by simpa [Stage.back] using returned, gone, awake, begun,
          by simp [Stage.back], by simp +contextual [Stage.back, Stage.unjoined]⟩
  | notifyOne caller =>
      cases caller
      all_goals
        exact ⟨available, done, worker, by simpa [Stage.back] using returned, gone,
          fun stopped asleep => awake stopped (Finset.mem_of_mem_erase asleep), begun,
          by simp [Stage.back], by simp +contextual [Stage.back, Stage.unjoined]⟩
  | notifyAll caller =>
      cases caller
      all_goals
        exact ⟨available, done, worker, by simpa [Stage.back] using returned, gone,
          fun _ => Finset.notMem_empty _, begun, by simp [Stage.back],
          by simp +contextual [Stage.back, Stage.unjoined]⟩
  | sleepDone caller | sleepAgain caller =>
      cases caller
      all_goals
        exact ⟨available, done, worker, by simpa using returned, gone, awake, begun, by simp,
          by simp [Stage.unjoined]⟩
  | turn _ retrieves =>
      have stays : thread ∉ pool.returned := fun left => by simpa using returned.mpr left
      obtain ⟨returned, gone, awake, works, alive, whole⟩ := ends retrieves stays awake
      exact ⟨available, done, by rw [works]; exact worker, returned, gone, awake,
        by simp [alive], fun _ _ joining => by simp [joining, Stage.unjoined] at whole,
        by simp [whole]⟩
  | retry _ _ retrieves =>
      have stays : thread ∉ pool.returned := fun left => by simpa using returned.mpr left
      obtain ⟨returned, gone, awake, works, alive, whole⟩ := ends retrieves stays fun _ =>
        Finset.notMem_erase _ _
      exact ⟨available, done, by rw [works]; exact worker, returned, gone, awake,
        by simp [alive], fun _ _ joining => by simp [joining, Stage.unjoined] at whole,
        by simp [whole]⟩
  | wakeUp =>
      exact ⟨available, done, worker, returned, gone,
        fun stopped asleep => awake stopped (Finset.mem_of_mem_erase asleep), begun, joins, joined⟩
  | finish =>
      exact ⟨available, done, worker, by simpa using returned, gone, awake,
        by simp [Stage.destroys], by simp, by simp [Stage.unjoined]⟩
  | destruction =>
      exact ⟨available, done, worker, by simpa using returned, gone, awake, begun, by simp, joined⟩
  | requestStop next rest =>
      have elsewhere : thread ∉ (pool.requestStop next).taskAvailableCv.asleep := fun asleep => by
        simpa using available.waiter.mpr (.inl asleep)
      exact ⟨available, done, worker, by simpa [ThreadPool.requestStop] using returned,
        fun left => Finset.mem_insert_of_mem (gone left), fun _ => elsewhere, begun,
        by simp [ThreadPool.requestStop], joined⟩
  | join next rest _ left =>
      refine ⟨available, done, worker, by simpa using returned, gone, awake, begun, by simp, ?_⟩
      obtain ⟨within, all⟩ := joined _ rfl
      simp only [Stage.unjoined, Option.some.injEq, forall_eq']
      refine ⟨fun _ member => within (List.mem_cons_of_mem _ member), fun other works => ?_⟩
      obtain found | member := all other works
      · exact .inl found
      · obtain rfl | member := List.mem_cons.mp member
        · exact .inl left
        · exact .inr member

/-- A worker does not end another one. -/
theorem spares (retrieves : Retrieves flags thread pool (after, stage))
    (idler : Settled workers other pool idle) (different : other ≠ thread) :
    Settled workers other after idle := by
  have available := idler.available.undisturbed different retrieves.available
  obtain ⟨-, done, worker, returned, gone, awake, begun, joins, joined⟩ := idler
  cases retrieves with
  | stop =>
      refine ⟨available, done, worker, by simpa [different] using returned,
        by simpa [different] using gone, awake, begun, joins, fun unjoined same => ?_⟩
      obtain ⟨within, all⟩ := joined unjoined same
      exact ⟨within, fun worker works => (all worker works).imp_left Finset.mem_insert_of_mem⟩
  | sleep =>
      exact ⟨available, done, worker, returned, gone, fun stopped asleep =>
        awake stopped (Finset.mem_of_mem_insert_of_ne asleep different), begun, joins, joined⟩
  | take => exact ⟨available, done, worker, returned, gone, awake, begun, joins, joined⟩

/-- A step does not disturb what another thread knows. -/
theorem undisturbed (idler : Settled workers other pool idle) (different : other ≠ thread)
    (moves : Moves flags workers thread event (pool, before) (after, stage)) :
    Settled workers other after idle := by
  have available := idler.available.undisturbed different moves.available
  have done := idler.done.undisturbed different moves.done
  obtain ⟨waits, finished, worker, returned, gone, awake, begun, joins, joined⟩ := idler
  cases moves with
  | detachTask | unpause | wait | pause | purge | throws | wakeUpDone | notifyNone | pass | leave
  | timeOut | sleepDone | sleepAgain | finish | destruction | join =>
      exact ⟨available, done, worker, returned, gone, awake, begun, joins, joined⟩
  | destruct =>
      exact ⟨available, done, worker, returned, gone, awake, fun _ => rfl, joins, joined⟩
  | notifyOne | wakeUp =>
      exact ⟨available, done, worker, returned, gone,
        fun stopped asleep => awake stopped (Finset.mem_of_mem_erase asleep), begun, joins, joined⟩
  | notifyAll =>
      exact ⟨available, done, worker, returned, gone, fun _ => Finset.notMem_empty _, begun, joins,
        joined⟩
  | turn _ retrieves =>
      have counted : Settled workers other (pool.finishTask flags) idle :=
        ⟨waits, finished.undisturbed different (finishTask_done flags thread pool), worker,
          returned, gone, awake, begun, joins, joined⟩
      exact spares retrieves counted different
  | retry _ _ retrieves =>
      have leaves : Condition.Waits other (pool.taskAvailableCv.leave thread) (idle = .sleeping) :=
        waits.undisturbed different (.leave _ True not_false)
      have left : Settled workers other
          { pool with taskAvailableCv := pool.taskAvailableCv.leave thread } idle :=
        ⟨leaves, finished, worker, returned, gone,
          fun stopped asleep => awake stopped (Finset.mem_of_mem_erase asleep), begun, joins,
          joined⟩
      exact spares retrieves left different
  | requestStop next rest =>
      refine ⟨available, done, worker, returned, ?_, ?_, begun, ?_, joined⟩
      · exact fun left => Finset.mem_insert_of_mem (gone left)
      · intro stopped asleep
        unfold ThreadPool.requestStop at stopped asleep
        dsimp only at stopped asleep
        split at asleep
        · exact Finset.notMem_empty _ asleep
        · next quiet =>
            obtain rfl | stopped := Finset.mem_insert.mp stopped
            · exact quiet (.inl asleep)
            · exact awake stopped asleep
      · exact fun worker rest joining => Finset.mem_insert_of_mem (joins worker rest joining)

end Settled

/-- Every thread is settled in every state of a run. -/
theorem settled_of_reaches {allowed : State τ T → τ × Event τ T → Prop} {state : State τ T}
    (reached : (machine flags workers).Reaches allowed (start workers) state) (thread : τ) :
    Settled workers thread state.shared (state.threads thread) := by
  refine Threads.reaches_assertions reached (Settled workers) ?_
    (fun _ _ _ _ _ _ settled ran => (settled _).own (atomic_moves ran))
    (fun _ _ _ _ _ other different _ settled ran =>
      (settled other).undisturbed different (atomic_moves ran)) thread
  intro thread
  by_cases works : thread ∈ workers.threads
  all_goals
    simp only [start, works, if_true, if_false]
    refine ⟨Condition.waits_initial thread (by simp), Condition.waits_initial thread
      (by simp [Stage.waits]), ?_, ?_, ?_, ?_, ?_, ?_, ?_⟩
    all_goals simp [Stage.worker, Stage.destroys, Stage.unjoined, works]

/-! ## The workers -/

/-- Whether a thread is about to wake a worker for a task. -/
def Stage.heeds : Stage τ T → Nat
  | .notifying _ => 1
  | _ => 0

/-- Whether a thread is about to wake all workers. -/
def Stage.unpauses : Stage τ T → Bool
  | .unpausing _ => true
  | _ => false

omit [DecidableEq τ] in
@[simp]
theorem heeds_back (caller : Caller T) : (Stage.back workers caller).heeds = 0 := by
  cases caller <;> rfl

/-- The workers that have been woken and do not stop. -/
def heeding (pool : ThreadPool τ T) : Nat :=
  (pool.taskAvailableCv.woken \ pool.stopRequested).card

/-- A woken sleeper heeds one task more. -/
theorem heeding_wake {pool : ThreadPool τ T} {sleeper : τ} {stage : Stage τ T}
    (settled : Settled workers sleeper pool stage)
    (sleeps : sleeper ∈ pool.taskAvailableCv.asleep) :
    ((pool.taskAvailableCv.wake sleeper).woken \ pool.stopRequested).card = pool.heeding + 1 := by
  have runs : sleeper ∉ pool.stopRequested := fun stopped => settled.awake stopped sleeps
  have fresh : sleeper ∉ pool.taskAvailableCv.woken \ pool.stopRequested := fun woke =>
    settled.available.apart sleeps (Finset.mem_sdiff.mp woke).1
  rw [Condition.wake, Finset.insert_sdiff_of_notMem _ runs, Finset.card_insert_of_notMem fresh]
  rfl

/-- A step keeps the tasks covered that are queued while a worker sleeps. -/
theorem Moves.covered {thread : τ} {pool after : ThreadPool τ T} {before stage : Stage τ T}
    {event : Event τ T}
    (moves : Moves flags workers thread event (pool, before) (after, stage))
    {threads : τ → Stage τ T} (settled : ∀ other, Settled workers other pool (threads other))
    (runs : after.isPaused flags = false) (quiet : stage.unpauses = false) {total total' : Nat}
    (change : total' + before.heeds = total + stage.heeds)
    (covered : pool.isPaused flags = false → pool.taskAvailableCv.asleep.Nonempty →
      pool.tasks.length ≤ pool.heeding + total)
    (asleep : after.taskAvailableCv.asleep.Nonempty) :
    after.tasks.length ≤ after.heeding + total' := by
  cases moves with
  | detachTask task calls =>
      have same : total' = total + 1 := by
        obtain ⟨rfl, rfl⟩ | ⟨task, rfl, rfl⟩ := caller_cases calls <;> exact change
      rw [List.length_append, same]
      exact Nat.add_le_add_right (covered runs asleep) 1
  | pause =>
      have same : total' = total := Nat.add_right_cancel change
      have disabled : flags.pauseEnabled = false := by simpa [isPaused] using runs
      exact same ▸ covered (by simp [isPaused, disabled]) asleep
  | unpause => simp [Stage.unpauses] at quiet
  | purge => exact Nat.zero_le _
  | wait _ calls =>
      have same : total' = total := by
        obtain ⟨rfl, rfl⟩ | ⟨task, rfl, rfl⟩ := caller_cases calls <;> exact change
      exact same ▸ covered runs asleep
  | throws | destruct | sleepDone | wakeUpDone | sleepAgain | finish | destruction | join =>
      have same : total' = total := change
      exact same ▸ covered runs asleep
  | pass | leave | timeOut =>
      have same : total' = total := by rwa [heeds_back] at change
      exact same ▸ covered runs asleep
  | notifyOne _ sleeps =>
      have same : total = total' + 1 := by rw [heeds_back] at change; exact change.symm
      have before := covered runs ⟨_, sleeps⟩
      have more := heeding_wake (settled _) sleeps
      simp only [heeding] at before more ⊢
      omega
  | notifyNone _ _ awake => simp [awake] at asleep
  | notifyAll => simp [Condition.wakeAll] at asleep
  | turn _ retrieves =>
      cases retrieves with
      | stop =>
          have same : total' = total := change
          exact same ▸ covered runs asleep
      | sleep _ none =>
          have empty : pool.tasks = [] := none.resolve_left fun paused => by
            exact absurd (paused.symm.trans runs) (by simp)
          simp [finishTask, countDown, empty]
      | take _ ready queued =>
          have same : total' = total := change
          have before := covered ready asleep
          rw [show pool.tasks = _ from queued] at before
          simp only [List.length_append, List.length_cons] at before ⊢
          exact same ▸ (Nat.le_succ _).trans before
  | wakeUp sleeps =>
      have same : total' = total := change
      have before := covered runs ⟨_, sleeps⟩
      have more := heeding_wake (settled thread) sleeps
      simp only [heeding] at before more ⊢
      omega
  | retry _ woke retrieves =>
      cases retrieves with
      | stop requested =>
          have same : total' = total := change
          have before := covered runs (asleep.mono (Finset.erase_subset _ _))
          have stays : (pool.taskAvailableCv.woken.erase thread) \ pool.stopRequested =
              pool.taskAvailableCv.woken \ pool.stopRequested := by grind
          simp only [heeding, Condition.leave, stays] at before ⊢
          exact same ▸ before
      | sleep _ none =>
          have empty : pool.tasks = [] := none.resolve_left fun paused => by
            exact absurd (paused.symm.trans runs) (by simp)
          simp [empty]
      | take works ready queued =>
          have same : total' = total := change
          have before := covered ready (asleep.mono (Finset.erase_subset _ _))
          have fewer : (pool.taskAvailableCv.woken.erase thread \ pool.stopRequested).card + 1 =
              (pool.taskAvailableCv.woken \ pool.stopRequested).card := by
            rw [Finset.erase_sdiff_comm]
            exact Finset.card_erase_add_one (Finset.mem_sdiff.mpr ⟨woke, works⟩)
          rw [show pool.tasks = _ from queued] at before
          simp only [heeding, Condition.leave, List.length_append, List.length_cons] at before ⊢
          omega
  | requestStop worker =>
      have same : total' = total := change
      simp only [ThreadPool.requestStop] at asleep
      split at asleep
      · simp [Condition.wakeAll] at asleep
      · next away =>
          have before := covered runs asleep
          have stays : pool.taskAvailableCv.woken \ insert worker pool.stopRequested =
              pool.taskAvailableCv.woken \ pool.stopRequested := by grind
          simp only [heeding, ThreadPool.requestStop, if_neg away, stays] at before ⊢
          exact same ▸ before

/-- While a worker sleeps and the pool is not paused, the queued tasks are covered. -/
def Covered [Fintype τ] (flags : OptFlags) (state : State τ T) : Prop :=
  state.shared.isPaused flags = false → state.shared.taskAvailableCv.asleep.Nonempty →
    (∀ thread, (state.threads thread).unpauses = false) →
      state.shared.tasks.length ≤
        state.shared.heeding + ∑ thread, (state.threads thread).heeds

/-- While workers sleep no `unpause` is about to notify. -/
theorem Moves.quiet_of_asleep {thread : τ} {pool after : ThreadPool τ T} {before stage : Stage τ T}
    {event : Event τ T}
    (moves : Moves flags workers thread event (pool, before) (after, stage))
    (asleep : after.taskAvailableCv.asleep.Nonempty) : before.unpauses = false := by
  cases moves with
  | notifyAll => simp [Condition.wakeAll] at asleep
  | detachTask _ calls | unpause calls | wait _ calls | pause calls | purge calls =>
      obtain ⟨rfl, -⟩ | ⟨task, rfl, -⟩ := caller_cases calls <;> rfl
  | _ => rfl

theorem covered_of_reaches [Fintype τ] {allowed : State τ T → τ × Event τ T → Prop}
    {state : State τ T}
    (reached : (machine flags workers).Reaches allowed (start workers) state) :
    Covered flags state := by
  refine Threads.reaches_invariant_given reached _
    (fun _ earlier thread => settled_of_reaches earlier thread) (Covered flags)
    (fun _ asleep => by simp [start] at asleep) ?_
  intro pool threads thread event after stage settled covered _ ran runs asleep quiet
  have moves := atomic_moves ran
  have quietStage : stage.unpauses = false := by simpa using quiet thread
  refine moves.covered settled runs quietStage
    (Threads.sum_update Stage.heeds threads thread stage) (fun runs asleepBefore => ?_) asleep
  refine covered runs asleepBefore fun other => ?_
  by_cases own : other = thread
  · exact own ▸ moves.quiet_of_asleep asleep
  · simpa [own] using quiet other

theorem woken_of_reaches [Fintype τ] {allowed : State τ T → τ × Event τ T → Prop}
    {state : State τ T}
    (reached : (machine flags workers).Reaches allowed (start workers) state)
    (runs : state.shared.isPaused flags = false)
    (asleep : state.shared.taskAvailableCv.asleep.Nonempty)
    (quiet : ∀ thread caller, state.threads thread ≠ .notifying caller ∧
      state.threads thread ≠ .unpausing caller) :
    state.shared.tasks.length ≤ state.shared.heeding := by
  have unpauses : ∀ thread, (state.threads thread).unpauses = false := fun thread => by
    have away := fun caller => (quiet thread caller).2
    generalize state.threads thread = stage at away
    cases stage <;> simp_all [Stage.unpauses]
  have heeds : ∀ thread, (state.threads thread).heeds = 0 := fun thread => by
    have away := fun caller => (quiet thread caller).1
    generalize state.threads thread = stage at away
    cases stage <;> simp_all [Stage.heeds]
  have covered := covered_of_reaches reached runs asleep unpauses
  rwa [Finset.sum_eq_zero fun thread _ => heeds thread, add_zero] at covered

/-- **No lost wakeup of a worker.** When a worker sleeps, the pool is not paused, and no call is
about to notify, as many workers that do not stop have been woken as tasks are queued. -/
theorem workers_woken [Fintype τ] {allowed : State τ T → τ × Event τ T → Prop} {state : State τ T}
    (reached : (machine flags workers).Reaches allowed (start workers) state)
    (runs : state.shared.isPaused flags = false)
    (asleep : state.shared.taskAvailableCv.asleep.Nonempty)
    (quiet : ∀ thread caller, state.threads thread ≠ .notifying caller ∧
      state.threads thread ≠ .unpausing caller) :
    state.shared.tasks.length ≤
      (state.shared.taskAvailableCv.woken \ state.shared.stopRequested).card :=
  woken_of_reaches reached runs asleep quiet

/-- One worker is woken for the one task, and the other sleeps on. -/
theorem workers_woken_one :
    ∃ state : State (Fin 4) Nat,
      (machine {} twoWorkers).execute Machine.anyStep (twoTasks.take 4) (start twoWorkers) =
        some state ∧
      state.shared.taskAvailableCv.asleep = {1} ∧
      state.shared.tasks.length ≤
        (state.shared.taskAvailableCv.woken \ state.shared.stopRequested).card := by
  have ran : ((machine {} twoWorkers).execute Machine.anyStep (twoTasks.take 4)
      (start twoWorkers)).map (fun state => decide (state.shared.taskAvailableCv.asleep = {1} ∧
        ∀ thread, state.threads thread = .outside ∨ state.threads thread = .sleeping)) =
          some true := by
    decide +kernel
  obtain ⟨state, executed, checked⟩ := Option.map_eq_some_iff.mp ran
  obtain ⟨asleep, away⟩ := of_decide_eq_true checked
  refine ⟨state, executed, asleep, workers_woken (Machine.reaches_of_execute executed) rfl
    (by simp [asleep]) fun thread caller => ?_⟩
  obtain stage | stage := away thread <;> simp [stage]

end FastDb.BS.ThreadPool
