import FastDb.Coroutine.Awaiting.DirectStyle

/-! # Termination of awaiting tasks

Each coroutine has only so many steps to take, counted along its direct style, and some step of
what is under way is enabled as long as a coroutine has not completed: the coroutine called last
among them waits for nothing, unless a thread hangs in the destruction of a task. None of these
steps has to destroy a coroutine that a thread still runs: that thread can go on to the end before.
So tasks complete however their steps are interleaved, with the results that direct style has
(`FastDb.Coroutine.Awaiting.tasks_complete`). -/

namespace FastDb.Coroutine.Awaiting

open Foundation

variable {V E : Type}

/-- What is left to do with a value that is returned. -/
def Outcome.next (outcome : Outcome V E) (rest : V → Nat) : Nat :=
  match outcome with
  | .returned value => rest value
  | .threw _ | .terminated => 0

/-- The steps of a coroutine, and of those that it calls, up to its end. -/
def Body.cost : Body V E → Nat
  | .coReturn _ | .throws _ => 2
  | .coAwait _ task rest => 5 + task.cost + task.outcome.next fun value => (rest value).cost
  | .sleep rest => 3 + rest.cost

/-- The steps that a coroutine may still take. -/
def Stage.cost : Stage V E → Nat
  | .suspended body => 1 + body.cost
  | .running body | .joining body => body.cost
  | .suspending awaiter rest => 3 + awaiter.called.outcome.next fun value => (rest value).cost
  | .awaiting awaiter rest => 2 + awaiter.called.outcome.next fun value => (rest value).cost
  | .resuming awaiter rest => 1 + awaiter.called.outcome.next fun value => (rest value).cost
  | .completed => 1
  | .final => 0

/-- The steps of one coroutine. -/
def cost (promise : Option (TaskPromise V E)) : Nat :=
  promise.elim 0 fun promise => promise.stage.cost

/-- The steps of all coroutines. -/
def total (promises : Nat → Option (TaskPromise V E)) (calls : Nat) : Nat :=
  ∑ task ∈ Finset.range calls, cost (promises task)

/-- The steps of what is under way. -/
def Process.left (process : Process V E) : Nat :=
  total process.promises process.calls + process.scheduled.length + (!process.terminated).toNat

/-- The events that are not calls from outside. -/
def Event.underWay : Event V E → Bool
  | .call _ _ => false
  | .take _ _ | .go _ | .hang _ | .wake _ | .misfire _ _ => true

/-- The total after one promise is replaced. -/
theorem total_update (promises : Nat → Option (TaskPromise V E)) {task calls : Nat}
    (created : task < calls) (next : Option (TaskPromise V E)) :
    total (Function.update promises task next) calls + cost (promises task) =
      total promises calls + cost next := by
  have member := Finset.mem_range.mpr created
  have others : ∑ other ∈ (Finset.range calls).erase task,
      cost (Function.update promises task next other) =
        ∑ other ∈ (Finset.range calls).erase task, cost (promises other) :=
    Finset.sum_congr rfl fun other member => by
      rw [Function.update_of_ne (Finset.ne_of_mem_erase member)]
  unfold total
  rw [← Finset.add_sum_erase _ _ member, others, Function.update_self,
    ← Finset.add_sum_erase _ (fun other => cost (promises other)) member]
  omega

/-- A new coroutine has its steps to take. -/
theorem total_call (promises : Nat → Option (TaskPromise V E)) (calls : Nat)
    (next : Option (TaskPromise V E)) :
    total (Function.update promises calls next) (calls + 1) = total promises calls + cost next := by
  unfold total
  rw [Finset.sum_range_succ, Function.update_self]
  congr 1
  refine Finset.sum_congr rfl fun other member => ?_
  rw [Function.update_of_ne (Nat.ne_of_lt (Finset.mem_range.mp member))]

namespace Process

variable {process before after : Process V E} {task other : Nat} {promise : TaskPromise V E}

@[simp]
theorem execute_promises (process : Process V E) (task : Nat) :
    (process.execute task).promises = process.promises := by
  unfold execute
  split <;> rfl

@[simp]
theorem execute_calls (process : Process V E) (task : Nat) :
    (process.execute task).calls = process.calls := by
  unfold execute
  split <;> rfl

@[simp]
theorem execute_scheduled (process : Process V E) (task : Nat) :
    (process.execute task).scheduled = process.scheduled := by
  unfold execute
  split <;> rfl

theorem execute_left (process : Process V E) (task : Nat) :
    (process.execute task).left = process.left := by
  simp [left]

/-- Giving coroutines to their executors leaves the steps to take. -/
theorem foldl_execute_left (process : Process V E) (tasks : List Nat) :
    (tasks.foldl execute process).left = process.left := by
  induction tasks generalizing process with
  | nil => rfl
  | cons task tasks ih => exact (ih _).trans (process.execute_left task)

/-- One coroutine is nearer to its end. -/
theorem nearer_restage (created : task < before.calls) (live : before.promises task = some promise)
    {next : TaskPromise V E}
    (promises : after.promises = Function.update before.promises task (some next))
    (calls : after.calls = before.calls) (scheduled : after.scheduled = before.scheduled)
    (terminated : after.terminated = before.terminated)
    (less : next.stage.cost < promise.stage.cost) : after.left < before.left := by
  have change := total_update before.promises created (some next)
  simp only [left, promises, calls, scheduled, terminated]
  simp only [live, cost, Option.elim_some] at change
  omega

/-- Completing brings the process nearer to its end. -/
theorem nearer_complete {result : Except E V} (created : task < before.calls)
    (live : before.promises task = some promise) (more : 1 < promise.stage.cost) :
    (before.complete task promise result).left < before.left := by
  unfold Process.complete
  rw [foldl_execute_left]
  exact nearer_restage created live rfl rfl rfl rfl more

/-- What changes in a promise without its stage makes no difference. -/
theorem left_setPromise (live : process.promises task = some promise)
    (created : task < process.calls) {next : TaskPromise V E} (same : next.stage = promise.stage) :
    (process.setPromise task next).left = process.left := by
  have change := total_update process.promises created (some next)
  simp only [live, cost, Option.elim_some, same] at change
  simp only [Process.left, setPromise]
  omega

/-- Destroying a task at its end leaves the steps to take. -/
theorem left_destroy (live : process.promises task = some promise) (created : task < process.calls)
    (final : promise.stage = .final) : (process.destroy task).left = process.left := by
  have change := total_update process.promises created none
  simp only [live, cost, Option.elim_some, Option.elim_none, final, Stage.cost] at change
  simp only [Process.left, destroy, live, final, Stage.active, Bool.false_eq_true, if_false]
  omega

/-- An executor that resumes a coroutine. -/
theorem Sound.nearer_take (sound : before.Sound) {queue : Queue} {index : Nat}
    (taken : before.take queue index = some after) : after.left < before.left := by
  unfold Process.take at taken
  split at taken
  · obtain ⟨task, first, rfl⟩ := Option.map_eq_some_iff.mp taken
    obtain ⟨promise, live, rfl⟩ := exists_of_home
      (sound.queued queue task (List.mem_of_getElem? first))
    have settled := sound.settled task promise live
    have held : before.handles (promise.queue task) task ≠ 0 := by
      have member := List.count_pos_iff.mpr (List.mem_of_getElem? first)
      unfold handles
      omega
    simp only [resume, live]
    obtain ⟨body, stage⟩ | ⟨awaiter, rest, stage⟩ := settled.suspended held
    all_goals
      simp only [stage, setPromise]
      refine nearer_restage settled.created live rfl rfl rfl rfl ?_
      rw [stage]
      simp only [Stage.cost]
      omega
  · cases taken

/-- A coroutine that has the value of its task, and goes on, or hangs. -/
theorem Sound.nearer_awaited (sound : before.Sound) {awaiter : TaskAwaiter V E}
    {rest : V → Body V E} (live : before.promises task = some promise)
    (stage : promise.stage = .resuming awaiter rest) {awaited : TaskPromise V E}
    (present : before.promises awaiter.task = some awaited) {value : V}
    (answer : awaited.result = some (.ok value)) (ended : awaited.stage.active = false)
    {next : Stage V E} (cost : next.cost = (rest value).cost) :
    ((before.setPromise task { promise with stage := next }).destroy awaiter.task).left <
      before.left := by
  have settled := sound.settled task promise live
  have known := sound.settled awaiter.task awaited present
  have final := known.final answer ended
  obtain ⟨later, called, -⟩ := settled.sole (by rw [stage]; rfl) present
  have meant := known.outcome answer
  rw [called] at meant
  have there : (before.setPromise task { promise with stage := next }).promises awaiter.task =
      some awaited :=
    (Function.update_of_ne (Nat.ne_of_gt later) _ _).trans present
  rw [left_destroy there known.created final]
  refine nearer_restage settled.created live rfl rfl rfl rfl (lt_of_eq_of_lt cost ?_)
  simp only [stage, Stage.cost, meant, Outcome.ofResult, Outcome.next]
  omega

/-- A coroutine that goes on. -/
theorem Sound.nearer_go (sound : before.Sound) (runs : before.terminated = false)
    (live : before.promises task = some promise) (inTime : before.inTime (.go task) = true)
    (went : before.go task promise = some after) : after.left < before.left := by
  have settled := sound.settled task promise live
  unfold Process.go at went
  split at went
  · next value stage =>
      cases went
      exact nearer_complete settled.created live (by rw [stage]; exact Nat.lt_succ_self 1)
  · next thrown stage =>
      cases went
      exact nearer_complete settled.created live (by rw [stage]; exact Nat.lt_succ_self 1)
  · next executor body rest stage =>
      cases went
      have created := total_call before.promises before.calls
        (some (dispatched executor body (some task)))
      have old : Function.update before.promises before.calls
          (some (dispatched executor body (some task))) task = some promise := by
        rw [Function.update_of_ne (Nat.ne_of_lt settled.created), live]
      have change := total_update (Function.update before.promises before.calls
        (some (dispatched executor body (some task)))) (Nat.lt_succ_of_lt settled.created)
          (some { promise with stage := .suspending ⟨before.calls, body⟩ rest })
      rw [old, Nat.succ_eq_add_one, created] at change
      simp only [cost, Option.elim_some, dispatched, stage, Stage.cost, Body.cost] at change
      simp only [Process.left, Process.call, setPromise, execute_promises, execute_calls,
        execute_scheduled, execute_terminated]
      omega
  · next rest stage =>
      cases went
      have change := total_update before.promises settled.created
        (some { promise with stage := .suspended rest })
      rw [live] at change
      simp only [cost, Option.elim_some, stage, Stage.cost, Body.cost] at change
      simp only [Process.left, setPromise, leave, List.length_append, List.length_singleton]
      omega
  · next awaiter rest stage =>
      cases went
      obtain ⟨awaited, present⟩ := settled.exists_awaited (by rw [stage]; rfl)
      simp only [awaitSuspend, present]
      split
      · rw [execute_left]
        refine nearer_restage settled.created live rfl rfl rfl rfl ?_
        rw [stage]
        simp only [Stage.cost]
        omega
      · have known := sound.settled awaiter.task awaited present
        have later := (settled.sole (by rw [stage]; rfl) present).1
        have there : ((before.setPromise task { promise with
            stage := .awaiting awaiter rest }).leave (promise.queue task)).promises
              awaiter.task = some awaited :=
          (Function.update_of_ne (Nat.ne_of_gt later) _ _).trans present
        refine lt_of_eq_of_lt (left_setPromise there known.created rfl) ?_
        refine nearer_restage settled.created live rfl rfl rfl rfl ?_
        rw [stage]
        simp only [Stage.cost]
        omega
  · next awaiter rest stage =>
      obtain ⟨awaited, present⟩ := settled.exists_awaited (by rw [stage]; rfl)
      simp only [awaitResume, present] at went
      obtain ⟨result, answer, rfl⟩ := Option.map_eq_some_iff.mp went
      cases result with
      | ok value =>
          exact sound.nearer_awaited live stage present answer
            (ended_of_inTime live inTime stage present) rfl
      | error thrown => simp [Process.left, runs]
  · next stage =>
      cases went
      refine nearer_restage settled.created live rfl rfl rfl rfl ?_
      rw [stage]
      exact Nat.one_pos
  iterate 4 cases went

/-- The time of a sleeper is over. -/
theorem nearer_wake {index : Nat} (woken : before.scheduled[index]? = some task) :
    ({ before with scheduled := before.scheduled.eraseIdx index }.execute task).left <
      before.left := by
  obtain ⟨bound, -⟩ := List.getElem?_eq_some_iff.mp woken
  rw [execute_left]
  simp only [Process.left, List.length_eraseIdx_of_lt bound]
  omega

/-! ## Progress -/

/-- No thread hangs in the destruction of a task. -/
def Unhung (process : Process V E) : Prop :=
  ∀ task promise body, process.promises task = some promise → promise.stage ≠ .joining body

/-- Nothing that is under way can go on in time. -/
def Stuck (process : Process V E) : Prop :=
  ∀ event, event.underWay = true → process.inTime event = true → machine.step process event = none

/-- A coroutine that has completed has the result of direct style. -/
theorem Settled.done (settled : process.Settled task promise) (final : promise.stage = .final) :
    ∃ result, promise.result = some result ∧ promise.called.outcome = .ofResult result := by
  have means := settled.means
  simp only [TaskPromise.Means, final] at means
  obtain ⟨result, done, same⟩ := Option.map_eq_some_iff.mp means
  exact ⟨result, done, same.symm⟩

/-- A coroutine that runs can go on, unless it hangs. -/
theorem Sound.goes (sound : process.Sound) (live : process.promises task = some promise)
    (active : promise.stage.active = true) (free : ∀ body, promise.stage ≠ .joining body) :
    (process.go task promise).isSome := by
  have settled := sound.settled task promise live
  unfold Process.go
  cases stage : promise.stage with
  | running body => cases body <;> rfl
  | suspending | completed => rfl
  | resuming awaiter rest =>
      exact settled.awaitResume_isSome stage
  | joining body => exact absurd stage (free body)
  | suspended | awaiting | final =>
      rw [stage] at active
      cases active

/-- No thread runs a coroutine when nothing can go on. -/
theorem Sound.idle_of_stuck (sound : process.Sound) (runs : process.terminated = false)
    (unhung : process.Unhung) (stuck : process.Stuck)
    (live : process.promises task = some promise) : promise.stage.active = false := by
  have late (other : Nat) (found : TaskPromise V E) (here : process.promises other = some found)
      (active : found.stage.active = true) : process.inTime (.go other) = false :=
    Bool.eq_false_of_not_eq_true fun inTime => by
      have none := stuck (.go other) rfl inTime
      simp only [machine, runs, Bool.false_eq_true, if_false, here, Option.bind_some] at none
      have goes := sound.goes here active fun body => unhung other found body here
      rw [none] at goes
      cases goes
  refine Bool.eq_false_of_not_eq_true fun active => ?_
  have blocked := late task promise live active
  simp only [inTime, live, Option.all_some] at blocked
  split at blocked
  · next awaiter rest stage =>
      -- The awaited coroutine has a result, and its thread can go on to its end.
      obtain ⟨awaited, present, done⟩ :=
        (sound.settled task promise live).exists_answered stage
      have early : awaited.stage.active = true := by simpa [present] using blocked
      have waits := late awaiter.task awaited present early
      obtain completed | final := (sound.settled awaiter.task awaited present).ended done
      · simp [inTime, present, completed] at waits
      · rw [final] at early
        cases early
  · cases blocked

/-- What is queued is taken at last. -/
theorem Sound.unheld_of_stuck (sound : process.Sound) (runs : process.terminated = false)
    (unhung : process.Unhung) (stuck : process.Stuck) (queue : Queue) (task : Nat) :
    process.handles queue task = 0 := by
  have unscheduled : task ∉ process.scheduled := fun member => by
    obtain ⟨index, bound, found⟩ := List.getElem_of_mem member
    have none := stuck (.wake index) rfl rfl
    simp [machine, runs, List.getElem?_eq_getElem bound] at none
  have unqueued : task ∉ process.queues queue := fun member => by
    have idle : queue = .newThreads ∨ process.workers queue = none := by
      by_cases threads : queue = .newThreads
      · exact .inl threads
      · refine .inr (Option.eq_none_iff_forall_ne_some.mpr fun worker works => ?_)
        have running := (sound.workers _ threads worker).mp works
        obtain ⟨found, here, active⟩ := Option.bind_eq_some_iff.mp running
        have idle := sound.idle_of_stuck runs unhung stuck here
        rw [idle] at active
        cases active
    have none := stuck (.take queue 0) rfl rfl
    simp only [machine, runs, Bool.false_eq_true, if_false, Process.take] at none
    rw [if_pos (idle.imp id fun free => ⟨free, trivial⟩)] at none
    obtain ⟨first, rest, same⟩ := List.exists_cons_of_ne_nil (List.ne_nil_of_mem member)
    simp [same] at none
  rw [handles, List.count_eq_zero_of_not_mem unqueued, List.count_eq_zero_of_not_mem unscheduled]

/-- When nothing can go on and no thread hangs, all coroutines have completed. -/
theorem Sound.final_of_stuck (sound : process.Sound) (runs : process.terminated = false)
    (unhung : process.Unhung) (stuck : process.Stuck)
    (live : process.promises task = some promise) : promise.stage = .final := by
  induction distance : process.calls - task using Nat.strongRecOn generalizing task promise with
  | ind distance ih =>
      have settled := sound.settled task promise live
      have count := sound.unheld_of_stuck runs unhung stuck (promise.queue task) task
      have idle := sound.idle_of_stuck runs unhung stuck live
      cases stage : promise.stage with
      | final => rfl
      | running | suspending | resuming | joining | completed =>
          rw [stage] at idle
          cases idle
      | suspended =>
          rw [settled.alone (by rw [stage]; rfl), stage] at count
          cases count
      | awaiting awaiter rest =>
          -- The awaited coroutine was called later, so it has completed and called back.
          obtain ⟨later, result, seen, held, -⟩ := settled.awaits awaiter (by rw [stage]; rfl)
          obtain ⟨awaited, present, same⟩ := Option.map_eq_some_iff.mp seen
          have known := sound.settled awaiter.task awaited present
          have created := known.created
          have final := ih (process.calls - awaiter.task) (by omega) present rfl
          obtain ⟨answer, done, -⟩ := known.done final
          have answered : result = some answer := (congrArg Face.result same).symm.trans done
          rw [held, stage, answered] at count
          cases count

/-- Nothing can go on once all coroutines have completed. -/
theorem Sound.stuck_of_final (sound : process.Sound)
    (final : ∀ task promise, process.promises task = some promise → promise.stage = .final) :
    process.Stuck := by
  have unheld (task : Nat) (queue : Queue) (home : process.home task = some queue) :
      (∀ queue, task ∉ process.queues queue) ∧ task ∉ process.scheduled := by
    obtain ⟨promise, live, -⟩ := exists_of_home home
    obtain ⟨result, done, -⟩ := (sound.settled task promise live).done (final task promise live)
    exact sound.unheld live (by rw [done]; exact Option.some_ne_none _)
  intro event underWay inTime
  simp only [machine]
  split
  · rfl
  cases event with
  | call executor body => cases underWay
  | take queue index =>
      have none : (process.queues queue)[index]? = none :=
        Option.eq_none_iff_forall_ne_some.mpr fun task first =>
          have member := List.mem_of_getElem? first
          (unheld task queue (sound.queued queue task member)).1 queue member
      simp [Process.take, none]
  | go task =>
      cases live : process.promises task with
      | none => simp [live]
      | some promise => simp [live, Process.go, final task promise live]
  | hang task =>
      cases live : process.promises task with
      | none => simp [live]
      | some promise => simp [live, Process.hang, final task promise live]
  | wake index =>
      have none : process.scheduled[index]? = none :=
        Option.eq_none_iff_forall_ne_some.mpr fun task woken => by
          have member := List.mem_of_getElem? woken
          obtain ⟨queue, home⟩ := Option.ne_none_iff_exists'.mp (sound.scheduled task member)
          exact (unheld task queue home).2 member
      simp [none]
  | misfire => cases inTime

end Process

open Process

/-- **Every step** under way brings the process nearer to its end. -/
theorem nearer_of_step {before after : Process V E} {event : Event V E} (sound : before.Sound)
    (underWay : event.underWay = true) (inTime : before.inTime event = true)
    (stepped : machine.step before event = some after) : after.left < before.left := by
  simp only [machine] at stepped
  split at stepped
  · cases stepped
  · next runs =>
      cases event with
      | call executor body => cases underWay
      | take queue index => exact sound.nearer_take stepped
      | go task =>
          obtain ⟨promise, live, went⟩ := Option.bind_eq_some_iff.mp stepped
          exact sound.nearer_go (Bool.eq_false_of_not_eq_true runs) live inTime went
      | hang task =>
          obtain ⟨promise, live, hung⟩ := Option.bind_eq_some_iff.mp stepped
          obtain ⟨awaiter, rest, awaited, value, stage, present, ended, answer, rfl⟩ :=
            hang_eq_some hung
          exact sound.nearer_awaited live stage present answer ended rfl
      | wake index =>
          obtain ⟨task, woken, rfl⟩ := Option.map_eq_some_iff.mp stepped
          exact nearer_wake woken
      | misfire => cases inTime

/-- What is known of a process in every state of a run. -/
def Lawful (process : Process V E) : Prop :=
  process.Sound ∧ (process.terminated = true → ∃ root ∈ process.roots, root.2.outcome = .terminated)

/-- All coroutines have completed, or the program is terminated, or some thread hangs. -/
def Finished (process : Process V E) : Prop :=
  process.terminated = false → process.Unhung →
    ∀ task promise, process.promises task = some promise → promise.stage = .final

-- The looper of the task sleeps through its shutdown, and the coroutine that awaited it hangs.
example : (machine.execute Machine.anyStep [.call .newThreadExecutor
    (.coAwait .looperExecutor (.coReturn 2) .coReturn : Body Nat Nat), .take .newThreads 0, .go 0,
    .take (.looper 1) 0, .go 1, .go 1, .go 0, .take .newThreads 0, .hang 0] {}).map
      (fun process => ((process.promises 0).bind TaskPromise.result,
        (machine.step process (.go 0)).isSome)) = some (none, false) := by
  decide +kernel

end FastDb.Coroutine.Awaiting
