import FastDb.Coroutine.Awaiting.Calls
import FastDb.Coroutine.Awaiting.Completion

/-! # Tasks in direct style

As long as no coroutine takes the result of one that a thread still runs, and so destroys it too
early, a coroutine is to do what is left of the direct style of its body. So a result is the outcome
of the body, and the process is terminated only where a body in direct style is
(`FastDb.Coroutine.Awaiting.direct_style`). -/

namespace FastDb.Coroutine.Awaiting

open Foundation

variable {V E : Type}

namespace Process

variable {process before after : Process V E} {task other : Nat} {promise : TaskPromise V E}

/-- An exception of the awaited task gets out of `await_resume`. -/
theorem Sound.thrown (sound : process.Sound) (live : process.promises task = some promise)
    {awaiter : TaskAwaiter V E} {rest : V → Body V E}
    (stage : promise.stage = .resuming awaiter rest) {awaited : TaskPromise V E}
    (present : process.promises awaiter.task = some awaited) {thrown : E}
    (result : awaited.result = some (.error thrown)) : promise.called.outcome = .terminated := by
  have settled := sound.settled task promise live
  have finished := sound.settled awaiter.task awaited present
  obtain ⟨-, called, -⟩ := settled.sole (by rw [stage]; rfl) present
  have means := settled.means
  have meant := finished.outcome result
  simp only [TaskPromise.Means, stage] at means
  rw [← called, meant] at means
  exact means.2.symm

/-- Direct style terminates the program where one of the calls does. -/
theorem Sound.terminates (sound : process.Sound) (live : process.promises task = some promise)
    (outcome : promise.called.outcome = .terminated) :
    ∃ root ∈ process.roots, root.2.outcome = .terminated := by
  induction task using Nat.strongRecOn generalizing promise with
  | ind task ih =>
      have settled := sound.settled task promise live
      cases outside : promise.caller with
      | none => exact ⟨_, (settled.root outside).2, outcome⟩
      | some number =>
          obtain ⟨awaiter, awaits, rfl⟩ := settled.caller number outside
          obtain ⟨caller, present, awaits⟩ := Option.bind_eq_some_iff.mp awaits
          have known := sound.settled number caller present
          obtain ⟨later, called, -⟩ := known.sole awaits live
          have means := known.means
          refine ih number later present ?_
          cases stage : caller.stage with
          | suspending first rest | awaiting first rest | resuming first rest =>
              rw [stage] at awaits
              cases awaits
              simp only [TaskPromise.Means, stage] at means
              rw [← means.2, ← called, outcome]
              rfl
          | suspended | running | joining | completed | final =>
              rw [stage] at awaits
              cases awaits

/-- A step that destroys no coroutine which a thread still runs, and pops no other sleeper off the
scheduler than the one it wakes. -/
def inTime (process : Process V E) : Event V E → Bool
  | .go task => (process.promises task).all fun promise =>
      match promise.stage with
      | .resuming awaiter _ =>
          (process.promises awaiter.task).all fun awaited => !awaited.stage.active
      | _ => true
  | .call _ _ | .take _ _ | .hang _ | .wake _ => true
  | .misfire _ _ => false

/-- In time, the awaited coroutine is no longer active when it is destroyed. -/
theorem ended_of_inTime (live : process.promises task = some promise)
    (inTime : process.inTime (.go task) = true) {awaiter : TaskAwaiter V E} {rest : V → Body V E}
    (stage : promise.stage = .resuming awaiter rest) {awaited : TaskPromise V E}
    (present : process.promises awaiter.task = some awaited) : awaited.stage.active = false := by
  simpa [Process.inTime, live, stage, present] using inTime

/-- Where a coroutine hangs that destroys its task. -/
theorem hang_eq_some (hung : before.hang task promise = some after) :
    ∃ awaiter rest awaited value, promise.stage = .resuming awaiter rest ∧
      before.promises awaiter.task = some awaited ∧ awaited.stage.active = false ∧
      awaited.result = some (.ok value) ∧
      (before.setPromise task { promise with stage := .joining (rest value) }).destroy
        awaiter.task = after := by
  unfold Process.hang at hung
  split at hung
  · next awaiter rest stage =>
      split at hung
      · next awaited present =>
          split at hung
          · next value _ idle answer =>
              exact ⟨awaiter, rest, awaited, value, stage, present, idle, answer,
                Option.some.inj hung⟩
          · cases hung
      · cases hung
  · cases hung

/-- `await_resume` never waits. -/
theorem Settled.awaitResume_isSome (settled : process.Settled task promise)
    {awaiter : TaskAwaiter V E} {rest : V → Body V E}
    (stage : promise.stage = .resuming awaiter rest) :
    (process.awaitResume task promise awaiter rest).isSome := by
  obtain ⟨awaited, present, done⟩ := settled.exists_answered stage
  simp only [awaitResume, present, Option.isSome_map]
  exact Option.isSome_iff_ne_none.mpr done

/-- A coroutine goes on. -/
theorem Sound.go (sound : before.Sound) (live : before.promises task = some promise)
    (inTime : before.inTime (.go task) = true) (went : before.go task promise = some after) :
    after.Sound := by
  have settled := sound.settled task promise live
  have means := settled.means
  unfold Process.go at went
  split at went
  · next value stage =>
      cases went
      simp only [TaskPromise.Means, stage] at means
      exact sound.complete live (by rw [stage]; rfl) (by rw [stage]; rfl) means.1 means.2.symm
  · next thrown stage =>
      cases went
      simp only [TaskPromise.Means, stage] at means
      exact sound.complete live (by rw [stage]; rfl) (by rw [stage]; rfl) means.1 means.2.symm
  · next executor body rest stage =>
      cases went
      unfold Process.call execute
      simp only [setPromise, Function.update_self]
      exact sound.calledInside live stage rfl rfl rfl rfl rfl ⟨_, rfl, rfl⟩ rfl
  · next rest stage =>
      cases went
      exact sound.sleep live stage
  · next awaiter rest stage =>
      cases went
      obtain ⟨awaited, present⟩ := settled.exists_awaited (by rw [stage]; rfl)
      simp only [awaitSuspend, present]
      split
      · next answered => exact sound.answered live stage present answered
      · next pending => exact sound.register live stage present (by simpa using pending)
  · next awaiter rest stage =>
      obtain ⟨awaited, present⟩ := settled.exists_awaited (by rw [stage]; rfl)
      simp only [awaitResume, present] at went
      obtain ⟨result, answer, rfl⟩ := Option.map_eq_some_iff.mp went
      cases result with
      | ok value =>
          have known := sound.settled awaiter.task awaited present
          have final := known.final answer (ended_of_inTime live inTime stage present)
          exact sound.awaited live stage present answer final (.inl rfl)
      | error thrown =>
          have same (other : Nat) (found : TaskPromise V E)
              (here : before.promises other = some found) :
              ({ before with terminated := true } : Process V E).Settled other found :=
            (sound.settled other found here).frame (Nat.le_refl _) rfl (fun _ _ => rfl)
              (fun _ _ => rfl) (List.Subset.refl _)
          exact ⟨same, sound.queued, sound.scheduled, sound.workers, sound.defined, sound.kept⟩
  · next stage =>
      cases went
      exact sound.final live stage
  iterate 4 cases went

/-- A coroutine hangs in the destruction of its task. -/
theorem Sound.hang (sound : before.Sound) (live : before.promises task = some promise)
    (hung : before.hang task promise = some after) : after.Sound := by
  obtain ⟨awaiter, rest, awaited, value, stage, present, idle, answer, rfl⟩ := hang_eq_some hung
  have known := sound.settled awaiter.task awaited present
  exact sound.awaited live stage present answer (known.final answer idle) (.inr rfl)

theorem sound_initial : ({} : Process V E).Sound where
  settled _ _ present := by cases present
  queued _ _ member := by cases member
  scheduled _ member := by cases member
  workers _ _ task := by simp [running]
  defined := rfl
  kept _ member := by cases member

/-- To take the result of a coroutine that a thread still runs is to destroy it, unless it is an
exception. -/
theorem Sound.undefined_iff (sound : before.Sound) (live : before.promises task = some promise)
    (runs : before.terminated = false) (late : before.inTime (.go task) = false)
    (went : before.go task promise = some after) :
    after.undefined = true ↔ after.terminated = false := by
  simp only [inTime, live, Option.all_some] at late
  split at late
  · next awaiter rest stage =>
      have settled := sound.settled task promise live
      obtain ⟨awaited, present⟩ := settled.exists_awaited (by rw [stage]; rfl)
      have later := (settled.sole (by rw [stage]; rfl) present).1
      have early : awaited.stage.active = true := by simpa [present] using late
      simp only [Process.go, stage, awaitResume, present] at went
      obtain ⟨result, -, rfl⟩ := Option.map_eq_some_iff.mp went
      cases result with
      | ok value =>
          simp [destroy, setPromise, Function.update_of_ne (Nat.ne_of_gt later), present, early,
            runs]
      | error thrown => simp [sound.defined]
  · cases late

@[simp]
theorem execute_terminated (process : Process V E) (task : Nat) :
    (process.execute task).terminated = process.terminated := by
  unfold execute
  split <;> rfl

@[simp]
theorem foldl_execute_terminated (process : Process V E) (tasks : List Nat) :
    (tasks.foldl execute process).terminated = process.terminated := by
  induction tasks generalizing process with
  | nil => rfl
  | cons task tasks ih => exact (ih _).trans (process.execute_terminated task)

@[simp]
theorem destroy_terminated (process : Process V E) (task : Nat) :
    (process.destroy task).terminated = process.terminated := by
  unfold destroy
  split
  · split <;> rfl
  · rfl

theorem take_terminated {queue : Queue} {index : Nat}
    (taken : before.take queue index = some after) : after.terminated = before.terminated := by
  unfold Process.take at taken
  split at taken
  · obtain ⟨task, -, rfl⟩ := Option.map_eq_some_iff.mp taken
    unfold resume
    split
    · split <;> rfl
    · rfl
  · cases taken

/-- The program is terminated where direct style does so. -/
theorem Sound.go_terminated (sound : before.Sound) (live : before.promises task = some promise)
    (runs : before.terminated = false) (went : before.go task promise = some after)
    (ends : after.terminated = true) :
    after.roots = before.roots ∧ promise.called.outcome = .terminated := by
  unfold Process.go at went
  split at went
  · cases went
    simp [Process.complete, setPromise, runs] at ends
  · cases went
    simp [Process.complete, setPromise, runs] at ends
  · cases went
    simp [Process.call, setPromise, runs] at ends
  · cases went
    simp [setPromise, leave, runs] at ends
  · cases went
    unfold awaitSuspend at ends
    split at ends
    · split at ends <;> simp [setPromise, leave, runs] at ends
    · simp [runs] at ends
  · next awaiter rest stage =>
      unfold awaitResume at went
      split at went
      · next awaited present =>
          obtain ⟨result, answer, rfl⟩ := Option.map_eq_some_iff.mp went
          cases result with
          | ok value => simp [setPromise, runs] at ends
          | error thrown => exact ⟨rfl, sound.thrown live stage present answer⟩
      · cases went
        simp [runs] at ends
  · cases went
    simp [setPromise, leave, runs] at ends
  iterate 4 cases went

end Process

open Process

theorem sound_of_step {before after : Process V E} {event : Event V E} (sound : before.Sound)
    (inTime : before.inTime event = true) (stepped : machine.step before event = some after) :
    after.Sound := by
  simp only [machine] at stepped
  split at stepped
  · cases stepped
  · cases event with
    | call executor body =>
        cases stepped
        unfold Process.call execute
        simp only [setPromise, Function.update_self]
        exact sound.calledOutside rfl rfl rfl rfl rfl ⟨_, rfl, rfl⟩ rfl
    | take queue index => exact sound.take stepped
    | go task =>
        obtain ⟨promise, live, went⟩ := Option.bind_eq_some_iff.mp stepped
        exact sound.go live inTime went
    | hang task =>
        obtain ⟨promise, live, hung⟩ := Option.bind_eq_some_iff.mp stepped
        exact sound.hang live hung
    | wake index =>
        obtain ⟨task, woken, rfl⟩ := Option.map_eq_some_iff.mp stepped
        exact sound.wake woken
    | misfire => cases inTime

/-- A process ends only for a body that ends it. -/
theorem terminated_of_step {before after : Process V E} {event : Event V E} (sound : before.Sound)
    (stepped : machine.step before event = some after) (ends : after.terminated = true) :
    ∃ root ∈ after.roots, root.2.outcome = .terminated := by
  simp only [machine] at stepped
  split at stepped
  · cases stepped
  · next runs =>
      have runs := Bool.eq_false_of_not_eq_true runs
      cases event with
      | call executor body =>
          cases stepped
          simp [Process.call, setPromise, runs] at ends
      | take queue index =>
          rw [take_terminated stepped, runs] at ends
          cases ends
      | go task =>
          obtain ⟨promise, live, went⟩ := Option.bind_eq_some_iff.mp stepped
          obtain ⟨roots, outcome⟩ := sound.go_terminated live runs went ends
          rw [roots]
          exact sound.terminates live outcome
      | hang task =>
          obtain ⟨promise, -, hung⟩ := Option.bind_eq_some_iff.mp stepped
          obtain ⟨awaiter, rest, awaited, value, -, -, -, -, rfl⟩ := hang_eq_some hung
          simp [setPromise, runs] at ends
      | wake index =>
          obtain ⟨task, -, rfl⟩ := Option.map_eq_some_iff.mp stepped
          simp [runs] at ends
      | misfire index other =>
          dsimp only at stepped
          split at stepped
          · obtain ⟨task, -, rfl⟩ := Option.map_eq_some_iff.mp stepped
            simp [runs] at ends
          · cases stepped

/-- A process is sound in every state of a run, and terminated only by direct style. -/
theorem sound_of_reaches {process : Process V E}
    (reached : machine.Reaches (fun before event => before.inTime event = true) {} process) :
    process.Sound ∧
      (process.terminated = true → ∃ root ∈ process.roots, root.2.outcome = .terminated) := by
  refine reached.invariant (fun process => process.Sound ∧ (process.terminated = true →
    ∃ root ∈ process.roots, root.2.outcome = .terminated)) ⟨sound_initial, fun ends => ?_⟩ ?_
  · cases ends
  intro before event after known inTime stepped
  exact ⟨sound_of_step known.1 inTime stepped, terminated_of_step known.1 stepped⟩

/-- A coroutine that goes on destroys one that a thread still runs exactly if it is not in time and
has a value. -/
theorem undefined_of_go_iff {before after : Process V E} {task : Nat}
    (sound : before.Sound) (stepped : machine.step before (.go task) = some after) :
    after.undefined = true ↔ before.inTime (.go task) = false ∧ after.terminated = false := by
  cases time : before.inTime (.go task) with
  | true => simp [(sound_of_step sound time stepped).defined]
  | false =>
      simp only [machine] at stepped
      split at stepped
      · cases stepped
      · next runs =>
          obtain ⟨promise, live, went⟩ := Option.bind_eq_some_iff.mp stepped
          simpa using sound.undefined_iff live (Bool.eq_false_of_not_eq_true runs) time went

/-- `simple_task`, with `simple_task2` on the shared looper. -/
def simpleTask : Body Nat Nat :=
  .sleep (.coAwait .sharedLooperExecutor (.sleep (.coReturn 2)) fun result2 =>
    .sleep (.coAwait .newThreadExecutor (.sleep (.coReturn 3)) fun result3 =>
      .coReturn (1 + result2 + result3)))

/-- Up to `co_return` of `simple_task2`. -/
def simpleTaskStart : List (Event Nat Nat) :=
  [.take (.looper 0) 0, .go 0, .wake 0, .take (.looper 0) 0, .go 0, .take .sharedLooper 0, .go 1,
    .go 0, .wake 0, .take .sharedLooper 0, .go 1]

/-- `simple_task2` comes to its end before its result is taken, and `simple_task3` completes before
it is awaited. -/
def simpleTaskEnd : List (Event Nat Nat) :=
  [.go 1, .take (.looper 0) 0, .go 0, .go 0, .wake 0, .take (.looper 0) 0, .go 0,
    .take .newThreads 0, .go 2, .wake 0, .take .newThreads 0, .go 2, .go 2, .go 0,
    .take (.looper 0) 0, .go 0, .go 0, .go 0]

-- The result of `simple_task2` is taken while its thread has not come to `final_suspend`.
example : (machine.execute Machine.anyStep (.call .looperExecutor simpleTask ::
    (simpleTaskStart ++ [.take (.looper 0) 0, .go 0])) {}).map Process.undefined = some true := by
  decide +kernel

-- The scheduler pops another sleeper than it wakes, and the one it wakes is woken twice.
example : (machine.execute Machine.anyStep [.call .newThreadExecutor (.sleep (.coReturn 1)),
    .call .newThreadExecutor (.sleep (.coReturn 2) : Body Nat Nat), .take .newThreads 0, .go 0,
    .take .newThreads 0, .go 1, .misfire 0 1, .take .newThreads 0, .wake 0,
    .take .newThreads 0] {}).map Process.undefined = some true := by
  decide +kernel

end FastDb.Coroutine.Awaiting
