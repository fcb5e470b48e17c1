import Mathlib.Tactic.Set
import FastDb.Coroutine.Awaiting.Invariant

/-! # Suspended coroutines

A coroutine is suspended until an executor resumes it: dispatched, asleep, or with a callback
registered at the task that it awaits. -/

namespace FastDb.Coroutine.Awaiting

open Foundation

variable {V E : Type}

namespace Process

variable {process before after : Process V E} {task other : Nat} {promise : TaskPromise V E}

/-- A coroutine with a queue is there. -/
theorem exists_of_home {queue : Queue} (home : process.home task = some queue) :
    ∃ promise, process.promises task = some promise ∧ promise.queue task = queue :=
  Option.map_eq_some_iff.mp home

/-- A handle is that of a coroutine which is suspended there. -/
theorem Settled.suspended (settled : process.Settled task promise)
    (held : process.handles (promise.queue task) task ≠ 0) :
    (∃ body, promise.stage = .suspended body) ∨
      ∃ awaiter rest, promise.stage = .awaiting awaiter rest := by
  have alone := settled.alone
  have awaits := settled.awaits
  cases stage : promise.stage with
  | suspended body => exact .inl ⟨body, rfl⟩
  | awaiting awaiter rest => exact .inr ⟨awaiter, rest, rfl⟩
  | running | joining | completed | final =>
      exact absurd (alone (by rw [stage]; rfl)) (by rwa [stage])
  | suspending awaiter | resuming awaiter =>
      obtain ⟨-, result, -, count, -⟩ := awaits awaiter (by rw [stage]; rfl)
      exact absurd count (by rwa [stage])

/-- A coroutine that is not active runs nowhere. -/
theorem running_eq_none (live : process.promises task = some promise)
    (idle : promise.stage.active = false) : process.running task = none := by
  simp [running, live, idle]

/-- A resumed coroutine has one handle less. -/
theorem Sound.resumed (sound : before.Sound) {index : Nat} {stage : Stage V E}
    (live : before.promises task = some promise)
    (first : (before.queues (promise.queue task))[index]? = some task)
    (free : promise.queue task = .newThreads ∨ before.workers (promise.queue task) = none)
    (idle : promise.stage.active = false) (active : stage.active = true)
    (awaiter : stage.awaiter = promise.stage.awaiter)
    (promises : after.promises = Function.update before.promises task (some { promise with stage }))
    (means : ({ promise with stage } : TaskPromise V E).Means)
    (handles : ∀ answered, promise.stage.handles answered ≠ 0 →
      promise.stage.handles answered = stage.handles answered + 1 ∧
        stage.callbacks task answered = promise.stage.callbacks task answered ∧
        (∀ awaiter rest, stage = .resuming awaiter rest → answered = true))
    (queues : after.queues = Function.update before.queues (promise.queue task)
      ((before.queues (promise.queue task)).eraseIdx index))
    (workers : after.workers = if promise.queue task = .newThreads then before.workers
      else Function.update before.workers (promise.queue task) (some task))
    (scheduled : after.scheduled = before.scheduled) (calls : after.calls = before.calls)
    (roots : after.roots = before.roots) (defined : after.undefined = before.undefined) :
    after.Sound := by
  have popped := handles_pop first queues scheduled
  refine sound.advance live promises awaiter calls roots (defined.trans sound.defined) means
    (fun answered _ count => ?_) (fun queue other different => ?_)
    (fun queue other member => .inl ?_) (fun other member => .inl (scheduled ▸ member)) ?_
  · have one := popped (promise.queue task) task
    rw [if_pos ⟨rfl, rfl⟩] at one
    obtain ⟨fewer, same⟩ := handles answered (by omega)
    exact ⟨by omega, same⟩
  · have none := popped queue other
    rwa [if_neg fun same => different same.2, Nat.add_zero, eq_comm] at none
  · rw [queues] at member
    exact mem_pop member
  · rw [running_update promises, workers]
    simp only [Option.bind_some, active, if_true]
    exact sound.workers.take (running_eq_none live idle) free

/-- An executor resumes a coroutine. -/
theorem Sound.take (sound : before.Sound) {queue : Queue} {index : Nat}
    (taken : before.take queue index = some after) : after.Sound := by
  unfold Process.take at taken
  split at taken
  · next free =>
      obtain ⟨task, first, rfl⟩ := Option.map_eq_some_iff.mp taken
      obtain ⟨promise, live, rfl⟩ := exists_of_home
        (sound.queued queue task (List.mem_of_getElem? first))
      have settled := sound.settled task promise live
      have means := settled.means
      have held : before.handles (promise.queue task) task ≠ 0 := by
        have member := List.count_pos_iff.mpr (List.mem_of_getElem? first)
        unfold handles
        omega
      simp only [resume, live]
      obtain ⟨body, stage⟩ | ⟨awaiter, rest, stage⟩ := settled.suspended held
      · simp only [stage]
        exact sound.resumed live first (free.imp id And.left) (by rw [stage]; rfl) rfl
          (by rw [stage]; rfl) rfl (by simpa [TaskPromise.Means, stage] using means)
          (by simp [stage, Stage.handles, Stage.callbacks]) rfl rfl rfl rfl rfl rfl
      · simp only [stage]
        exact sound.resumed live first (free.imp id And.left) (by rw [stage]; rfl) rfl
          (by rw [stage]; rfl) rfl (by simpa [TaskPromise.Means, stage] using means)
          (by simp [stage, Stage.handles, Stage.callbacks]) rfl rfl rfl rfl rfl rfl
  · cases taken

/-- The time of a sleeper is over. -/
theorem Sound.wake (sound : before.Sound) {index : Nat}
    (woken : before.scheduled[index]? = some task) :
    ({ before with scheduled := before.scheduled.eraseIdx index }.execute task).Sound := by
  obtain ⟨queue, home⟩ := Option.ne_none_iff_exists'.mp
    (sound.scheduled task (List.mem_of_getElem? woken))
  obtain ⟨promise, live, rfl⟩ := exists_of_home home
  have promises : before.promises = Function.update before.promises task
      (some { promise with stage := promise.stage }) := by
    rw [eq_comm, Function.update_eq_self_iff]
    exact live.symm
  have scheduled := count_pop woken
  unfold execute
  simp only [live]
  refine sound.advance live promises rfl rfl rfl sound.defined
    (sound.settled task promise live).means
    (fun answered _ count => ⟨?_, rfl, fun awaiter rest resuming => ?_⟩)
    (fun queue other different => ?_) (fun queue other member => ?_)
    (fun other member => .inl (List.mem_of_mem_eraseIdx member)) sound.workers
  · have one := scheduled task
    rw [← count]
    simp only [handles, Function.update_self, count_push, if_true] at one ⊢
    omega
  · have one := scheduled task
    rw [resuming] at count
    simp only [handles, Stage.handles, if_true] at one count
    omega
  · have none := scheduled other
    by_cases same : queue = promise.queue task
    · subst same
      simp only [handles, Function.update_self, count_push, different, if_false] at none ⊢
      omega
    · simp only [handles, Function.update_of_ne same, different, if_false] at none ⊢
      omega
  · exact mem_push member

/-- An active coroutine runs on its own queue. -/
theorem running_of_active (live : process.promises task = some promise)
    (active : promise.stage.active = true) : process.running task = some (promise.queue task) := by
  simp [running, live, active]

/-- The thread of a coroutine that is suspended is free. -/
theorem Sound.left (sound : before.Sound) {stage : Stage V E}
    (live : before.promises task = some promise) (active : promise.stage.active = true)
    (promises : after.promises = Function.update before.promises task (some { promise with stage }))
    (idle : stage.active = false) :
    Worked (Function.update before.workers (promise.queue task) none) after.running := by
  rw [running_update promises]
  simp only [Option.bind_some, idle, Bool.false_eq_true, if_false]
  exact sound.workers.leave (running_of_active live active)

/-- A coroutine goes to sleep. -/
theorem Sound.sleep (sound : before.Sound) {rest : Body V E}
    (live : before.promises task = some promise) (stage : promise.stage = .running (.sleep rest)) :
    ({ (before.setPromise task { promise with stage := .suspended rest }).leave
        (promise.queue task) with
      scheduled := before.scheduled ++ [task] } : Process V E).Sound := by
  refine sound.advance live rfl (by rw [stage]; rfl) rfl rfl sound.defined ?_
    (fun answered _ count => ⟨?_, by rw [stage]; rfl, fun awaiter rest resuming => ?_⟩)
    (fun queue other different => ?_) (fun queue other member => .inl member)
    (fun other member => ?_) (sound.left live (by rw [stage]; rfl) rfl rfl)
  · simpa [TaskPromise.Means, stage, Body.outcome] using (sound.settled task promise live).means
  · rw [stage] at count
    simp only [handles, count_push, if_true, Stage.handles, setPromise, leave] at count ⊢
    omega
  · cases resuming
  · simp only [handles, count_push, different, setPromise, leave, if_false, Nat.add_zero]
  · exact (List.mem_append.mp member).imp_right List.mem_singleton.mp

/-- A coroutine that has completed is suspended at its end. -/
theorem Sound.final (sound : before.Sound) (live : before.promises task = some promise)
    (stage : promise.stage = .completed) :
    ((before.setPromise task { promise with stage := .final }).leave
      (promise.queue task)).Sound := by
  refine sound.advance live rfl (by rw [stage]; rfl) rfl rfl sound.defined ?_
    (fun answered _ count => ⟨?_, by rw [stage]; rfl, fun awaiter rest resuming => ?_⟩)
    (fun queue other different => rfl) (fun queue other member => .inl member)
    (fun other member => .inl member) (sound.left live (by rw [stage]; rfl) rfl rfl)
  · simpa [TaskPromise.Means, stage] using (sound.settled task promise live).means
  · rwa [stage] at count
  · cases resuming

/-- The awaited task has a result already. -/
theorem Sound.answered (sound : before.Sound) {awaiter : TaskAwaiter V E} {rest : V → Body V E}
    (live : before.promises task = some promise) (stage : promise.stage = .suspending awaiter rest)
    {awaited : TaskPromise V E} (present : before.promises awaiter.task = some awaited)
    (answered : awaited.result.isSome = true) :
    (((before.setPromise task { promise with stage := .awaiting awaiter rest }).leave
      (promise.queue task)).execute task).Sound := by
  unfold execute
  simp only [setPromise, leave, Function.update_self, TaskPromise.queue_restage]
  refine sound.advance live rfl (by rw [stage]; rfl) rfl rfl sound.defined ?_
    (fun known answers count => ?_) (fun queue other different => ?_)
    (fun queue other member => mem_push member) (fun other member => .inl member)
    (sound.left live (by rw [stage]; rfl) rfl rfl)
  · simpa [TaskPromise.Means, stage] using (sound.settled task promise live).means
  · obtain ⟨face, seen, same⟩ := answers awaiter (by rw [stage]; rfl)
    simp only [Process.face, present, Option.map_some, Option.some.injEq] at seen
    subst seen
    obtain rfl : true = known := answered.symm.trans same
    rw [stage] at count ⊢
    refine ⟨?_, rfl, fun _ _ resuming => by cases resuming⟩
    simp only [handles, Function.update_self, count_push, if_true, Stage.handles] at count ⊢
    omega
  · by_cases same : queue = promise.queue task
    · subst same
      simp only [handles, Function.update_self, count_push, different, if_false, Nat.add_zero]
    · simp only [handles, Function.update_of_ne same]

/-- An awaited task knows who awaits it. -/
theorem Settled.sole (settled : process.Settled task promise) {awaiter : TaskAwaiter V E}
    (awaits : promise.stage.awaiter = some awaiter) {awaited : TaskPromise V E}
    (present : process.promises awaiter.task = some awaited) :
    task < awaiter.task ∧ awaited.called = awaiter.called ∧ awaited.caller = some task ∧
      awaited.completionCallbacks = promise.stage.callbacks task awaited.result.isSome ∧
      process.handles (promise.queue task) task = promise.stage.handles awaited.result.isSome := by
  obtain ⟨later, result, seen, count, -⟩ := settled.awaits awaiter awaits
  simp only [face, present, Option.map_some, Option.some.injEq, TaskPromise.face,
    Face.mk.injEq] at seen
  obtain ⟨called, caller, callbacks, rfl⟩ := seen
  exact ⟨later, called, caller, callbacks, count⟩

/-- A task that is awaited is there. -/
theorem Settled.exists_awaited (settled : process.Settled task promise)
    {awaiter : TaskAwaiter V E} (awaits : promise.stage.awaiter = some awaiter) :
    ∃ awaited, process.promises awaiter.task = some awaited := by
  obtain ⟨-, result, seen, -⟩ := settled.awaits awaiter awaits
  obtain ⟨awaited, present, -⟩ := Option.map_eq_some_iff.mp seen
  exact ⟨awaited, present⟩

/-- A coroutine is resumed with a result of its task. -/
theorem Settled.exists_answered (settled : process.Settled task promise)
    {awaiter : TaskAwaiter V E} {rest : V → Body V E}
    (stage : promise.stage = .resuming awaiter rest) :
    ∃ awaited, process.promises awaiter.task = some awaited ∧ awaited.result ≠ none := by
  obtain ⟨-, result, seen, -, done⟩ := settled.awaits awaiter (by rw [stage]; rfl)
  obtain ⟨awaited, present, same⟩ := Option.map_eq_some_iff.mp seen
  have answered : awaited.result = result := congrArg Face.result same
  exact ⟨awaited, present, answered ▸ done ⟨rest, stage⟩⟩

/-- The awaited task is to call back. -/
theorem Sound.register (sound : before.Sound) {awaiter : TaskAwaiter V E} {rest : V → Body V E}
    (live : before.promises task = some promise) (stage : promise.stage = .suspending awaiter rest)
    {awaited : TaskPromise V E} (present : before.promises awaiter.task = some awaited)
    (pending : awaited.result = none) :
    (((before.setPromise task { promise with stage := .awaiting awaiter rest }).leave
      (promise.queue task)).setPromise awaiter.task
        { awaited with completionCallbacks := awaited.completionCallbacks ++ [task] }).Sound := by
  have settled := sound.settled task promise live
  obtain ⟨later, called, caller, callbacks, count⟩ :=
    settled.sole (by rw [stage]; rfl) present
  rw [stage] at callbacks count
  have different : awaiter.task ≠ task := Nat.ne_of_gt later
  set middle := (before.setPromise task { promise with stage := .awaiting awaiter rest }).leave
    (promise.queue task) with middle_eq
  set after := middle.setPromise awaiter.task
    { awaited with completionCallbacks := awaited.completionCallbacks ++ [task] } with after_eq
  have restaged : middle.promises = Function.update before.promises task
    (some { promise with stage := .awaiting awaiter rest }) := rfl
  have promises : after.promises = Function.update middle.promises awaiter.task
    (some { awaited with completionCallbacks := awaited.completionCallbacks ++ [task] }) := rfl
  have there : middle.promises awaiter.task = some awaited := by
    rw [restaged, Function.update_of_ne different, present]
  have awaiters : after.awaiter = before.awaiter := by
    rw [awaiter_update promises, awaiter_restage live restaged (by rw [stage]; rfl),
      Function.update_eq_self_iff]
    simp [Process.awaiter, present]
  have homes : after.home = before.home := by
    rw [home_update promises, home_restage live restaged, Function.update_eq_self_iff]
    simp [home, present, TaskPromise.queue]
  have runs : after.running = middle.running := by
    rw [running_update promises, Function.update_eq_self_iff]
    simp [running, there, TaskPromise.queue]
  have faces (other : Nat) (elsewhere : other ≠ awaiter.task) :
      after.face other = before.face other := by
    rw [face_update promises, Function.update_of_ne elsewhere, face_restage live restaged]
  refine ⟨fun other found here => ?_, fun queue other member => ?_, fun other member => ?_, ?_,
    sound.defined, ?_⟩
  · by_cases child : other = awaiter.task
    · subst child
      rw [promises, Function.update_self] at here
      cases here
      have known := sound.settled awaiter.task awaited present
      have framed : after.Settled awaiter.task awaited := known.frame (Nat.le_refl _) rfl
        (fun next awaits => faces next.task (Nat.ne_of_gt (known.awaits next awaits).1))
        (fun _ _ => congrFun awaiters _) (List.Subset.refl _)
      obtain ⟨created, means, alone, awaits, callers, -⟩ := framed
      exact ⟨created, means, alone, awaits, callers, fun outside => by
        rw [show awaited.caller = none from outside] at caller
        cases caller⟩
    · rw [promises, Function.update_of_ne child, restaged] at here
      by_cases own : other = task
      · subst own
        rw [Function.update_self] at here
        cases here
        have means := settled.means
        refine ⟨settled.created, by simpa [TaskPromise.Means, stage] using means,
          (fun none => by cases none), fun known awaits => ?_, ?_, settled.root⟩
        · cases awaits
          refine ⟨later, none, ?_, count, fun resuming => ?_⟩
          · rw [face_update promises, Function.update_self]
            simp [TaskPromise.face, called, caller, callbacks, pending, Stage.callbacks]
          · obtain ⟨_, resuming⟩ := resuming
            cases resuming
        · rw [awaiters]
          exact settled.caller
      · rw [Function.update_of_ne own] at here
        have known := sound.settled other found here
        refine known.frame (Nat.le_refl _) rfl (fun next awaits => faces next.task fun same => ?_)
          (fun _ _ => congrFun awaiters _) (List.Subset.refl _)
        obtain ⟨-, -, sole, -⟩ := known.sole awaits (same ▸ present)
        exact own (Option.some.inj (sole.symm.trans caller))
  · rw [homes]
    exact sound.queued queue other member
  · rw [homes]
    exact sound.scheduled other member
  · rw [runs]
    exact sound.left live (by rw [stage]; rfl) restaged rfl
  · have first : Kept middle.promises before.roots := sound.kept.update live rfl rfl
    exact first.update there rfl rfl

end Process

end FastDb.Coroutine.Awaiting
