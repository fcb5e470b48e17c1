import FastDb.Coroutine.Awaiting

/-! # What coroutines know

What holds of a coroutine that awaits a task, of the task, and of the places that are to resume
it, in every state of a process (`FastDb.Coroutine.Awaiting.Process.Sound`). It depends on
little of what other coroutines do (`FastDb.Coroutine.Awaiting.Process.Settled.frame`). -/

namespace FastDb.Coroutine.Awaiting

open Foundation

variable {V E : Type}

/-- The awaiter on which a coroutine awaits. -/
def Stage.awaiter : Stage V E → Option (TaskAwaiter V E)
  | .suspending awaiter _ | .awaiting awaiter _ | .resuming awaiter _ => some awaiter
  | .suspended _ | .running _ | .joining _ | .completed | .final => none

/-- The callbacks of a coroutine, whose task has a result or none. -/
def Stage.callbacks (task : Nat) (answered : Bool) : Stage V E → List Nat
  | .awaiting _ _ => if answered then [] else [task]
  | _ => []

/-- The number of places that are to resume a coroutine, whose task has a result or none. -/
def Stage.handles (answered : Bool) : Stage V E → Nat
  | .suspended _ => 1
  | .awaiting _ _ => if answered then 1 else 0
  | _ => 0

/-- What the coroutine has done and what is left to do make up its body. -/
def TaskPromise.Means (promise : TaskPromise V E) : Prop :=
  match promise.stage with
  | .suspended body | .running body | .joining body =>
      promise.result = none ∧ body.outcome = promise.called.outcome
  | .suspending awaiter rest | .awaiting awaiter rest | .resuming awaiter rest =>
      promise.result = none ∧
        (awaiter.called.outcome.bind fun value => (rest value).outcome) = promise.called.outcome
  | .completed | .final => promise.result.map Outcome.ofResult = some promise.called.outcome

/-- The queue does not depend on the stage. -/
@[simp]
theorem TaskPromise.queue_restage (promise : TaskPromise V E) (stage : Stage V E) (task : Nat) :
    ({ promise with stage } : TaskPromise V E).queue task = promise.queue task := rfl

/-- Once answered a coroutine is nobody's callback. -/
@[simp]
theorem Stage.callbacks_true (task : Nat) (stage : Stage V E) : stage.callbacks task true = [] := by
  cases stage <;> rfl

/-- A callback that is called becomes a handle. -/
theorem Stage.handles_true (task : Nat) (stage : Stage V E) : stage.handles true =
    stage.handles false + if task ∈ stage.callbacks task false then 1 else 0 := by
  cases stage <;> simp [handles, callbacks]

/-- What the coroutine that awaits a task has to do with. -/
structure Face (V E : Type) where
  called : Body V E
  caller : Option Nat
  completionCallbacks : List Nat
  result : Option (Except E V)

/-- The face of a promise. -/
def TaskPromise.face (promise : TaskPromise V E) : Face V E where
  called := promise.called
  caller := promise.caller
  completionCallbacks := promise.completionCallbacks
  result := promise.result

namespace Process

variable {process before after : Process V E} {task other : Nat} {promise : TaskPromise V E}

/-- The face of a coroutine that is there. -/
def face (process : Process V E) (task : Nat) : Option (Face V E) :=
  (process.promises task).map TaskPromise.face

/-- The awaiter of a coroutine that is there. -/
def awaiter (process : Process V E) (task : Nat) : Option (TaskAwaiter V E) :=
  (process.promises task).bind fun promise => promise.stage.awaiter

/-- The queue whose thread runs the coroutine. -/
def running (process : Process V E) (task : Nat) : Option Queue :=
  (process.promises task).bind fun promise =>
    if promise.stage.active then some (promise.queue task) else none

/-- The queue of a coroutine that is there. -/
def home (process : Process V E) (task : Nat) : Option Queue :=
  (process.promises task).map fun promise => promise.queue task

/-- The number of places that are to resume a coroutine of the queue. -/
def handles (process : Process V E) (queue : Queue) (task : Nat) : Nat :=
  (process.queues queue).count task + process.scheduled.count task

/-- What is known of a coroutine. -/
structure Settled (process : Process V E) (task : Nat) (promise : TaskPromise V E) : Prop where
  created : task < process.calls
  means : promise.Means
  alone : promise.stage.awaiter = none →
    process.handles (promise.queue task) task = promise.stage.handles false
  awaits : ∀ awaiter, promise.stage.awaiter = some awaiter → task < awaiter.task ∧
    ∃ result, process.face awaiter.task =
        some ⟨awaiter.called, some task, promise.stage.callbacks task result.isSome, result⟩ ∧
      process.handles (promise.queue task) task = promise.stage.handles result.isSome ∧
      ((∃ rest, promise.stage = .resuming awaiter rest) → result ≠ none)
  caller : ∀ caller, promise.caller = some caller →
    ∃ awaiter, process.awaiter caller = some awaiter ∧ awaiter.task = task
  root : promise.caller = none →
    promise.completionCallbacks = [] ∧ (task, promise.called) ∈ process.roots

/-- Who runs in the thread of a looper. -/
def Worked (workers : Queue → Option Nat) (running : Nat → Option Queue) : Prop :=
  ∀ queue, queue ≠ .newThreads → Guards (workers queue) fun task => running task = some queue

/-- The tasks of outside threads are there. -/
def Kept (promises : Nat → Option (TaskPromise V E)) (roots : List (Nat × Body V E)) : Prop :=
  ∀ root ∈ roots, ∃ promise, promises root.1 = some promise ∧ promise.caller = none ∧
    promise.called = root.2

/-- What is known of a process. -/
structure Sound (process : Process V E) : Prop where
  settled : ∀ task promise, process.promises task = some promise → process.Settled task promise
  queued : ∀ queue, ∀ task ∈ process.queues queue, process.home task = some queue
  scheduled : ∀ task ∈ process.scheduled, process.home task ≠ none
  workers : Worked process.workers process.running
  defined : process.undefined = false
  kept : Kept process.promises process.roots

/-- Whether the task that a coroutine awaits has a result. -/
def Answers (process : Process V E) (stage : Stage V E) (answered : Bool) : Prop :=
  ∀ awaiter, stage.awaiter = some awaiter →
    ∃ face, process.face awaiter.task = some face ∧ face.result.isSome = answered

/-- What a coroutine knows depends on its handles, its task and its caller. -/
theorem Settled.frame (settled : before.Settled task promise) (calls : before.calls ≤ after.calls)
    (handles : after.handles (promise.queue task) task = before.handles (promise.queue task) task)
    (faces : ∀ awaiter, promise.stage.awaiter = some awaiter →
      after.face awaiter.task = before.face awaiter.task)
    (callers : ∀ caller, promise.caller = some caller →
      after.awaiter caller = before.awaiter caller)
    (roots : before.roots ⊆ after.roots) : after.Settled task promise where
  created := Nat.lt_of_lt_of_le settled.created calls
  means := settled.means
  alone alone := handles.trans (settled.alone alone)
  awaits awaiter awaits := by
    obtain ⟨later, result, face, count, resumes⟩ := settled.awaits awaiter awaits
    exact ⟨later, result, (faces awaiter awaits).trans face, handles.trans count, resumes⟩
  caller caller called := by
    obtain ⟨awaiter, awaits, same⟩ := settled.caller caller called
    exact ⟨awaiter, (callers caller called).trans awaits, same⟩
  root outside := ⟨(settled.root outside).1, roots (settled.root outside).2⟩

/-! ## Steps -/

section Update

variable {next : Option (TaskPromise V E)}
  (promises : after.promises = Function.update before.promises task next)
include promises

/-- The faces after one promise is replaced. -/
theorem face_update :
    after.face = Function.update before.face task (next.map TaskPromise.face) := by
  funext other
  by_cases same : other = task
  · subst same
    simp [face, promises]
  · simp [face, promises, same]

/-- The awaiters after one promise is replaced. -/
theorem awaiter_update : after.awaiter = Function.update before.awaiter task
    (next.bind fun promise => promise.stage.awaiter) := by
  funext other
  by_cases same : other = task
  · subst same
    simp [awaiter, promises]
  · simp [awaiter, promises, same]

/-- The queues after one promise is replaced. -/
theorem home_update : after.home = Function.update before.home task
    (next.map fun promise => promise.queue task) := by
  funext other
  by_cases same : other = task
  · subst same
    simp [home, promises]
  · simp [home, promises, same]

/-- Who runs where, after one promise is replaced. -/
theorem running_update : after.running = Function.update before.running task
    (next.bind fun promise =>
      if promise.stage.active then some (promise.queue task) else none) := by
  funext other
  by_cases same : other = task
  · subst same
    simp [running, promises]
  · simp [running, promises, same]

end Update

section Kept

variable {promises : Nat → Option (TaskPromise V E)} {roots : List (Nat × Body V E)}
  (kept : Kept promises roots) (live : promises task = some promise)
include kept live

/-- A promise replaced keeps its caller and its body. -/
theorem Kept.update {next : TaskPromise V E} (caller : next.caller = promise.caller)
    (called : next.called = promise.called) :
    Kept (Function.update promises task (some next)) roots := by
  intro root member
  obtain ⟨found, present, outside, same⟩ := kept root member
  by_cases own : root.1 = task
  · rw [own, live] at present
    cases present
    exact ⟨next, by rw [own, Function.update_self], caller.trans outside, called.trans same⟩
  · exact ⟨found, by rwa [Function.update_of_ne own], outside, same⟩

/-- An inner coroutine may be destroyed. -/
theorem Kept.destroy (inner : promise.caller ≠ none) :
    Kept (Function.update promises task none) roots := by
  intro root member
  obtain ⟨found, present, outside, same⟩ := kept root member
  have different : root.1 ≠ task := fun own => by
    rw [own, live] at present
    cases present
    exact inner outside
  exact ⟨found, by rwa [Function.update_of_ne different], outside, same⟩

end Kept

section Restage

variable {stage : Stage V E} (live : before.promises task = some promise)
  (promises : after.promises = Function.update before.promises task (some { promise with stage }))
include live promises

/-- Another stage leaves the faces. -/
theorem face_restage : after.face = before.face := by
  rw [face_update promises, Function.update_eq_self_iff]
  simp [face, live, TaskPromise.face]

/-- Another stage leaves the queues. -/
theorem home_restage : after.home = before.home := by
  rw [home_update promises, Function.update_eq_self_iff]
  simp [home, live]

/-- Another stage on the same awaiter leaves the awaiters. -/
theorem awaiter_restage (same : stage.awaiter = promise.stage.awaiter) :
    after.awaiter = before.awaiter := by
  rw [awaiter_update promises, Function.update_eq_self_iff]
  simp [awaiter, live, same]

end Restage

/-! ### Threads and queues -/

/-- A worker takes up a coroutine. -/
theorem Worked.take {workers : Queue → Option Nat} {running : Nat → Option Queue} {queue : Queue}
    (worked : Worked workers running) (idle : running task = none)
    (free : queue = .newThreads ∨ workers queue = none) :
    Worked (if queue = .newThreads then workers else Function.update workers queue (some task))
      (Function.update running task (some queue)) := by
  intro looper serial
  have others : ∀ other, other ≠ task →
      (Function.update running task (some queue) other = some looper ↔
        running other = some looper) := fun other different => by
    rw [Function.update_of_ne different]
  have guards := worked looper serial
  by_cases same : looper = queue
  · subst same
    rw [if_neg serial, Function.update_self]
    rw [free.resolve_left serial] at guards
    exact guards.acquire task (Function.update_self ..) others
  · have own : Function.update running task (some queue) task = some looper ↔
        running task = some looper := by
      simp [idle, Ne.symm same]
    split
    · exact guards.move task own others
    · rw [Function.update_of_ne same]
      exact guards.move task own others

/-- A coroutine leaves its worker. -/
theorem Worked.leave {workers : Queue → Option Nat} {running : Nat → Option Queue} {queue : Queue}
    (worked : Worked workers running) (runs : running task = some queue) :
    Worked (Function.update workers queue none) (Function.update running task none) := by
  intro looper serial
  have others : ∀ other, other ≠ task →
      (Function.update running task none other = some looper ↔
        running other = some looper) := fun other different => by
    rw [Function.update_of_ne different]
  have guards := worked looper serial
  by_cases same : looper = queue
  · subst same
    rw [Function.update_self]
    exact guards.release task runs (by simp) others
  · rw [Function.update_of_ne same]
    exact guards.move task (by simp [runs, Ne.symm same]) others

/-- How often a task is queued after a push. -/
theorem count_push (list : List Nat) (task other : Nat) :
    (list ++ [task]).count other = list.count other + if other = task then 1 else 0 := by
  by_cases own : other = task
  · simp [own]
  · simp [own, Ne.symm own]

/-- How often a task was queued before a pop. -/
theorem count_pop {list : List Nat} {index : Nat} (taken : list[index]? = some task) (other : Nat) :
    list.count other = (list.eraseIdx index).count other + if other = task then 1 else 0 := by
  obtain ⟨bound, rfl⟩ := List.getElem?_eq_some_iff.mp taken
  have count := (List.getElem_cons_eraseIdx_perm bound).count_eq other
  rw [List.count_cons] at count
  grind

/-- A handle is queued. -/
theorem handles_push {queue : Queue}
    (queues : after.queues =
      Function.update before.queues queue (before.queues queue ++ [task]))
    (scheduled : after.scheduled = before.scheduled) (place : Queue) (other : Nat) :
    after.handles place other =
      before.handles place other + if place = queue ∧ other = task then 1 else 0 := by
  unfold handles
  rw [queues, scheduled]
  by_cases same : place = queue
  · subst same
    rw [Function.update_self, count_push]
    simp only [true_and]
    omega
  · simp [same]

/-- A handle is taken from its queue. -/
theorem handles_pop {queue : Queue} {index : Nat}
    (first : (before.queues queue)[index]? = some task)
    (queues : after.queues =
      Function.update before.queues queue ((before.queues queue).eraseIdx index))
    (scheduled : after.scheduled = before.scheduled) (place : Queue) (other : Nat) :
    before.handles place other =
      after.handles place other + if place = queue ∧ other = task then 1 else 0 := by
  unfold handles
  rw [queues, scheduled]
  by_cases same : place = queue
  · subst same
    have count := count_pop first other
    rw [Function.update_self]
    simp only [true_and]
    omega
  · simp [same]

/-- After a push there is what was there and the task. -/
theorem mem_push {queues : Queue → List Nat} {queue place : Queue}
    (member : other ∈ Function.update queues queue (queues queue ++ [task]) place) :
    other ∈ queues place ∨ other = task ∧ place = queue := by
  by_cases same : place = queue
  · subst same
    rw [Function.update_self] at member
    exact (List.mem_append.mp member).imp_right fun last => ⟨List.mem_singleton.mp last, rfl⟩
  · rw [Function.update_of_ne same] at member
    exact .inl member

/-- After a pop there is nothing new. -/
theorem mem_pop {queues : Queue → List Nat} {queue place : Queue} {index : Nat}
    (member : other ∈ Function.update queues queue ((queues queue).eraseIdx index) place) :
    other ∈ queues place := by
  by_cases same : place = queue
  · subst same
    rw [Function.update_self] at member
    exact List.mem_of_mem_eraseIdx member
  · rwa [Function.update_of_ne same] at member

/-! ### The events -/

/-- A coroutine goes on, and no other one has to do with it. -/
theorem Sound.advance (sound : before.Sound) {stage : Stage V E}
    (live : before.promises task = some promise)
    (promises : after.promises = Function.update before.promises task (some { promise with stage }))
    (awaiter : stage.awaiter = promise.stage.awaiter)
    (calls : after.calls = before.calls) (roots : after.roots = before.roots)
    (defined : after.undefined = false) (means : ({ promise with stage } : TaskPromise V E).Means)
    (own : ∀ answered, before.Answers promise.stage answered →
      before.handles (promise.queue task) task = promise.stage.handles answered →
      after.handles (promise.queue task) task = stage.handles answered ∧
        stage.callbacks task answered = promise.stage.callbacks task answered ∧
        (∀ awaiter rest, stage = .resuming awaiter rest → answered = true))
    (handles : ∀ queue other, other ≠ task →
      after.handles queue other = before.handles queue other)
    (queued : ∀ queue, ∀ other ∈ after.queues queue,
      other ∈ before.queues queue ∨ other = task ∧ queue = promise.queue task)
    (scheduled : ∀ other ∈ after.scheduled, other ∈ before.scheduled ∨ other = task)
    (workers : Worked after.workers after.running) : after.Sound := by
  have faces := face_restage live promises
  have awaiters := awaiter_restage live promises awaiter
  have homes := home_restage live promises
  have there : before.home task = some (promise.queue task) := by
    simp [home, live]
  refine ⟨fun other found present => ?_, fun queue other member => ?_, fun other member => ?_,
    workers, defined, ?_⟩
  · by_cases same : other = task
    · subst same
      rw [promises, Function.update_self] at present
      cases present
      obtain ⟨created, -, alone, awaits, callers, root⟩ := sound.settled other promise live
      refine ⟨calls ▸ created, means, fun none => ?_, fun task some => ?_, ?_, ?_⟩
      · have silent : before.Answers promise.stage false := fun task some => by
          rw [← awaiter, none] at some
          cases some
        exact (own false silent (alone (awaiter ▸ none))).1
      · obtain ⟨later, result, face, count, -⟩ := awaits task (awaiter ▸ some)
        have answers : before.Answers promise.stage result.isSome := fun other same => by
          rw [← awaiter, some] at same
          cases same
          exact ⟨_, face, rfl⟩
        obtain ⟨handles, callbacks, resumes⟩ := own _ answers count
        refine ⟨later, result, by rw [faces, face, callbacks], handles, fun resuming => ?_⟩
        obtain ⟨rest, resuming⟩ := resuming
        exact Option.isSome_iff_ne_none.mp (resumes _ rest resuming)
      · rwa [awaiters]
      · rwa [roots]
    · rw [promises, Function.update_of_ne same] at present
      exact (sound.settled other found present).frame (Nat.le_of_eq calls.symm)
        (handles _ other same) (fun _ _ => by rw [faces]) (fun _ _ => by rw [awaiters])
        (by rw [roots]; exact List.Subset.refl _)
  · rw [homes]
    obtain earlier | ⟨rfl, rfl⟩ := queued queue other member
    · exact sound.queued queue other earlier
    · exact there
  · rw [homes]
    obtain earlier | rfl := scheduled other member
    · exact sound.scheduled other earlier
    · simp [there]
  · rw [roots, promises]
    exact sound.kept.update live rfl rfl

end Process

end FastDb.Coroutine.Awaiting
