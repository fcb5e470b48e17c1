import FastDb.Coroutine.Awaiting.Invariant

/-! # Calls of coroutines

A coroutine that is called, by a thread outside or by another coroutine, is new. -/

namespace FastDb.Coroutine.Awaiting

open Foundation

variable {V E : Type}

namespace Process

variable {process before after : Process V E} {task other : Nat} {promise : TaskPromise V E}

/-- The next coroutine to be called is not there yet. -/
theorem Sound.fresh (sound : process.Sound) : process.promises process.calls = none :=
  Option.eq_none_iff_forall_ne_some.mpr fun promise live =>
    Nat.lt_irrefl _ (sound.settled process.calls promise live).created

/-- Nothing resumes a coroutine that does not exist. -/
theorem Sound.handles_fresh (sound : process.Sound) (queue : Queue) :
    process.handles queue process.calls = 0 := by
  have nowhere : process.home process.calls = none := by simp [home, sound.fresh]
  have unqueued : process.calls ∉ process.queues queue := fun member => by
    rw [sound.queued queue _ member] at nowhere
    cases nowhere
  have unscheduled : process.calls ∉ process.scheduled := fun member =>
    sound.scheduled _ member nowhere
  rw [handles, List.count_eq_zero_of_not_mem unqueued, List.count_eq_zero_of_not_mem unscheduled]

/-- A coroutine has been called and is dispatched. -/
theorem Sound.called (sound : before.Sound) {executor : Executor} {body : Body V E}
    {caller : Option Nat}
    (present : after.promises before.calls =
      some { executor, stage := .suspended body, called := body, caller })
    (settled : ∀ other found, other ≠ before.calls → after.promises other = some found →
      after.Settled other found)
    (calls : after.calls = before.calls + 1) (defined : after.undefined = before.undefined)
    (scheduled : after.scheduled = before.scheduled) (workers : after.workers = before.workers)
    (queues : ∃ queue, after.home before.calls = some queue ∧ after.queues =
      Function.update before.queues queue (before.queues queue ++ [before.calls]))
    (homes : ∀ other, other ≠ before.calls → after.home other = before.home other)
    (running : ∀ other, other ≠ before.calls → after.running other = before.running other)
    (awaited : ∀ task, caller = some task →
      ∃ awaiter, after.awaiter task = some awaiter ∧ awaiter.task = before.calls)
    (root : caller = none → (before.calls, body) ∈ after.roots)
    (kept : Kept after.promises after.roots) : after.Sound := by
  obtain ⟨queue, home, queues⟩ := queues
  have there (other : Nat) (somewhere : before.home other ≠ none) : other ≠ before.calls :=
    fun same => somewhere (by simp [Process.home, same, sound.fresh])
  refine ⟨fun other found here => ?_, fun place other member => ?_, fun other member => ?_, ?_,
    defined.trans sound.defined, kept⟩
  · by_cases own : other = before.calls
    · subst own
      rw [present] at here
      cases here
      simp only [Process.home, present, Option.map_some, Option.some.injEq] at home
      have pushed := handles_push queues scheduled queue before.calls
      rw [sound.handles_fresh, if_pos ⟨rfl, rfl⟩] at pushed
      exact ⟨calls ▸ Nat.lt_succ_self _, ⟨rfl, rfl⟩, fun _ => by rw [home, pushed]; rfl,
        (fun _ awaits => by cases awaits), awaited, fun outside => ⟨rfl, root outside⟩⟩
    · exact settled other found own here
  · rw [queues] at member
    obtain earlier | ⟨rfl, rfl⟩ := mem_push member
    · have known := sound.queued place other earlier
      rwa [homes other (there other (by rw [known]; exact Option.some_ne_none _))]
    · exact home
  · have known := sound.scheduled other (scheduled ▸ member)
    rwa [homes other (there other known)]
  · have same : after.running = before.running := by
      funext other
      by_cases own : other = before.calls
      · subst own
        simp [Process.running, present, sound.fresh, Stage.active]
      · exact running other own
    rw [same, workers]
    exact sound.workers

/-- Nobody awaits the next coroutine to be called. -/
theorem Sound.settled_fresh (sound : before.Sound) (settled : before.Settled task promise)
    {awaiter : TaskAwaiter V E} (awaits : promise.stage.awaiter = some awaiter) :
    awaiter.task ≠ before.calls := fun same => by
  obtain ⟨-, result, seen, -⟩ := settled.awaits awaiter awaits
  simp [face, same, sound.fresh] at seen

/-- A dispatched handle is no other one. -/
theorem handles_dispatch {queue : Queue}
    (queues : after.queues =
      Function.update before.queues queue (before.queues queue ++ [task]))
    (scheduled : after.scheduled = before.scheduled) (place : Queue) (different : other ≠ task) :
    after.handles place other = before.handles place other := by
  rw [handles_push queues scheduled, if_neg fun same => different same.2, Nat.add_zero]

/-- The promise of a coroutine that has been called. -/
def dispatched (executor : Executor) (body : Body V E) (caller : Option Nat) : TaskPromise V E where
  executor
  stage := .suspended body
  called := body
  caller

/-- An outside thread has called. -/
theorem Sound.calledOutside (sound : before.Sound) {executor : Executor} {body : Body V E}
    (promises : after.promises = Function.update before.promises before.calls
      (some (dispatched executor body none)))
    (calls : after.calls = before.calls + 1) (defined : after.undefined = before.undefined)
    (scheduled : after.scheduled = before.scheduled) (workers : after.workers = before.workers)
    (queues : ∃ queue, (dispatched executor body none).queue before.calls = queue ∧ after.queues =
      Function.update before.queues queue (before.queues queue ++ [before.calls]))
    (roots : after.roots = before.roots ++ [(before.calls, body)]) : after.Sound := by
  obtain ⟨queue, place, queues⟩ := queues
  have awaiters : after.awaiter = before.awaiter := by
    rw [awaiter_update promises, Function.update_eq_self_iff]
    simp [awaiter, sound.fresh, dispatched, Stage.awaiter]
  refine sound.called (by rw [promises, Function.update_self]; rfl)
    (fun other found old here => ?_) calls defined scheduled workers
    ⟨queue, by simp [home, promises, place], queues⟩ (fun other old => ?_) (fun other old => ?_)
    (fun _ none => by cases none) (fun _ => by simp [roots]) (fun root member => ?_)
  · rw [promises, Function.update_of_ne old] at here
    have known := sound.settled other found here
    refine known.frame (by omega) (handles_dispatch queues scheduled _ old) (fun next awaits => ?_)
      (fun _ _ => congrFun awaiters _) (by simp [roots])
    rw [face_update promises, Function.update_of_ne (sound.settled_fresh known awaits)]
  · rw [home_update promises, Function.update_of_ne old]
  · rw [running_update promises, Function.update_of_ne old]
  · rw [roots] at member
    obtain earlier | last := List.mem_append.mp member
    · obtain ⟨found, present, rest⟩ := sound.kept root earlier
      have old : root.1 ≠ before.calls := fun same => by
        rw [same, sound.fresh] at present
        cases present
      exact ⟨found, by rwa [promises, Function.update_of_ne old], rest⟩
    · obtain rfl := List.mem_singleton.mp last
      exact ⟨dispatched executor body none, by rw [promises, Function.update_self], rfl, rfl⟩

/-- A coroutine has called another one. -/
theorem Sound.calledInside (sound : before.Sound) {executor : Executor} {body : Body V E}
    {rest : V → Body V E} (live : before.promises task = some promise)
    (stage : promise.stage = .running (.coAwait executor body rest))
    (promises : after.promises = Function.update (Function.update before.promises before.calls
      (some (dispatched executor body (some task)))) task
        (some { promise with stage := .suspending ⟨before.calls, body⟩ rest }))
    (calls : after.calls = before.calls + 1) (defined : after.undefined = before.undefined)
    (scheduled : after.scheduled = before.scheduled) (workers : after.workers = before.workers)
    (queues : ∃ queue, (dispatched executor body (some task)).queue before.calls = queue ∧
      after.queues = Function.update before.queues queue (before.queues queue ++ [before.calls]))
    (roots : after.roots = before.roots) : after.Sound := by
  obtain ⟨queue, place, queues⟩ := queues
  have settled := sound.settled task promise live
  have different : before.calls ≠ task := Nat.ne_of_gt settled.created
  have present : after.promises before.calls = some (dispatched executor body (some task)) := by
    rw [promises, Function.update_of_ne different, Function.update_self]
  have mine : after.promises task =
      some { promise with stage := .suspending ⟨before.calls, body⟩ rest } := by
    rw [promises, Function.update_self]
  have others (other : Nat) (old : other ≠ before.calls) (another : other ≠ task) :
      after.promises other = before.promises other := by
    rw [promises, Function.update_of_ne another, Function.update_of_ne old]
  have faces (other : Nat) (old : other ≠ before.calls) : after.face other = before.face other := by
    by_cases own : other = task
    · simp [face, own, mine, live, TaskPromise.face]
    · simp [face, others other old own]
  have unawaited : before.awaiter task = none := by
    simp [awaiter, live, stage, Stage.awaiter]
  have awaiters {caller : Nat} {awaiter : TaskAwaiter V E}
      (awaits : before.awaiter caller = some awaiter) :
      after.awaiter caller = before.awaiter caller := by
    have old : caller ≠ before.calls := fun same => by
      simp [Process.awaiter, same, sound.fresh] at awaits
    have another : caller ≠ task := fun same => by simp [same, unawaited] at awaits
    simp [Process.awaiter, others caller old another]
  refine sound.called present (fun other found old here => ?_) calls defined scheduled workers
    ⟨queue, by simp [home, present, place], queues⟩ (fun other old => ?_) (fun other old => ?_)
    ?_ (fun none => by cases none) ?_
  · by_cases own : other = task
    · subst own
      rw [mine] at here
      cases here
      have means := settled.means
      have count := settled.alone (by rw [stage]; rfl)
      rw [stage] at count
      refine ⟨by have := settled.created; omega,
        by simpa [TaskPromise.Means, stage, Body.outcome] using means,
        (fun none => by cases none), fun next awaits => ?_, fun caller outside => ?_,
        roots ▸ settled.root⟩
      · cases awaits
        refine ⟨settled.created, none, by simp [face, present, dispatched, TaskPromise.face,
          Stage.callbacks], ?_, fun resuming => ?_⟩
        · rw [handles_dispatch queues scheduled _ old]
          exact count
        · obtain ⟨_, resuming⟩ := resuming
          cases resuming
      · obtain ⟨awaiter, awaits, same⟩ := settled.caller caller outside
        exact ⟨awaiter, (awaiters awaits).trans awaits, same⟩
    · rw [others other old own] at here
      have known := sound.settled other found here
      refine known.frame (by omega) (handles_dispatch queues scheduled _ old)
        (fun next awaits => faces _ (sound.settled_fresh known awaits)) (fun caller called => ?_)
        (by rw [roots]; exact List.Subset.refl _)
      obtain ⟨awaiter, awaits, -⟩ := known.caller caller called
      exact awaiters awaits
  · by_cases own : other = task
    · simp [home, own, mine, live]
    · simp [home, others other old own]
  · by_cases own : other = task
    · simp [running, own, mine, live, stage, Stage.active]
    · simp [running, others other old own]
  · rintro _ ⟨⟩
    exact ⟨⟨before.calls, body⟩, by simp [awaiter, mine, Stage.awaiter], rfl⟩
  · intro root member
    rw [roots] at member
    obtain ⟨found, present, outside, same⟩ := sound.kept root member
    by_cases own : root.1 = task
    · rw [own, live] at present
      cases present
      exact ⟨{ promise with stage := .suspending ⟨before.calls, body⟩ rest }, by rw [own, mine],
        outside, same⟩
    · have old : root.1 ≠ before.calls := fun same => by
        rw [same, sound.fresh] at present
        cases present
      exact ⟨found, by rwa [others _ old own], outside, same⟩

end Process

end FastDb.Coroutine.Awaiting
