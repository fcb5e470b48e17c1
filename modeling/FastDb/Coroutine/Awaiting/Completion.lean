import FastDb.Coroutine.Awaiting.Suspension

/-! # Completed coroutines

A coroutine that completes calls back the one that awaits it, which takes the result and
destroys it. -/

namespace FastDb.Coroutine.Awaiting

open Foundation

variable {V E : Type}

namespace Process

variable {process before after : Process V E} {task other : Nat} {promise : TaskPromise V E}

/-- A callback is that of the coroutine that awaits the task. -/
theorem Sound.calledBack (sound : process.Sound) (live : process.promises task = some promise)
    (callback : other ∈ promise.completionCallbacks) :
    promise.completionCallbacks = [other] ∧ ∃ caller, process.promises other = some caller ∧
      ∃ awaiter rest, caller.stage = .awaiting awaiter rest ∧ awaiter.task = task := by
  have settled := sound.settled task promise live
  cases outside : promise.caller with
  | none =>
      rw [(settled.root outside).1] at callback
      cases callback
  | some number =>
      obtain ⟨awaiter, awaits, rfl⟩ := settled.caller number outside
      obtain ⟨caller, present, awaits⟩ := Option.bind_eq_some_iff.mp awaits
      have known := (sound.settled number caller present).sole awaits live
      obtain ⟨-, -, -, callbacks, -⟩ := known
      cases stage : caller.stage with
      | awaiting first rest =>
          rw [stage] at callbacks awaits
          cases awaits
          rw [callbacks] at callback ⊢
          simp only [Stage.callbacks] at callback ⊢
          split at callback
          · cases callback
          · next pending =>
              rw [if_neg pending]
              obtain rfl := List.mem_singleton.mp callback
              exact ⟨rfl, caller, present, awaiter, rest, stage, rfl⟩
      | suspended | running | suspending | resuming | joining | completed | final =>
          rw [callbacks, stage] at callback
          cases callback

/-- A coroutine has a result, and the callbacks have been called. -/
theorem Sound.finished (sound : before.Sound) {result : Except E V}
    (live : before.promises task = some promise) (active : promise.stage.active = true)
    (alone : promise.stage.awaiter = none) (pending : promise.result = none)
    (outcome : promise.called.outcome = .ofResult result)
    (promises : after.promises = Function.update before.promises task
      (some { promise with result := some result, completionCallbacks := [], stage := .completed }))
    (calls : after.calls = before.calls) (roots : after.roots = before.roots)
    (defined : after.undefined = before.undefined)
    (scheduled : after.scheduled = before.scheduled)
    (workers : after.workers = before.workers)
    (handles : ∀ other found, before.promises other = some found →
      after.handles (found.queue other) other = before.handles (found.queue other) other +
        if other ∈ promise.completionCallbacks then 1 else 0)
    (queued : ∀ queue, ∀ other ∈ after.queues queue, before.home other = some queue) :
    after.Sound := by
  have settled := sound.settled task promise live
  have awaiters : after.awaiter = before.awaiter := by
    rw [awaiter_update promises, Function.update_eq_self_iff]
    simp only [Process.awaiter, live, Option.bind_some, alone]
    rfl
  have homes : after.home = before.home := by
    rw [home_update promises, Function.update_eq_self_iff]
    simp [home, live, TaskPromise.queue]
  refine ⟨fun other found here => ?_, fun queue other member => ?_, fun other member => ?_, ?_,
    defined.trans sound.defined, ?_⟩
  · by_cases own : other = task
    · subst own
      rw [promises, Function.update_self] at here
      cases here
      have silent : other ∉ promise.completionCallbacks := fun callback => by
        obtain ⟨-, caller, present, awaiter, rest, stage, -⟩ := sound.calledBack live callback
        rw [live] at present
        cases present
        rw [stage] at alone
        cases alone
      refine ⟨calls ▸ settled.created, by simp [TaskPromise.Means, outcome], fun _ => ?_,
        (fun _ awaits => by cases awaits), awaiters ▸ settled.caller,
        fun outside => ⟨rfl, roots ▸ (settled.root outside).2⟩⟩
      have count := handles other promise live
      rw [if_neg silent, settled.alone alone] at count
      cases stage : promise.stage with
      | running | joining | completed => rwa [stage] at count
      | suspended | final => rw [stage] at active; cases active
      | suspending | awaiting | resuming => rw [stage] at alone; cases alone
    · rw [promises, Function.update_of_ne own] at here
      have known := sound.settled other found here
      have count := handles other found here
      by_cases awaits : ∃ awaiter, found.stage.awaiter = some awaiter ∧ awaiter.task = task
      · obtain ⟨awaiter, awaits, rfl⟩ := awaits
        obtain ⟨later, called, caller, callbacks, before⟩ := known.sole awaits live
        rw [pending] at callbacks before
        refine ⟨calls ▸ known.created, known.means, fun none => ?_, fun next same => ?_,
          awaiters ▸ known.caller, roots ▸ known.root⟩
        · rw [awaits] at none
          cases none
        · rw [awaits] at same
          cases same
          refine ⟨later, some result, ?_, ?_, fun _ => Option.some_ne_none _⟩
          · rw [face_update promises, Function.update_self]
            simp [TaskPromise.face, called, caller]
          · rw [count, before, callbacks]
            exact (found.stage.handles_true other).symm
      · have silent : other ∉ promise.completionCallbacks := fun callback => by
          obtain ⟨-, caller, present, awaiter, rest, stage, same⟩ := sound.calledBack live callback
          rw [here] at present
          cases present
          exact awaits ⟨awaiter, by rw [stage]; rfl, same⟩
        rw [if_neg silent, Nat.add_zero] at count
        refine known.frame (Nat.le_of_eq calls.symm) count (fun next same => ?_)
          (fun _ _ => congrFun awaiters _) (by rw [roots]; exact List.Subset.refl _)
        rw [face_update promises, Function.update_of_ne fun own => awaits ⟨next, same, own⟩]
  · rw [homes]
    exact queued queue other member
  · rw [homes]
    exact sound.scheduled other (scheduled ▸ member)
  · have same : after.running = before.running := by
      rw [running_update promises, Function.update_eq_self_iff]
      simp only [running, live, Option.bind_some, active, if_true]
      rfl
    rw [same, workers]
    exact sound.workers
  · rw [roots, promises]
    exact sound.kept.update live rfl rfl

/-- A coroutine completes. -/
theorem Sound.complete (sound : before.Sound) {result : Except E V}
    (live : before.promises task = some promise) (active : promise.stage.active = true)
    (alone : promise.stage.awaiter = none) (pending : promise.result = none)
    (outcome : promise.called.outcome = .ofResult result) :
    (before.complete task promise result).Sound := by
  unfold Process.complete
  by_cases waited : ∃ other, other ∈ promise.completionCallbacks
  · obtain ⟨other, callback⟩ := waited
    obtain ⟨callbacks, caller, present, awaiter, rest, stage, same⟩ :=
      sound.calledBack live callback
    have different : other ≠ task := fun own => by
      rw [own, live] at present
      cases present
      rw [stage] at alone
      cases alone
    rw [callbacks, List.foldl_cons, List.foldl_nil]
    unfold execute
    simp only [setPromise, Function.update_of_ne different, present]
    refine sound.finished live active alone pending outcome rfl rfl rfl rfl rfl rfl
      (fun next found here => ?_) (fun queue next member => ?_)
    · rw [callbacks]
      by_cases own : next = other
      · subst own
        rw [here] at present
        cases present
        simp only [handles, Function.update_self, count_push, List.mem_singleton, if_true]
        omega
      · by_cases place : found.queue next = caller.queue other
        · simp only [handles, place, Function.update_self, count_push, List.mem_singleton, own,
            if_false, Nat.add_zero]
        · simp only [handles, Function.update_of_ne place, List.mem_singleton, own, if_false,
            Nat.add_zero]
    · obtain earlier | ⟨rfl, rfl⟩ := mem_push member
      · exact sound.queued queue next earlier
      · simp [home, present]
  · have callbacks : promise.completionCallbacks = [] :=
      List.eq_nil_iff_forall_not_mem.mpr fun other callback => waited ⟨other, callback⟩
    rw [callbacks]
    refine sound.finished live active alone pending outcome rfl rfl rfl rfl rfl rfl
      (fun next found _ => ?_) sound.queued
    simp [callbacks, handles, setPromise]

/-- Only a coroutine that has completed has a result. -/
theorem Settled.ended (settled : process.Settled task promise) (done : promise.result ≠ none) :
    promise.stage = .completed ∨ promise.stage = .final := by
  have means := settled.means
  unfold TaskPromise.Means at means
  split at means
  iterate 6 exact absurd means.1 done
  · next stage => exact .inl stage
  · next stage => exact .inr stage

/-- With its result and no longer active a coroutine is at its end. -/
theorem Settled.final (settled : process.Settled task promise) {result : Except E V}
    (done : promise.result = some result) (ended : promise.stage.active = false) :
    promise.stage = .final := by
  refine (settled.ended (by rw [done]; exact Option.some_ne_none _)).resolve_left fun stage => ?_
  rw [stage] at ended
  cases ended

/-- The result of a coroutine is that of direct style. -/
theorem Settled.outcome (settled : process.Settled task promise) {result : Except E V}
    (done : promise.result = some result) : promise.called.outcome = .ofResult result := by
  have means := settled.means
  obtain stage | stage := settled.ended (by rw [done]; exact Option.some_ne_none _)
  all_goals
    simp only [TaskPromise.Means, stage, done, Option.map_some, Option.some.injEq] at means
    exact means.symm

/-- Nothing resumes a coroutine that has completed. -/
theorem Sound.unheld (sound : process.Sound) (live : process.promises task = some promise)
    (done : promise.result ≠ none) :
    (∀ queue, task ∉ process.queues queue) ∧ task ∉ process.scheduled := by
  have settled := sound.settled task promise live
  have count : process.handles (promise.queue task) task = 0 := by
    obtain stage | stage := settled.ended done
    all_goals
      have count := settled.alone (by rw [stage]; rfl)
      rwa [stage] at count
  rw [handles] at count
  have home : process.home task = some (promise.queue task) := by simp [Process.home, live]
  refine ⟨fun queue member => ?_, fun member => ?_⟩
  · obtain rfl := Option.some.inj (home.symm.trans (sound.queued queue task member))
    have held := List.count_pos_iff.mpr member
    omega
  · have held := List.count_pos_iff.mpr member
    omega

/-- The looper of a coroutine that has completed has nothing to do. -/
theorem Sound.unqueued (sound : process.Sound) (live : process.promises task = some promise)
    (done : promise.result ≠ none) : process.queues (.looper task) = [] := by
  refine List.eq_nil_iff_forall_not_mem.mpr fun other member => ?_
  obtain ⟨found, present, home⟩ := exists_of_home (sound.queued _ other member)
  unfold TaskPromise.queue at home
  split at home
  · cases home
    exact (sound.unheld live done).1 _ member
  · cases home
  · cases home

/-- A coroutine has the value of its task, which is destroyed at its end, and goes on, or hangs. -/
theorem Sound.awaited (sound : before.Sound) {awaiter : TaskAwaiter V E} {rest : V → Body V E}
    (live : before.promises task = some promise) (stage : promise.stage = .resuming awaiter rest)
    {awaited : TaskPromise V E} (present : before.promises awaiter.task = some awaited) {value : V}
    (result : awaited.result = some (.ok value)) (final : awaited.stage = .final)
    {next : Stage V E} (on : next = .running (rest value) ∨ next = .joining (rest value)) :
    ((before.setPromise task { promise with stage := next }).destroy awaiter.task).Sound := by
  have settled := sound.settled task promise live
  have finished := sound.settled awaiter.task awaited present
  have done : awaited.result ≠ none := by rw [result]; exact Option.some_ne_none _
  obtain ⟨later, called, caller, -, count⟩ := settled.sole (by rw [stage]; rfl) present
  have different : awaiter.task ≠ task := Nat.ne_of_gt later
  have queues : Function.update before.queues (.looper awaiter.task) [] = before.queues :=
    Function.update_eq_self_iff.mpr (sound.unqueued present done).symm
  have active : next.active = true := by rcases on with rfl | rfl <;> rfl
  have there : (before.setPromise task
      { promise with stage := next }).promises awaiter.task = some awaited :=
    (Function.update_of_ne different _ _).trans present
  have ended : awaited.stage.active = false := by rw [final]; rfl
  unfold destroy
  simp only [there, ended, Bool.false_eq_true, if_false]
  simp only [setPromise, queues]
  generalize same : ({ before with
      promises := Function.update (Function.update before.promises task
        (some { promise with stage := next })) awaiter.task none } :
          Process V E) = after
  have gone : after.promises awaiter.task = none := by rw [← same]; exact Function.update_self ..
  have mine : after.promises task = some { promise with stage := next } := by
    rw [← same]
    exact (Function.update_of_ne different.symm _ _).trans (Function.update_self ..)
  have others (other : Nat) (another : other ≠ task) (stays : other ≠ awaiter.task) :
      after.promises other = before.promises other := by
    rw [← same]
    exact (Function.update_of_ne stays _ _).trans (Function.update_of_ne another _ _)
  have faces (other : Nat) (stays : other ≠ awaiter.task) :
      after.face other = before.face other := by
    by_cases own : other = task
    · simp [face, own, mine, live, TaskPromise.face]
    · simp [face, others other own stays]
  have homes (other : Nat) (stays : other ≠ awaiter.task) :
      after.home other = before.home other := by
    by_cases own : other = task
    · simp [home, own, mine, live]
    · simp [home, others other own stays]
  have awaiters (other : Nat) (another : other ≠ task) :
      after.awaiter other = before.awaiter other := by
    by_cases own : other = awaiter.task
    · simp [Process.awaiter, own, gone, present, final, Stage.awaiter]
    · simp [Process.awaiter, others other another own]
  have running : after.running = before.running := by
    funext other
    by_cases own : other = task
    · have before : (Stage.resuming awaiter rest : Stage V E).active = true := rfl
      simp [Process.running, own, mine, live, stage, active, before]
    · by_cases child : other = awaiter.task
      · simp [Process.running, child, gone, present, final, Stage.active]
      · simp [Process.running, others other own child]
  have awaits : before.awaiter task = some awaiter := by
    simp [Process.awaiter, live, stage, Stage.awaiter]
  have calls : after.calls = before.calls := by rw [← same]
  have roots : after.roots = before.roots := by rw [← same]
  have handles : after.handles = before.handles := by rw [← same]; rfl
  refine ⟨fun other found here => ?_, fun queue other member => ?_, fun other member => ?_, ?_,
    by rw [← same]; exact sound.defined, ?_⟩
  · have stays : other ≠ awaiter.task := fun own => by
      rw [own, gone] at here
      cases here
    by_cases own : other = task
    · subst own
      rw [mine] at here
      cases here
      have means := settled.means
      have meant := finished.outcome result
      simp only [TaskPromise.Means, stage] at means
      rw [← called, meant] at means
      rw [stage] at count
      have silent : next.awaiter = none ∧ next.handles false = 0 := by
        rcases on with rfl | rfl <;> exact ⟨rfl, rfl⟩
      refine ⟨calls ▸ settled.created, ?_, fun _ => ?_, fun first awaits => ?_,
        fun number outside => ?_, roots ▸ settled.root⟩
      · rcases on with rfl | rfl <;> exact means
      · rw [handles, silent.2]
        exact count
      · rw [silent.1] at awaits
        cases awaits
      · obtain ⟨first, found, child⟩ := settled.caller number outside
        have another : number ≠ other := fun same => by
          rw [same, awaits] at found
          cases found
          exact different child
        exact ⟨first, (awaiters number another).trans found, child⟩
    · rw [others other own stays] at here
      have known := sound.settled other found here
      refine known.frame (Nat.le_of_eq calls.symm) (by rw [handles])
        (fun next awaits => faces _ fun same => ?_) (fun number called => awaiters _ fun same => ?_)
        (by rw [roots]; exact List.Subset.refl _)
      · obtain ⟨-, -, sole, -⟩ := known.sole awaits (same ▸ present)
        exact own (Option.some.inj (sole.symm.trans caller))
      · obtain ⟨first, found, child⟩ := known.caller number called
        rw [same, awaits] at found
        cases found
        exact stays child.symm
  · have stays : other ≠ awaiter.task := fun own => by
      subst own
      exact (sound.unheld present done).1 queue (by rw [← same] at member; exact member)
    rw [homes other stays]
    exact sound.queued queue other (by rw [← same] at member; exact member)
  · have stays : other ≠ awaiter.task := fun own => by
      subst own
      exact (sound.unheld present done).2 (by rw [← same] at member; exact member)
    rw [homes other stays]
    exact sound.scheduled other (by rw [← same] at member; exact member)
  · rw [running, ← same]
    exact sound.workers
  · rw [← same]
    have first : Kept (Function.update before.promises task
      (some { promise with stage := next })) before.roots :=
        sound.kept.update live rfl rfl
    exact first.destroy ((Function.update_of_ne different _ _).trans present)
      (by rw [caller]; exact Option.some_ne_none _)

end Process

end FastDb.Coroutine.Awaiting
