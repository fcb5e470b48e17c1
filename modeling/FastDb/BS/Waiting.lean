import FastDb.BS.Wakeups

/-! # Waiting for the task pool

`wait()` and the destructor of `BS::thread_pool` complete, and all other calls with them, as
long as nobody pauses, purges or waits while somebody waits
(`FastDb.BS.ThreadPool.calls_complete`). Any one of the three loses the wakeup of a thread
that waits (`FastDb.BS.ThreadPool.wait_lost_purge`, `FastDb.BS.ThreadPool.wait_lost_pause`,
`FastDb.BS.ThreadPool.wait_lost_wait`).
-/

namespace FastDb.BS.ThreadPool

open Foundation

variable {τ T : Type} {flags : OptFlags} {workers : Workers τ}

/-- The calls that a thread in `wait` does not take notice of. -/
def Event.disturbs : Event τ T → Bool
  | .pause | .purge | .wait _ | .destruct => true
  | _ => false

/-- The next steps of the calls that are under way, and of the tasks. -/
def Event.underWay : Event τ T → Bool
  | .finish | .notify _ | .proceed _ => true
  | _ => false

/-- Nobody pauses, purges or waits while somebody waits; a task does not wait, unless that
throws, and nobody waits for a pool that is being destroyed. -/
def Solitary (flags : OptFlags) (state : State τ T) (event : τ × Event τ T) : Prop :=
  (event.2.disturbs = true → ∀ other, (state.threads other).inWait = none) ∧
    ∀ timed, event.2 = .wait timed → state.shared.begun = false ∧
      (flags.waitDeadlockChecksEnabled = true ∨ state.threads event.1 = .outside)

instance [Fintype τ] [DecidableEq τ] [DecidableEq T] (state : State τ T)
    (event : τ × Event τ T) : Decidable (Solitary flags state event) :=
  inferInstanceAs (Decidable (_ ∧ _))

/-- A step under way begins no wait. -/
theorem solitary_of_underWay {state : State τ T} {event : τ × Event τ T}
    (underWay : event.2.underWay = true) : Solitary flags state event := by
  obtain ⟨thread, event⟩ := event
  refine ⟨fun disturbs => ?_, fun timed waits => ?_⟩
  · cases event <;> simp [Event.disturbs, Event.underWay] at disturbs underWay
  · subst waits
    simp [Event.underWay] at underWay

/-- Who is about to notify the workers. -/
def Stage.notifier : Stage τ T → Option (Caller T)
  | .notifying caller | .unpausing caller => some caller
  | _ => none

/-- At most one thread waits, and it has yet to find the tasks done. -/
structure Lonely (flags : OptFlags) (state : State τ T) : Prop where
  unique : ∀ thread other, (state.threads thread).inWait ≠ none →
    (state.threads other).inWait ≠ none → thread = other
  outside : ∀ thread caller, (state.threads thread).inWait = some caller → caller.tasks = 0
  called : ∀ thread, (state.threads thread).notifier ≠ some .destructor
  waiting : ∀ thread, (state.threads thread).waits = true → state.shared.waiting = true
  busy : state.shared.tasksDoneCv.asleep.Nonempty → state.shared.tasksDone flags = false
  stops : (state.shared.stopRequested.Nonempty ∨
      ∃ thread, (state.threads thread).unjoined ≠ none) →
    state.shared.begun = true ∧ ∀ thread, (state.threads thread).inWait = none

@[simp]
theorem inWait_back (caller : Caller T) : (Stage.back workers caller).inWait = none := by
  cases caller <;> rfl

@[simp]
theorem notifier_back (caller : Caller T) : (Stage.back workers caller).notifier = none := by
  cases caller <;> rfl

/-- A thread that waits is in a wait. -/
theorem inWait_of_waits {stage : Stage τ T} (waits : stage.waits = true) : stage.inWait ≠ none := by
  cases stage <;> simp [Stage.waits, Stage.inWait] at waits ⊢

/-- Who waits as the destructor destroys. -/
theorem destroys_of_inWait {stage : Stage τ T} (waits : stage.inWait = some .destructor) :
    stage.destroys = true := by
  cases stage <;> simp only [Stage.inWait, reduceCtorEq, Option.some.injEq] at waits
  all_goals
    subst waits
    rfl

variable [DecidableEq τ] {thread : τ} {pool after : ThreadPool τ T} {before stage : Stage τ T}
  {event : Event τ T}

/-- Retrieving a task is part of no wait. -/
theorem Retrieves.inWait (retrieves : Retrieves flags thread pool (after, stage)) :
    stage.inWait = none ∧ stage.notifier = none ∧ stage.unjoined = none ∧
      after.begun = pool.begun ∧ after.waiting = pool.waiting ∧
      after.stopRequested = pool.stopRequested ∧ after.tasksDoneCv = pool.tasksDoneCv ∧
      (pool.tasksDone flags = false → after.tasksDone flags = false) := by
  cases retrieves with
  | stop | sleep => exact ⟨rfl, rfl, rfl, rfl, rfl, rfl, rfl, id⟩
  | take => exact ⟨rfl, rfl, rfl, rfl, rfl, rfl, rfl, fun _ => by simp [tasksDone]⟩

/-- A thread begins to wait by a call only, which no task makes. -/
theorem Moves.inWait {threads : τ → Stage τ T}
    (moves : Moves flags workers thread event (pool, threads thread) (after, stage))
    (solitary : Solitary flags ⟨pool, threads⟩ (thread, event)) {caller : Caller T}
    (waits : stage.inWait = some caller) :
    (threads thread).inWait = some caller ∨
      event.disturbs = true ∧ pool.begun = false ∧ caller.tasks = 0 := by
  obtain ⟨-, calls⟩ := solitary
  dsimp only at calls
  generalize threads thread = before at moves calls
  cases moves with
  | wait timed calling unchecked =>
      obtain rfl : _ = caller := Option.some.inj waits
      obtain ⟨open_, allowed⟩ := calls timed rfl
      refine .inr ⟨rfl, open_, ?_⟩
      obtain checked | rfl := allowed
      · rw [unchecked checked]
        rfl
      · cases calling
        rfl
  | destruct first =>
      obtain rfl : _ = caller := Option.some.inj waits
      exact .inr ⟨rfl, first, rfl⟩
  | pause | purge | sleepDone | wakeUpDone | sleepAgain => exact .inl waits
  | notifyOne | notifyNone | notifyAll | pass | leave | timeOut => simp at waits
  | turn _ retrieves | retry _ _ retrieves => simp [retrieves.inWait.1] at waits
  | _ => simp [Stage.inWait] at waits

/-- Only a call that returns from `wait` takes back the notice that somebody waits. -/
theorem Moves.waiting (moves : Moves flags workers thread event (pool, before) (after, stage)) :
    (before.inWait = none → after.waiting = pool.waiting) ∧
      (stage.waits = true → after.waiting = true ∨
        before.waits = true ∧ after.waiting = pool.waiting) := by
  cases moves with
  | detachTask _ calls | unpause calls | wait _ calls => exact ⟨fun _ => rfl, by simp [Stage.waits]⟩
  | pause | purge => exact ⟨fun _ => rfl, fun waits => .inr ⟨waits, rfl⟩⟩
  | pass | leave | timeOut => exact ⟨by simp [Stage.inWait], by simp⟩
  | notifyOne | notifyNone | notifyAll => exact ⟨fun _ => rfl, by simp⟩
  | sleepDone => exact ⟨by simp [Stage.inWait], fun _ => .inl rfl⟩
  | wakeUpDone | sleepAgain => exact ⟨fun _ => rfl, fun waits => .inr ⟨rfl, rfl⟩⟩
  | turn _ retrieves =>
      have same := retrieves.inWait
      exact ⟨fun _ => same.2.2.2.2.1, fun waits => absurd same.1 (inWait_of_waits waits)⟩
  | retry _ _ retrieves =>
      have same := retrieves.inWait
      exact ⟨fun _ => same.2.2.2.2.1, fun waits => absurd same.1 (inWait_of_waits waits)⟩
  | _ => exact ⟨fun _ => rfl, by simp [Stage.waits]⟩

/-- No step but one that wakes who waits finishes the tasks. -/
theorem Moves.busy (moves : Moves flags workers thread event (pool, before) (after, stage))
    (undisturbed : event.disturbs = true → pool.tasksDoneCv.asleep = ∅)
    (waiting : pool.tasksDoneCv.asleep.Nonempty → pool.waiting = true)
    (busy : pool.tasksDoneCv.asleep.Nonempty → pool.tasksDone flags = false)
    (asleep : after.tasksDoneCv.asleep.Nonempty) : after.tasksDone flags = false := by
  cases moves with
  | detachTask =>
      have before := busy asleep
      simp only [tasksDone, isPaused, Bool.and_eq_false_iff, Bool.or_eq_false_iff] at before ⊢
      exact before.imp_right fun running => ⟨running.1, by simp⟩
  | unpause =>
      have before := busy asleep
      simp only [tasksDone, isPaused, Bool.and_eq_false_iff, Bool.or_eq_false_iff,
        Bool.and_false] at before ⊢
      exact before.imp_right fun running => ⟨trivial, running.2⟩
  | pause | purge | wait | destruct => exact absurd (undisturbed rfl) asleep.ne_empty
  | sleepDone _ _ _ still | sleepAgain _ _ _ _ still => exact still
  | wakeUpDone _ _ sleeps => exact busy ⟨_, sleeps⟩
  | leave | timeOut => exact busy (asleep.mono (Finset.erase_subset _ _))
  | turn _ retrieves =>
      obtain ⟨-, -, -, -, -, -, same, keeps⟩ := retrieves.inWait
      refine keeps ?_
      rw [same] at asleep
      simp only [finishTask] at asleep
      split at asleep
      · simp [Condition.wakeAll] at asleep
      · next silent =>
          have idle := not_and.mp silent (waiting asleep)
          simpa [finishTask, tasksDone, isPaused] using idle
  | retry _ _ retrieves =>
      obtain ⟨-, -, -, -, -, -, same, keeps⟩ := retrieves.inWait
      rw [same] at asleep
      exact keeps (busy asleep)
  | _ => exact busy asleep

/-- Workers are told to stop, and joined, after the destructor has waited only. -/
theorem Moves.stops (moves : Moves flags workers thread event (pool, before) (after, stage))
    (called : before.notifier ≠ some .destructor) :
    (after.begun = false → pool.begun = false) ∧
      (stage.notifier ≠ some .destructor) ∧
      (after.stopRequested.Nonempty → pool.stopRequested.Nonempty ∨ before.unjoined ≠ none) ∧
      (stage.unjoined ≠ none → before.unjoined ≠ none ∨
        before.inWait = some .destructor ∧ stage.inWait = none) := by
  cases moves with
  | detachTask _ calls | unpause calls =>
      have inside := caller_cases calls
      refine ⟨id, ?_, .inl, by simp [Stage.unjoined]⟩
      obtain ⟨-, rfl⟩ | ⟨task, -, rfl⟩ := inside <;> simp [Stage.notifier]
  | wait => exact ⟨id, by simp [Stage.notifier], .inl, by simp [Stage.unjoined]⟩
  | pause | purge => exact ⟨id, called, .inl, .inl⟩
  | destruct => exact ⟨by simp, by simp [Stage.notifier], .inl, by simp [Stage.unjoined]⟩
  | notifyOne caller | notifyNone caller | notifyAll caller =>
      refine ⟨id, by simp, .inl, fun ends => ?_⟩
      cases caller with
      | destructor => exact absurd rfl called
      | _ => exact absurd rfl ends
  | pass caller | leave caller | timeOut caller =>
      refine ⟨id, by simp, .inl, fun ends => ?_⟩
      cases caller with
      | destructor => exact .inr ⟨rfl, rfl⟩
      | _ => exact absurd rfl ends
  | turn _ retrieves | retry _ _ retrieves =>
      obtain ⟨-, notifier, unjoined, begun, -, stopped, -⟩ := retrieves.inWait
      exact ⟨fun opened => begun.symm.trans opened, by simp [notifier],
        fun requested => .inl (by rw [stopped] at requested; exact requested),
        fun ends => absurd unjoined ends⟩
  | requestStop | destruction | join =>
      exact ⟨id, by simp [Stage.notifier], fun _ => .inr (by simp [Stage.unjoined]),
        fun _ => .inl (by simp [Stage.unjoined])⟩
  | _ => exact ⟨id, by simp [Stage.notifier], .inl, by simp [Stage.unjoined]⟩

/-- Who waits after a step waited before it, or called when nobody did. -/
theorem Moves.waited {threads : τ → Stage τ T}
    (moves : Moves flags workers thread event (pool, threads thread) (after, stage))
    (solitary : Solitary flags ⟨pool, threads⟩ (thread, event)) {other : τ} {caller : Caller T}
    (waits : (Function.update threads thread stage other).inWait = some caller) :
    (threads other).inWait = some caller ∨
      other = thread ∧ (∀ third, (threads third).inWait = none) ∧ pool.begun = false ∧
        caller.tasks = 0 := by
  by_cases own : other = thread
  · subst own
    rw [Function.update_self] at waits
    exact (moves.inWait solitary waits).imp_right fun called =>
      ⟨rfl, solitary.1 called.1, called.2⟩
  · rw [Function.update_of_ne own] at waits
    exact .inl waits

/-- A solitary step leaves at most one thread waiting. -/
theorem Lonely.kept {threads : τ → Stage τ T} (lonely : Lonely flags ⟨pool, threads⟩)
    (settled : ∀ other, Settled workers other pool (threads other))
    (solitary : Solitary flags ⟨pool, threads⟩ (thread, event))
    (moves : Moves flags workers thread event (pool, threads thread) (after, stage)) :
    Lonely flags ⟨after, Function.update threads thread stage⟩ := by
  obtain ⟨unique, outside, called, waiting, busy, stops⟩ := lonely
  dsimp only at unique outside called waiting busy stops
  have stopping := moves.stops (called thread)
  refine ⟨?_, ?_, ?_, ?_, ?_, ?_⟩
  all_goals dsimp only
  · intro other third waits waitsToo
    obtain ⟨caller, waits⟩ := Option.ne_none_iff_exists'.mp waits
    obtain ⟨callerToo, waitsToo⟩ := Option.ne_none_iff_exists'.mp waitsToo
    obtain was | ⟨rfl, nobody, -⟩ := moves.waited solitary waits
    · obtain wasToo | ⟨rfl, nobody, -⟩ := moves.waited solitary waitsToo
      · exact unique other third (by simp [was]) (by simp [wasToo])
      · simp [nobody other] at was
    · obtain wasToo | ⟨rfl, -⟩ := moves.waited solitary waitsToo
      · simp [nobody third] at wasToo
      · rfl
  · intro other caller waits
    obtain was | ⟨-, -, -, free⟩ := moves.waited solitary waits
    · exact outside other caller was
    · exact free
  · intro other
    by_cases own : other = thread
    · subst own
      simpa using stopping.2.1
    · simpa [own] using called other
  · intro other waits
    by_cases own : other = thread
    · subst own
      rw [Function.update_self] at waits
      obtain there | ⟨was, same⟩ := moves.waiting.2 waits
      · exact there
      · exact same.trans (waiting other was)
    · rw [Function.update_of_ne own] at waits
      have alone : (threads thread).inWait = none := by
        by_contra waitsToo
        exact own (unique other thread (inWait_of_waits waits) waitsToo)
      exact (moves.waiting.1 alone).trans (waiting other waits)
  · have sleeper : ∀ sleeper ∈ pool.tasksDoneCv.asleep, (threads sleeper).waits = true :=
      fun sleeper asleep => (settled sleeper).done.waiter.mpr (.inl asleep)
    refine moves.busy (fun disturbs => ?_) ?_ busy
    · refine Finset.eq_empty_of_forall_notMem fun other asleep => ?_
      exact inWait_of_waits (sleeper other asleep) (solitary.1 disturbs other)
    · rintro ⟨other, asleep⟩
      exact waiting other (sleeper other asleep)
  · intro ending
    have before : (pool.stopRequested.Nonempty ∨ ∃ other, (threads other).unjoined ≠ none) ∨
        (threads thread).inWait = some .destructor ∧ stage.inWait = none := by
      obtain requested | ⟨other, ends⟩ := ending
      · exact .inl ((stopping.2.2.1 requested).imp_right fun ends => ⟨thread, ends⟩)
      · by_cases own : other = thread
        · subst own
          rw [Function.update_self] at ends
          exact (stopping.2.2.2 ends).imp_left fun ends => .inr ⟨other, ends⟩
        · rw [Function.update_of_ne own] at ends
          exact .inl (.inr ⟨other, ends⟩)
    have begun : pool.begun = true := by
      obtain before | ⟨waits, -⟩ := before
      · exact (stops before).1
      · exact (settled thread).begun (destroys_of_inWait waits)
    refine ⟨by_contra fun opened => ?_, fun other => ?_⟩
    · simp [stopping.1 (by simpa using opened)] at begun
    · by_contra waits
      obtain ⟨caller, waits⟩ := Option.ne_none_iff_exists'.mp waits
      obtain was | ⟨-, -, opened, -⟩ := moves.waited solitary waits
      · obtain before | ⟨waited, left⟩ := before
        · simp [(stops before).2 other] at was
        · obtain rfl := unique other thread (by simp [was]) (by simp [waited])
          simp [left] at waits
      · simp [begun] at opened

theorem lonely_of_reaches {state : State τ T}
    (reached : (machine flags workers).Reaches (Solitary flags) (start workers) state) :
    Lonely flags state := by
  have quiet : ∀ thread, ((start workers : State τ T).threads thread).inWait = none ∧
      ((start workers : State τ T).threads thread).notifier = none ∧
      ((start workers : State τ T).threads thread).waits = false ∧
      ((start workers : State τ T).threads thread).unjoined = none := fun thread => by
    by_cases works : thread ∈ workers.threads <;> simp only [start, works, if_true, if_false]
    all_goals exact ⟨rfl, rfl, rfl, rfl⟩
  refine Threads.reaches_invariant_given reached _
    (fun _ earlier thread => settled_of_reaches earlier thread) (Lonely flags)
    ⟨?_, ?_, ?_, ?_, ?_, ?_⟩
    (fun _ _ _ _ _ _ settled lonely solitary ran =>
      lonely.kept settled solitary (atomic_moves ran))
  · exact fun thread _ waits => absurd (quiet thread).1 waits
  · exact fun thread caller waits => by simp [(quiet thread).1] at waits
  · exact fun thread => by simp [(quiet thread).2.1]
  · exact fun thread waits => by simp [(quiet thread).2.2.1] at waits
  · exact fun asleep => by simp [start] at asleep
  · rintro (requested | ⟨thread, ends⟩)
    · simp [start] at requested
    · exact absurd (quiet thread).2.2.2 ends

/-- No step takes the destructor back. -/
theorem Moves.destroys (moves : Moves flags workers thread event (pool, before) (after, stage)) :
    (before.destroys = true → stage.destroys = true) ∧
      (after.begun = true → pool.begun = true ∨ stage.destroys = true) := by
  cases moves with
  | detachTask _ calls | unpause calls | wait _ calls =>
      obtain ⟨rfl, rfl⟩ | ⟨task, rfl, rfl⟩ := caller_cases calls
      all_goals exact ⟨by simp [Stage.destroys], .inl⟩
  | notifyOne caller | notifyNone caller | notifyAll caller | pass caller | leave caller
  | timeOut caller => cases caller <;> exact ⟨by simp [Stage.destroys, Stage.back], .inl⟩
  | sleepDone caller => cases caller <;> exact ⟨id, .inl⟩
  | destruct => exact ⟨fun _ => rfl, fun _ => .inr rfl⟩
  | turn _ retrieves | retry _ _ retrieves =>
      cases retrieves <;> exact ⟨by simp [Stage.destroys], .inl⟩
  | requestStop | destruction | join => exact ⟨fun _ => rfl, .inl⟩
  | finish => exact ⟨by simp [Stage.destroys], .inl⟩
  | _ => exact ⟨id, .inl⟩

theorem destroyer_of_reaches {allowed : State τ T → τ × Event τ T → Prop} {state : State τ T}
    (reached : (machine flags workers).Reaches allowed (start workers) state)
    (begun : state.shared.begun = true) :
    ∃ thread, (state.threads thread).destroys = true := by
  refine Threads.reaches_invariant reached
    (fun state => state.shared.begun = true → ∃ thread, (state.threads thread).destroys = true)
    (fun begun => by simp [start] at begun) ?_ begun
  intro pool threads thread event after stage destroyer _ ran begun
  have moves := (atomic_moves ran).destroys
  dsimp only at destroyer begun ⊢
  obtain before | own := moves.2 begun
  · obtain ⟨other, destroys⟩ := destroyer before
    refine ⟨other, ?_⟩
    by_cases own : other = thread
    · subst own
      simpa using moves.1 destroys
    · simpa [own] using destroys
  · exact ⟨thread, by simpa using own⟩

/-! ## Completion -/

/-- How many steps are left of what called, where there are so many threads. -/
def Caller.rank (workers : Workers τ) (size : Nat) : Caller T → Nat
  | .outside => 0
  | .task _ => size + 2
  | .destructor => 1 + workers.threads.length * (size + 2)

/-- How many steps are left of what a thread does. -/
def Stage.rank (workers : Workers τ) (size : Nat) : Stage τ T → Nat
  | .outside | .sleeping | .returned | .destructed => 0
  | .turning => size + 1
  | .running _ => size + 2
  | .notifying caller => caller.rank workers size + 2
  | .unpausing caller => caller.rank workers size + size + 1
  | .entering caller _ => caller.rank workers size + 1
  | .waiting caller _ => caller.rank workers size
  | .stopping left => 1 + left.length * (size + 2)
  | .joining _ left => 2 + left.length * (size + 2)

omit [DecidableEq τ] in
theorem rank_back (size : Nat) (caller : Caller T) :
    (Stage.back workers caller).rank workers size = caller.rank workers size := by
  cases caller <;> simp [Stage.back, Stage.rank, Caller.rank]

/-- The steps that are left for the queued tasks and the woken threads. -/
def pending (size : Nat) (pool : ThreadPool τ T) : Nat :=
  pool.tasks.length * (size + 2) + pool.taskAvailableCv.woken.card + pool.tasksDoneCv.woken.card

/-- Retrieving a task brings the pool nearer to its end. -/
theorem Retrieves.nearer (workers : Workers τ) (size : Nat)
    (retrieves : Retrieves flags thread pool (after, stage)) :
    after.pending size + stage.rank workers size ≤ pool.pending size := by
  cases retrieves with
  | stop | sleep => exact le_rfl
  | take _ _ queued =>
      simp only [pending, queued, Stage.rank, List.length_append, List.length_cons, Nat.add_mul]
      omega

/-- A step of what is under way leads nearer to its end. -/
theorem Moves.nearer [Fintype τ] (underWay : event.underWay = true)
    (moves : Moves flags workers thread event (pool, before) (after, stage)) :
    after.pending (Fintype.card τ) + stage.rank workers (Fintype.card τ) <
      pool.pending (Fintype.card τ) + before.rank workers (Fintype.card τ) := by
  cases moves with
  | detachTask | pause | unpause | purge | wait | throws | destruct | wakeUpDone | wakeUp
  | timeOut => simp [Event.underWay] at underWay
  | @notifyOne _ sleeper caller =>
      have more := Finset.card_insert_le sleeper pool.taskAvailableCv.woken
      rw [rank_back]
      simp only [pending, Stage.rank, Condition.wake]
      omega
  | notifyNone caller =>
      rw [rank_back]
      simp only [Stage.rank]
      omega
  | notifyAll caller =>
      have all := Finset.card_le_univ pool.taskAvailableCv.wakeAll.woken
      rw [rank_back]
      simp only [pending, Stage.rank]
      omega
  | pass caller =>
      rw [rank_back]
      simp only [pending, Stage.rank]
      omega
  | sleepDone => exact Nat.lt_succ_self _
  | leave caller _ _ woke =>
      have fewer := Finset.card_erase_lt_of_mem woke
      rw [rank_back]
      simp only [pending, Stage.rank, Condition.leave]
      omega
  | sleepAgain _ _ _ woke =>
      have fewer := Finset.card_erase_lt_of_mem woke
      simp only [pending, Stage.rank, Condition.leave, Condition.sleep]
      omega
  | turn _ retrieves =>
      have rest := retrieves.nearer workers (Fintype.card τ)
      have woken : (pool.finishTask flags).tasksDoneCv.woken.card ≤
          pool.tasksDoneCv.woken.card + Fintype.card τ := by
        simp only [finishTask]
        split
        · exact (Finset.card_le_univ _).trans (Nat.le_add_left _ _)
        · exact Nat.le_add_right _ _
      have counted : (pool.finishTask flags).pending (Fintype.card τ) ≤
          pool.pending (Fintype.card τ) + Fintype.card τ := by
        rw [pending, pending, Nat.add_assoc _ _ (Fintype.card τ)]
        exact Nat.add_le_add_left woken _
      simp only [Stage.rank] at rest ⊢
      omega
  | retry _ woke retrieves =>
      have rest := retrieves.nearer workers (Fintype.card τ)
      have fewer := Finset.card_erase_lt_of_mem woke
      have left : pending (Fintype.card τ)
          { pool with taskAvailableCv := pool.taskAvailableCv.leave thread } <
            pool.pending (Fintype.card τ) := by
        simp only [pending, Condition.leave]
        omega
      exact rest.trans_lt left
  | finish => exact Nat.lt_succ_self _
  | destruction => simp [Stage.rank]
  | requestStop worker rest =>
      have woken : (pool.requestStop worker).taskAvailableCv.woken.card ≤
          pool.taskAvailableCv.woken.card + Fintype.card τ := by
        simp only [ThreadPool.requestStop]
        split
        · exact (Finset.card_le_univ _).trans (Nat.le_add_left _ _)
        · exact Nat.le_add_right _ _
      have counted : (pool.requestStop worker).pending (Fintype.card τ) ≤
          pool.pending (Fintype.card τ) + Fintype.card τ := by
        have same : (pool.requestStop worker).pending (Fintype.card τ) =
          pool.tasks.length * (Fintype.card τ + 2) +
            (pool.requestStop worker).taskAvailableCv.woken.card +
              pool.tasksDoneCv.woken.card := rfl
        rw [same, pending]
        omega
      simp only [Stage.rank, List.length_cons, Nat.succ_mul]
      omega
  | join => simp [Stage.rank]

/-! ## Progress -/

/-- A thread that need not go on. -/
def Stage.rests : Stage τ T → Bool
  | .outside | .sleeping | .returned | .destructed => true
  | _ => false

/-- A thread that can go on, whatever the others do. -/
def Stage.goes : Stage τ T → Bool
  | .turning | .running _ | .notifying _ | .unpausing _ | .entering _ _ | .stopping _ => true
  | _ => false

omit [DecidableEq τ] in
/-- Some queued task has the highest priority. -/
theorem exists_highest {tasks : List (PrTask T)} (some : tasks ≠ []) :
    ∃ first ∈ tasks, ∀ other ∈ tasks, ¬ first.priority < other.priority := by
  induction tasks with
  | nil => exact absurd rfl some
  | cons task tasks ih =>
      by_cases last : tasks = []
      · exact ⟨task, by simp, by simp [last]⟩
      · obtain ⟨first, member, highest⟩ := ih last
        by_cases less : task.priority < first.priority
        · refine ⟨first, List.mem_cons_of_mem _ member, fun other among => ?_⟩
          obtain rfl | among := List.mem_cons.mp among
          · omega
          · exact highest other among
        · refine ⟨task, List.mem_cons_self, fun other among => ?_⟩
          obtain rfl | among := List.mem_cons.mp among
          · exact lt_irrefl _
          · have := highest other among
            omega

omit [DecidableEq τ] in
variable (flags) in
/-- Of some tasks one can be popped. -/
theorem popTask_isSome {tasks : List (PrTask T)} (some : tasks ≠ []) :
    ∃ choice, (popTask flags tasks choice).isSome := by
  cases enabled : flags.priorityEnabled with
  | false =>
      obtain ⟨task, rest, rfl⟩ := List.exists_cons_of_ne_nil some
      exact ⟨0, by simp [popTask, enabled]⟩
  | true =>
      obtain ⟨first, member, highest⟩ := exists_highest some
      obtain ⟨choice, bound, rfl⟩ := List.getElem_of_mem member
      refine ⟨choice, ?_⟩
      simp only [popTask, List.getElem?_eq_getElem bound, enabled, if_true]
      rw [if_pos highest]
      rfl

variable (flags) in
/-- Whatever there is, `retrieve` has a next step. -/
theorem retrieve_isSome (thread : τ) (pool : ThreadPool τ T) :
    ∃ choice, (retrieve flags thread pool choice).isSome := by
  by_cases ready : thread ∈ pool.stopRequested ∨ pool.isPaused flags = true ∨ pool.tasks = []
  · refine ⟨0, ?_⟩
    unfold retrieve
    split
    · rfl
    · next runs => simp [ready.resolve_left runs]
  · obtain ⟨runs, rest⟩ := not_or.mp ready
    obtain ⟨choice, popped⟩ := popTask_isSome flags (not_or.mp rest).2
    exact ⟨choice, by simpa [retrieve, runs, rest] using popped⟩

/-- Some next step of the thread is enabled. -/
def Goes (flags : OptFlags) (workers : Workers τ) (thread : τ) (pool : ThreadPool τ T)
    (stage : Stage τ T) : Prop :=
  ∃ event, event.underWay = true ∧ (atomic flags workers thread (pool, stage) event).isSome

/-- A thread at such a stage has a next step. -/
theorem goes_of_stage (goes : stage.goes = true) : Goes flags workers thread pool stage := by
  cases stage with
  | turning =>
      obtain ⟨choice, retrieved⟩ := retrieve_isSome flags thread (pool.finishTask flags)
      exact ⟨.proceed choice, rfl, retrieved⟩
  | running task => exact ⟨.finish, rfl, rfl⟩
  | notifying caller =>
      obtain awake | ⟨sleeper, sleeps⟩ := pool.taskAvailableCv.asleep.eq_empty_or_nonempty
      · exact ⟨.proceed 0, rfl, by simp [atomic, awake]⟩
      · exact ⟨.notify sleeper, rfl, by simp [atomic, sleeps]⟩
  | unpausing caller => exact ⟨.proceed 0, rfl, rfl⟩
  | entering caller timed =>
      refine ⟨.proceed 0, rfl, ?_⟩
      simp only [atomic]
      split <;> rfl
  | stopping left => cases left <;> exact ⟨.proceed 0, rfl, rfl⟩
  | outside | sleeping | returned | waiting | joining | destructed => simp [Stage.goes] at goes

/-- A worker that was woken can go on. -/
theorem goes_of_woken (woke : thread ∈ pool.taskAvailableCv.woken) :
    Goes flags workers thread pool .sleeping := by
  obtain ⟨choice, retrieved⟩ := retrieve_isSome flags thread
    { pool with taskAvailableCv := pool.taskAvailableCv.leave thread }
  exact ⟨.proceed choice, rfl, by simpa [atomic, woke] using retrieved⟩

/-- A waiting thread that was woken can go on. -/
theorem goes_of_done (woke : thread ∈ pool.tasksDoneCv.woken) (caller : Caller T) (timed : Bool) :
    Goes flags workers thread pool (.waiting caller timed) := by
  refine ⟨.proceed 0, rfl, ?_⟩
  simp only [atomic, woke, if_true]
  split <;> rfl

/-- No next step of any thread is enabled. -/
def Stuck (flags : OptFlags) (workers : Workers τ) (state : State τ T) : Prop :=
  ∀ thread, ¬ Goes flags workers thread state.shared (state.threads thread)

namespace Stuck

variable {state : State τ T}

/-- Where the pool is stuck no thread can go on by itself. -/
theorem goes (stuck : Stuck flags workers state) (thread : τ) :
    (state.threads thread).goes = false := by
  by_contra goes
  exact stuck thread (goes_of_stage (by simpa using goes))

/-- Where the pool is stuck nobody was woken. -/
theorem woken (stuck : Stuck flags workers state)
    (settled : ∀ thread, Settled workers thread state.shared (state.threads thread)) :
    state.shared.taskAvailableCv.woken = ∅ ∧ state.shared.tasksDoneCv.woken = ∅ := by
  refine ⟨Finset.eq_empty_of_forall_notMem fun thread woke => ?_,
    Finset.eq_empty_of_forall_notMem fun thread woke => ?_⟩
  · have sleeping := (settled thread).available.waiter.mpr (.inr woke)
    exact stuck thread (sleeping ▸ goes_of_woken woke)
  · have waits := (settled thread).done.waiter.mpr (.inr woke)
    have goes := stuck thread
    generalize state.threads thread = stage at waits goes
    cases stage with
    | waiting caller timed => exact goes (goes_of_done woke caller timed)
    | _ => simp [Stage.waits] at waits

/-- A worker sleeps or has returned. -/
theorem worker (stuck : Stuck flags workers state) (lonely : Lonely flags state)
    (settled : ∀ thread, Settled workers thread state.shared (state.threads thread))
    {thread : τ} (works : thread ∈ workers.threads) :
    thread ∈ state.shared.taskAvailableCv.asleep ∨ thread ∈ state.shared.returned := by
  have goes := stuck.goes thread
  have outside := lonely.outside thread
  have works := (settled thread).worker.mpr works
  have returned := (settled thread).returned
  have available := (settled thread).available.waiter
  rw [(stuck.woken settled).1] at available
  generalize state.threads thread = stage at goes outside works returned available
  cases stage with
  | sleeping => exact .inl (by simpa using available)
  | returned => exact .inr (returned.mp rfl)
  | waiting caller timed =>
      cases caller with
      | task current => simpa [Caller.tasks] using outside _ rfl
      | _ => simp [Stage.worker] at works
  | outside | joining | destructed => simp [Stage.worker] at works
  | turning | running | notifying | unpausing | entering | stopping => simp [Stage.goes] at goes

/-- Nothing is queued unless the pool is paused or stops. -/
theorem tasks [Fintype τ] (stuck : Stuck flags workers state)
    (reached : (machine flags workers).Reaches (Solitary flags) (start workers) state)
    (runs : state.shared.isPaused flags = false)
    (stays : ¬ state.shared.stopRequested.Nonempty) : state.shared.tasks = [] := by
  have settled := settled_of_reaches reached
  obtain ⟨worker, rest, all⟩ := List.exists_cons_of_ne_nil workers.inhabited
  obtain asleep | returned :=
    stuck.worker (lonely_of_reaches reached) settled
      (show worker ∈ workers.threads by simp [all])
  · have covered := woken_of_reaches reached runs ⟨worker, asleep⟩ fun thread caller => by
      have goes := stuck.goes thread
      generalize state.threads thread = stage at goes
      cases stage <;> simp [Stage.goes] at goes ⊢
    rw [heeding, (stuck.woken settled).1, Finset.empty_sdiff, Finset.card_empty] at covered
    exact List.length_eq_zero_iff.mp (Nat.le_zero.mp covered)
  · exact absurd ⟨worker, (settled worker).gone returned⟩ stays

/-- No thread waits. -/
theorem inWait [Fintype τ] (stuck : Stuck flags workers state)
    (reached : (machine flags workers).Reaches (Solitary flags) (start workers) state)
    (thread : τ) : (state.threads thread).inWait = none := by
  have settled := settled_of_reaches reached
  have lonely := lonely_of_reaches reached
  by_contra waits
  have asleep : thread ∈ state.shared.tasksDoneCv.asleep := by
    have waiter := (settled thread).done.waiter
    have goes := stuck.goes thread
    rw [(stuck.woken settled).2] at waiter
    generalize state.threads thread = stage at waits waiter goes
    cases stage with
    | waiting => simpa [Stage.waits] using waiter
    | entering => simp [Stage.goes] at goes
    | _ => exact absurd rfl waits
  have busy := lonely.busy ⟨thread, asleep⟩
  have idle : state.shared.tasksRunning = 0 := by
    rw [(accounted_of_reaches reached).count]
    refine Finset.sum_eq_zero fun other _ => ?_
    have goes := stuck.goes other
    have outside := lonely.outside other
    generalize state.threads other = stage at goes outside
    cases stage with
    | turning | running | notifying | unpausing | entering | stopping =>
        simp [Stage.goes] at goes
    | waiting caller timed => simp [Stage.busy, Stage.tasks, outside caller rfl]
    | _ => rfl
  have runs : state.shared.isPaused flags = false := by
    simp only [tasksDone, idle, decide_true, Bool.true_and, Bool.or_eq_false_iff] at busy
    exact busy.1
  have empty := stuck.tasks reached runs fun requested =>
    waits ((lonely.stops (.inl requested)).2 _)
  simp [tasksDone, idle, empty] at busy

/-- Every thread rests. -/
theorem rests [Fintype τ] (stuck : Stuck flags workers state)
    (reached : (machine flags workers).Reaches (Solitary flags) (start workers) state)
    (thread : τ) : (state.threads thread).rests = true := by
  have settled := settled_of_reaches reached
  have goes := stuck.goes thread
  have waits := stuck.inWait reached thread
  have stuckHere := stuck thread
  have joins := (settled thread).joins
  have joined := (settled thread).joined
  generalize state.threads thread = stage at goes waits stuckHere joins joined
  cases stage with
  | outside | sleeping | returned | destructed => rfl
  | turning | running | notifying | unpausing | entering | stopping => simp [Stage.goes] at goes
  | waiting => simp [Stage.inWait] at waits
  | joining worker rest =>
      have works := (joined _ rfl).1 List.mem_cons_self
      obtain asleep | returned := stuck.worker (lonely_of_reaches reached) settled works
      · exact absurd asleep ((settled worker).awake (joins worker rest rfl))
      · exact absurd ⟨.proceed 0, rfl, by simp [atomic, returned]⟩ stuckHere

end Stuck

/-- The steps that are left of what is under way. -/
def left [Fintype τ] (workers : Workers τ) (state : State τ T) : Nat :=
  state.shared.pending (Fintype.card τ) +
    ∑ thread, (state.threads thread).rank workers (Fintype.card τ)

/-- A step of what is under way keeps a run solitary and leads nearer to its end. -/
theorem nearer_of_step [Fintype τ] {before next : State τ T} {event : τ × Event τ T}
    (reached : (machine flags workers).Reaches (Solitary flags) (start workers) before)
    (underWay : event.2.underWay = true)
    (stepped : (machine flags workers).step before event = some next) :
    (machine flags workers).Reaches (Solitary flags) (start workers) next ∧
      left workers next < left workers before := by
  obtain ⟨thread, event⟩ := event
  refine ⟨reached.tail ⟨_, solitary_of_underWay underWay, stepped⟩, ?_⟩
  obtain ⟨pool, stage, ran, rfl⟩ := Threads.interleave_step stepped
  have nearer := (atomic_moves ran).nearer underWay
  have total := Threads.sum_update (Stage.rank workers (Fintype.card τ)) before.threads thread stage
  simp only [left]
  omega

/-- **Completion.** As long as nobody pauses, purges or waits while somebody waits, the calls and
tasks that are under way take boundedly many steps, and when none of them can go on, every
`wait` has returned; every submitted task has been run to its end or purged, unless the pool
is paused; and a destructor that has begun is through, with all workers returned. -/
theorem calls_complete [Fintype τ] {state last : State τ T}
    (reached : (machine flags workers).Reaches (Solitary flags) (start workers) state)
    {events : List (τ × Event τ T)}
    (executed : (machine flags workers).execute (fun _ event => event.2.underWay = true) events
      state = some last) :
    events.length ≤ left workers state ∧
      ((∀ event, event.2.underWay = true → (machine flags workers).step last event = none) →
        (∀ thread, (last.threads thread).rests = true) ∧
        (last.shared.isPaused flags = false → last.shared.begun = false →
          last.shared.submitted = last.shared.finished + last.shared.purged) ∧
        (last.shared.begun = true → (∃ thread, last.threads thread = .destructed) ∧
          ∀ worker ∈ workers.threads, worker ∈ last.shared.returned)) := by
  have progress : ∀ state : State τ T,
      (machine flags workers).Reaches (Solitary flags) (start workers) state →
      ¬ Stuck flags workers state → ∃ event : τ × Event τ T, event.2.underWay = true ∧
        ((machine flags workers).step state event).isSome := by
    intro state _ free
    simp only [Stuck, not_forall, not_not] at free
    obtain ⟨thread, event, underWay, enabled⟩ := free
    exact ⟨(thread, event), underWay, by simpa [machine, Threads.interleave] using enabled⟩
  obtain ⟨bounded, ends⟩ := Machine.completes _ (Stuck flags workers) (left workers) _
    (fun _ _ _ => nearer_of_step) progress reached executed
  refine ⟨bounded, fun still => ?_⟩
  obtain ⟨reachedLast, stuck⟩ := ends still
  have settled := settled_of_reaches reachedLast
  have rests := stuck.rests reachedLast
  refine ⟨rests, fun runs opened => ?_, fun begun => ?_⟩
  · have stays : ¬ last.shared.stopRequested.Nonempty := fun requested => by
      have begun := ((lonely_of_reaches reachedLast).stops (.inl requested)).1
      simp [opened] at begun
    rw [(accounted_of_reaches reachedLast).account, held, stuck.tasks reachedLast runs stays,
      Finset.sum_eq_zero fun thread _ => ?_]
    · simp
    · have rest := rests thread
      generalize last.threads thread = stage at rest
      cases stage <;> first | rfl | simp [Stage.rests] at rest
  · obtain ⟨thread, destroys⟩ := destroyer_of_reaches reachedLast begun
    have destructed : last.threads thread = .destructed := by
      have rest := rests thread
      generalize last.threads thread = stage at rest destroys
      cases stage <;> simp [Stage.rests, Stage.destroys] at rest destroys ⊢
    refine ⟨⟨thread, destructed⟩, fun worker works => ?_⟩
    exact ((settled thread).joined [] (by rw [destructed]; rfl)).2 worker works |>.resolve_right
      (by simp)

/-- Where no thread has been woken, those that sleep and wait go on sleeping and waiting. -/
theorem step_eq_none {state : State τ T} (asleep : ∀ thread, (state.threads thread).rests = true ∧
      thread ∉ state.shared.taskAvailableCv.woken ∨
    (state.threads thread).waits = true ∧ thread ∉ state.shared.tasksDoneCv.woken)
    (event : τ × Event τ T) (underWay : event.2.underWay = true) :
    (machine flags workers).step state event = none := by
  obtain ⟨thread, event⟩ := event
  have rest := asleep thread
  simp only [machine, Threads.interleave, Option.map_eq_none_iff]
  generalize state.threads thread = stage at rest
  cases stage <;> cases event <;>
    simp_all [Stage.rests, Stage.waits, Event.underWay, atomic]

/-- Two tasks are submitted and the destructor begins. -/
def destruction (first second caller : τ) : List (τ × Event τ Nat) :=
  [(first, .proceed 0), (second, .proceed 0), (caller, .detachTask ⟨7, 0⟩),
    (caller, .notify first), (caller, .detachTask ⟨8, 0⟩), (caller, .notify second),
    (caller, .destruct)]

/-- It waits for both tasks, and stops and joins one worker after the other. -/
def completion (first second caller : τ) : List (τ × Event τ Nat) :=
  [(caller, .proceed 0), (first, .proceed 0), (second, .proceed 0), (first, .finish),
    (first, .proceed 0), (second, .finish), (second, .proceed 0), (caller, .proceed 0),
    (caller, .proceed 0), (second, .proceed 0), (caller, .proceed 0), (caller, .proceed 0),
    (first, .proceed 0), (caller, .proceed 0), (caller, .proceed 0)]

/-- The destructor of a pool with two tasks completes. -/
theorem calls_complete_destruction :
    ∃ state last : State (Fin 4) Nat,
      (machine {} twoWorkers).execute (Solitary {}) (destruction 0 1 2) (start twoWorkers) =
        some state ∧
      (machine {} twoWorkers).execute (fun _ event => event.2.underWay = true)
        (completion 0 1 2) state = some last ∧
      last.shared.finished = {7, 8} ∧ ∀ worker ∈ twoWorkers.threads,
        worker ∈ last.shared.returned := by
  have ran : (((machine {} twoWorkers).execute (Solitary {}) (destruction 0 1 2)
      (start twoWorkers)).bind fun state => ((machine {} twoWorkers).execute
        (fun _ event => event.2.underWay = true) (completion 0 1 2) state).map fun last =>
          decide (last.shared.finished = {7, 8} ∧ last.shared.begun = true ∧
            last.shared.taskAvailableCv.woken = ∅ ∧
              ∀ thread, (last.threads thread).rests = true)) = some true := by
    decide +kernel
  obtain ⟨state, first, rest⟩ := Option.bind_eq_some_iff.mp ran
  obtain ⟨last, second, checked⟩ := Option.map_eq_some_iff.mp rest
  obtain ⟨finished, begun, woken, rests⟩ := of_decide_eq_true checked
  have complete := (calls_complete (Machine.reaches_of_execute first) second).2
    (step_eq_none fun thread => .inl ⟨rests thread, by simp [woken]⟩)
  exact ⟨state, last, first, second, finished, (complete.2.2 begun).2⟩

/-- A thread waits though the tasks are done, and no step of what is under way is enabled. -/
def WaitLost (flags : OptFlags) (workers : Workers τ) (state : State τ T) : Prop :=
  (∃ thread, (state.threads thread).waits = true) ∧ state.shared.tasksDone flags = true ∧
    ∀ event : τ × Event τ T, event.2.underWay = true →
      (machine flags workers).step state event = none

/-- A run that ends with a waiting thread and nothing left to do loses its wait. -/
theorem exists_waitLost {events : List (Fin 4 × Event (Fin 4) Nat)}
    (ran : ((machine flags twoWorkers).execute Machine.anyStep events (start twoWorkers)).map
      (fun state => decide ((state.threads 2).waits = true ∧
        state.shared.tasksDone flags = true ∧ state.shared.taskAvailableCv.woken = ∅ ∧
          state.shared.tasksDoneCv.woken = ∅ ∧ ∀ thread, (state.threads thread).rests = true ∨
            (state.threads thread).waits = true)) = some true) :
    ∃ state : State (Fin 4) Nat,
      (machine flags twoWorkers).Reaches Machine.anyStep (start twoWorkers) state ∧
        WaitLost flags twoWorkers state := by
  obtain ⟨state, executed, checked⟩ := Option.map_eq_some_iff.mp ran
  obtain ⟨waits, done, available, woken, asleep⟩ := of_decide_eq_true checked
  refine ⟨state, Machine.reaches_of_execute executed, ⟨2, waits⟩, done, step_eq_none ?_⟩
  exact fun thread => (asleep thread).imp (fun rests => ⟨rests, by simp [available]⟩)
    fun waits => ⟨waits, by simp [woken]⟩

/-- A task is submitted and waited for, and a worker is woken for it. -/
def oneTask (first second caller : τ) : List (τ × Event τ Nat) :=
  [(first, .proceed 0), (second, .proceed 0), (caller, .detachTask ⟨7, 0⟩),
    (caller, .notify first), (caller, .wait false), (caller, .proceed 0)]

/-- Another thread purges the one task after it was waited for, and before a worker takes it. -/
theorem wait_lost_purge : ∃ state : State (Fin 4) Nat,
    (machine {} twoWorkers).Reaches Machine.anyStep (start twoWorkers) state ∧
      WaitLost {} twoWorkers state :=
  exists_waitLost (show (Option.map _ (Machine.execute _ _ (oneTask 0 1 2 ++ [(3, .purge),
    (0, .proceed 0)]) _)) = _ by decide +kernel)

/-- Another thread pauses the pool before a worker takes the task. -/
theorem wait_lost_pause : ∃ state : State (Fin 4) Nat,
    (machine { pauseEnabled := true } twoWorkers).Reaches Machine.anyStep (start twoWorkers) state ∧
      WaitLost { pauseEnabled := true } twoWorkers state :=
  exists_waitLost (show (Option.map _ (Machine.execute _ _ (oneTask 0 1 2 ++ [(3, .pause),
    (0, .proceed 0)]) _)) = _ by decide +kernel)

/-- Another thread waits until its time is over. -/
theorem wait_lost_wait : ∃ state : State (Fin 4) Nat,
    (machine {} twoWorkers).Reaches Machine.anyStep (start twoWorkers) state ∧
      WaitLost {} twoWorkers state :=
  exists_waitLost (show (Option.map _ (Machine.execute _ _ (oneTask 0 1 2 ++ [(3, .wait true),
    (3, .proceed 0), (3, .timeOut), (0, .proceed 0), (0, .finish), (0, .proceed 0)]) _)) = _ by
      decide +kernel)

end FastDb.BS.ThreadPool
