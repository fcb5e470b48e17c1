import Mathlib.Data.Finset.Card
import FastDb.Foundation.Threads

/-! # Conditions and monitors

Threads wait for a condition asleep, or woken and about to test what they wait for; a sleeper
may wake up by itself. Who waits agrees with the condition as long as the threads move by its
steps (`Foundation.Condition.Waits.own`, `Foundation.Condition.Waits.undisturbed`). A monitor
is a mutex with a condition: a thread is outside, inside, which only the owner of the mutex
is, or waiting (`Foundation.Monitor.Placed.own`, `Foundation.Monitor.Placed.undisturbed`).
-/

namespace Foundation

/-- The threads that wait for a condition. -/
structure Condition (τ : Type*) where
  asleep : Finset τ := ∅
  woken : Finset τ := ∅

namespace Condition

/-- The condition knows whether a thread waits for it. -/
structure Waits {τ : Type*} (thread : τ) (condition : Condition τ) (waiting : Prop) : Prop where
  waiter : waiting ↔ thread ∈ condition.asleep ∨ thread ∈ condition.woken
  apart : thread ∈ condition.asleep → thread ∉ condition.woken

theorem waits_initial {τ : Type*} (thread : τ) {waiting : Prop} (elsewhere : ¬ waiting) :
    Waits thread {} waiting :=
  ⟨by simp [elsewhere], by simp⟩

variable {τ : Type*} [DecidableEq τ]

/-- A thread goes to sleep. -/
def sleep (condition : Condition τ) (thread : τ) : Condition τ :=
  { condition with asleep := insert thread condition.asleep }

/-- One sleeper is woken. -/
def wake (condition : Condition τ) (sleeper : τ) : Condition τ where
  asleep := condition.asleep.erase sleeper
  woken := insert sleeper condition.woken

/-- All sleepers are woken. -/
def wakeAll (condition : Condition τ) : Condition τ where
  asleep := ∅
  woken := condition.woken ∪ condition.asleep

/-- A thread waits no longer. -/
def leave (condition : Condition τ) (thread : τ) : Condition τ where
  asleep := condition.asleep.erase thread
  woken := condition.woken.erase thread

/-- What one step of a thread does to the condition and to its own waiting. -/
inductive Moves (thread : τ) : Condition τ × Prop → Condition τ × Prop → Prop
  | stay (condition : Condition τ) (waiting : Prop) :
      Moves thread (condition, waiting) (condition, waiting)
  | sleep (condition : Condition τ) {waiting : Prop} (before : ¬ waiting) {after : Prop}
      (waits : after) : Moves thread (condition, waiting) (condition.sleep thread, after)
  | wake {condition : Condition τ} {sleeper : τ} (waiting : Prop)
      (sleeps : sleeper ∈ condition.asleep) :
      Moves thread (condition, waiting) (condition.wake sleeper, waiting)
  | wakeAll (condition : Condition τ) (waiting : Prop) :
      Moves thread (condition, waiting) (condition.wakeAll, waiting)
  | leave (condition : Condition τ) (waiting : Prop) {after : Prop} (left : ¬ after) :
      Moves thread (condition, waiting) (condition.leave thread, after)
  | sleepAgain (condition : Condition τ) (waiting : Prop) {after : Prop} (waits : after) :
      Moves thread (condition, waiting) ((condition.leave thread).sleep thread, after)

namespace Waits

variable {thread other : τ} {condition after : Condition τ} {before waiting idle : Prop}

/-- A step keeps what the condition knows of its own thread. -/
theorem own (waits : Waits thread condition before)
    (moves : Moves thread (condition, before) (after, waiting)) :
    Waits thread after waiting := by
  obtain ⟨waiter, apart⟩ := waits
  cases moves with
  | stay => exact ⟨waiter, apart⟩
  | sleep _ awake waits => exact ⟨by simp [waits, Condition.sleep], by grind [Condition.sleep]⟩
  | wake sleeps => exact ⟨by grind [Condition.wake], by grind [Condition.wake]⟩
  | wakeAll => exact ⟨by grind [Condition.wakeAll], by simp [Condition.wakeAll]⟩
  | leave _ _ left => exact ⟨by simp [left, Condition.leave], by simp [Condition.leave]⟩
  | sleepAgain _ _ waits =>
      exact ⟨by simp [waits, Condition.sleep], by simp [Condition.sleep, Condition.leave]⟩

/-- A step does not disturb what the condition knows of another thread. -/
theorem undisturbed (waits : Waits other condition idle) (different : other ≠ thread)
    (moves : Moves thread (condition, before) (after, waiting)) : Waits other after idle := by
  obtain ⟨waiter, apart⟩ := waits
  cases moves with
  | stay => exact ⟨waiter, apart⟩
  | sleep => exact ⟨by grind [Condition.sleep], by grind [Condition.sleep]⟩
  | wake sleeps => exact ⟨by grind [Condition.wake], by grind [Condition.wake]⟩
  | wakeAll => exact ⟨by grind [Condition.wakeAll], by simp [Condition.wakeAll]⟩
  | leave => exact ⟨by grind [Condition.leave], by grind [Condition.leave]⟩
  | sleepAgain => exact ⟨by grind [Condition.leave, Condition.sleep],
      by grind [Condition.leave, Condition.sleep]⟩

end Waits

end Condition

/-- A mutex, and the threads that wait for its condition. -/
structure Monitor (τ : Type*) extends Condition τ where
  owner : Option τ := none

namespace Monitor

/-- Where a thread is. -/
inductive Role
  | outside
  | inside
  | waiting
  deriving DecidableEq

/-- The monitor knows the role of a thread. -/
structure Placed {τ : Type*} (thread : τ) (monitor : Monitor τ) (role : Role) : Prop where
  owner : role = .inside ↔ monitor.owner = some thread
  waits : Condition.Waits thread monitor.toCondition (role = .waiting)

theorem placed_initial {τ : Type*} (thread : τ) : Placed thread {} .outside :=
  ⟨by simp, Condition.waits_initial thread (by simp)⟩

variable {τ : Type*} [DecidableEq τ]

/-- A thread takes the lock. -/
def lock (monitor : Monitor τ) (thread : τ) : Monitor τ :=
  { monitor with owner := some thread }

/-- The lock is free. -/
def unlock (monitor : Monitor τ) : Monitor τ := { monitor with owner := none }

/-- Unlocks and goes to sleep. -/
def sleep (monitor : Monitor τ) (thread : τ) : Monitor τ where
  toCondition := monitor.toCondition.sleep thread

/-- `notify_one`. -/
def wake (monitor : Monitor τ) (sleeper : τ) : Monitor τ :=
  { monitor with toCondition := monitor.toCondition.wake sleeper }

/-- `notify_all`. -/
def wakeAll (monitor : Monitor τ) : Monitor τ :=
  { monitor with toCondition := monitor.toCondition.wakeAll }

/-- Locks again after being woken. -/
def relock (monitor : Monitor τ) (thread : τ) : Monitor τ where
  toCondition := monitor.toCondition.leave thread
  owner := some thread

/-- What one step of a thread does to the monitor and to its own role. -/
inductive Moves (thread : τ) : Monitor τ × Role → Monitor τ × Role → Prop
  | stay (monitor : Monitor τ) (role : Role) : Moves thread (monitor, role) (monitor, role)
  | lock {monitor : Monitor τ} (free : monitor.owner = none) :
      Moves thread (monitor, .outside) (monitor.lock thread, .inside)
  | unlock (monitor : Monitor τ) : Moves thread (monitor, .inside) (monitor.unlock, .outside)
  | sleep (monitor : Monitor τ) : Moves thread (monitor, .inside) (monitor.sleep thread, .waiting)
  | relock {monitor : Monitor τ} (woke : thread ∈ monitor.woken) (free : monitor.owner = none) :
      Moves thread (monitor, .waiting) (monitor.relock thread, .inside)
  | wake {monitor : Monitor τ} {sleeper : τ} (role : Role) (sleeps : sleeper ∈ monitor.asleep) :
      Moves thread (monitor, role) (monitor.wake sleeper, role)
  | wakeAll (monitor : Monitor τ) (role : Role) :
      Moves thread (monitor, role) (monitor.wakeAll, role)

/-- A monitor uses its condition as one. -/
theorem Moves.condition {thread : τ} {monitor after : Monitor τ} {before role : Role}
    (moves : Moves thread (monitor, before) (after, role)) :
    Condition.Moves thread (monitor.toCondition, before = .waiting)
      (after.toCondition, role = .waiting) := by
  cases moves with
  | stay => exact .stay _ _
  | lock | unlock => simpa [Monitor.lock, Monitor.unlock] using .stay _ _
  | sleep => exact .sleep _ (by simp) rfl
  | relock => exact .leave _ _ (by simp)
  | wake _ sleeps => exact .wake _ sleeps
  | wakeAll => exact .wakeAll _ _

namespace Placed

variable {thread other : τ} {monitor after : Monitor τ} {before role idle : Role}

/-- A step keeps the place of its own thread. -/
theorem own (placed : Placed thread monitor before)
    (moves : Moves thread (monitor, before) (after, role)) : Placed thread after role := by
  refine ⟨?_, placed.waits.own moves.condition⟩
  have owner := placed.owner
  cases moves with
  | stay | wake | wakeAll => exact owner
  | lock | relock => simp [Monitor.lock, Monitor.relock]
  | unlock | sleep => simp [Monitor.unlock, Monitor.sleep]

/-- A step does not disturb the place of another thread. -/
theorem undisturbed (placed : Placed thread monitor before) (idler : Placed other monitor idle)
    (different : other ≠ thread)
    (moves : Moves thread (monitor, before) (after, role)) : Placed other after idle := by
  refine ⟨?_, idler.waits.undisturbed different moves.condition⟩
  have owner := idler.owner
  have owns := placed.owner
  cases moves with
  | stay | wake | wakeAll => exact owner
  | lock | relock => grind [Monitor.lock, Monitor.relock]
  | unlock | sleep => grind [Monitor.unlock, Monitor.sleep]

end Placed

end Monitor

end Foundation
