import Mathlib.Data.Finset.Card
import FastDb.Foundation.Threads

/-! # The semaphore

`semaphore` of `common/mutex_utils.cppm` in the build without `HAVE_SEM`, its calls cut
into their atomic steps: the mutex is locked, the counter is changed or tested, sleepers
are woken, the mutex is unlocked. The condition variable is the set of threads asleep in
it and the set of those woken that have yet to lock the mutex again; a sleeper may wake
up by itself. The constructor drops its argument, so the counter is the initial count
with what was posted and not taken exactly for the initial count zero
(`FastDb.Mutex.Semaphore.permits_conserved_iff`).
-/

namespace FastDb.Mutex

open Foundation

/-- `semaphore`. The mutex carries the thread that locked it; the permits posted and the
waits that took one are history. -/
structure Semaphore (τ : Type) where
  count : UInt64
  mutex : Option τ
  asleep : Finset τ
  woken : Finset τ
  posted : Nat
  waits : Nat

namespace Semaphore

/-- Where a thread is in its call, named by what it does next. -/
inductive Stage
  /-- No call, or a call that has not locked the mutex. -/
  | outside
  /-- `post`: `_count += n`. -/
  | adding (n : UInt64)
  /-- `post`: `notify_one()` for one permit, `notify_all()` for any other number. -/
  | notifying (n : UInt64)
  /-- `wait`: `while (_count == 0)`. -/
  | testing
  /-- `wait`: in `_condition.wait(lock)`, without the mutex. -/
  | sleeping
  /-- `wait`: `--_count`. -/
  | taking
  /-- The end of a call, which unlocks the mutex. -/
  | leaving
  deriving DecidableEq

/-- The beginning of a call, or the next step of the one that is under way. -/
inductive Event (τ : Type)
  | post (n : UInt64)
  | wait
  /-- `notify_one()` wakes this sleeper. -/
  | notify (sleeper : τ)
  /-- A sleeper wakes up by itself. -/
  | wakeUp
  | proceed
  deriving DecidableEq

variable {τ : Type} [DecidableEq τ]

/-- `semaphore(initial)`. -/
def new (_initial : UInt64) : Semaphore τ where
  count := 0
  mutex := none
  asleep := ∅
  woken := ∅
  posted := 0
  waits := 0

/-- One step of a thread; locking a locked mutex blocks. -/
def atomic (thread : τ) : Semaphore τ × Stage → Event τ → Option (Semaphore τ × Stage)
  | (semaphore, .outside), .post n =>
      if semaphore.mutex = none then
        some ({ semaphore with mutex := some thread }, .adding n)
      else none
  | (semaphore, .adding n), .proceed =>
      some ({ semaphore with
        count := semaphore.count + n
        posted := semaphore.posted + n.toNat }, .notifying n)
  | (semaphore, .notifying n), .notify sleeper =>
      if n = 1 ∧ sleeper ∈ semaphore.asleep then
        some ({ semaphore with
          asleep := semaphore.asleep.erase sleeper
          woken := insert sleeper semaphore.woken }, .leaving)
      else none
  | (semaphore, .notifying n), .proceed =>
      if n = 1 then
        if semaphore.asleep = ∅ then some (semaphore, .leaving) else none
      else
        some ({ semaphore with
          asleep := ∅
          woken := semaphore.woken ∪ semaphore.asleep }, .leaving)
  | (semaphore, .outside), .wait =>
      if semaphore.mutex = none then
        some ({ semaphore with mutex := some thread }, .testing)
      else none
  | (semaphore, .testing), .proceed =>
      if semaphore.count = 0 then
        some ({ semaphore with
          mutex := none
          asleep := insert thread semaphore.asleep }, .sleeping)
      else some (semaphore, .taking)
  | (semaphore, .sleeping), .wakeUp =>
      if thread ∈ semaphore.asleep then
        some ({ semaphore with
          asleep := semaphore.asleep.erase thread
          woken := insert thread semaphore.woken }, .sleeping)
      else none
  | (semaphore, .sleeping), .proceed =>
      if thread ∈ semaphore.woken ∧ semaphore.mutex = none then
        some ({ semaphore with
          mutex := some thread
          woken := semaphore.woken.erase thread }, .testing)
      else none
  | (semaphore, .taking), .proceed =>
      some ({ semaphore with
        count := semaphore.count - 1
        waits := semaphore.waits + 1 }, .leaving)
  | (semaphore, .leaving), .proceed => some ({ semaphore with mutex := none }, .outside)
  | _, _ => none

/-- What one step of a thread does. -/
inductive Moves (thread : τ) : Semaphore τ × Stage → Semaphore τ × Stage → Prop
  | lock {semaphore : Semaphore τ} {stage : Stage} (free : semaphore.mutex = none)
      (call : stage = .testing ∨ ∃ n, stage = .adding n) :
      Moves thread (semaphore, .outside) ({ semaphore with mutex := some thread }, stage)
  | add {semaphore : Semaphore τ} (n : UInt64) :
      Moves thread (semaphore, .adding n)
        ({ semaphore with
          count := semaphore.count + n
          posted := semaphore.posted + n.toNat }, .notifying n)
  | notifyOne {semaphore : Semaphore τ} {sleeper : τ} (sleeps : sleeper ∈ semaphore.asleep) :
      Moves thread (semaphore, .notifying 1)
        ({ semaphore with
          asleep := semaphore.asleep.erase sleeper
          woken := insert sleeper semaphore.woken }, .leaving)
  | notifyNone {semaphore : Semaphore τ} (awake : semaphore.asleep = ∅) :
      Moves thread (semaphore, .notifying 1) (semaphore, .leaving)
  | notifyAll {semaphore : Semaphore τ} {n : UInt64} :
      Moves thread (semaphore, .notifying n)
        ({ semaphore with
          asleep := ∅
          woken := semaphore.woken ∪ semaphore.asleep }, .leaving)
  | sleep {semaphore : Semaphore τ} (empty : semaphore.count = 0) :
      Moves thread (semaphore, .testing)
        ({ semaphore with
          mutex := none
          asleep := insert thread semaphore.asleep }, .sleeping)
  | pass {semaphore : Semaphore τ} (some : semaphore.count ≠ 0) :
      Moves thread (semaphore, .testing) (semaphore, .taking)
  | wakeUp {semaphore : Semaphore τ} (sleeps : thread ∈ semaphore.asleep) :
      Moves thread (semaphore, .sleeping)
        ({ semaphore with
          asleep := semaphore.asleep.erase thread
          woken := insert thread semaphore.woken }, .sleeping)
  | relock {semaphore : Semaphore τ} (woke : thread ∈ semaphore.woken)
      (free : semaphore.mutex = none) :
      Moves thread (semaphore, .sleeping)
        ({ semaphore with
          mutex := some thread
          woken := semaphore.woken.erase thread }, .testing)
  | take {semaphore : Semaphore τ} :
      Moves thread (semaphore, .taking)
        ({ semaphore with
          count := semaphore.count - 1
          waits := semaphore.waits + 1 }, .leaving)
  | leave {semaphore : Semaphore τ} :
      Moves thread (semaphore, .leaving) ({ semaphore with mutex := none }, .outside)

/-- Every atomic step is one of the cases. -/
theorem atomic_moves {thread : τ} {semaphore after : Semaphore τ} {before stage : Stage}
    {event : Event τ} (ran : atomic thread (semaphore, before) event = some (after, stage)) :
    Moves thread (semaphore, before) (after, stage) := by
  unfold atomic at ran
  split at ran
  all_goals rename_i same
  all_goals try obtain ⟨rfl, rfl⟩ := Prod.mk.inj same
  · split at ran
    · next n free =>
        cases ran
        exact .lock free (Or.inr ⟨n, rfl⟩)
    · cases ran
  · cases ran
    exact .add _
  · split at ran
    · next one =>
        obtain ⟨rfl, sleeps⟩ := one
        cases ran
        exact .notifyOne sleeps
    · cases ran
  · split at ran
    · next one =>
        subst one
        split at ran
        · next awake =>
            cases ran
            exact .notifyNone awake
        · cases ran
    · cases ran
      exact .notifyAll
  · split at ran
    · next free =>
        cases ran
        exact .lock free (Or.inl rfl)
    · cases ran
  · split at ran
    · next empty =>
        cases ran
        exact .sleep empty
    · next available =>
        cases ran
        exact .pass available
  · split at ran
    · next sleeps =>
        cases ran
        exact .wakeUp sleeps
    · cases ran
  · split at ran
    · next woke =>
        cases ran
        exact .relock woke.1 woke.2
    · cases ran
  · cases ran
    exact .take
  · cases ran
    exact .leave
  · cases ran

/-- The threads of a program around one semaphore. -/
abbrev State (τ : Type) := Threads (Semaphore τ) τ Stage

/-- The semaphore with the threads that use it. -/
def machine : Machine (State τ) (τ × Event τ) := Threads.interleave atomic

/-- A new semaphore and threads outside of it. -/
def start (initial : UInt64) : State τ where
  shared := new initial
  threads _ := .outside

/-- What a thread at a stage is to the mutex and to the condition variable. -/
structure Placed (thread : τ) (semaphore : Semaphore τ) (stage : Stage) : Prop where
  owner : stage ≠ .outside ∧ stage ≠ .sleeping ↔ semaphore.mutex = some thread
  waiter : stage = .sleeping ↔ thread ∈ semaphore.asleep ∨ thread ∈ semaphore.woken
  apart : thread ∈ semaphore.asleep → thread ∉ semaphore.woken
  available : stage = .taking → semaphore.count ≠ 0

/-- A step establishes the assertion for its own thread. -/
theorem Placed.own {thread : τ} {semaphore after : Semaphore τ} {before stage : Stage}
    (placed : Placed thread semaphore before)
    (moves : Moves thread (semaphore, before) (after, stage)) : Placed thread after stage := by
  obtain ⟨owner, waiter, apart, available⟩ := placed
  cases moves with
  | lock free call =>
      obtain rfl | ⟨n, rfl⟩ := call
      · exact ⟨by simp, by simpa using waiter, apart, by simp⟩
      · exact ⟨by simp, by simpa using waiter, apart, by simp⟩
  | add => exact ⟨by simpa using owner, by simpa using waiter, apart, by simp⟩
  | notifyOne sleeps => exact ⟨by simpa using owner, by grind, by grind, by simp⟩
  | notifyNone awake => exact ⟨by simpa using owner, by simpa using waiter, apart, by simp⟩
  | notifyAll => exact ⟨by simpa using owner, by grind, by simp, by simp⟩
  | sleep empty => exact ⟨by simp, by simp, by grind, by simp⟩
  | pass some => exact ⟨by simpa using owner, by simpa using waiter, apart, fun _ => some⟩
  | wakeUp sleeps => exact ⟨by simpa using owner, by simp, by simp, by simp⟩
  | relock woke free => exact ⟨by simp, by grind, by grind, by simp⟩
  | take => exact ⟨by simpa using owner, by simpa using waiter, apart, by simp⟩
  | leave => exact ⟨by simp, by simpa using waiter, apart, by simp⟩

/-- A step does not disturb the assertion of another thread. -/
theorem Placed.undisturbed {thread other : τ} {semaphore after : Semaphore τ}
    {before stage idle : Stage} (different : other ≠ thread)
    (own : Placed thread semaphore before) (placed : Placed other semaphore idle)
    (moves : Moves thread (semaphore, before) (after, stage)) : Placed other after idle := by
  obtain ⟨owner, waiter, apart, available⟩ := placed
  have owns := own.owner
  cases moves with
  | lock free call => exact ⟨by grind, waiter, apart, available⟩
  | add => exact ⟨owner, waiter, apart, by grind⟩
  | notifyOne sleeps => exact ⟨owner, by grind, by grind, available⟩
  | notifyNone awake => exact ⟨owner, waiter, apart, available⟩
  | notifyAll => exact ⟨owner, by grind, by grind, available⟩
  | sleep empty => exact ⟨by grind, by grind, by grind, available⟩
  | pass _ => exact ⟨owner, waiter, apart, available⟩
  | wakeUp sleeps => exact ⟨owner, by grind, by grind, available⟩
  | relock woke free => exact ⟨by grind, by grind, by grind, available⟩
  | take => exact ⟨owner, waiter, apart, by grind⟩
  | leave => exact ⟨by grind, waiter, apart, available⟩

theorem placed_of_reaches {allowed : State τ → τ × Event τ → Prop} {initial : UInt64}
    {state : State τ} (reached : machine.Reaches allowed (start initial) state) (thread : τ) :
    Placed thread state.shared (state.threads thread) :=
  Threads.reaches_assertions reached Placed
    (fun _ => ⟨by simp [start, new], by simp [start, new], by simp [start, new],
      by simp [start]⟩)
    (fun _ _ _ _ _ _ placed ran => (placed _).own (atomic_moves ran))
    (fun _ _ _ _ _ other different _ placed ran =>
      Placed.undisturbed different (placed _) (placed other) (atomic_moves ran)) thread

/-- The permits that the next step adds to the counter. -/
def Stage.added : Stage → UInt64
  | .adding n => n
  | _ => 0

/-- A post adds its permits without wrapping the counter around. -/
def NoWrap (state : State τ) (event : τ × Event τ) : Prop :=
  state.shared.count.toNat + (state.threads event.1).added.toNat < 2 ^ 64

instance (state : State τ) (event : τ × Event τ) : Decidable (NoWrap state event) :=
  inferInstanceAs (Decidable (_ < _))

/-- A count that is not 0 can be counted down. -/
theorem toNat_sub_one {count : UInt64} (some : count ≠ 0) :
    (count - 1).toNat + 1 = count.toNat := by
  have positive : 1 ≤ count.toNat :=
    Nat.one_le_iff_ne_zero.mpr fun zero => some (UInt64.toNat_inj.mp zero)
  have rest := UInt64.toNat_sub_of_le count 1 (UInt64.le_iff_toNat_le.mpr positive)
  rw [UInt64.toNat_one] at rest
  omega

/-- A step keeps the account of the permits unless it wraps the counter around. -/
theorem Moves.conserved_iff {thread : τ} {semaphore after : Semaphore τ} {before stage : Stage}
    (moves : Moves thread (semaphore, before) (after, stage))
    (placed : Placed thread semaphore before)
    (conserved : semaphore.count.toNat + semaphore.waits = semaphore.posted) :
    after.count.toNat + after.waits = after.posted ↔
      semaphore.count.toNat + before.added.toNat < 2 ^ 64 := by
  have within := UInt64.toNat_lt semaphore.count
  cases moves with
  | add n =>
      have bound := UInt64.toNat_lt (semaphore.count + n)
      rw [UInt64.toNat_add] at bound
      dsimp only [Stage.added]
      rw [UInt64.toNat_add]
      omega
  | take =>
      have taken := toNat_sub_one (placed.available rfl)
      refine iff_of_true ?_ within
      dsimp only
      omega
  | lock | notifyOne | notifyNone | notifyAll | sleep | pass | wakeUp | relock | leave =>
      exact iff_of_true conserved within

/-- The permits that the owner of the mutex is about to announce, or the one it is about
to take. -/
def Stage.credit : Stage → Nat
  | .notifying n => n.toNat
  | .testing | .taking => 1
  | .outside | .adding _ | .sleeping | .leaving => 0

/-- The credit of the owner of the mutex. -/
def credit (state : State τ) : Nat :=
  (state.shared.mutex.map fun owner => (state.threads owner).credit).getD 0

/-- While threads sleep, the permits left are for threads that are awake. -/
def Announced (state : State τ) : Prop :=
  state.shared.asleep.Nonempty →
    state.shared.count.toNat ≤ state.shared.woken.card + credit state

/-- **Every step** keeps the invariant. -/
theorem Announced.step {semaphore after : Semaphore τ} {threads : τ → Stage} {thread : τ}
    {stage : Stage} (announced : Announced ⟨semaphore, threads⟩)
    (placed : ∀ thread, Placed thread semaphore (threads thread))
    (moves : Moves thread (semaphore, threads thread) (after, stage)) :
    Announced ⟨after, Function.update threads thread stage⟩ := by
  unfold Announced at announced ⊢
  have owner := (placed thread).owner
  have held : semaphore.mutex = some thread →
      credit ⟨semaphore, threads⟩ = (threads thread).credit := by
    intro owns
    rw [credit, owns]
    rfl
  have holds : after.mutex = some thread →
      credit ⟨after, Function.update threads thread stage⟩ = stage.credit := by
    intro owns
    simp only [credit, owns, Option.map_some, Function.update_self, Option.getD_some]
  have free : semaphore.mutex = none → credit ⟨semaphore, threads⟩ = 0 := by
    intro unlocked
    rw [credit, unlocked]
    rfl
  have others : semaphore.mutex ≠ some thread → after.mutex = semaphore.mutex →
      credit ⟨after, Function.update threads thread stage⟩ = credit ⟨semaphore, threads⟩ := by
    intro elsewhere same
    rw [credit, credit]
    dsimp only
    rw [same]
    cases locked : semaphore.mutex with
    | none => rfl
    | some other =>
        have different : other ≠ thread := fun same => elsewhere (same ▸ locked)
        simp only [Option.map_some, Option.getD_some, Function.update_of_ne different]
  generalize own : threads thread = before at *
  intro sleeps
  dsimp only at announced sleeps ⊢
  cases moves with
  | lock unlocked call =>
      have left := announced sleeps
      rw [free unlocked] at left
      exact left.trans (Nat.le_add_right _ _)
  | add n =>
      have left := announced sleeps
      have owns := owner.mp (by simp)
      rw [held owns, Stage.credit] at left
      have wrapped := Nat.mod_le (semaphore.count.toNat + n.toNat) (2 ^ 64)
      dsimp only
      rw [holds owns, Stage.credit, UInt64.toNat_add]
      omega
  | @notifyOne _ sleeper member =>
      have left := announced ⟨sleeper, member⟩
      have owns := owner.mp (by simp)
      rw [held owns, Stage.credit, UInt64.toNat_one] at left
      rw [Finset.card_insert_of_notMem ((placed sleeper).apart member), holds owns, Stage.credit]
      exact left
  | notifyNone awake =>
      rw [awake] at sleeps
      exact absurd sleeps Finset.not_nonempty_empty
  | notifyAll => exact absurd sleeps Finset.not_nonempty_empty
  | sleep empty =>
      rw [empty]
      exact Nat.zero_le _
  | pass some =>
      have left := announced sleeps
      have owns := owner.mp (by simp)
      rw [held owns] at left
      rwa [holds owns]
  | wakeUp member =>
      have left := announced ⟨thread, member⟩
      have elsewhere : semaphore.mutex ≠ some thread := fun owns => (owner.mpr owns).2 rfl
      have more := Finset.card_le_card (Finset.subset_insert thread semaphore.woken)
      rw [others elsewhere rfl]
      exact left.trans (Nat.add_le_add_right more _)
  | relock woke unlocked =>
      have left := announced sleeps
      have fewer := Finset.card_erase_add_one woke
      rw [free unlocked] at left
      rw [holds rfl, Stage.credit]
      dsimp only
      omega
  | take =>
      have left := announced sleeps
      have owns := owner.mp (by simp)
      have taken := toNat_sub_one ((placed thread).available own)
      rw [held owns, Stage.credit] at left
      dsimp only
      omega
  | leave =>
      have left := announced sleeps
      rw [held (owner.mp (by simp)), Stage.credit] at left
      exact left

/-- The counter is the initial count with what was posted and not taken, and a wait blocks
only on consumed permits: one that finds no permit finds all of them consumed, and one that
sleeps while the mutex is free leaves no more than the threads already woken will take. -/
structure Conserves (initial : UInt64) (state : State τ) : Prop where
  permits : state.shared.count.toNat + state.shared.waits =
    initial.toNat + state.shared.posted
  blocks : ∀ thread, state.threads thread = .testing → state.shared.count = 0 →
    initial.toNat + state.shared.posted = state.shared.waits
  asleep : ∀ thread ∈ state.shared.asleep, state.shared.mutex = none →
    initial.toNat + state.shared.posted ≤ state.shared.waits + state.shared.woken.card

/-- What is kept from an empty semaphore on. -/
structure Kept (state : State τ) : Prop where
  conserved : state.shared.count.toNat + state.shared.waits = state.shared.posted
  announced : Announced state

omit [DecidableEq τ] in
/-- With the invariant permits are conserved. -/
theorem Kept.conserves {state : State τ} (kept : Kept state) : Conserves 0 state := by
  have permits := kept.conserved
  constructor
  · rw [UInt64.toNat_zero, Nat.zero_add]
    exact permits
  · intro thread _ empty
    rw [empty, UInt64.toNat_zero] at permits
    rw [UInt64.toNat_zero]
    omega
  · intro thread member unlocked
    have left := kept.announced ⟨thread, member⟩
    rw [credit, unlocked] at left
    change _ ≤ _ + 0 at left
    rw [UInt64.toNat_zero]
    omega

section Runs

variable {state next : State τ} {event : τ × Event τ}

/-- **One step** keeps the account exactly when it does not wrap the counter around. -/
theorem Kept.step_iff (kept : Kept state)
    (placed : ∀ thread, Placed thread state.shared (state.threads thread))
    (stepped : machine.step state event = some next) :
    next.shared.count.toNat + next.shared.waits = next.shared.posted ↔ NoWrap state event := by
  obtain ⟨thread, event⟩ := event
  obtain ⟨after, stage, ran, rfl⟩ := Threads.interleave_step stepped
  exact (atomic_moves ran).conserved_iff (placed thread) kept.conserved

theorem kept_of_reaches (reached : machine.Reaches NoWrap (start 0) state) : Kept state := by
  refine reached.invariant_given
    (fun state => ∀ thread, Placed thread state.shared (state.threads thread))
    (fun _ => placed_of_reaches) Kept ⟨rfl, fun sleeps => ?_⟩ ?_
  · exact absurd sleeps Finset.not_nonempty_empty
  · intro before event after placed kept fits stepped
    refine ⟨(kept.step_iff placed stepped).mpr fits, ?_⟩
    obtain ⟨thread, event⟩ := event
    obtain ⟨semaphore, stage, ran, rfl⟩ := Threads.interleave_step stepped
    exact kept.announced.step placed (atomic_moves ran)

/-- **Permits.** The account of the permits holds in every run in which no post wraps the
counter around exactly for the initial count zero; and in such a run it survives a step
exactly when the step does not wrap the counter around. -/
theorem permits_conserved_iff (initial : UInt64) :
    ((∀ state : State τ, machine.Reaches NoWrap (start initial) state →
        Conserves initial state) ↔ initial = 0) ∧
      ∀ (state next : State τ) (event : τ × Event τ), machine.Reaches NoWrap (start 0) state →
        machine.step state event = some next → (Conserves 0 next ↔ NoWrap state event) := by
  constructor
  · constructor
    · intro conserves
      -- the counter of a new semaphore is zero
      have permits := (conserves _ (.refl _)).permits
      change 0 + 0 = initial.toNat + 0 at permits
      exact UInt64.toNat_inj.mp permits.symm
    · intro zero state reached
      subst zero
      exact (kept_of_reaches reached).conserves
  · intro state next event reached stepped
    have kept := (kept_of_reaches reached).step_iff (placed_of_reaches reached) stepped
    constructor
    · intro conserves
      have permits := conserves.permits
      rw [UInt64.toNat_zero, Nat.zero_add] at permits
      exact kept.mp permits
    · intro fits
      have run : machine.Reaches NoWrap (start 0) next := reached.tail ⟨event, fits, stepped⟩
      exact (kept_of_reaches run).conserves

/-- Two permits are posted while a thread sleeps, and it takes one of them. -/
theorem permits_conserved_woken :
    ∃ state : State Nat, machine.execute NoWrap [(1, .wait), (1, .proceed), (0, .post 2),
        (0, .proceed), (0, .proceed), (0, .proceed), (1, .proceed), (1, .proceed), (1, .proceed),
        (1, .proceed)] (start 0) = some state ∧ state.shared.count = 1 ∧ Conserves 0 state := by
  have ran : ((machine (τ := Nat)).execute NoWrap [(1, .wait), (1, .proceed), (0, .post 2),
      (0, .proceed), (0, .proceed), (0, .proceed), (1, .proceed), (1, .proceed), (1, .proceed),
      (1, .proceed)] (start 0)).map (fun state => state.shared.count) = some 1 := by
    decide +kernel
  obtain ⟨state, reached, left⟩ := Option.map_eq_some_iff.mp ran
  exact ⟨state, reached, left,
    (permits_conserved_iff 0).1.mpr rfl state (Machine.reaches_of_execute reached)⟩

/-- A semaphore made with one permit has none. -/
theorem permits_not_conserved :
    ¬∀ state : State Nat, machine.Reaches Machine.anyStep (start 1) state →
      Conserves 1 state := by
  intro conserves
  have permits := (conserves _ (.refl _)).permits
  exact absurd permits (by decide)

end Runs

end Semaphore

end FastDb.Mutex
