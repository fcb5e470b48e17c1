import Mathlib.Algebra.Order.BigOperators.Group.Finset
import FastDb.Foundation.Threads

/-! # The reader-writer lock

`readWriteLock` of `common/mutex_utils.cppm`, its calls cut into their atomic steps:
the acquisitions and releases of the two mutexes and the tests of the counter. A
mutex is a binary lock with the thread that locked it; the calls of a thread are
nested pairs. Writers exclude readers and each other
(`FastDb.Mutex.ReadWriteLock.exclusion`). The write mutex is locked by the reader
that arrives first and unlocked by the one that leaves last, so every unlock is by
the owner in the runs in which these are the same thread
(`FastDb.Mutex.ReadWriteLock.unlocks_owned`).
-/

namespace FastDb.Mutex

open Foundation

/-- What a thread is inside of. -/
inductive Mode
  | read
  | write
  deriving DecidableEq

/-- Where a thread is in its call, named by what it does next. -/
inductive Stage
  /-- No call, or a call that has not passed its first lock. -/
  | outside
  /-- `readLock`: `if (++readCnt == 1)`. -/
  | counting
  /-- `readLock`: `writeMtx.lock()`. -/
  | claiming
  /-- `readLock`: `readMtx.unlock()`. -/
  | entering
  /-- `readUnlock`: `if (--readCnt == 0)`. -/
  | uncounting
  /-- `readUnlock`: `writeMtx.unlock()`. -/
  | releasing
  /-- `readUnlock`: `readMtx.unlock()`. -/
  | leaving
  deriving DecidableEq

/-- A thread: its stage, and the pairs it is inside of, innermost first. -/
structure Local where
  stage : Stage
  held : List Mode

/-- `readWriteLock`; the mutexes carry the threads that locked them. The opener is
history: the reader whose arrival made the counter one. -/
structure ReadWriteLock (τ : Type) where
  readMtx : Option τ
  writeMtx : Option τ
  readCnt : Int
  opener : Option τ

/-- The beginning of a call, or the next step of the one that is under way. -/
inductive Event
  | readLock
  | readUnlock
  | writeLock
  | writeUnlock
  | proceed
  deriving DecidableEq

namespace ReadWriteLock

variable {τ : Type}

/-- `readWriteLock()`. -/
def new : ReadWriteLock τ where
  readMtx := none
  writeMtx := none
  readCnt := 0
  opener := none

/-- One step of a thread; locking a locked mutex blocks. -/
def atomic (thread : τ) :
    ReadWriteLock τ × Local → Event → Option (ReadWriteLock τ × Local)
  | (lock, ⟨.outside, held⟩), .readLock =>
      if lock.readMtx = none then
        some ({ lock with readMtx := some thread }, ⟨.counting, held⟩)
      else none
  | (lock, ⟨.counting, held⟩), .proceed =>
      let readCnt := lock.readCnt + 1
      if readCnt = 1 then some ({ lock with readCnt, opener := some thread }, ⟨.claiming, held⟩)
      else some ({ lock with readCnt }, ⟨.entering, held⟩)
  | (lock, ⟨.claiming, held⟩), .proceed =>
      if lock.writeMtx = none then
        some ({ lock with writeMtx := some thread }, ⟨.entering, held⟩)
      else none
  | (lock, ⟨.entering, held⟩), .proceed =>
      some ({ lock with readMtx := none }, ⟨.outside, .read :: held⟩)
  | (lock, ⟨.outside, .read :: held⟩), .readUnlock =>
      if lock.readMtx = none then
        some ({ lock with readMtx := some thread }, ⟨.uncounting, held⟩)
      else none
  | (lock, ⟨.uncounting, held⟩), .proceed =>
      let readCnt := lock.readCnt - 1
      if readCnt = 0 then some ({ lock with readCnt }, ⟨.releasing, held⟩)
      else some ({ lock with readCnt }, ⟨.leaving, held⟩)
  | (lock, ⟨.releasing, held⟩), .proceed =>
      some ({ lock with writeMtx := none }, ⟨.leaving, held⟩)
  | (lock, ⟨.leaving, held⟩), .proceed =>
      some ({ lock with readMtx := none }, ⟨.outside, held⟩)
  | (lock, ⟨.outside, held⟩), .writeLock =>
      if lock.writeMtx = none then
        some ({ lock with writeMtx := some thread }, ⟨.outside, .write :: held⟩)
      else none
  | (lock, ⟨.outside, .write :: held⟩), .writeUnlock =>
      some ({ lock with writeMtx := none }, ⟨.outside, held⟩)
  | _, _ => none

/-- What one step of a thread does. -/
inductive Moves (thread : τ) : ReadWriteLock τ × Local → ReadWriteLock τ × Local → Prop
  | readLock {lock : ReadWriteLock τ} {held : List Mode} (free : lock.readMtx = none) :
      Moves thread (lock, ⟨.outside, held⟩)
        ({ lock with readMtx := some thread }, ⟨.counting, held⟩)
  | first {lock : ReadWriteLock τ} {held : List Mode} (only : lock.readCnt + 1 = 1) :
      Moves thread (lock, ⟨.counting, held⟩)
        ({ lock with readCnt := lock.readCnt + 1, opener := some thread }, ⟨.claiming, held⟩)
  | later {lock : ReadWriteLock τ} {held : List Mode} (more : lock.readCnt + 1 ≠ 1) :
      Moves thread (lock, ⟨.counting, held⟩)
        ({ lock with readCnt := lock.readCnt + 1 }, ⟨.entering, held⟩)
  | claim {lock : ReadWriteLock τ} {held : List Mode} (free : lock.writeMtx = none) :
      Moves thread (lock, ⟨.claiming, held⟩)
        ({ lock with writeMtx := some thread }, ⟨.entering, held⟩)
  | enter {lock : ReadWriteLock τ} {held : List Mode} :
      Moves thread (lock, ⟨.entering, held⟩)
        ({ lock with readMtx := none }, ⟨.outside, .read :: held⟩)
  | readUnlock {lock : ReadWriteLock τ} {held : List Mode} (free : lock.readMtx = none) :
      Moves thread (lock, ⟨.outside, .read :: held⟩)
        ({ lock with readMtx := some thread }, ⟨.uncounting, held⟩)
  | last {lock : ReadWriteLock τ} {held : List Mode} (none : lock.readCnt - 1 = 0) :
      Moves thread (lock, ⟨.uncounting, held⟩)
        ({ lock with readCnt := lock.readCnt - 1 }, ⟨.releasing, held⟩)
  | notLast {lock : ReadWriteLock τ} {held : List Mode} (some : lock.readCnt - 1 ≠ 0) :
      Moves thread (lock, ⟨.uncounting, held⟩)
        ({ lock with readCnt := lock.readCnt - 1 }, ⟨.leaving, held⟩)
  | release {lock : ReadWriteLock τ} {held : List Mode} :
      Moves thread (lock, ⟨.releasing, held⟩)
        ({ lock with writeMtx := none }, ⟨.leaving, held⟩)
  | leave {lock : ReadWriteLock τ} {held : List Mode} :
      Moves thread (lock, ⟨.leaving, held⟩)
        ({ lock with readMtx := none }, ⟨.outside, held⟩)
  | writeLock {lock : ReadWriteLock τ} {held : List Mode} (free : lock.writeMtx = none) :
      Moves thread (lock, ⟨.outside, held⟩)
        ({ lock with writeMtx := some thread }, ⟨.outside, .write :: held⟩)
  | writeUnlock {lock : ReadWriteLock τ} {held : List Mode} :
      Moves thread (lock, ⟨.outside, .write :: held⟩)
        ({ lock with writeMtx := none }, ⟨.outside, held⟩)

/-- Every atomic step is one of the cases. -/
theorem atomic_moves {thread : τ} {lock after : ReadWriteLock τ} {before locals : Local}
    {event : Event} (ran : atomic thread (lock, before) event = some (after, locals)) :
    Moves thread (lock, before) (after, locals) := by
  unfold atomic at ran
  split at ran
  all_goals rename_i same
  all_goals try obtain ⟨rfl, rfl⟩ := Prod.mk.inj same
  · split at ran
    · next free =>
        cases ran
        exact .readLock free
    · cases ran
  · dsimp only at ran
    split at ran
    · next only =>
        cases ran
        exact .first only
    · next more =>
        cases ran
        exact .later more
  · split at ran
    · next free =>
        cases ran
        exact .claim free
    · cases ran
  · cases ran
    exact .enter
  · split at ran
    · next free =>
        cases ran
        exact .readUnlock free
    · cases ran
  · dsimp only at ran
    split at ran
    · next zero =>
        cases ran
        exact .last zero
    · next more =>
        cases ran
        exact .notLast more
  · cases ran
    exact .release
  · cases ran
    exact .leave
  · split at ran
    · next free =>
        cases ran
        exact .writeLock free
    · cases ran
  · cases ran
    exact .writeUnlock
  · cases ran

/-- The threads of a program around one lock. -/
abbrev State (τ : Type) := Threads (ReadWriteLock τ) τ Local

/-- The lock with the threads that use it. -/
def machine [DecidableEq τ] : Machine (State τ) (τ × Event) := Threads.interleave atomic

/-- A new lock and threads outside of it. -/
def initial : State τ where
  shared := new
  threads _ := ⟨.outside, []⟩

/-- The thread is between `readLock` and `readUnlock`. -/
def Reading (state : State τ) (thread : τ) : Prop := .read ∈ (state.threads thread).held

/-- The thread is between `writeLock` and `writeUnlock`. -/
def Writing (state : State τ) (thread : τ) : Prop := .write ∈ (state.threads thread).held

/-- A thread in the critical section of `readMtx` is its owner, and what the counter
is there. -/
structure Critical (thread : τ) (lock : ReadWriteLock τ) (locals : Local) : Prop where
  owner : locals.stage ≠ .outside ↔ lock.readMtx = some thread
  claiming : locals.stage = .claiming → lock.readCnt = 1
  releasing : locals.stage = .releasing → lock.readCnt = 0

/-- A step establishes the assertion for its own thread. -/
theorem Critical.own {thread : τ} {lock after : ReadWriteLock τ} {before locals : Local}
    (critical : Critical thread lock before)
    (moves : Moves thread (lock, before) (after, locals)) : Critical thread after locals := by
  have owned := critical.owner
  cases moves with
  | readLock free => exact ⟨by simp, by simp, by simp⟩
  | first only => exact ⟨by simpa using owned, fun _ => only, by simp⟩
  | later more => exact ⟨by simpa using owned, by simp, by simp⟩
  | claim free => exact ⟨by simpa using owned, by simp, by simp⟩
  | enter => exact ⟨by simp, by simp, by simp⟩
  | readUnlock free => exact ⟨by simp, by simp, by simp⟩
  | last zero => exact ⟨by simpa using owned, by simp, fun _ => zero⟩
  | notLast more => exact ⟨by simpa using owned, by simp, by simp⟩
  | release => exact ⟨by simpa using owned, by simp, by simp⟩
  | leave => exact ⟨by simp, by simp, by simp⟩
  | writeLock free => exact ⟨by simpa using owned, by simp, by simp⟩
  | writeUnlock => exact ⟨by simpa using owned, by simp, by simp⟩

/-- A thread outside that does not own `readMtx`. -/
theorem Critical.of_outside {thread : τ} {lock : ReadWriteLock τ} {locals : Local}
    (outside : locals.stage = .outside) (notOwner : lock.readMtx ≠ some thread) :
    Critical thread lock locals where
  owner := ⟨fun inside => absurd outside inside, fun owner => absurd owner notOwner⟩
  claiming claims := by rw [outside] at claims; cases claims
  releasing releases := by rw [outside] at releases; cases releases

/-- A thread that does not own `readMtx` is outside. -/
theorem Critical.outside {thread : τ} {lock : ReadWriteLock τ} {locals : Local}
    (critical : Critical thread lock locals) (notOwner : lock.readMtx ≠ some thread) :
    locals.stage = .outside := by
  by_contra inside
  exact notOwner (critical.owner.mp inside)

/-- A step does not disturb the assertion of another thread. -/
theorem Critical.undisturbed {thread other : τ} {lock after : ReadWriteLock τ}
    {before locals idle : Local} (different : other ≠ thread)
    (own : Critical thread lock before) (critical : Critical other lock idle)
    (moves : Moves thread (lock, before) (after, locals)) : Critical other after idle := by
  have others : some thread ≠ some other := fun same => different (Option.some.inj same).symm
  have apart : before.stage ≠ .outside → lock.readMtx ≠ some other := by
    intro inside
    rw [own.owner.mp inside]
    exact others
  cases moves with
  | readLock free => exact .of_outside (critical.outside (by simp [free])) others
  | first only => exact .of_outside (critical.outside (apart (by simp))) (apart (by simp))
  | later more => exact .of_outside (critical.outside (apart (by simp))) (apart (by simp))
  | claim free => exact .of_outside (critical.outside (apart (by simp))) (apart (by simp))
  | enter => exact .of_outside (critical.outside (apart (by simp))) (by simp)
  | readUnlock free => exact .of_outside (critical.outside (by simp [free])) others
  | last zero => exact .of_outside (critical.outside (apart (by simp))) (apart (by simp))
  | notLast more => exact .of_outside (critical.outside (apart (by simp))) (apart (by simp))
  | release => exact .of_outside (critical.outside (apart (by simp))) (apart (by simp))
  | leave => exact .of_outside (critical.outside (apart (by simp))) (by simp)
  | writeLock free => exact ⟨critical.owner, critical.claiming, critical.releasing⟩
  | writeUnlock => exact ⟨critical.owner, critical.claiming, critical.releasing⟩

/-- Every thread is in the critical section exactly as the owner of `readMtx`. -/
theorem critical_of_reaches [DecidableEq τ] {allowed : State τ → τ × Event → Prop}
    {state : State τ} (reached : machine.Reaches allowed initial state) (thread : τ) :
    Critical thread state.shared (state.threads thread) :=
  Threads.reaches_assertions reached Critical
    (fun _ => .of_outside rfl (by simp [initial, new]))
    (fun _ _ _ _ _ _ critical ran => (critical _).own (atomic_moves ran))
    (fun _ _ _ _ _ other different _ critical ran =>
      Critical.undisturbed different (critical _) (critical other) (atomic_moves ran)) thread

/-- The arrivals a thread accounts for: its read pairs, and a call that has counted
and not returned or has not yet uncounted. -/
def arrivals (locals : Local) : Nat :=
  locals.held.count .read +
    match locals.stage with
    | .claiming | .entering | .uncounting => 1
    | _ => 0

/-- A reader that has opened the reading period without the write mutex. -/
def claims (locals : Local) : Nat := if locals.stage = .claiming then 1 else 0

/-- The holds of the write mutex a thread accounts for: its write pairs, and a reader
that has closed the reading period with the write mutex. -/
def holds (locals : Local) : Nat :=
  locals.held.count .write + if locals.stage = .releasing then 1 else 0

/-- The account of the counter and of the write mutex. -/
structure Accounted [Fintype τ] (state : State τ) : Prop where
  counted : state.shared.readCnt = ∑ thread, (arrivals (state.threads thread) : Int)
  locked : state.shared.writeMtx.isSome.toNat + ∑ thread, claims (state.threads thread) =
    ∑ thread, holds (state.threads thread) + if 0 < state.shared.readCnt then 1 else 0

/-- At most one reader is opening a period, and then the counter is one. -/
theorem claims_le [Fintype τ] {state : State τ}
    (critical : ∀ thread, Critical thread state.shared (state.threads thread)) :
    ∑ thread, claims (state.threads thread) ≤ if 0 < state.shared.readCnt then 1 else 0 := by
  by_cases opening : ∃ thread, (state.threads thread).stage = .claiming
  · obtain ⟨thread, claiming⟩ := opening
    have one := (critical thread).claiming claiming
    have owner : state.shared.readMtx = some thread :=
      (critical thread).owner.mp (by simp [claiming])
    rw [if_pos (by omega), Finset.sum_eq_single thread]
    · simp [claims, claiming]
    · intro other _ different
      have outside := (critical other).outside (by
        rw [owner]
        exact fun same => different (Option.some.inj same).symm)
      simp [claims, outside]
    · exact fun absent => absurd (Finset.mem_univ thread) absent
  · have none : ∑ thread, claims (state.threads thread) = 0 := by
      apply Finset.sum_eq_zero
      intro thread _
      exact if_neg fun claiming => opening ⟨thread, claiming⟩
    rw [none]
    exact Nat.zero_le _

theorem Accounted.arrivals_le [Fintype τ] {state : State τ} (accounted : Accounted state)
    (thread : τ) : (arrivals (state.threads thread) : Int) ≤ state.shared.readCnt := by
  rw [accounted.counted]
  exact Finset.single_le_sum (f := fun other => (arrivals (state.threads other) : Int))
    (fun _ _ => Int.natCast_nonneg _) (Finset.mem_univ thread)

/-- One holder is among all. -/
theorem holds_le_sum [Fintype τ] (state : State τ) (thread : τ) :
    holds (state.threads thread) ≤ ∑ other, holds (state.threads other) :=
  Finset.single_le_sum (f := fun other => holds (state.threads other))
    (fun _ _ => Nat.zero_le _) (Finset.mem_univ thread)

/-- What a step does to the counter, and to the arrivals of its thread. -/
theorem Moves.readCnt {thread : τ} {lock after : ReadWriteLock τ} {before locals : Local}
    (moves : Moves thread (lock, before) (after, locals)) :
    after.readCnt + arrivals before = lock.readCnt + arrivals locals := by
  cases moves <;> simp [arrivals] <;> omega

/-- What a step does to the write mutex, given the totals of the other threads. -/
theorem Moves.locked {thread : τ} {lock after : ReadWriteLock τ} {before locals : Local}
    (moves : Moves thread (lock, before) (after, locals)) (own : Critical thread lock before)
    (arrived : (arrivals before : Int) ≤ lock.readCnt) {opened opened' held held' : Nat}
    (claimed : opened' + claims before = opened + claims locals)
    (kept : held' + holds before = held + holds locals) (part : holds before ≤ held)
    (opening : opened ≤ if 0 < lock.readCnt then 1 else 0)
    (locked : lock.writeMtx.isSome.toNat + opened = held + if 0 < lock.readCnt then 1 else 0) :
    after.writeMtx.isSome.toNat + opened' = held' + if 0 < after.readCnt then 1 else 0 := by
  have binary := Bool.toNat_le lock.writeMtx.isSome
  cases moves with
  | readLock free =>
      simp [claims, holds] at *
      omega
  | first only =>
      have idle : lock.readCnt = 0 := by omega
      simp [claims, holds, idle] at *
      omega
  | later more =>
      have busy : 0 < lock.readCnt := by omega
      have busier : 0 < lock.readCnt + 1 := by omega
      simp [claims, holds, busy, busier] at *
      omega
  | claim free =>
      simp [claims, holds, free] at *
      omega
  | enter =>
      simp [claims, holds] at *
      omega
  | readUnlock free =>
      simp [claims, holds] at *
      omega
  | last zero =>
      have one : lock.readCnt = 1 := by omega
      simp [claims, holds, one] at *
      omega
  | notLast more =>
      have counted : 1 ≤ lock.readCnt := by
        simp [arrivals] at arrived
        omega
      have busy : 0 < lock.readCnt := by omega
      have still : 0 < lock.readCnt - 1 := by omega
      simp only [claims, holds, busy, still, ↓reduceIte, reduceCtorEq] at *
      omega
  | release =>
      simp [claims, holds] at *
      omega
  | leave =>
      simp [claims, holds] at *
      omega
  | writeLock free =>
      simp [claims, holds, free] at *
      omega
  | writeUnlock =>
      simp [claims, holds] at *
      omega

/-- A thread inside of a write pair holds the write mutex by it. -/
theorem holds_of_writing {state : State τ} {thread : τ}
    (writing : Writing state thread) :
    1 ≤ holds (state.threads thread) :=
  Nat.le_add_right_of_le (List.count_pos_iff.mpr writing)

/-- While a thread is inside of a write pair, it is the only one, and there are as
many openings as reading periods. -/
theorem sum_of_writing [Fintype τ] {state : State τ} (accounted : Accounted state)
    (critical : ∀ thread, Critical thread state.shared (state.threads thread)) {writer : τ}
    (writing : Writing state writer) :
    ∑ thread, holds (state.threads thread) = 1 ∧
      ∑ thread, claims (state.threads thread) = if 0 < state.shared.readCnt then 1 else 0 := by
  have locked := accounted.locked
  have binary := Bool.toNat_le state.shared.writeMtx.isSome
  have opening := claims_le critical
  have part := holds_le_sum state writer
  have holding := holds_of_writing writing
  omega

/-- The write mutex is held once at most. -/
theorem sum_holds_le [Fintype τ] {state : State τ} (accounted : Accounted state)
    (critical : ∀ thread, Critical thread state.shared (state.threads thread)) :
    ∑ thread, holds (state.threads thread) ≤ 1 := by
  have locked := accounted.locked
  have binary := Bool.toNat_le state.shared.writeMtx.isSome
  have opening := claims_le critical
  omega

section Runs

variable [DecidableEq τ] [Fintype τ] {allowed : State τ → τ × Event → Prop} {state : State τ}

/-- **One step** keeps the account. -/
theorem Accounted.step {lock after : ReadWriteLock τ} {threads : τ → Local}
    (accounted : Accounted ⟨lock, threads⟩)
    (critical : ∀ thread, Critical thread lock (threads thread)) {thread : τ} {locals : Local}
    (moves : Moves thread (lock, threads thread) (after, locals)) :
    Accounted ⟨after, Function.update threads thread locals⟩ := by
  have part : (arrivals (threads thread) : Int) ≤ lock.readCnt := accounted.arrivals_le thread
  obtain ⟨counted, locked⟩ := accounted
  have arrived := Threads.sum_update (fun locals => (arrivals locals : Int)) threads thread locals
  have change := moves.readCnt
  constructor
  · dsimp only at counted arrived ⊢
    omega
  · have opening : ∑ thread, claims (threads thread) ≤ if 0 < lock.readCnt then 1 else 0 :=
      @claims_le τ _ ⟨lock, threads⟩ critical
    exact moves.locked (critical thread) part (Threads.sum_update claims threads thread locals)
      (Threads.sum_update holds threads thread locals) (holds_le_sum ⟨lock, threads⟩ thread)
      opening locked

theorem accounted_of_reaches (reached : machine.Reaches allowed initial state) :
    Accounted state := by
  refine Threads.reaches_invariant_given reached
    (fun state => ∀ thread, Critical thread state.shared (state.threads thread))
    (fun _ => critical_of_reaches) Accounted ⟨?_, ?_⟩ ?_
  · simp [initial, new, arrivals]
  · simp [initial, new, claims, holds]
  · intro lock threads thread event after locals critical accounted _ ran
    exact accounted.step critical (atomic_moves ran)

/-- What the account says of the threads that hold the write mutex. -/
structure Sole (lock : ReadWriteLock τ) (threads : τ → Local) : Prop where
  alone : ∀ one other, (.write ∈ (threads one).held ∨ (threads one).stage = .releasing) →
    (.write ∈ (threads other).held ∨ (threads other).stage = .releasing) → one = other
  apart : ∀ thread, .write ∈ (threads thread).held → (threads thread).stage ≠ .releasing
  once : ∀ thread rest, (threads thread).held = .write :: rest → .write ∉ rest
  blocked : ∀ thread, .write ∈ (threads thread).held → 0 < lock.readCnt →
    ∃ first, (threads first).stage = .claiming
  counted : 0 ≤ lock.readCnt

/-- The account leaves the write mutex to one thread. -/
theorem Accounted.sole {lock : ReadWriteLock τ} {threads : τ → Local}
    (accounted : Accounted ⟨lock, threads⟩)
    (critical : ∀ thread, Critical thread lock (threads thread)) : Sole lock threads := by
  have total : ∑ thread, holds (threads thread) ≤ 1 := sum_holds_le accounted critical
  have single (thread) : holds (threads thread) ≤ 1 :=
    le_trans (holds_le_sum ⟨lock, threads⟩ thread) total
  have holding (thread) (has : .write ∈ (threads thread).held ∨
      (threads thread).stage = .releasing) : 1 ≤ holds (threads thread) := by
    rcases has with writing | releasing
    · exact Nat.le_add_right_of_le (List.count_pos_iff.mpr writing)
    · simp [holds, releasing]
  constructor
  · intro one other left right
    by_contra different
    have two : holds (threads one) + holds (threads other) ≤ ∑ thread, holds (threads thread) :=
      Finset.add_le_sum (f := fun thread => holds (threads thread))
        (fun _ _ => Nat.zero_le _) (Finset.mem_univ one) (Finset.mem_univ other) different
    have first := holding one left
    have second := holding other right
    omega
  · intro thread writing releasing
    have present := List.count_pos_iff.mpr writing
    have one := single thread
    rw [holds, if_pos releasing] at one
    omega
  · intro thread rest spelled again
    have present := List.count_pos_iff.mpr again
    have one := single thread
    rw [holds, spelled, List.count_cons_self] at one
    omega
  · intro thread writing busy
    have opened := (sum_of_writing accounted critical writing).2
    rw [if_pos busy] at opened
    obtain ⟨first, -, claiming⟩ := Finset.exists_ne_zero_of_sum_ne_zero
      (opened ▸ Nat.one_ne_zero)
    refine ⟨first, ?_⟩
    by_contra elsewhere
    exact claiming (if_neg elsewhere)
  · have counted : lock.readCnt = ∑ thread, (arrivals (threads thread) : Int) := accounted.counted
    rw [counted]
    exact Finset.sum_nonneg fun _ _ => Int.natCast_nonneg _

/-- While a reader is opening a period, no reader is inside. -/
theorem Accounted.not_reading (accounted : Accounted state)
    (critical : ∀ thread, Critical thread state.shared (state.threads thread)) {first : τ}
    (claiming : (state.threads first).stage = .claiming) (reader : τ) :
    ¬ Reading state reader := by
  intro reading
  have one := (critical first).claiming claiming
  have counted := accounted.counted
  have present : 1 ≤ (state.threads reader).held.count .read := List.count_pos_iff.mpr reading
  have arriving : arrivals (state.threads first) =
      (state.threads first).held.count .read + 1 := by
    simp [arrivals, claiming]
  by_cases same : reader = first
  · subst same
    have part := accounted.arrivals_le reader
    omega
  · have two : (arrivals (state.threads reader) : Int) + arrivals (state.threads first) ≤
        state.shared.readCnt := by
      rw [counted]
      exact Finset.add_le_sum (f := fun other => (arrivals (state.threads other) : Int))
        (fun _ _ => Int.natCast_nonneg _) (Finset.mem_univ reader) (Finset.mem_univ first) same
    have reads : (state.threads reader).held.count .read ≤ arrivals (state.threads reader) :=
      Nat.le_add_right _ _
    omega

/-- **Exclusion.** In every interleaving, while a thread is between `writeLock` and
`writeUnlock` no reader and no other writer is inside, and outside of the critical
section of `readMtx` the counter is the number of readers inside. -/
theorem exclusion (reached : machine.Reaches Machine.anyStep initial state) :
    (∀ writer, Writing state writer → (∀ reader, ¬ Reading state reader) ∧
      ∀ other, Writing state other → other = writer) ∧
      (state.shared.readMtx = none → state.shared.readCnt =
        ∑ thread, ((state.threads thread).held.count .read : Int)) := by
  have accounted := accounted_of_reaches reached
  have critical := critical_of_reaches reached
  have sole : Sole state.shared state.threads := accounted.sole critical
  refine ⟨fun writer writing => ⟨fun reader reading => ?_, fun other also => ?_⟩, fun free => ?_⟩
  · have inside := accounted.arrivals_le reader
    have present : 1 ≤ (state.threads reader).held.count .read := List.count_pos_iff.mpr reading
    have busy : 0 < state.shared.readCnt := by
      unfold arrivals at inside
      omega
    -- the period of this reader is being opened, by a reader that is not inside yet
    obtain ⟨first, claiming⟩ := sole.blocked writer writing busy
    exact accounted.not_reading critical claiming reader reading
  · exact sole.alone other writer (.inl also) (.inl writing)
  · rw [accounted.counted]
    refine Finset.sum_congr rfl fun thread _ => ?_
    have outside := (critical thread).outside (by simp [free])
    simp [arrivals, outside]

/-- Two readers are inside while a writer waits. -/
theorem exclusion_two_readers :
    ∃ state : State (Fin 3), machine.execute Machine.anyStep
        [(0, .readLock), (0, .proceed), (0, .proceed), (0, .proceed),
          (1, .readLock), (1, .proceed), (1, .proceed)] initial = some state ∧
      state.shared.readCnt = 2 ∧ ¬ Writing state 2 ∧ machine.step state (2, .writeLock) = none ∧
      state.shared.readCnt = ∑ thread, ((state.threads thread).held.count .read : Int) := by
  have ran : (machine.execute Machine.anyStep
      [(0, .readLock), (0, .proceed), (0, .proceed), (0, .proceed),
        (1, .readLock), (1, .proceed), (1, .proceed)]
      (initial : State (Fin 3))).map (fun state => decide (state.shared.readMtx = none ∧
        state.shared.readCnt = 2 ∧ .read ∈ (state.threads 0).held ∧
        (machine.step state (2, .writeLock)).isNone)) = some true := by
    decide +kernel
  obtain ⟨state, executed, checked⟩ := Option.map_eq_some_iff.mp ran
  obtain ⟨free, two, inside, waits⟩ := of_decide_eq_true checked
  obtain ⟨excludes, counts⟩ := exclusion (Machine.reaches_of_execute executed)
  exact ⟨state, executed, two, fun writing => (excludes 2 writing).1 0 inside,
    Option.isNone_iff_eq_none.mp waits, counts free⟩

/-- Every unlock that a thread is about to perform is of a mutex it owns. -/
structure UnlocksOwned (state : State τ) : Prop where
  readLock : ∀ thread, (state.threads thread).stage = .entering →
    state.shared.readMtx = some thread
  readUnlock : ∀ thread, (state.threads thread).stage = .leaving →
    state.shared.readMtx = some thread
  release : ∀ thread, (state.threads thread).stage = .releasing →
    state.shared.writeMtx = some thread
  writeUnlock : ∀ thread, (state.threads thread).stage = .outside →
    (state.threads thread).held.head? = some .write → state.shared.writeMtx = some thread

/-- The reader that brings the counter to zero is the one that made it one. -/
def LastIsFirst (state : State τ) (event : τ × Event) : Prop :=
  (state.threads event.1).stage = .uncounting → state.shared.readCnt = 1 →
    state.shared.opener = some event.1

instance (state : State τ) (event : τ × Event) : Decidable (LastIsFirst state event) :=
  inferInstanceAs (Decidable ((state.threads event.1).stage = .uncounting →
    state.shared.readCnt = 1 → state.shared.opener = some event.1))

/-- Who holds the write mutex: the writer inside, the reader that closes a reading
period, and during a period the reader that opened it. -/
structure Owned (lock : ReadWriteLock τ) (threads : τ → Local) : Prop where
  writers : ∀ thread, .write ∈ (threads thread).held → lock.writeMtx = some thread
  opening : ∀ thread, (threads thread).stage = .claiming → lock.opener = some thread
  closing : ∀ thread, (threads thread).stage = .releasing → lock.writeMtx = some thread
  period : 0 < lock.readCnt → (∀ thread, (threads thread).stage ≠ .claiming) →
    ∃ opener, lock.opener = some opener ∧ lock.writeMtx = some opener

omit [Fintype τ] in
/-- **One step** keeps the owners. -/
theorem Owned.step {lock after : ReadWriteLock τ} {threads : τ → Local}
    (owned : Owned lock threads) (sole : Sole lock threads)
    (critical : ∀ thread, Critical thread lock (threads thread)) {thread : τ}
    {before locals : Local}
    (spelled : threads thread = before)
    (lastIsFirst : before.stage = .uncounting → lock.readCnt = 1 → lock.opener = some thread)
    (moves : Moves thread (lock, before) (after, locals)) :
    Owned after (Function.update threads thread locals) := by
  obtain ⟨writers, opening, closing, period⟩ := owned
  obtain ⟨alone, apart, once, blocked, counted⟩ := sole
  have outside : ∀ other, lock.readMtx ≠ some other → (threads other).stage = .outside :=
    fun other => (critical other).outside
  have owner : ∀ other, (threads other).stage ≠ .outside → lock.readMtx = some other :=
    fun other => (critical other).owner.mp
  have releasing : ∀ other, (threads other).stage = .releasing → lock.readCnt = 0 :=
    fun other => (critical other).releasing
  have claiming : ∀ other, (threads other).stage = .claiming → lock.readCnt = 1 :=
    fun other => (critical other).claiming
  have others (none : ∀ other, (Function.update threads thread locals other).stage ≠ .claiming)
      (own : (threads thread).stage ≠ .claiming) (other) : (threads other).stage ≠ .claiming := by
    by_cases same : other = thread
    · exact same ▸ own
    · simpa [Function.update_of_ne same] using none other
  cases moves with
  | readLock free => constructor <;> grind
  | first only =>
      constructor
      · grind
      · grind
      · grind
      · intro _ none
        exact absurd (by simp) (none thread)
  | later more => constructor <;> grind
  | claim free => constructor <;> grind
  | enter => constructor <;> grind
  | readUnlock free => constructor <;> grind
  | last zero => constructor <;> grind
  | notLast more => constructor <;> grind
  | release => constructor <;> grind
  | leave => constructor <;> grind
  | writeLock free =>
      constructor
      · grind
      · grind
      · grind
      · intro busy none
        -- with the mutex free, the period is still being opened, by another thread
        obtain ⟨opener, -, owner⟩ := period busy (others none (by simp [spelled]))
        exact absurd (free.symm.trans owner) (by simp)
  | writeUnlock =>
      constructor
      · grind
      · grind
      · grind
      · intro busy none
        obtain ⟨first, claims⟩ := blocked thread (by simp [spelled]) busy
        exact absurd claims (others none (by simp [spelled]) first)

theorem owned_of_reaches (reached : machine.Reaches LastIsFirst initial state) :
    Owned state.shared state.threads := by
  refine Threads.reaches_invariant_given reached
    (fun state => Accounted state ∧ ∀ thread, Critical thread state.shared (state.threads thread))
    (fun _ run => ⟨accounted_of_reaches run, critical_of_reaches run⟩)
    (fun state => Owned state.shared state.threads) ⟨?_, ?_, ?_, ?_⟩ ?_
  · simp [initial]
  · simp [initial]
  · simp [initial]
  · simp [initial, new]
  · intro lock threads thread event after locals known owned meets ran
    obtain ⟨accounted, critical⟩ := known
    exact owned.step (accounted.sole critical) critical rfl meets (atomic_moves ran)

/-- **Ownership.** In every interleaving in which the reader that leaves last is the one
that arrived first, every unlock is by the owner of its mutex. The first step that is
not so leads to an unlock by another thread. -/
theorem unlocks_owned (reached : machine.Reaches LastIsFirst initial state) :
    UnlocksOwned state ∧ ∀ event next, ¬ LastIsFirst state event →
      machine.step state event = some next → ¬ UnlocksOwned next := by
  have owned := owned_of_reaches reached
  have critical := critical_of_reaches reached
  refine ⟨⟨?_, ?_, owned.closing, ?_⟩, ?_⟩
  · intro thread entering
    exact (critical thread).owner.mp (by simp [entering])
  · intro thread leaving
    exact (critical thread).owner.mp (by simp [leaving])
  · intro thread _ innermost
    exact owned.writers thread (List.mem_of_mem_head? innermost)
  · intro event next fails stepped unlocks
    obtain ⟨lock, threads⟩ := state
    obtain ⟨thread, event⟩ := event
    obtain ⟨uncounting, one, other⟩ : (threads thread).stage = .uncounting ∧ lock.readCnt = 1 ∧
        lock.opener ≠ some thread := by
      simpa [LastIsFirst] using fails
    -- nobody else is in the critical section, so the period is open
    have opened : ∀ first, (threads first).stage ≠ .claiming := by
      intro first claiming
      have owner := (critical thread).owner.mp (by simp [uncounting])
      have also := (critical first).owner.mp (by simp [claiming])
      have same : first = thread := Option.some.inj (also.symm.trans owner)
      rw [same, uncounting] at claiming
      cases claiming
    obtain ⟨opener, arrived, holder⟩ := owned.period (by simp [one]) opened
    obtain ⟨shared, locals, ran, rfl⟩ := Threads.interleave_step stepped
    have moves := atomic_moves ran
    rcases spelled : threads thread with ⟨stage, held⟩
    simp only [spelled] at uncounting moves
    subst uncounting
    cases moves with
    | last zero =>
        have release : lock.writeMtx = some thread := by
          simpa using unlocks.release thread (by simp)
        exact other (arrived.trans (holder.symm.trans release))
    | notLast more => exact more (by simp [one])

/-- The reader that came first leaves last. -/
theorem unlocks_owned_nested :
    ∃ state : State (Fin 2), machine.execute LastIsFirst
        [(0, .readLock), (0, .proceed), (0, .proceed), (0, .proceed),
          (1, .readLock), (1, .proceed), (1, .proceed),
          (1, .readUnlock), (1, .proceed), (1, .proceed),
          (0, .readUnlock), (0, .proceed)] initial = some state ∧
      (state.threads 0).stage = .releasing ∧ state.shared.writeMtx = some 0 := by
  have ran : (machine.execute LastIsFirst
      [(0, .readLock), (0, .proceed), (0, .proceed), (0, .proceed),
        (1, .readLock), (1, .proceed), (1, .proceed),
        (1, .readUnlock), (1, .proceed), (1, .proceed),
        (0, .readUnlock), (0, .proceed)]
      (initial : State (Fin 2))).map (fun state => decide
        ((state.threads 0).stage = .releasing)) = some true := by
    decide +kernel
  obtain ⟨state, executed, checked⟩ := Option.map_eq_some_iff.mp ran
  have releasing := of_decide_eq_true checked
  exact ⟨state, executed, releasing,
    (unlocks_owned (Machine.reaches_of_execute executed)).1.release 0 releasing⟩

/-- The reader that came first leaves first, and the other one unlocks its mutex. -/
theorem unlocks_overlapping :
    ∃ state : State (Fin 2), machine.execute Machine.anyStep
        [(0, .readLock), (0, .proceed), (0, .proceed), (0, .proceed),
          (1, .readLock), (1, .proceed), (1, .proceed),
          (0, .readUnlock), (0, .proceed), (0, .proceed),
          (1, .readUnlock), (1, .proceed)] initial = some state ∧
      (state.threads 1).stage = .releasing ∧ state.shared.writeMtx = some 0 ∧
      ¬ UnlocksOwned state := by
  have ran : (machine.execute Machine.anyStep
      [(0, .readLock), (0, .proceed), (0, .proceed), (0, .proceed),
        (1, .readLock), (1, .proceed), (1, .proceed),
        (0, .readUnlock), (0, .proceed), (0, .proceed),
        (1, .readUnlock), (1, .proceed)]
      (initial : State (Fin 2))).map (fun state => decide
        ((state.threads 1).stage = .releasing ∧ state.shared.writeMtx = some 0)) = some true := by
    decide +kernel
  obtain ⟨state, executed, checked⟩ := Option.map_eq_some_iff.mp ran
  obtain ⟨releasing, holder⟩ := of_decide_eq_true checked
  refine ⟨state, executed, releasing, holder, fun unlocks => ?_⟩
  have own := unlocks.release 1 releasing
  rw [holder] at own
  cases own

end Runs

end ReadWriteLock

end FastDb.Mutex
