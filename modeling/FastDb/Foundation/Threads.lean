import Mathlib.Algebra.BigOperators.Group.Finset.Piecewise
import Mathlib.Data.Fintype.BigOperators
import FastDb.Foundation.Machine

/-! # Threads over a shared memory

Threads with local states take turns at a shared memory; a run interleaves their
atomic steps in any order (`Foundation.Threads.interleave`). An invariant of the
memory and all threads is kept along the runs when every atomic step keeps it
(`Foundation.Threads.reaches_invariant`). Two rules help to state one. An assertion
about the memory and one thread's local state holds of every thread when a step
establishes it for its own thread and does not disturb it for the others
(`Foundation.Threads.reaches_assertions`). A total over the threads changes with a
step by what the step changes in the local state of its thread
(`Foundation.Threads.sum_update`), so that an account of what the threads carry is
kept by the steps that balance (`Foundation.Threads.account_update`). A lock guards the
places of the code where its owner is (`Foundation.Guards`) as the parties lock, move on and
unlock; the parties may be a worker and the threads that call it (`Foundation.Party`).
-/

namespace Foundation

/-- A shared memory and the local state of every thread. -/
structure Threads (σ τ L : Type*) where
  shared : σ
  threads : τ → L

namespace Threads

variable {σ τ L ε : Type*} [DecidableEq τ]

/-- The interleavings of the atomic steps of the threads. -/
def interleave (atomic : τ → σ × L → ε → Option (σ × L)) : Machine (Threads σ τ L) (τ × ε) where
  step state event :=
    (atomic event.1 (state.shared, state.threads event.1) event.2).map fun after =>
      ⟨after.1, Function.update state.threads event.1 after.2⟩

variable {atomic : τ → σ × L → ε → Option (σ × L)}

/-- A step of an interleaving is an atomic step of one thread. -/
theorem interleave_step {state next : Threads σ τ L} {thread : τ} {event : ε}
    (stepped : (interleave atomic).step state (thread, event) = some next) :
    ∃ shared locals, atomic thread (state.shared, state.threads thread) event =
        some (shared, locals) ∧
      next = ⟨shared, Function.update state.threads thread locals⟩ := by
  obtain ⟨⟨shared, locals⟩, ran, rfl⟩ := Option.map_eq_some_iff.mp stepped
  exact ⟨shared, locals, ran, rfl⟩

/-- **Invariants** of the memory and all threads, whose steps may use what is known of all
reachable states. -/
theorem reaches_invariant_given {allowed : Threads σ τ L → τ × ε → Prop}
    {first last : Threads σ τ L} (run : (interleave atomic).Reaches allowed first last)
    (known : Threads σ τ L → Prop)
    (always : ∀ state, (interleave atomic).Reaches allowed first state → known state)
    (holds : Threads σ τ L → Prop) (initially : holds first)
    (kept : ∀ shared threads thread event after locals, known ⟨shared, threads⟩ →
      holds ⟨shared, threads⟩ → allowed ⟨shared, threads⟩ (thread, event) →
      atomic thread (shared, threads thread) event = some (after, locals) →
      holds ⟨after, Function.update threads thread locals⟩) : holds last := by
  refine run.invariant_given known always holds initially ?_
  intro before event after knows held meets stepped
  obtain ⟨shared, threads⟩ := before
  obtain ⟨thread, event⟩ := event
  obtain ⟨next, locals, ran, rfl⟩ := interleave_step stepped
  exact kept shared threads thread event next locals knows held meets ran

/-- **Invariants** of the memory and all threads. -/
theorem reaches_invariant {allowed : Threads σ τ L → τ × ε → Prop} {first last : Threads σ τ L}
    (run : (interleave atomic).Reaches allowed first last) (holds : Threads σ τ L → Prop)
    (initially : holds first)
    (kept : ∀ shared threads thread event after locals, holds ⟨shared, threads⟩ →
      allowed ⟨shared, threads⟩ (thread, event) →
      atomic thread (shared, threads thread) event = some (after, locals) →
      holds ⟨after, Function.update threads thread locals⟩) : holds last :=
  reaches_invariant_given run (fun _ => True) (fun _ _ => trivial) holds initially
    fun shared threads thread event after locals _ =>
      kept shared threads thread event after locals

/-- **Assertions.** What holds of every thread at first, is established by each step
for its own thread and is not disturbed for the others, holds of every thread. -/
theorem reaches_assertions {allowed : Threads σ τ L → τ × ε → Prop} {first last : Threads σ τ L}
    (run : (interleave atomic).Reaches allowed first last) (assertion : τ → σ → L → Prop)
    (initially : ∀ thread, assertion thread first.shared (first.threads thread))
    (own : ∀ state thread event shared locals, allowed state (thread, event) →
      (∀ other, assertion other state.shared (state.threads other)) →
      atomic thread (state.shared, state.threads thread) event = some (shared, locals) →
      assertion thread shared locals)
    (undisturbed : ∀ state thread event shared locals other, other ≠ thread →
      allowed state (thread, event) →
      (∀ other, assertion other state.shared (state.threads other)) →
      atomic thread (state.shared, state.threads thread) event = some (shared, locals) →
      assertion other shared (state.threads other)) (thread : τ) :
    assertion thread last.shared (last.threads thread) := by
  refine reaches_invariant run
    (fun state => ∀ thread, assertion thread state.shared (state.threads thread))
    initially ?_ thread
  intro shared threads thread event after locals holds meets ran other
  by_cases same : other = thread
  · subst same
    simp only [Function.update_self]
    exact own ⟨shared, threads⟩ other event after locals meets holds ran
  · simp only [Function.update_of_ne same]
    exact undisturbed ⟨shared, threads⟩ thread event after locals other same meets holds ran

/-- **Totals.** Replacing one local state replaces its summand. -/
theorem sum_update {M : Type*} [AddCommMonoid M] [Fintype τ] (weight : L → M) (threads : τ → L)
    (thread : τ) (locals : L) :
    ∑ other, weight (Function.update threads thread locals other) + weight (threads thread) =
      ∑ other, weight (threads other) + weight locals := by
  have others : ∑ other ∈ Finset.univ.erase thread,
      weight (Function.update threads thread locals other) =
        ∑ other ∈ Finset.univ.erase thread, weight (threads other) :=
    Finset.sum_congr rfl fun other member => by
      rw [Function.update_of_ne (Finset.ne_of_mem_erase member)]
  rw [← Finset.add_sum_erase _ _ (Finset.mem_univ thread), others, Function.update_self,
    ← Finset.add_sum_erase _ (fun other => weight (threads other)) (Finset.mem_univ thread)]
  ac_rfl

/-- **Accounts.** What came in is what is held and what the threads carry, and stays so
with a step that balances for its own thread. -/
theorem account_update {M : Type*} [AddCancelCommMonoid M] [Fintype τ] {weight : L → M}
    {threads : τ → L} {thread : τ} {locals : L} {incoming incoming' held held' : M}
    (account : incoming = held + ∑ other, weight (threads other))
    (change : incoming' + weight (threads thread) + held = incoming + weight locals + held') :
    incoming' = held' + ∑ other, weight (Function.update threads thread locals other) := by
  have total := sum_update weight threads thread locals
  apply add_right_cancel (b := weight (threads thread) + held)
  calc incoming' + (weight (threads thread) + held)
      = incoming + weight locals + held' := by rw [← change, add_assoc]
    _ = held' + (∑ other, weight (threads other) + weight locals) + held := by
        rw [account]
        ac_rfl
    _ = held' + ∑ other, weight (Function.update threads thread locals other) +
          (weight (threads thread) + held) := by
        rw [← total]
        ac_rfl

end Threads

/-- The owner of the lock is the one party that is where the lock is held. -/
def Guards {π : Type*} (lock : Option π) (holds : π → Prop) : Prop :=
  ∀ party, lock = some party ↔ holds party

namespace Guards

variable {π : Type*} {lock : Option π} {holds next : π → Prop}

/-- Nobody holds a free lock. -/
theorem free (guards : Guards lock holds) (nobody : ∀ party, ¬holds party) : lock = none :=
  Option.eq_none_iff_forall_ne_some.mpr fun party owns => nobody party ((guards party).mp owns)

/-- Two parties do not hold the lock. -/
theorem unique (guards : Guards lock holds) {party other : π} (held : holds party)
    (heldToo : holds other) : party = other :=
  Option.some.inj (((guards party).mpr held).symm.trans ((guards other).mpr heldToo))

/-- A party takes a free lock. -/
theorem acquire (guards : Guards none holds) (party : π) (held : next party)
    (others : ∀ other, other ≠ party → (next other ↔ holds other)) :
    Guards (some party) next := by
  intro other
  by_cases same : other = party
  · subst same
    exact ⟨fun _ => held, fun _ => rfl⟩
  · constructor
    · intro owns
      exact absurd (Option.some.inj owns).symm same
    · intro heldToo
      exact absurd ((guards other).mpr ((others other same).mp heldToo)) (by simp)

/-- A party leaves the lock. -/
theorem release (guards : Guards lock holds) (party : π) (held : holds party)
    (left : ¬next party) (others : ∀ other, other ≠ party → (next other ↔ holds other)) :
    Guards none next := by
  intro other
  refine ⟨fun owns => (nomatch owns), fun heldToo => ?_⟩
  by_cases same : other = party
  · exact absurd (same ▸ heldToo) left
  · exact absurd (guards.unique held ((others other same).mp heldToo)).symm same

/-- A party moves on, with the lock or without it. -/
theorem move (guards : Guards lock holds) (party : π) (own : next party ↔ holds party)
    (others : ∀ other, other ≠ party → (next other ↔ holds other)) : Guards lock next := by
  intro other
  by_cases same : other = party
  · subst same
    exact (guards other).trans own.symm
  · exact (guards other).trans (others other same).symm

end Guards

/-- The parties that share a lock: a worker, and the threads that call it. -/
inductive Party (τ : Type*)
  | worker
  | caller (thread : τ)

namespace Party

variable {τ C : Type*} {worker moved : Prop}

/-- Who is where the lock is held. -/
def Among (worker : Prop) (callers : τ → Prop) : Party τ → Prop
  | .worker => worker
  | .caller thread => callers thread

/-- A step of the worker leaves the threads where they are. -/
theorem among_worker {callers : τ → Prop} :
    ∀ other, other ≠ Party.worker → (Among moved callers other ↔ Among worker callers other) := by
  intro other different
  cases other with
  | worker => exact absurd rfl different
  | caller thread => exact Iff.rfl

/-- A step of one thread leaves the others where they are. -/
theorem among_caller [DecidableEq τ] (holds : C → Prop) {callers : τ → C} {thread : τ} {caller : C}
    (sameWorker : moved ↔ worker) : ∀ other, other ≠ Party.caller thread →
      (Among moved (fun third => holds (Function.update callers thread caller third)) other ↔
        Among worker (fun third => holds (callers third)) other) := by
  intro other different
  cases other with
  | worker => exact sameWorker
  | caller other =>
      have another : other ≠ thread := fun same => different (congrArg Party.caller same)
      simp only [Among, Function.update_of_ne another]

end Party

end Foundation
