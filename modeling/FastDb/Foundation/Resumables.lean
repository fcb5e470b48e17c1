import Mathlib.Tactic.TypeStar

/-! # Resumable computations

A computation that takes fuel settles on a result when some fuel, and any more, gives it
(`Foundation.Settles`); computations that settle compose (`Foundation.Settles.bind`). A
resumable computation hands out a value and suspends itself, again and again, until it returns.
What it hands out from a state on, and the state it ends in, is `Foundation.Resumable.Emits`.
A state that is resumed as another is hands out the same (`Foundation.Resumable.Emits.of_resume`).
-/

namespace Foundation

universe u

/-- With enough fuel the computation has the result. -/
def Settles {β : Type*} (computation : Nat → Option β) (result : β) : Prop :=
  ∃ fuel, ∀ more, fuel ≤ more → computation more = some result

namespace Settles

variable {β γ : Type*} {result : β} {last : γ}

theorem const (result : β) : Settles (fun _ => some result) result :=
  ⟨0, fun _ _ => rfl⟩

theorem bind {first : Nat → Option β} {second : β → Nat → Option γ}
    (settles : Settles first result) (rest : Settles (second result) last) :
    Settles (fun fuel => (first fuel).bind fun value => second value fuel) last := by
  obtain ⟨fuel, enough⟩ := settles
  obtain ⟨fuelToo, enoughToo⟩ := rest
  refine ⟨max fuel fuelToo, fun more most => ?_⟩
  have first_eq := enough more (Nat.le_trans (Nat.le_max_left _ _) most)
  simp only [first_eq, Option.bind_some]
  exact enoughToo more (Nat.le_trans (Nat.le_max_right _ _) most)

theorem map {computation : Nat → Option β} (settles : Settles computation result)
    (f : β → γ) : Settles (fun fuel => (computation fuel).map f) (f result) := by
  obtain ⟨fuel, enough⟩ := settles
  exact ⟨fuel, fun more most => congrArg (Option.map f) (enough more most)⟩

/-- A loop spends some fuel on each of its rounds. -/
theorem succ {computation : Nat → Option β}
    (settles : Settles (fun fuel => computation (fuel + 1)) result) :
    Settles computation result := by
  obtain ⟨fuel, enough⟩ := settles
  refine ⟨fuel + 1, fun more most => ?_⟩
  obtain ⟨less, rfl⟩ := Nat.exists_eq_add_of_le' (Nat.le_of_add_left_le most)
  exact enough less (Nat.le_of_succ_le_succ most)

end Settles

/-- What comes of a resumption. -/
inductive Resumed (α σ : Type u)
  | yields (value : α) (state : σ)
  | returns (state : σ)

/-- A computation that starts suspended and is resumed with fuel. -/
structure Resumable (α : Type u) where
  State : Type u
  start : State
  resume : Nat → State → Option (Resumed α State)

namespace Resumable

variable {α : Type u} (computation : Resumable α)

/-- Resumed from a state on, the computation hands out the values and returns in the last
state. -/
def Emits : computation.State → List α → computation.State → Prop
  | state, [], last => Settles (fun fuel => computation.resume fuel state) (.returns last)
  | state, value :: values, last =>
      ∃ next, Settles (fun fuel => computation.resume fuel state) (.yields value next) ∧
        Emits next values last

variable {computation}

/-- A state from which resumption does the same hands out the same. -/
theorem Emits.of_resume {state earlier last : computation.State} {values : List α}
    (emits : computation.Emits state values last)
    (same : ∀ resumed, Settles (fun fuel => computation.resume fuel state) resumed →
      Settles (fun fuel => computation.resume fuel earlier) resumed) :
    computation.Emits earlier values last := by
  cases values with
  | nil => exact same _ emits
  | cons value values =>
      obtain ⟨next, yields, rest⟩ := emits
      exact ⟨next, same _ yields, rest⟩

end Resumable

end Foundation
