import Mathlib.Data.Int.Basic

/-! # Integers of fixed width

The integer types of 8 to 64 bits with their conversions and arithmetic: a conversion keeps a
value modulo the number of values of the type (`Foundation.IntegerType.wrap_add_wrap`), operands
narrower than `int` are promoted to it, and signed arithmetic that leaves its type is not
defined (`Foundation.IntegerType.evaluate`).
-/

namespace Foundation

/-- The widths of the standard integer types. -/
inductive Width
  | w8
  | w16
  | w32
  | w64
  deriving DecidableEq

/-- An integer type, by its width and sign. -/
structure IntegerType where
  width : Width
  signed : Bool
  deriving DecidableEq

namespace IntegerType

/-- The number of values. -/
def size (type : IntegerType) : Int :=
  match type.width with
  | .w8 => 256
  | .w16 => 65536
  | .w32 => 4294967296
  | .w64 => 18446744073709551616

/-- The least value. -/
def low (type : IntegerType) : Int := if type.signed then -(type.size / 2) else 0

/-- The value is one of the type. -/
def Contains (type : IntegerType) (value : Int) : Prop :=
  type.low ≤ value ∧ value < type.low + type.size

instance (type : IntegerType) (value : Int) : Decidable (type.Contains value) :=
  inferInstanceAs (Decidable (_ ∧ _))

/-- Conversion to the type. -/
def wrap (type : IntegerType) (value : Int) : Int := (value - type.low) % type.size + type.low

/-- The type in which operands of the type are added and subtracted. -/
def promoted (type : IntegerType) : IntegerType :=
  match type.width with
  | .w8 | .w16 => ⟨.w32, true⟩
  | _ => type

/-- The result of arithmetic on operands of the type, unless it is not defined. -/
def evaluate (type : IntegerType) (value : Int) : Option Int :=
  if type.promoted.signed then if type.promoted.Contains value then some value else none
  else some (type.promoted.wrap value)

theorem size_pos (type : IntegerType) : 0 < type.size := by
  unfold size
  split <;> decide

theorem wrap_of_contains {type : IntegerType} {value : Int} (contains : type.Contains value) :
    type.wrap value = value := by
  rw [wrap, Int.emod_eq_of_lt (by have := contains.1; omega) (by have := contains.2; omega)]
  omega

/-- Wrapping gives a value of the type. -/
theorem contains_wrap (type : IntegerType) (value : Int) : type.Contains (type.wrap value) := by
  have lower := Int.emod_nonneg (value - type.low) (Int.ne_of_gt type.size_pos)
  have upper := Int.emod_lt_of_pos (value - type.low) type.size_pos
  simp only [Contains, wrap]
  omega

/-- Conversions in between do not change a converted sum. -/
theorem wrap_add_wrap (type : IntegerType) (left right : Int) :
    type.wrap (left + type.wrap right) = type.wrap (left + right) := by
  have inner : left + type.wrap right - type.low =
      (left - type.low) + type.low + ((right - type.low) % type.size) := by
    simp only [wrap]
    omega
  have outer : left + right - type.low = (left - type.low) + type.low + (right - type.low) := by
    omega
  rw [wrap, inner, Int.add_emod_emod, ← outer, wrap]

theorem wrap_contained {type : IntegerType} {left right : Int}
    (contains : type.Contains (left + right)) :
    type.wrap (left + type.wrap right) = left + right :=
  (type.wrap_add_wrap left right).trans (wrap_of_contains contains)

/-- No type begins above 0. -/
theorem low_nonpos (type : IntegerType) : type.low ≤ 0 := by
  have positive := type.size_pos
  unfold low
  split <;> omega

/-- A result in the promoted type is computed exactly. -/
theorem evaluate_of_contains {type : IntegerType} {value : Int}
    (contains : type.promoted.Contains value) : type.evaluate value = some value := by
  rw [evaluate, if_pos contains, wrap_of_contains contains, ite_self]

/-- Narrow operands are promoted to a type that has all sums of three of them. -/
theorem promoted_contains {type : IntegerType} (narrow : type.promoted ≠ type) {x y z : Int}
    (first : type.Contains x) (second : type.Contains y) (third : type.Contains z) :
    type.promoted.Contains (x + y) ∧ type.promoted.Contains (x + y + z) := by
  obtain ⟨width, signed⟩ := type
  simp only [Contains, low, size, promoted] at *
  cases width <;> cases signed <;> simp at * <;> omega

/-- A difference that is defined is the exact one. -/
theorem evaluate_sub {type : IntegerType} {first last difference : Int}
    (lower : type.Contains first) (upper : type.Contains last) (ordered : first ≤ last)
    (evaluated : type.evaluate (last - first) = some difference) :
    difference = last - first ∧ type.promoted.Contains (last - first) := by
  have contains : type.promoted.Contains (last - first) := by
    unfold evaluate at evaluated
    split at evaluated
    · split at evaluated
      · assumption
      · cases evaluated
    · next unsigned =>
        obtain ⟨width, signed⟩ := type
        cases width <;> cases signed <;>
          simp only [promoted, Contains, low, size] at * <;> simp at * <;> omega
  exact ⟨by rw [evaluate_of_contains contains] at evaluated; exact (Option.some.inj evaluated).symm,
    contains⟩

end IntegerType

end Foundation
