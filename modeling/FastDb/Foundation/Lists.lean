import Mathlib.Data.Int.Basic

/-! # Lists

A function that has a result on every element of a list has one on the list
(`Foundation.mapM_eq_some`), and consecutive intervals of integers make up one
(`Foundation.flatMap_interval`).
-/

namespace Foundation

theorem mapM_eq_some {Element Result : Type} {function : Element → Option Result}
    {result : Element → Result} {elements : List Element}
    (results : ∀ element ∈ elements, function element = some (result element)) :
    elements.mapM function = some (elements.map result) := by
  induction elements with
  | nil => rfl
  | cons element elements ih =>
      obtain ⟨first, rest⟩ := List.forall_mem_cons.mp results
      rw [List.mapM_cons, first, ih rest]
      rfl

/-- The integers from the first one on that are less than the last one. -/
def interval (first last : Int) : List Int :=
  (List.range (last - first).toNat).map fun (offset : Nat) => first + (offset : Int)

theorem interval_append {first middle last : Int} (left : first ≤ middle) (right : middle ≤ last) :
    interval first middle ++ interval middle last = interval first last := by
  have total : (last - first).toNat = (middle - first).toNat + (last - middle).toNat := by omega
  rw [interval, interval, interval, total, List.range_add, List.map_append, List.map_map]
  congr 1
  refine List.map_congr_left fun offset _ => ?_
  simp only [Function.comp, Int.natCast_add]
  omega

/-- Consecutive intervals make up one. -/
theorem flatMap_interval {bound : Nat → Int} (ascending : ∀ index, bound index ≤ bound (index + 1))
    (count : Nat) : (List.range count).flatMap
      (fun index => interval (bound index) (bound (index + 1))) =
        interval (bound 0) (bound count) := by
  have above : ∀ index, bound 0 ≤ bound index := fun index => by
    induction index with
    | zero => exact Int.le_refl _
    | succ index ih => exact Int.le_trans ih (ascending index)
  induction count with
  | zero => simp [interval]
  | succ count ih =>
      rw [List.range_succ, List.flatMap_append, ih, List.flatMap_singleton,
        interval_append (above count) (ascending count)]

end Foundation
