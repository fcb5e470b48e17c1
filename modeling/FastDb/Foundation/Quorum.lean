import Mathlib.Data.Finset.Card
import Mathlib.Data.List.Sort

/-! # Majorities

Two majorities of a finite set share a member
(`Foundation.Majority.exists_mem_inter`). Where agreement is measured by a number
for each member, the middle of the sorted numbers is reached by at least half of
them (`Foundation.le_two_mul_countP_middle`), and is the greatest number so reached
(`Foundation.le_middle_iff`).
-/

namespace Foundation

section Majorities

variable {σ : Type*} {members quorum other : Finset σ}

/-- A part of a set that is more than half of it. -/
def Majority (members quorum : Finset σ) : Prop :=
  quorum ⊆ members ∧ members.card < 2 * quorum.card

/-- All members are a majority. -/
theorem Majority.self (nonempty : members.Nonempty) : Majority members members := by
  refine ⟨Finset.Subset.refl _, ?_⟩
  have positive := nonempty.card_pos
  omega

/-- **Intersection.** Two majorities share a member. -/
theorem Majority.exists_mem_inter [DecidableEq σ] (left : Majority members quorum)
    (right : Majority members other) : ∃ member ∈ quorum, member ∈ other := by
  by_contra disjoint
  have apart : Disjoint quorum other := Finset.disjoint_left.mpr fun member inLeft inRight =>
    disjoint ⟨member, inLeft, inRight⟩
  have together := Finset.card_le_card (Finset.union_subset left.1 right.1)
  rw [Finset.card_union_of_disjoint apart] at together
  have leftHalf := left.2
  have rightHalf := right.2
  omega

end Majorities

section Middle

/-- The number in the middle of the sorted list is reached by the numbers from there on. -/
theorem le_two_mul_countP_middle (numbers : List Nat) :
    numbers.length ≤ 2 * numbers.countP fun number =>
      (numbers.insertionSort (· ≤ ·)).getD (numbers.length / 2) 0 ≤ number := by
  have sorted : (numbers.insertionSort (· ≤ ·)).Pairwise (· ≤ ·) :=
    List.pairwise_insertionSort _ _
  have permuted := List.perm_insertionSort (· ≤ ·) numbers
  rw [← permuted.countP_eq]
  have sameLength := permuted.length_eq
  generalize numbers.insertionSort (· ≤ ·) = ordered at *
  have upper : ∀ number ∈ ordered.drop (numbers.length / 2),
      ordered.getD (numbers.length / 2) 0 ≤ number := by
    intro number member
    obtain ⟨offset, inside, rfl⟩ := List.getElem_of_mem member
    rw [List.length_drop] at inside
    rw [List.getElem_drop, List.getD_eq_getElem?_getD, List.getElem?_eq_getElem (by omega),
      Option.getD_some]
    rcases Nat.eq_zero_or_pos offset with rfl | positive
    · exact le_rfl
    · exact List.pairwise_iff_getElem.mp sorted _ _ _ _ (by omega)
  have counted := (List.drop_sublist (numbers.length / 2) ordered).countP_le
    (p := fun number => decide (ordered.getD (numbers.length / 2) 0 ≤ number))
  rw [List.countP_eq_length.mpr (by simpa using upper), List.length_drop] at counted
  omega

/-- **The middle as a count.** The middle of the sorted numbers is the last bound that at
least half of them reach. -/
theorem le_middle_iff {numbers : List Nat} (nonempty : numbers ≠ []) (bound : Nat) :
    bound ≤ (numbers.insertionSort (· ≤ ·)).getD (numbers.length / 2) 0 ↔
      numbers.length ≤ 2 * numbers.countP fun number => bound ≤ number := by
  constructor
  · intro below
    apply (le_two_mul_countP_middle numbers).trans
    apply Nat.mul_le_mul_left
    apply List.countP_mono_left
    intro number _ reaches
    exact decide_eq_true (below.trans (of_decide_eq_true reaches))
  · intro half
    by_contra above
    rw [Nat.not_le] at above
    have sorted : (numbers.insertionSort (· ≤ ·)).Pairwise (· ≤ ·) :=
      List.pairwise_insertionSort _ _
    have permuted := List.perm_insertionSort (· ≤ ·) numbers
    have positive := List.length_pos_iff.mpr nonempty
    rw [← permuted.countP_eq] at half
    have sameLength := permuted.length_eq
    generalize numbers.insertionSort (· ≤ ·) = ordered at *
    -- the numbers up to the middle do not reach the bound
    have lower : (ordered.take (numbers.length / 2 + 1)).countP
        (fun number => decide (bound ≤ number)) = 0 := by
      rw [List.countP_eq_zero]
      intro number member
      obtain ⟨offset, inside, rfl⟩ := List.getElem_of_mem member
      rw [List.length_take] at inside
      rw [List.getD_eq_getElem?_getD, List.getElem?_eq_getElem (by omega),
        Option.getD_some] at above
      rw [List.getElem_take, decide_eq_true_eq, Nat.not_le]
      apply lt_of_le_of_lt _ above
      rcases Nat.lt_or_ge offset (numbers.length / 2) with before | middle
      · exact List.pairwise_iff_getElem.mp sorted _ _ _ _ before
      · exact le_of_eq (by congr 1; omega)
    have counted := List.countP_le_length
      (p := fun number => decide (bound ≤ number)) (l := ordered.drop (numbers.length / 2 + 1))
    rw [← List.take_append_drop (numbers.length / 2 + 1) ordered, List.countP_append, lower] at half
    rw [List.length_drop] at counted
    omega

/-- As many positions as numbers satisfy a condition. -/
theorem card_filter_range_eq_countP (numbers : List Nat) (condition : Nat → Bool) :
    ((Finset.range numbers.length).filter fun position =>
      numbers[position]?.any condition = true).card = numbers.countP condition := by
  induction numbers using List.reverseRecOn with
  | nil => rfl
  | append_singleton front last ih =>
      rw [List.length_append, List.length_singleton, Finset.range_add_one, Finset.filter_insert,
        List.countP_append, List.getElem?_concat_length, ← ih]
      have earlier : ((Finset.range front.length).filter fun position =>
          (front ++ [last])[position]?.any condition = true) =
          (Finset.range front.length).filter fun position =>
            front[position]?.any condition = true := by
        apply Finset.filter_congr
        intro position member
        rw [List.getElem?_append_left (Finset.mem_range.mp member)]
      rw [earlier, Option.any_some, List.countP_singleton]
      split
      · rw [Finset.card_insert_of_notMem]
        exact fun member => absurd (Finset.mem_filter.mp member).1 Finset.notMem_range_self
      · rfl

/-- **The middle is reached by a majority**, where positions that reach it are members
and there is one number more than members. -/
theorem majority_of_middle {members : Finset Nat} {numbers : List Nat}
    (size : numbers.length = members.card + 1)
    (inside : ∀ position number, numbers[position]? = some number →
      (numbers.insertionSort (· ≤ ·)).getD (numbers.length / 2) 0 ≤ number → position ∈ members) :
    ∃ quorum, Majority members quorum ∧ ∀ position ∈ quorum, ∃ number,
      numbers[position]? = some number ∧
        (numbers.insertionSort (· ≤ ·)).getD (numbers.length / 2) 0 ≤ number := by
  have half := le_two_mul_countP_middle numbers
  rw [← card_filter_range_eq_countP, size] at half
  have reached : ∀ position ∈ (Finset.range numbers.length).filter (fun position =>
      numbers[position]?.any (fun number => decide ((numbers.insertionSort (· ≤ ·)).getD
        (numbers.length / 2) 0 ≤ number)) = true), ∃ number,
      numbers[position]? = some number ∧
        (numbers.insertionSort (· ≤ ·)).getD (numbers.length / 2) 0 ≤ number := by
    intro position member
    obtain ⟨number, found, above⟩ :=
      (Option.any_eq_true ..).mp (Finset.mem_filter.mp member).2
    exact ⟨number, found, of_decide_eq_true above⟩
  refine ⟨_, ⟨fun position member => ?_, ?_⟩, reached⟩
  · obtain ⟨number, found, above⟩ := reached position member
    exact inside position number found above
  · rw [size]
    omega

end Middle

end Foundation
