import Mathlib.Order.Basic
import Mathlib.Tactic.Ring

/-! # Robin Hood order

A table in which every entry lies at or behind its home position gives each occupied
position a code: `increment` for each position from the home on, plus some bits of the
entry's own, fewer than `increment`. The codes are ordered when along a run of occupied
positions they grow by at most `increment` a position, and are less than two of them at the
start of a run. An entry is then found by walking from its home as long as the codes met
are no smaller than its own there (`Foundation.RobinHood.Ordered.le_code`), and inserting
in front of the first smaller code, taking an entry out, and halving all codes keep the
order.
-/

namespace Foundation

namespace RobinHood

/-- The code of an entry at a position, by its home and its bits. -/
def codeAt (increment home bits position : Nat) : Nat :=
  increment * (position - home + 1) + bits

/-- The code in front of a position. -/
def previous (code : Nat → Nat) : Nat → Nat
  | 0 => 0
  | position + 1 => code position

/-- A code may stand behind another. -/
def Follows (increment before here : Nat) : Prop :=
  here < 2 * increment ∨ before ≠ 0 ∧ here ≤ before + increment

/-- A smaller code may stand there as well. -/
theorem Follows.mono {increment before here less : Nat} (follows : Follows increment before here)
    (smaller : less ≤ here) : Follows increment before less :=
  follows.imp (Nat.lt_of_le_of_lt smaller) (And.imp_right smaller.trans)

/-- **Robin Hood order** of the codes of all positions; 0 is the code of an empty one. -/
structure Ordered (increment : Nat) (code : Nat → Nat) : Prop where
  follows : ∀ position, Follows increment (previous code position) (code position)
  least : ∀ position, code position = 0 ∨ increment ≤ code position

/-- The codes after an entry is inserted at a position and those from there up to an empty
position move one further. -/
def inserted (increment : Nat) (code : Nat → Nat) (position empty value : Nat) : Nat → Nat :=
  fun other =>
    if other = position then value
    else if position < other ∧ other ≤ empty then code (other - 1) + increment
    else code other

/-- The codes after an entry is taken out at a position and those behind it up to a last
one move one back. -/
def removed (increment : Nat) (code : Nat → Nat) (position last : Nat) : Nat → Nat :=
  fun other =>
    if other = last then 0
    else if position ≤ other ∧ other < last then code (other + 1) - increment
    else code other

variable {increment home bits position : Nat} {code : Nat → Nat}

/-! ## Codes -/

theorem codeAt_home : codeAt increment home bits home = increment + bits := by
  rw [codeAt, Nat.sub_self, Nat.zero_add, Nat.mul_one]

theorem codeAt_succ (behind : home ≤ position) :
    codeAt increment home bits (position + 1) =
      codeAt increment home bits position + increment := by
  rw [codeAt, codeAt, Nat.sub_add_comm behind]
  ring

/-- No code is smaller than at the home. -/
theorem le_codeAt (increment home bits position : Nat) :
    increment + bits ≤ codeAt increment home bits position := by
  rw [codeAt, Nat.mul_add, Nat.mul_one]
  omega

/-- The code of an entry behind its home is at least two increments. -/
theorem two_mul_le_codeAt (behind : home < position) :
    2 * increment ≤ codeAt increment home bits position := by
  obtain ⟨before, rfl⟩ := Nat.exists_eq_succ_of_ne_zero (Nat.ne_zero_of_lt behind)
  rw [Nat.succ_eq_add_one, codeAt_succ (Nat.le_of_lt_succ behind)]
  have least := le_codeAt increment home bits before
  omega

/-! ## Walking from a home -/

namespace Ordered

/-- One position further. -/
theorem succ_le (ordered : Ordered increment code) (occupied : code position ≠ 0) :
    code (position + 1) ≤ code position + increment := by
  rcases ordered.follows (position + 1) with small | ⟨-, grows⟩
  · have least := (ordered.least position).resolve_left occupied
    omega
  · exact grows

/-- **Probing.** From the home of an entry up to it, every code is at least the one the
entry would have there. -/
theorem le_code (ordered : Ordered increment code) {last : Nat}
    (reached : codeAt increment home bits last ≤ code last)
    (behind : home ≤ position) (before : position ≤ last) :
    codeAt increment home bits position ≤ code position := by
  induction before using Nat.decreasingInduction with
  | self => exact reached
  | of_succ position inside ih =>
      have further := ih (Nat.le_succ_of_le behind)
      have far : 2 * increment ≤ code (position + 1) :=
        (two_mul_le_codeAt (Nat.lt_succ_of_le behind)).trans further
      rcases ordered.follows (position + 1) with small | ⟨-, grows⟩
      · exact absurd small (Nat.not_lt.mpr far)
      · rw [codeAt_succ behind] at further
        exact Nat.le_of_add_le_add_right (further.trans grows)

/-- **Equal codes.** Where the codes have come down to those of an entry, they stay equal
to them up to it. -/
theorem code_eq (ordered : Ordered increment code) (positive : 0 < increment) {first last : Nat}
    (behind : home ≤ first) (equal : code first = codeAt increment home bits first)
    (reached : codeAt increment home bits last ≤ code last)
    (notBefore : first ≤ position) (before : position ≤ last) :
    code position = codeAt increment home bits position := by
  induction position, notBefore using Nat.le_induction with
  | base => exact equal
  | succ position later ih =>
      have here := ih (Nat.le_of_succ_le before)
      have low := ordered.le_code reached (Nat.le_succ_of_le (behind.trans later)) before
      have least := le_codeAt increment home bits position
      have grows : code (position + 1) ≤ _ := ordered.succ_le (by omega)
      rw [here, ← codeAt_succ (behind.trans later)] at grows
      exact Nat.le_antisymm grows low

end Ordered

/-! ## Insertion -/

theorem inserted_of_lt {empty value other : Nat} (before : other < position) :
    inserted increment code position empty value other = code other := by
  rw [inserted, if_neg (Nat.ne_of_lt before), if_neg (by omega)]

@[simp] theorem inserted_self {empty value : Nat} :
    inserted increment code position empty value position = value := if_pos rfl

theorem inserted_of_moved {empty value other : Nat} (behind : position ≤ other)
    (before : other < empty) :
    inserted increment code position empty value (other + 1) = code other + increment := by
  rw [inserted, if_neg (by omega), if_pos (by omega), Nat.add_sub_cancel]

theorem inserted_of_gt {empty value other : Nat} (behind : position ≤ empty)
    (past : empty < other) : inserted increment code position empty value other = code other := by
  rw [inserted, if_neg (by omega), if_neg (by omega)]

/-- **Insertion** in front of the first smaller code keeps the order. -/
theorem Ordered.insert (ordered : Ordered increment code) (positive : 0 < increment)
    {empty value : Nat} (smaller : code position < value) (least : increment ≤ value)
    (follows : Follows increment (previous code position) value)
    (free : code empty = 0) (behind : position ≤ empty)
    (full : ∀ other, position ≤ other → other < empty → code other ≠ 0) :
    Ordered increment (inserted increment code position empty value) where
  follows other := by
    have here := ordered.follows other
    rcases other with _ | other
    · rcases Nat.eq_zero_or_pos position with rfl | behindFirst
      · rwa [inserted_self]
      · rwa [inserted_of_lt behindFirst]
    · simp only [previous] at here ⊢
      rcases Nat.lt_trichotomy (other + 1) position with before | rfl | past
      · rwa [inserted_of_lt before, inserted_of_lt (by omega)]
      · rw [inserted_self, inserted_of_lt (Nat.lt_succ_self other)]
        exact follows
      · rcases Nat.lt_trichotomy other empty with before | rfl | far
        · rw [inserted_of_moved (Nat.le_of_lt_succ past) before]
          right
          rcases Nat.eq_or_lt_of_le (Nat.le_of_lt_succ past) with rfl | inner
          · rw [inserted_self]
            omega
          · obtain ⟨front, rfl⟩ := Nat.exists_eq_succ_of_ne_zero (Nat.ne_zero_of_lt inner)
            have occupied := full front (Nat.le_of_lt_succ inner) (Nat.lt_of_succ_lt before)
            have grows := ordered.succ_le occupied
            rw [Nat.succ_eq_add_one, inserted_of_moved (by omega) (by omega)]
            omega
        · left
          rw [inserted_of_gt behind (Nat.lt_succ_self other)]
          exact here.resolve_right fun occupied => occupied.1 free
        · rwa [inserted_of_gt behind far, inserted_of_gt behind (Nat.lt_succ_of_lt far)]
  least other := by
    rcases Nat.lt_trichotomy other position with before | rfl | past
    · rw [inserted_of_lt before]
      exact ordered.least other
    · rw [inserted_self]
      exact Or.inr least
    · obtain ⟨front, rfl⟩ := Nat.exists_eq_succ_of_ne_zero (Nat.ne_zero_of_lt past)
      rcases Nat.lt_or_ge front empty with before | far
      · rw [Nat.succ_eq_add_one, inserted_of_moved (Nat.le_of_lt_succ past) before]
        exact Or.inr (Nat.le_add_left _ _)
      · rw [Nat.succ_eq_add_one, inserted_of_gt behind (Nat.lt_succ_of_le far)]
        exact ordered.least (front + 1)

/-! ## Removal -/

theorem removed_of_lt {last other : Nat} (behind : position ≤ last) (before : other < position) :
    removed increment code position last other = code other := by
  rw [removed, if_neg (by omega), if_neg (by omega)]

theorem removed_of_moved {last other : Nat} (behind : position ≤ other) (before : other < last) :
    removed increment code position last other = code (other + 1) - increment := by
  rw [removed, if_neg (by omega), if_pos (by omega)]

@[simp] theorem removed_last {last : Nat} :
    removed increment code position last last = 0 := if_pos rfl

theorem removed_of_gt {last other : Nat} (past : last < other) :
    removed increment code position last other = code other := by
  rw [removed, if_neg (by omega), if_neg (by omega)]

/-- **Removal** of an entry, up to the last one behind it that is not at its home, keeps
the order. -/
theorem Ordered.remove (ordered : Ordered increment code) (positive : 0 < increment) {last : Nat}
    (behind : position ≤ last) (occupied : code position ≠ 0)
    (moved : ∀ other, position < other → other ≤ last → 2 * increment ≤ code other)
    (ends : code (last + 1) < 2 * increment) :
    Ordered increment (removed increment code position last) where
  follows other := by
    have here := ordered.follows other
    -- the code that takes the place of the one at `position` is no larger
    have shrinks : removed increment code position last position ≤ code position := by
      rcases Nat.eq_or_lt_of_le behind with rfl | before
      · rw [removed_last]
        exact Nat.zero_le _
      · rw [removed_of_moved (Nat.le_refl _) before]
        exact Nat.sub_le_of_le_add (ordered.succ_le occupied)
    rcases other with _ | other
    · rcases Nat.eq_zero_or_pos position with rfl | behindFirst
      · exact here.mono shrinks
      · rwa [removed_of_lt behind behindFirst]
    · simp only [previous] at here ⊢
      rcases Nat.lt_trichotomy (other + 1) position with before | rfl | past
      · rwa [removed_of_lt behind before, removed_of_lt behind (Nat.lt_of_succ_lt before)]
      · rw [removed_of_lt behind (Nat.lt_succ_self other)]
        exact here.mono shrinks
      · rcases Nat.lt_trichotomy other last with before | rfl | far
        · have large := moved (other + 1) past before
          rw [removed_of_moved (Nat.le_of_lt_succ past) before]
          rcases Nat.eq_or_lt_of_le (Nat.succ_le_of_lt before) with rfl | inner
          · rw [Nat.succ_eq_add_one, removed_last]
            exact Or.inl (Nat.mul_pos Nat.two_pos positive)
          · rw [removed_of_moved (Nat.le_of_lt past) inner]
            have grows : code (other + 1 + 1) ≤ _ := ordered.succ_le (by omega)
            right
            omega
        · rw [removed_of_gt (Nat.lt_succ_self other)]
          exact Or.inl ends
        · rwa [removed_of_gt far, removed_of_gt (Nat.lt_succ_of_lt far)]
  least other := by
    rcases Nat.lt_or_ge other position with before | notBefore
    · rw [removed_of_lt behind before]
      exact ordered.least other
    · rcases Nat.lt_trichotomy other last with before | rfl | past
      · rw [removed_of_moved notBefore before]
        have far := moved (other + 1) (by omega) (by omega)
        exact Or.inr (by omega)
      · exact Or.inl removed_last
      · rw [removed_of_gt past]
        exact ordered.least other

/-! ## Halving -/

theorem codeAt_half (even : increment % 2 = 0) :
    codeAt increment home bits position / 2 =
      codeAt (increment / 2) home (bits / 2) position := by
  obtain ⟨half, rfl⟩ : ∃ half, increment = 2 * half := ⟨increment / 2, by omega⟩
  rw [codeAt, codeAt, Nat.mul_div_cancel_left half Nat.two_pos, Nat.mul_assoc]
  omega

/-- **Halving** all codes and the increment keeps the order. -/
theorem Ordered.halve (ordered : Ordered increment code) (positive : 0 < increment)
    (even : increment % 2 = 0) : Ordered (increment / 2) (fun position => code position / 2) where
  follows position := by
    have before : previous (fun position => code position / 2) position =
        previous code position / 2 := by
      cases position with
      | zero => exact (Nat.zero_div 2).symm
      | succ position => rfl
    have least : previous code position = 0 ∨ increment ≤ previous code position := by
      cases position with
      | zero => exact Or.inl rfl
      | succ position => exact ordered.least position
    rw [before]
    rcases ordered.follows position with small | ⟨occupied, grows⟩
    · left
      omega
    · right
      omega
  least position := by
    have least := ordered.least position
    omega

end RobinHood

end Foundation
