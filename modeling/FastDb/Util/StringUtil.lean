import Mathlib.Data.List.Infix
import Mathlib.Data.UInt
import FastDb.Foundation.Bytes

/-! # String helpers

The suffix test and the case-insensitive comparisons of `common/string_util.cppm`.
`EndsWith` compares the position that `rfind` reports with a difference of lengths modulo
`2 ^ 64`; the difference is `npos` for a string one byte shorter than the suffix, and only
there the test is wrong (`FastDb.Util.endsWith_correct_iff`). `EqualsIgnoreCase` tells
letters apart by their distance, and agrees with the comparison of lower-case copies
(`FastDb.Util.equalsIgnoreCase_agrees`).
-/

namespace FastDb.Util

open Foundation

/-- `std::string::npos`. -/
def npos : Nat := UInt64.size - 1

/-- `std::string`: its bytes, fewer than `npos`. -/
@[ext]
structure StdString where
  bytes : Bytes
  short : bytes.length < npos

namespace StdString

/-- `length()`. -/
def length (str : StdString) : UInt64 := UInt64.ofNat str.bytes.length

/-- The search of `rfind`, from a position down. -/
def rfindFrom (str substr : Bytes) : Nat → Option Nat
  | 0 => if substr <+: str then some 0 else none
  | pos + 1 =>
      if substr <+: str.drop (pos + 1) then some (pos + 1) else rfindFrom str substr pos

/-- `rfind(substr)`: the last position at which the string holds another one. -/
def rfind (str substr : StdString) : UInt64 :=
  if substr.bytes.length ≤ str.bytes.length then
    UInt64.ofNat
      ((rfindFrom str.bytes substr.bytes (str.bytes.length - substr.bytes.length)).getD npos)
  else UInt64.ofNat npos

end StdString

namespace StringUtil

/-- `EndsWith`. -/
def endsWith (str substr : StdString) : Bool := str.rfind substr == str.length - substr.length

/-- The value of a plain `char`. -/
def charValue (c : UInt8) : Int := c.toInt8.toInt

/-- `charIsLetter`. -/
def charIsLetter (c : UInt8) : Bool :=
  (65 ≤ charValue c && charValue c ≤ 90) || (97 ≤ charValue c && charValue c ≤ 122)

/-- `::tolower` of the C locale. -/
def tolower (c : UInt8) : UInt8 := if 65 ≤ c ∧ c ≤ 90 then c + 32 else c

/-- `ToLower`. -/
def toLower (str : Bytes) : Bytes := str.map tolower

/-- `EqualsIgnoreCaseSample`. -/
def equalsIgnoreCaseSample (str1 str2 : Bytes) : Bool := toLower str1 == toLower str2

/-- The loop of `EqualsIgnoreCase`, over strings of one length. -/
def equalsFrom : Bytes → Bytes → Bool
  | c1 :: s1, c2 :: s2 =>
      if c1 = c2 then equalsFrom s1 s2
      else if !charIsLetter c1 || !charIsLetter c2 then false
      else if 32 ≠ (charValue c1 - charValue c2).natAbs then false
      else equalsFrom s1 s2
  | _, _ => true

/-- `EqualsIgnoreCase`. -/
def equalsIgnoreCase (s1 s2 : Bytes) : Bool :=
  if s1.length ≠ s2.length then false else equalsFrom s1 s2

end StringUtil

open StdString StringUtil

section EndsWith

variable {str substr : Bytes}

theorem rfindFrom_le {pos found : Nat} (search : rfindFrom str substr pos = some found) :
    found ≤ pos := by
  induction pos with
  | zero =>
      rw [rfindFrom] at search
      split at search
      · exact Nat.le_of_eq (Option.some.inj search).symm
      · cases search
  | succ pos ih =>
      rw [rfindFrom] at search
      split at search
      · exact Nat.le_of_eq (Option.some.inj search).symm
      · exact Nat.le_succ_of_le (ih search)

/-- The search stops where it begins when the string holds the other one there. -/
theorem rfindFrom_eq_self_iff (pos : Nat) :
    rfindFrom str substr pos = some pos ↔ substr <+: str.drop pos := by
  cases pos with
  | zero => simp [rfindFrom]
  | succ pos =>
      rw [rfindFrom]
      split
      · next here => exact iff_of_true rfl here
      · next elsewhere =>
          refine iff_of_false (fun search => ?_) elsewhere
          exact absurd (rfindFrom_le search) (Nat.not_succ_le_self pos)

/-- The last position is that of a suffix. -/
theorem prefix_drop_iff_suffix (fits : substr.length ≤ str.length) :
    substr <+: str.drop (str.length - substr.length) ↔ substr <:+ str := by
  constructor
  · intro front
    have whole : substr = str.drop (str.length - substr.length) := by
      refine front.eq_of_length ?_
      rw [List.length_drop]
      omega
    rw [whole]
    exact List.drop_suffix _ _
  · rintro ⟨front, rfl⟩
    rw [List.length_append, Nat.add_sub_cancel, List.drop_left]

/-- Where the other string fits, the test is whether the last position is found. -/
theorem endsWith_iff_of_le {str substr : StdString}
    (fits : substr.bytes.length ≤ str.bytes.length) :
    endsWith str substr = true ↔ substr.bytes <:+ str.bytes := by
  have short := str.short
  have last : str.length - substr.length =
      UInt64.ofNat (str.bytes.length - substr.bytes.length) :=
    (UInt64.ofNat_sub fits).symm
  rw [endsWith, beq_iff_eq, rfind, if_pos fits, last, ← prefix_drop_iff_suffix fits,
    ← rfindFrom_eq_self_iff, ← UInt64.toNat_inj, UInt64.toNat_ofNat', UInt64.toNat_ofNat']
  have size : npos = 2 ^ 64 - 1 := rfl
  cases search : rfindFrom str.bytes substr.bytes (str.bytes.length - substr.bytes.length) with
  | none =>
      refine iff_of_false ?_ (fun same => nomatch same)
      rw [Option.getD_none]
      omega
  | some found =>
      have bound := rfindFrom_le search
      rw [Option.getD_some, Option.some.injEq]
      omega

/-- Where the other string is longer, the test is whether it is longer by one byte. -/
theorem endsWith_iff_of_lt {str substr : StdString}
    (longer : str.bytes.length < substr.bytes.length) :
    endsWith str substr = true ↔ substr.bytes.length = str.bytes.length + 1 := by
  have short := substr.short
  have size : npos = 2 ^ 64 - 1 := rfl
  rw [endsWith, beq_iff_eq, rfind, if_neg (Nat.not_le_of_lt longer), ← UInt64.toNat_inj,
    UInt64.toNat_sub, StdString.length, StdString.length, UInt64.toNat_ofNat',
    UInt64.toNat_ofNat', UInt64.toNat_ofNat']
  omega

end EndsWith

/-- **The suffix test** is right exactly when the suffix is not one byte longer than the
string. -/
theorem endsWith_correct_iff (str substr : StdString) :
    (endsWith str substr = true ↔ substr.bytes <:+ str.bytes) ↔
      substr.bytes.length ≠ str.bytes.length + 1 := by
  rcases Nat.lt_or_ge str.bytes.length substr.bytes.length with longer | fits
  · have noSuffix : ¬ substr.bytes <:+ str.bytes := fun suffix =>
      absurd suffix.length_le (Nat.not_le_of_lt longer)
    rw [endsWith_iff_of_lt longer, iff_false_right noSuffix]
  · refine iff_of_true (endsWith_iff_of_le fits) ?_
    omega

/-- The empty string is said to end with a letter. -/
theorem endsWith_longer :
    endsWith ⟨[], by decide⟩ ⟨ascii "a", by decide⟩ = true ∧ ¬ ascii "a" <:+ ([] : Bytes) := by
  refine ⟨by decide, ?_⟩
  intro suffix
  exact absurd suffix.length_le (by decide)

section EqualsIgnoreCase

/-- A byte from 128 on is a negative `char`. -/
theorem charValue_eq (c : UInt8) :
    charValue c = if c.toNat < 128 then (c.toNat : Int) else c.toNat - 256 := by
  have signed : charValue c = if 2 * c.toNat < 2 ^ 8 then (c.toNat : Int) else c.toNat - 2 ^ 8 :=
    BitVec.toInt_eq_toNat_cond c.toBitVec
  rw [signed]
  split <;> split <;> omega

/-- The letters of ASCII. -/
theorem charIsLetter_iff (c : UInt8) :
    charIsLetter c = true ↔
      (65 ≤ c.toNat ∧ c.toNat ≤ 90) ∨ (97 ≤ c.toNat ∧ c.toNat ≤ 122) := by
  have size : c.toNat < 256 := c.toNat_lt
  simp only [charIsLetter, charValue_eq, Bool.or_eq_true, Bool.and_eq_true, decide_eq_true_eq]
  split <;> omega

/-- Capitals are made small. -/
theorem tolower_toNat (c : UInt8) :
    (tolower c).toNat = if 65 ≤ c.toNat ∧ c.toNat ≤ 90 then c.toNat + 32 else c.toNat := by
  simp only [tolower, UInt8.le_iff_toNat_le]
  split
  · next upper =>
      have upper : 65 ≤ c.toNat ∧ c.toNat ≤ 90 := upper
      rw [if_pos upper, UInt8.toNat_add]
      exact Nat.mod_eq_of_lt (by simp only [UInt8.reduceToNat]; omega)
  · next other => exact (if_neg other).symm

/-- **Folding by distance.** Two different bytes have one lower case exactly when both are
letters, at the distance of the two alphabets. -/
theorem tolower_eq_iff {c1 c2 : UInt8} (different : c1 ≠ c2) :
    tolower c1 = tolower c2 ↔
      charIsLetter c1 = true ∧ charIsLetter c2 = true ∧
        32 = (charValue c1 - charValue c2).natAbs := by
  have apart : c1.toNat ≠ c2.toNat := fun same => different (UInt8.toNat_inj.mp same)
  have size1 : c1.toNat < 256 := c1.toNat_lt
  have size2 : c2.toNat < 256 := c2.toNat_lt
  rw [charIsLetter_iff, charIsLetter_iff, charValue_eq, charValue_eq, ← UInt8.toNat_inj,
    tolower_toNat, tolower_toNat]
  split_ifs <;> omega

/-- **One iteration** goes on exactly when the two bytes have one lower case. -/
theorem equalsFrom_cons (c1 c2 : UInt8) (s1 s2 : Bytes) :
    equalsFrom (c1 :: s1) (c2 :: s2) = (tolower c1 == tolower c2 && equalsFrom s1 s2) := by
  rw [equalsFrom]
  by_cases equal : c1 = c2
  · rw [if_pos equal, equal, beq_self_eq_true, Bool.true_and]
  rw [if_neg equal]
  by_cases alike : tolower c1 = tolower c2
  · obtain ⟨left, right, near⟩ := (tolower_eq_iff equal).mp alike
    rw [alike, beq_self_eq_true, Bool.true_and, left, right, if_neg (by decide),
      if_neg (not_not_intro near)]
  · rw [beq_eq_false_iff_ne.mpr alike, Bool.false_and]
    split
    · rfl
    · next letters =>
        rw [Bool.not_eq_true, Bool.or_eq_false_iff, Bool.not_eq_false',
          Bool.not_eq_false'] at letters
        apply if_pos
        intro near
        exact alike ((tolower_eq_iff equal).mpr ⟨letters.1, letters.2, near⟩)

/-- The loop compares the lower-case copies. -/
theorem equalsFrom_eq {s1 s2 : Bytes} (same : s1.length = s2.length) :
    equalsFrom s1 s2 = equalsIgnoreCaseSample s1 s2 := by
  induction s1 generalizing s2 with
  | nil =>
      obtain rfl := List.length_eq_zero_iff.mp same.symm
      rfl
  | cons c1 s1 ih =>
      cases s2 with
      | nil => cases same
      | cons c2 s2 =>
          rw [equalsFrom_cons, ih (Nat.succ.inj same)]
          rfl

/-- The two comparisons agree. -/
theorem equalsIgnoreCase_eq (s1 s2 : Bytes) :
    equalsIgnoreCase s1 s2 = equalsIgnoreCaseSample s1 s2 := by
  rw [equalsIgnoreCase]
  split
  · next different =>
      symm
      rw [equalsIgnoreCaseSample, beq_eq_false_iff_ne]
      intro same
      have lengths := congrArg List.length same
      rw [toLower, toLower, List.length_map, List.length_map] at lengths
      exact different lengths
  · next same => exact equalsFrom_eq (Classical.not_not.mp same)

/-- **The comparisons agree**, and both are equality of lower-case copies, an equivalence. -/
theorem equalsIgnoreCase_agrees :
    (∀ s1 s2, equalsIgnoreCase s1 s2 = equalsIgnoreCaseSample s1 s2) ∧
      (∀ s1 s2, equalsIgnoreCaseSample s1 s2 = true ↔ toLower s1 = toLower s2) ∧
      Equivalence fun s1 s2 => equalsIgnoreCase s1 s2 = true := by
  have folded (s1 s2 : Bytes) :
      equalsIgnoreCase s1 s2 = true ↔ toLower s1 = toLower s2 := by
    rw [equalsIgnoreCase_eq, equalsIgnoreCaseSample, beq_iff_eq]
  refine ⟨equalsIgnoreCase_eq, fun s1 s2 => ?_, ?_, ?_, ?_⟩
  · rw [equalsIgnoreCaseSample, beq_iff_eq]
  · intro s1
    exact (folded s1 s1).mpr rfl
  · intro s1 s2 same
    exact (folded s2 s1).mpr ((folded s1 s2).mp same).symm
  · intro s1 s2 s3 left right
    exact (folded s1 s3).mpr (((folded s1 s2).mp left).trans ((folded s2 s3).mp right))

end EqualsIgnoreCase

end FastDb.Util
