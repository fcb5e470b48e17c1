import FastDb.Foundation.Words

/-! # Byte strings and decimal numerals

Byte strings with the ASCII literals of a source text, the line terminator, and
the decimal numerals a number prints as. A numeral closed by the line terminator
is a framing (`Foundation.decimalLine`): the digits end where the terminator
begins.
-/

namespace Foundation

/-- Byte strings. -/
abbrev Bytes := List UInt8

/-- The byte of an ASCII character. -/
def byteOf (char : Char) : UInt8 := UInt8.ofNat char.toNat

/-- The bytes of an ASCII literal. -/
def ascii (text : String) : Bytes := text.toList.map byteOf

/-- Carriage return. -/
def cr : UInt8 := 13

/-- Line feed. -/
def lf : UInt8 := 10

/-- The end of a line. -/
def crlf : Bytes := [cr, lf]

@[simp] theorem crlf_length : crlf.length = 2 := rfl

theorem crlf_ne_nil : crlf ≠ [] := List.cons_ne_nil _ _

/-- A decimal digit. -/
def isDigit (byte : UInt8) : Bool := 48 ≤ byte && byte ≤ 57

/-- The decimal numeral of a natural number. -/
def decimal (number : Nat) : Bytes := (Nat.toDigits 10 number).map byteOf

/-- The decimal numeral of an integer, with a leading minus sign below zero. -/
def decimalInt : Int → Bytes
  | .ofNat number => decimal number
  | .negSucc number => 45 :: decimal (number + 1)

/-- The number a string of digits denotes. -/
def numeralValue (digits : Bytes) : Nat :=
  Nat.ofDigitChars 10 (digits.map fun byte => Char.ofNat byte.toNat) 0

private theorem isDigit_toNat {char : Char} (digit : char.isDigit = true) :
    48 ≤ char.toNat ∧ char.toNat ≤ 57 := by
  simp only [Char.isDigit, ge_iff_le, Bool.and_eq_true, decide_eq_true_eq] at digit
  exact ⟨UInt32.le_iff_toNat_le.mp digit.1, UInt32.le_iff_toNat_le.mp digit.2⟩

private theorem byteOf_toNat {char : Char} (digit : char.isDigit = true) :
    (byteOf char).toNat = char.toNat := by
  have bounds := isDigit_toNat digit
  unfold byteOf
  rw [UInt8.toNat_ofNat']
  omega

theorem isDigit_byteOf {char : Char} (digit : char.isDigit = true) :
    isDigit (byteOf char) = true := by
  have bounds := isDigit_toNat digit
  have same := byteOf_toNat digit
  simp only [isDigit, Bool.and_eq_true, decide_eq_true_eq, UInt8.le_iff_toNat_le, same]
  exact bounds

theorem isDigit_of_mem_decimal {number : Nat} {byte : UInt8} (member : byte ∈ decimal number) :
    isDigit byte = true := by
  obtain ⟨char, printed, rfl⟩ := List.mem_map.mp member
  exact isDigit_byteOf (Nat.isDigit_of_mem_toDigits (by decide) (by decide) printed)

theorem decimal_ne_nil (number : Nat) : decimal number ≠ [] := by
  intro empty
  exact Nat.toDigits_ne_nil (List.map_eq_nil_iff.mp empty)

/-- A numeral denotes the number it prints. -/
@[simp] theorem numeralValue_decimal (number : Nat) : numeralValue (decimal number) = number := by
  unfold numeralValue decimal
  rw [List.map_map]
  have same : (Nat.toDigits 10 number).map
      ((fun byte : UInt8 => Char.ofNat byte.toNat) ∘ byteOf) = Nat.toDigits 10 number := by
    refine (List.map_congr_left fun char printed => ?_).trans (List.map_id _)
    have digit := Nat.isDigit_of_mem_toDigits (b := 10) (by decide) (by decide) printed
    rw [Function.comp_apply, byteOf_toNat digit, Char.ofNat_toNat]
    rfl
  rw [same, Nat.ofDigitChars_ten_toDigits]

/-- The number that a nonempty string of digits denotes. -/
def readNat (text : Bytes) : Option Nat :=
  if text ≠ [] ∧ text.all isDigit then some (numeralValue text) else none

/-- A numeral reads back as its number. -/
@[simp] theorem readNat_decimal (number : Nat) : readNat (decimal number) = some number := by
  have digits : (decimal number).all isDigit = true :=
    List.all_eq_true.mpr fun _ => isDigit_of_mem_decimal
  rw [readNat, if_pos ⟨decimal_ne_nil number, digits⟩, numeralValue_decimal]

/-- The number that digits with an optional minus sign denote. -/
def readInt : Bytes → Option Int
  | [] => none
  | first :: rest =>
      if first = 45 then (readNat rest).map fun number => -(number : Int)
      else (readNat (first :: rest)).map Int.ofNat

/-- A signed numeral reads back as its number. -/
@[simp] theorem readInt_decimalInt (number : Int) : readInt (decimalInt number) = some number := by
  cases number with
  | ofNat number =>
      obtain ⟨first, rest, printed⟩ := List.exists_cons_of_ne_nil (decimal_ne_nil number)
      have digit : isDigit first = true := isDigit_of_mem_decimal (printed ▸ List.mem_cons_self)
      have unsigned : first ≠ 45 := by
        rintro rfl
        exact absurd digit (by decide)
      have read := readNat_decimal number
      rw [printed] at read
      simp only [decimalInt, printed, readInt, unsigned, ↓reduceIte, read, Option.map_some]
  | negSucc number =>
      simp only [decimalInt, readInt, ↓reduceIte, readNat_decimal]
      rfl

/-- A numeral does not contain the end of a line. -/
theorem cr_not_mem_decimal (number : Nat) : cr ∉ decimal number := by
  intro member
  exact absurd (isDigit_of_mem_decimal member) (by decide)

/-- A decimal numeral closed by the line terminator. -/
def decimalLine : Framing UInt8 Nat where
  encode number := decimal number ++ crlf
  decode stream :=
    let digits := stream.takeWhile isDigit
    if digits = [] then none
    else (stripWord crlf (stream.dropWhile isDigit)).map fun rest => (numeralValue digits, rest)
  decode_encode number rest := by
    have digits : ∀ byte ∈ decimal number, isDigit byte = true :=
      fun byte member => isDigit_of_mem_decimal member
    have taken : (decimal number ++ crlf ++ rest).takeWhile isDigit = decimal number := by
      rw [List.append_assoc, List.takeWhile_append_of_pos digits]
      exact List.append_nil _
    have dropped : (decimal number ++ crlf ++ rest).dropWhile isDigit = crlf ++ rest := by
      rw [List.append_assoc, List.dropWhile_append_of_pos digits]
      rfl
    simp only [taken, dropped, decimal_ne_nil, ↓reduceIte, stripWord_append, Option.map_some,
      numeralValue_decimal]

example : decimalInt (-120) = ascii "-120" := by decide

end Foundation
