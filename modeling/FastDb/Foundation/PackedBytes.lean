import Mathlib.Data.Nat.Bitwise
import Mathlib.Tactic.Ring

/-! # Bytes packed in a word

Eight bytes read as one little-endian word and taken apart again. Shifting the word right
by one and masking the top bit of every byte halves each byte
(`Foundation.PackedBytes.byte_halved`), and the number of trailing zeros of the word tells
its first byte that is not zero (`Foundation.PackedBytes.firstByte_spec`).
-/

namespace Foundation

namespace PackedBytes

/-- The little-endian word of that many bytes from a position on. -/
def packed (bytes : Nat → Nat) : Nat → Nat → Nat
  | _, 0 => 0
  | start, count + 1 => bytes start + 256 * packed bytes (start + 1) count

/-- One byte of a word. -/
def byte (word position : Nat) : Nat := word / 256 ^ position % 256

/-- The word shifted right by one, without the bit that enters each byte. -/
def halved (word : Nat) : Nat := (word >>> 1) &&& 0x7f7f7f7f7f7f7f7f

/-- The number of trailing zeros of a word of at most that many bits. -/
def trailingZeros : Nat → Nat → Nat
  | 0, _ => 0
  | bits + 1, word => if word % 2 = 1 then 0 else trailingZeros bits (word / 2) + 1

/-- The first byte of a word of 64 bits that is not zero. -/
def firstByte (word : Nat) : Nat := trailingZeros 64 word / 8

/-- The bits of a byte in a word. -/
theorem testBit_byte (word position bit : Nat) :
    (byte word position).testBit bit =
      (decide (bit < 8) && word.testBit (8 * position + bit)) := by
  have power : 256 ^ position = 2 ^ (8 * position) := by
    rw [Nat.pow_mul]
  rw [byte, power, show (256 : Nat) = 2 ^ 8 from rfl, Nat.testBit_mod_two_pow,
    Nat.testBit_div_two_pow, Nat.add_comm]

/-- The bytes of a packed word. -/
theorem byte_packed {bytes : Nat → Nat} (small : ∀ position, bytes position < 256)
    {start count position : Nat} (inside : position < count) :
    byte (packed bytes start count) position = bytes (start + position) := by
  induction count generalizing start position with
  | zero => exact absurd inside (Nat.not_lt_zero _)
  | succ count ih =>
      rw [packed]
      cases position with
      | zero =>
          rw [byte, Nat.pow_zero, Nat.div_one, Nat.add_mul_mod_self_left,
            Nat.mod_eq_of_lt (small start)]
          rfl
      | succ position =>
          have rest : byte (packed bytes (start + 1) count) position = _ :=
            ih (Nat.lt_of_succ_lt_succ inside)
          rw [byte, Nat.pow_succ', ← Nat.div_div_eq_div_mul, Nat.add_mul_div_left _ _ (by omega),
            Nat.div_eq_of_lt (small start), Nat.zero_add]
          exact rest.trans (congrArg bytes (by omega))

/-- **Halving** a word as above halves each of its bytes. -/
theorem byte_halved (word : Nat) {position : Nat} (inside : position < 8) :
    byte (halved word) position = byte word position / 2 := by
  have mask : ∀ position < 8, ∀ bit < 8,
      Nat.testBit 0x7f7f7f7f7f7f7f7f (8 * position + bit) = decide (bit < 7) := by decide
  apply Nat.eq_of_testBit_eq
  intro bit
  rw [testBit_byte, halved, Nat.testBit_and, Nat.testBit_shiftRight, Nat.testBit_div_two,
    testBit_byte]
  by_cases low : bit < 8
  · have same : bit + 1 < 8 ↔ bit < 7 := Nat.succ_lt_succ_iff
    have next : 1 + (8 * position + bit) = 8 * position + (bit + 1) := by ring
    simp only [mask position inside bit low, next, low, same, decide_true, Bool.true_and]
    exact Bool.and_comm _ _
  · have high : ¬ bit + 1 < 8 := fun below => low (Nat.lt_of_succ_lt below)
    simp only [low, high, decide_false, Bool.false_and]

/-- The bit at the number of trailing zeros is the first one that is set. -/
theorem trailingZeros_spec {bits word : Nat} (small : word < 2 ^ bits) (nonzero : word ≠ 0) :
    word.testBit (trailingZeros bits word) = true ∧
      ∀ bit < trailingZeros bits word, word.testBit bit = false := by
  induction bits generalizing word with
  | zero => exact absurd (Nat.lt_one_iff.mp small) nonzero
  | succ bits ih =>
      rw [trailingZeros]
      split
      · next odd =>
          refine ⟨?_, fun bit below => absurd below (Nat.not_lt_zero _)⟩
          rw [Nat.testBit_zero, odd]
          rfl
      · next even =>
          have half : word / 2 < 2 ^ bits := by
            rw [Nat.pow_succ] at small
            omega
          obtain ⟨set, clear⟩ := ih half (by omega)
          rw [Nat.testBit_succ]
          refine ⟨set, ?_⟩
          intro bit below
          cases bit with
          | zero =>
              rw [Nat.testBit_zero, decide_eq_false_iff_not]
              exact even
          | succ bit =>
              rw [Nat.testBit_succ]
              exact clear bit (Nat.lt_of_succ_lt_succ below)

/-- **The first byte.** The trailing zeros of a word of eight bytes tell its first byte
that is not zero. -/
theorem firstByte_spec {word : Nat} (small : word < 2 ^ 64) (nonzero : word ≠ 0) :
    firstByte word < 8 ∧ byte word (firstByte word) ≠ 0 ∧
      ∀ position < firstByte word, byte word position = 0 := by
  obtain ⟨set, clear⟩ := trailingZeros_spec small nonzero
  have bounded : trailingZeros 64 word < 64 := by
    by_contra far
    have unset := Nat.testBit_lt_two_pow
      (small.trans_le (Nat.pow_le_pow_right Nat.two_pos (Nat.le_of_not_lt far)))
    rw [unset] at set
    exact Bool.false_ne_true set
  refine ⟨by rw [firstByte]; omega, ?_, ?_⟩
  · intro zero
    have bit := testBit_byte word (firstByte word) (trailingZeros 64 word % 8)
    rw [zero, Nat.zero_testBit, firstByte, Nat.div_add_mod, set, Bool.and_true] at bit
    exact of_decide_eq_false bit.symm (Nat.mod_lt _ (by omega))
  · intro position before
    apply Nat.eq_of_testBit_eq
    intro bit
    rw [testBit_byte, Nat.zero_testBit, Bool.and_eq_false_imp]
    intro low
    rw [firstByte] at before
    exact clear _ (by have := of_decide_eq_true low; omega)

/-- A packed word is below the power of its length. -/
theorem packed_lt {bytes : Nat → Nat} (small : ∀ position, bytes position < 256)
    (start count : Nat) : packed bytes start count < 256 ^ count := by
  induction count generalizing start with
  | zero => exact Nat.one_pos
  | succ count ih =>
      have rest := ih (start + 1)
      have first := small start
      rw [packed, Nat.pow_succ]
      omega

/-- A word is zero when all its bytes are. -/
theorem packed_eq_zero_iff {bytes : Nat → Nat} {start count : Nat} :
    packed bytes start count = 0 ↔ ∀ position < count, bytes (start + position) = 0 := by
  induction count generalizing start with
  | zero => exact ⟨fun _ _ below => absurd below (Nat.not_lt_zero _), fun _ => rfl⟩
  | succ count ih =>
      rw [packed, Nat.add_eq_zero_iff, Nat.mul_eq_zero, or_iff_right (by omega), ih]
      constructor
      · intro zeros position below
        obtain ⟨first, rest⟩ := zeros
        cases position with
        | zero => exact first
        | succ position =>
            have here := rest position (Nat.lt_of_succ_lt_succ below)
            rwa [Nat.add_right_comm] at here
      · intro zeros
        refine ⟨zeros 0 (Nat.succ_pos _), fun position below => ?_⟩
        rw [Nat.add_right_comm]
        exact zeros (position + 1) (Nat.succ_lt_succ below)

end PackedBytes

end Foundation
