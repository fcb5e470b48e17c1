import FastDb.Foundation.Bytes
import Mathlib.Data.List.TakeWhile

/-! # Article previews

`split_first_n_unicode_chars` of `deprecated/MySqlBlog.cppm`, which cuts a content preview
to its first characters. It takes a byte for the start of a character when its two highest
bits are set, so it goes past an ASCII character without appending or counting it, and what
it returns is the first characters that are not ASCII. Those are the first characters of the
text just when no ASCII character is among these
(`FastDb.Blog.splitFirstNUnicodeChars_iff`).
-/

namespace FastDb.Blog

open Foundation

/-- A `char` as an operand of `&`: the byte with its sign, as an `int`. -/
def promote (c : UInt8) : Int32 := c.toInt8.toInt32

/-- `is_utf8_starter`. -/
def isUtf8Starter (c : UInt8) : Bool := promote c &&& 0x80 != 0 && promote c &&& 0x40 != 0

/-- `bytes_needed` of a first byte. -/
def bytesNeeded (c : UInt8) : Nat :=
  if promote c &&& 0xE0 == 0xC0 then 2
  else if promote c &&& 0xF0 == 0xE0 then 3
  else if promote c &&& 0xF8 == 0xF0 then 4
  else 1

/-- The loop of `split_first_n_unicode_chars`, from an index on; `none` is an iterator past
the end of the string. -/
def splitLoop (utf8Str : Bytes) (n : Nat) (result : Bytes) (unicodeCharsCount i : Nat) :
    Option Bytes :=
  if inside : i < utf8Str.length ∧ unicodeCharsCount < n then
    have := inside.1
    if isUtf8Starter utf8Str[i] then
      if i + bytesNeeded utf8Str[i] ≤ utf8Str.length then
        let appended := (utf8Str.drop i).take (bytesNeeded utf8Str[i])
        splitLoop utf8Str n (result ++ appended) (unicodeCharsCount + 1)
          (i + (bytesNeeded utf8Str[i] - 1) + 1)
      else none
    else splitLoop utf8Str n result unicodeCharsCount (i + 1)
  else some result
termination_by utf8Str.length - i

/-- `split_first_n_unicode_chars`. -/
def splitFirstNUnicodeChars (utf8Str : Bytes) (n : Nat) : Option Bytes := splitLoop utf8Str n [] 0 0

/-! ## Bytes -/

/-- Starters are the bytes from 192 on. -/
theorem isUtf8Starter_ofNat {number : Nat} (below : number < 256) :
    isUtf8Starter (UInt8.ofNat number) = decide (192 ≤ number) := by
  have all : ∀ byte : Fin 256,
      isUtf8Starter (UInt8.ofNat byte) = decide (192 ≤ byte.val) := by decide +kernel
  exact all ⟨number, below⟩

/-- The lengths of characters by their first bytes. -/
theorem bytesNeeded_ofNat {number : Nat} (below : number < 256) :
    bytesNeeded (UInt8.ofNat number) =
      if 192 ≤ number ∧ number < 224 then 2
      else if 224 ≤ number ∧ number < 240 then 3
      else if 240 ≤ number ∧ number < 248 then 4
      else 1 := by
  have all : ∀ byte : Fin 256, bytesNeeded (UInt8.ofNat byte) =
      if 192 ≤ byte.val ∧ byte.val < 224 then 2
      else if 224 ≤ byte.val ∧ byte.val < 240 then 3
      else if 240 ≤ byte.val ∧ byte.val < 248 then 4
      else 1 := by decide +kernel
  exact all ⟨number, below⟩

/-! ## Characters -/

/-- A character of one byte. -/
def isAscii (char : Char) : Bool := char.val.toNat ≤ 0x7f

/-- Valid UTF-8: the bytes of a sequence of characters. -/
def encode (chars : List Char) : Bytes := chars.flatMap String.utf8EncodeChar

theorem encode_cons (char : Char) (chars : List Char) :
    encode (char :: chars) = String.utf8EncodeChar char ++ encode chars := List.flatMap_cons

/-- An ASCII character is one byte, which is no starter. -/
theorem utf8EncodeChar_ascii {char : Char} (ascii : isAscii char = true) :
    ∃ byte : UInt8, String.utf8EncodeChar char = [byte] ∧ isUtf8Starter byte = false ∧
      byte.toNat < 128 := by
  have low : char.val.toNat ≤ 0x7f := of_decide_eq_true ascii
  refine ⟨UInt8.ofNat char.val.toNat, ?_, ?_, ?_⟩
  · rw [String.utf8EncodeChar, if_pos low]
  · rw [isUtf8Starter_ofNat (by omega), decide_eq_false (by omega)]
  · rw [UInt8.toNat_ofNat']
    omega

/-- Any other character has a first byte that tells how many there are, and no byte below
128. -/
theorem utf8EncodeChar_wide {char : Char} (wide : isAscii char = false) :
    ∃ first rest, String.utf8EncodeChar char = first :: rest ∧ isUtf8Starter first = true ∧
      bytesNeeded first = rest.length + 1 ∧ ∀ byte ∈ first :: rest, 128 ≤ byte.toNat := by
  have high : ¬ char.val.toNat ≤ 0x7f := of_decide_eq_false wide
  have starts : ∀ number, 192 ≤ number → number < 256 →
      isUtf8Starter (UInt8.ofNat number) = true := by
    intro number low below
    rw [isUtf8Starter_ofNat below, decide_eq_true low]
  rw [String.utf8EncodeChar, if_neg high]
  split
  · refine ⟨_, _, rfl, starts _ (by omega) (by omega), ?_, ?_⟩
    · rw [bytesNeeded_ofNat (by omega), if_pos (by omega)]
      rfl
    · simp only [List.forall_mem_cons, UInt8.toNat_ofNat']
      exact ⟨by omega, by omega, nofun⟩
  · split
    · refine ⟨_, _, rfl, starts _ (by omega) (by omega), ?_, ?_⟩
      · rw [bytesNeeded_ofNat (by omega), if_neg (by omega), if_pos (by omega)]
        rfl
      · simp only [List.forall_mem_cons, UInt8.toNat_ofNat']
        exact ⟨by omega, by omega, by omega, nofun⟩
    · refine ⟨_, _, rfl, starts _ (by omega) (by omega), ?_, ?_⟩
      · rw [bytesNeeded_ofNat (by omega), if_neg (by omega), if_neg (by omega),
          if_pos (by omega)]
        rfl
      · simp only [List.forall_mem_cons, UInt8.toNat_ofNat']
        exact ⟨by omega, by omega, by omega, by omega, nofun⟩

/-! ## The loop -/

/-- The characters that the loop sees. -/
abbrev wideChars (chars : List Char) : List Char := chars.filter fun char => !isAscii char

theorem wideChars_append (chars rest : List Char) :
    wideChars (chars ++ rest) = wideChars chars ++ wideChars rest := List.filter_append _ _

/-- With enough characters counted the loop ends. -/
theorem splitLoop_enough {utf8Str result : Bytes} {n count i : Nat} (enough : n ≤ count) :
    splitLoop utf8Str n result count i = some result := by
  rw [splitLoop, dif_neg]
  intro inside
  exact Nat.not_lt.mpr enough inside.2

/-- A byte that is no starter is passed over. -/
theorem splitLoop_skip {before after result : Bytes} {byte : UInt8} {n count : Nat}
    (more : count < n) (skipped : isUtf8Starter byte = false) :
    splitLoop (before ++ byte :: after) n result count before.length =
      splitLoop (before ++ byte :: after) n result count (before.length + 1) := by
  have inside : before.length < (before ++ byte :: after).length := by
    rw [List.length_append, List.length_cons]
    omega
  have here : (before ++ byte :: after)[before.length] = byte := List.getElem_of_append rfl rfl
  rw [splitLoop, dif_pos ⟨inside, more⟩]
  dsimp only
  rw [here, if_neg (Bool.eq_false_iff.mp skipped)]

/-- A starter is appended with the bytes that belong to it. -/
theorem splitLoop_append {before rest after result : Bytes} {first : UInt8} {n count : Nat}
    (more : count < n) (starter : isUtf8Starter first = true)
    (needed : bytesNeeded first = rest.length + 1) :
    splitLoop (before ++ (first :: rest ++ after)) n result count before.length =
      splitLoop (before ++ (first :: rest ++ after)) n (result ++ first :: rest) (count + 1)
        (before.length + (rest.length + 1)) := by
  have length : (before ++ (first :: rest ++ after)).length =
      before.length + (rest.length + 1) + after.length := by
    rw [List.length_append, List.length_append, List.length_cons]
    omega
  have here : (before ++ (first :: rest ++ after))[before.length] = first :=
    List.getElem_of_append rfl rfl
  have appended : ((before ++ (first :: rest ++ after)).drop before.length).take
      (rest.length + 1) = first :: rest := by
    rw [List.drop_left, List.take_left' List.length_cons]
  have next : before.length + (rest.length + 1 - 1) + 1 = before.length + (rest.length + 1) := by
    omega
  rw [splitLoop, dif_pos ⟨by omega, more⟩]
  dsimp only
  rw [here, if_pos starter, needed, if_pos (by omega), appended, next]

/-- From where a character begins, the loop appends the characters to come that are not
ASCII, as many as are still to be counted. -/
theorem splitLoop_encode (chars : List Char) (before result : Bytes) (n count : Nat) :
    splitLoop (before ++ encode chars) n result count before.length =
      some (result ++ encode ((wideChars chars).take (n - count))) := by
  induction chars generalizing before result count with
  | nil =>
      rw [splitLoop, dif_neg]
      · rw [wideChars, List.filter_nil, List.take_nil, encode, List.flatMap_nil, List.append_nil]
      · rw [encode, List.flatMap_nil, List.append_nil]
        omega
  | cons char chars ih =>
      by_cases more : count < n
      · cases ascii : isAscii char with
        | true =>
            obtain ⟨byte, bytes, skipped, -⟩ := utf8EncodeChar_ascii ascii
            have stepped := ih (before ++ [byte]) result count
            rw [List.append_assoc, List.length_append] at stepped
            have dropped : wideChars (char :: chars) = wideChars chars := by
              rw [wideChars, List.filter_cons_of_neg]
              rw [ascii]
              decide
            rw [encode_cons, bytes, List.singleton_append, splitLoop_skip more skipped, dropped]
            exact stepped
        | false =>
            obtain ⟨first, rest, bytes, starter, needed, -⟩ := utf8EncodeChar_wide ascii
            have stepped := ih (before ++ first :: rest) (result ++ first :: rest) (count + 1)
            rw [List.append_assoc, List.length_append, List.append_assoc] at stepped
            have kept : wideChars (char :: chars) = char :: wideChars chars := by
              apply List.filter_cons_of_pos
              rw [ascii]
              rfl
            have counted : n - count = n - (count + 1) + 1 := by omega
            rw [encode_cons, bytes, splitLoop_append more starter needed, kept, counted,
              List.take_succ_cons, encode_cons, bytes]
            exact stepped
      · have enough : n ≤ count := Nat.not_lt.mp more
        rw [splitLoop_enough enough, Nat.sub_eq_zero_of_le enough, List.take_zero, encode,
          List.flatMap_nil, List.append_nil]

/-! ## The preview -/

/-- What is returned: the first characters that are not ASCII. -/
theorem splitFirstNUnicodeChars_encode (chars : List Char) (n : Nat) :
    splitFirstNUnicodeChars (encode chars) n = some (encode ((wideChars chars).take n)) :=
  splitLoop_encode chars [] [] n 0

/-- Below 128 there are the bytes of ASCII characters only. -/
theorem encode_low {chars : List Char} {byte : UInt8} (low : byte.toNat < 128)
    (member : byte ∈ encode chars) : ∃ char ∈ chars, isAscii char = true := by
  obtain ⟨char, present, encoded⟩ := List.mem_flatMap.mp member
  refine ⟨char, present, ?_⟩
  by_contra wide
  obtain ⟨first, rest, bytes, -, -, high⟩ := utf8EncodeChar_wide (Bool.eq_false_iff.mpr wide)
  exact Nat.not_lt.mpr (high byte (bytes ▸ encoded)) low

/-- Where the first characters are wide they are the first of the wide ones. -/
theorem take_wideChars {chars : List Char} {n : Nat}
    (wide : ∀ char ∈ chars.take n, isAscii char = false) :
    (wideChars chars).take n = chars.take n := by
  have first : wideChars (chars.take n) = chars.take n := by
    apply List.filter_eq_self.mpr
    intro char member
    rw [wide char member]
    rfl
  have split : wideChars chars = chars.take n ++ wideChars (chars.drop n) := by
    have parts := wideChars_append (chars.take n) (chars.drop n)
    rwa [List.take_append_drop, first] at parts
  rcases Nat.le_total n chars.length with within | past
  · rw [split, List.take_left' (List.length_take_of_le within)]
  · rw [List.take_of_length_le past] at first ⊢
    rw [first, List.take_of_length_le past]

/-- **Preview truncation** keeps the first characters just when no ASCII character is among
them. -/
theorem splitFirstNUnicodeChars_iff (chars : List Char) (n : Nat) :
    (splitFirstNUnicodeChars (encode chars) n = some (encode (chars.take n)) ∧
        encode (chars.take n) <+: encode chars) ↔
      ∀ char ∈ chars.take n, isAscii char = false := by
  have starts : encode (chars.take n) <+: encode chars :=
    ⟨encode (chars.drop n), by
      rw [encode, encode, ← List.flatMap_append, List.take_append_drop, encode]⟩
  rw [and_iff_left starts, splitFirstNUnicodeChars_encode, Option.some_inj]
  constructor
  · intro same char member
    by_contra ascii
    obtain ⟨byte, bytes, -, low⟩ := utf8EncodeChar_ascii (Bool.not_eq_false _ ▸ ascii)
    have appended : byte ∈ encode ((wideChars chars).take n) := by
      rw [same]
      apply List.mem_flatMap.mpr
      exact ⟨char, member, bytes ▸ List.mem_singleton_self byte⟩
    obtain ⟨other, seen, otherAscii⟩ := encode_low low appended
    have notAscii := (List.mem_filter.mp (List.mem_of_mem_take seen)).2
    rw [otherAscii] at notAscii
    exact Bool.noConfusion notAscii
  · intro wide
    rw [take_wideChars wide]

/-- The preview of one ASCII character is empty. -/
theorem splitFirstNUnicodeChars_ascii : encode (['a'].take 1) = [97] ∧
    splitFirstNUnicodeChars (encode ['a']) 1 = some [] := by
  refine ⟨by decide, ?_⟩
  rw [splitFirstNUnicodeChars_encode]
  decide

end FastDb.Blog
