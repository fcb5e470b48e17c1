import FastDb.Foundation.Tokens
import FastDb.Util.StringUtil

/-! # Trimming

`TrimLeft`, `TrimRight` and `Trim` of `common/string_util.cppm` erase up to the first byte
that is not in the token set and from behind the last one. For a string of nothing but token
bytes the first position is `npos`, as a count more than there is, and the last one `npos`
too, behind which `npos + 1` is zero: both erase everything. The three functions throw
nothing, the halves of `Trim` commute, and its result is the string without the token bytes
at both ends (`FastDb.Util.trim_laws`).
-/

namespace FastDb.Util

open Foundation

/-- The bytes of a token set. -/
abbrev isToken (token : StdString) (byte : UInt8) : Bool := decide (byte ∈ token.bytes)

namespace StdString

/-- `find_first_not_of(token)`. -/
def findFirstNotOf (str token : StdString) : UInt64 :=
  match str.bytes.findIdx? fun byte => !isToken token byte with
  | some position => UInt64.ofNat position
  | none => UInt64.ofNat npos

/-- `find_last_not_of(token)`: the position, found from the end. -/
def findLastNotOf (str token : StdString) : UInt64 :=
  match str.bytes.reverse.findIdx? fun byte => !isToken token byte with
  | some behind => UInt64.ofNat (str.bytes.length - 1 - behind)
  | none => UInt64.ofNat npos

/-- `erase(index, count)`; `none` is the `out_of_range` it throws for an index past the
end. -/
def erase (str : StdString) (index : UInt64) (count : UInt64 := UInt64.ofNat npos) :
    Option StdString :=
  if str.bytes.length < index.toNat then none
  else
    some {
      bytes := str.bytes.take index.toNat ++ str.bytes.drop (index.toNat + count.toNat)
      short := by
        refine Nat.lt_of_le_of_lt ?_ str.short
        rw [List.length_append, List.length_take, List.length_drop]
        omega }

end StdString

namespace StringUtil

/-- `" "`, the token set where none is given. -/
def space : StdString := ⟨ascii " ", by decide⟩

/-- `TrimLeft`. -/
def trimLeft (str : StdString) (token : StdString := space) : Option StdString :=
  str.erase 0 (str.findFirstNotOf token)

/-- `TrimRight`. -/
def trimRight (str : StdString) (token : StdString := space) : Option StdString :=
  str.erase (str.findLastNotOf token + 1)

/-- `Trim`. -/
def trim (str : StdString) (token : StdString := space) : Option StdString :=
  (str.erase 0 (str.findFirstNotOf token)).bind fun t => t.erase (t.findLastNotOf token + 1)

end StringUtil

open StdString StringUtil

variable {str token : StdString}

/-- Behind the count that `TrimLeft` erases is the rest of the string. -/
theorem drop_findFirstNotOf (str token : StdString) :
    str.bytes.drop (str.findFirstNotOf token).toNat = str.bytes.dropWhile (isToken token) := by
  have short := str.short
  have size : npos = 2 ^ 64 - 1 := rfl
  rw [findFirstNotOf, List.dropWhile_eq_drop_findIdx_not]
  cases found : str.bytes.findIdx? fun byte => !isToken token byte with
  | some position =>
      obtain ⟨inside, first⟩ := List.findIdx?_eq_some_iff_findIdx_eq.mp found
      have count : (UInt64.ofNat position).toNat = position := by
        rw [UInt64.toNat_ofNat']
        omega
      rw [first, count]
  | none =>
      -- `npos` is more than there is to erase
      have first := List.findIdx?_eq_none_iff_findIdx_eq.mp found
      have count : (UInt64.ofNat npos).toNat = npos := rfl
      rw [first, count, List.drop_length, List.drop_eq_nil_of_le (Nat.le_of_lt short)]

/-- Before the position from which `TrimRight` erases is the rest of the string. -/
theorem take_findLastNotOf (str token : StdString) :
    (str.findLastNotOf token + 1).toNat ≤ str.bytes.length ∧
      str.bytes.take (str.findLastNotOf token + 1).toNat =
        str.bytes.rdropWhile (isToken token) := by
  have short := str.short
  have size : npos = 2 ^ 64 - 1 := rfl
  rw [findLastNotOf, List.rdropWhile, List.dropWhile_eq_drop_findIdx_not]
  cases found : str.bytes.reverse.findIdx? fun byte => !isToken token byte with
  | some behind =>
      obtain ⟨inside, last⟩ := List.findIdx?_eq_some_iff_findIdx_eq.mp found
      rw [List.length_reverse] at inside
      have index : (UInt64.ofNat (str.bytes.length - 1 - behind) + 1).toNat =
          str.bytes.length - behind := by
        rw [UInt64.toNat_add, UInt64.toNat_ofNat', UInt64.toNat_one]
        omega
      rw [last, index, List.drop_reverse, List.reverse_reverse]
      exact ⟨Nat.sub_le _ _, rfl⟩
  | none =>
      -- `npos + 1` is zero
      have last := List.findIdx?_eq_none_iff_findIdx_eq.mp found
      have index : (UInt64.ofNat npos + 1).toNat = 0 := rfl
      rw [last, index, List.drop_length]
      exact ⟨Nat.zero_le _, rfl⟩

/-- `TrimLeft` drops the tokens in front. -/
theorem trimLeft_spec (str token : StdString) :
    ∃ left, trimLeft str token = some left ∧
      left.bytes = str.bytes.dropWhile (isToken token) := by
  have inside : ¬ str.bytes.length < (0 : UInt64).toNat := Nat.not_lt_zero _
  rw [trimLeft, erase, if_neg inside]
  refine ⟨_, rfl, ?_⟩
  dsimp only
  rw [UInt64.toNat_zero, List.take_zero, List.nil_append, Nat.zero_add, drop_findFirstNotOf]

/-- `TrimRight` drops the tokens at the end. -/
theorem trimRight_spec (str token : StdString) :
    ∃ right, trimRight str token = some right ∧
      right.bytes = str.bytes.rdropWhile (isToken token) := by
  obtain ⟨inside, kept⟩ := take_findLastNotOf str token
  have rest : str.bytes.length ≤
      (str.findLastNotOf token + 1).toNat + (UInt64.ofNat npos).toNat :=
    Nat.le_trans (Nat.le_of_lt str.short) (Nat.le_add_left _ _)
  rw [trimRight, erase, if_neg (Nat.not_lt_of_le inside)]
  refine ⟨_, rfl, ?_⟩
  dsimp only
  rw [kept, List.drop_eq_nil_of_le rest, List.append_nil]

/-- `Trim` trims the left and then the right. -/
theorem trim_eq_bind (str token : StdString) :
    trim str token = (trimLeft str token).bind fun left => trimRight left token := rfl

/-- What is left without the token bytes at both ends. -/
theorem trim_spec (str token : StdString) :
    ∃ result, trim str token = some result ∧
      result.bytes = (str.bytes.dropWhile (isToken token)).rdropWhile (isToken token) := by
  obtain ⟨left, trimmed, leftBytes⟩ := trimLeft_spec str token
  obtain ⟨result, trimmedToo, bytes⟩ := trimRight_spec left token
  rw [trim_eq_bind, trimmed, ← leftBytes]
  exact ⟨result, trimmedToo, bytes⟩

/-- The trimmed bytes lie between bytes of the set, and begin and end with no byte of it. -/
private theorem trimmed_bounds (bytes : Bytes) (set : UInt8 → Bool) :
    (∃ front back, bytes = front ++ (bytes.dropWhile set).rdropWhile set ++ back ∧
      (∀ byte ∈ front, set byte = true) ∧ ∀ byte ∈ back, set byte = true) ∧
    (∀ byte ∈ ((bytes.dropWhile set).rdropWhile set).head?, set byte = false) ∧
    (∀ byte ∈ ((bytes.dropWhile set).rdropWhile set).getLast?, set byte = false) := by
  refine ⟨⟨bytes.takeWhile set, (bytes.dropWhile set).rtakeWhile set, ?_, ?_, ?_⟩, ?_, ?_⟩
  · rw [List.append_assoc, List.rdropWhile_append_rtakeWhile, List.takeWhile_append_dropWhile]
  · intro byte member
    exact List.mem_takeWhile_imp member
  · intro byte member
    exact List.mem_rtakeWhile_imp member
  · intro byte first
    rw [rdropWhile_dropWhile] at first
    have stops := List.head?_dropWhile_not set (bytes.rdropWhile set)
    rw [Option.mem_def.mp first] at stops
    exact stops
  · intro byte last
    obtain ⟨nonempty, rfl⟩ := List.mem_getLast?_eq_getLast last
    have stops := List.rdropWhile_last_not set (bytes.dropWhile set) nonempty
    simpa using stops

/-- **The laws of trimming.** For every string and every token set the three functions throw
nothing, `Trim` is its two halves in either order, its result is the string without token
bytes before and behind it, and begins and ends with none, and trimming it again changes
nothing. -/
theorem trim_laws (str token : StdString) :
    ∃ left right result, trimLeft str token = some left ∧ trimRight str token = some right ∧
      trim str token = some result ∧ trimRight left token = some result ∧
      trimLeft right token = some result ∧
      (∃ front back, str.bytes = front ++ result.bytes ++ back ∧
        (∀ byte ∈ front, byte ∈ token.bytes) ∧ ∀ byte ∈ back, byte ∈ token.bytes) ∧
      (∀ byte ∈ result.bytes.head?, byte ∉ token.bytes) ∧
      (∀ byte ∈ result.bytes.getLast?, byte ∉ token.bytes) ∧
      trim result token = some result := by
  obtain ⟨left, trimmedLeft, leftBytes⟩ := trimLeft_spec str token
  obtain ⟨right, trimmedRight, rightBytes⟩ := trimRight_spec str token
  obtain ⟨result, trimmed, bytes⟩ := trim_spec str token
  obtain ⟨leftFirst, leftTrimmed, leftFirstBytes⟩ := trimRight_spec left token
  obtain ⟨rightFirst, rightTrimmed, rightFirstBytes⟩ := trimLeft_spec right token
  obtain ⟨again, trimmedAgain, againBytes⟩ := trim_spec result token
  obtain ⟨between, first, last⟩ := trimmed_bounds str.bytes (isToken token)
  rw [leftBytes, ← bytes] at leftFirstBytes
  rw [rightBytes, ← rdropWhile_dropWhile, ← bytes] at rightFirstBytes
  have stays : again.bytes = result.bytes := by
    rw [againBytes, bytes, rdropWhile_dropWhile, List.rdropWhile_idempotent,
      rdropWhile_dropWhile, List.dropWhile_idempotent]
  rw [← bytes] at between first last
  simp only [decide_eq_true_eq, decide_eq_false_iff_not] at between first last
  rw [StdString.ext leftFirstBytes] at leftTrimmed
  rw [StdString.ext rightFirstBytes] at rightTrimmed
  rw [StdString.ext stays] at trimmedAgain
  exact ⟨left, right, result, trimmedLeft, trimmedRight, trimmed, leftTrimmed, rightTrimmed,
    between, first, last, trimmedAgain⟩

/-- A string of nothing but token bytes, the empty string, and the empty token set. -/
example :
    (trim ⟨ascii " \t ", by decide⟩ ⟨ascii "\t ", by decide⟩).map StdString.bytes = some [] ∧
      (trim ⟨[], by decide⟩).map StdString.bytes = some [] ∧
      (trim ⟨ascii " a ", by decide⟩ ⟨[], by decide⟩).map StdString.bytes =
        some (ascii " a ") := by
  decide

end FastDb.Util
