import Mathlib.Data.List.TakeWhile
import FastDb.Foundation.Tokens
import FastDb.Util.StringUtil

/-! # Tokenizers

`Split` of `common/string_util.cppm` runs `strtok_r` on the buffer of its argument, through
a `const_cast`; `Strtok` searches for the separator and copies what lies between. Both are
meant to return the tokens of the string. `Split` does
(`FastDb.Util.split_eq`), and `Strtok` too unless the string is empty or ends with the
separator (`FastDb.Util.tokenizers_agree_iff`). `Split` blanks the delimiter after each
token, so its argument is left as it was exactly when no delimiter stands right after
another byte (`FastDb.Util.split_frame_iff`).
-/

namespace FastDb.Util

open Foundation

/-- The bytes of a C string: those before its first NUL. -/
def cString (memory : Bytes) : Bytes := memory.takeWhile (· ≠ 0)

/-- The length of the longest run of bytes of the set. -/
def strspn (text set : Bytes) : Nat := (text.takeWhile fun byte => byte ∈ set).length

/-- The length of the longest run of bytes that are neither in the set nor NUL. -/
def strcspn (text set : Bytes) : Nat :=
  (text.takeWhile fun byte => byte ≠ 0 ∧ byte ∉ set).length

/-- What a call of `strtok_r` returns and leaves in `save` and in memory. -/
structure Cut where
  token : Option Nat
  save : Nat
  memory : Bytes

/-- `strtok_r` with the text at `position`: skips delimiters, finds the end of the token,
and stores a NUL there. -/
def strtokR (memory delimiter : Bytes) (position : Nat) : Cut :=
  let start := position + strspn (memory.drop position) delimiter
  if memory[start]? = some 0 then ⟨none, start, memory⟩
  else
    let stop := start + strcspn (memory.drop start) delimiter
    if memory[stop]? = some 0 then ⟨some start, stop, memory⟩
    else ⟨some start, stop + 1, memory.set stop 0⟩

namespace StringUtil

/-- The loop of `Split`: the tokens, and the memory it leaves. The fuel bounds the number of
tokens. -/
def splitFrom (delimiter : Bytes) : Nat → Bytes → Nat → List Bytes × Bytes
  | 0, memory, _ => ([], memory)
  | fuel + 1, memory, save =>
      let cut := strtokR memory delimiter save
      match cut.token with
      | none => ([], cut.memory)
      | some token =>
          let rest := splitFrom delimiter fuel cut.memory cut.save
          (cString (cut.memory.drop token) :: rest.1, rest.2)

/-- `Split`: the tokens, and what the call leaves in the bytes of its argument, which a NUL
follows in memory. -/
def split (str delimiter : Bytes) : List Bytes × Bytes :=
  let result := splitFrom (cString delimiter) (str.length + 1) (str ++ [0]) 0
  (result.1, result.2.take str.length)

/-- `find_first_of(separator, pos)`. -/
def findFirstOf (str : StdString) (separator : UInt8) (pos : Nat) : Nat :=
  match (str.bytes.drop pos).findIdx? (· = separator) with
  | some offset => pos + offset
  | none => npos

/-- `substr(pos, count)`. -/
def substr (str : StdString) (pos count : Nat) : Bytes := (str.bytes.drop pos).take count

/-- The loop of `Strtok`; the fuel bounds the number of iterations. -/
def strtokFrom (str : StdString) (separator : UInt8) : Nat → Nat → List Bytes → List Bytes
  | 0, _, arr => arr
  | fuel + 1, newPos, arr =>
      let pos := findFirstOf str separator newPos
      if npos = pos then
        if newPos < pos then arr ++ [substr str newPos (pos - newPos)] else arr
      else if newPos < pos then
        strtokFrom str separator fuel (pos + 1) (arr ++ [substr str newPos (pos - newPos)])
      else strtokFrom str separator fuel (pos + 1) arr

/-- `Strtok` with an array to append to. -/
def strtokInto (str : StdString) (separator : UInt8) (arr : List Bytes) : List Bytes :=
  strtokFrom str separator (str.bytes.length + 1) 0 arr

/-- `Strtok`. -/
def strtok (str : StdString) (separator : UInt8) : List Bytes :=
  strtokFrom str separator (str.bytes.length + 1) 0 []

end StringUtil

open StringUtil

section Split

variable {done skipped run rest set : Bytes} {stop : UInt8}

/-- The delimiters of a set. -/
abbrev inSet (set : Bytes) (byte : UInt8) : Bool := decide (byte ∈ set)

/-- `strspn` counts the separators in front. -/
private theorem strspn_append (separators : ∀ byte ∈ skipped, inSet set byte = true)
    (stops : inSet set stop = false) : strspn (skipped ++ stop :: rest) set = skipped.length :=
  congrArg List.length (takeWhile_append_stop separators stops rest)

/-- `strcspn` counts up to the first separator. -/
private theorem strcspn_append (isRun : ∀ byte ∈ run, inSet set byte = false) (text : 0 ∉ run)
    (stops : inSet set stop = true ∨ stop = 0) :
    strcspn (run ++ stop :: rest) set = run.length := by
  refine congrArg List.length (takeWhile_append_stop (fun byte member => ?_) ?_ rest)
  · have other : byte ≠ 0 := ne_of_mem_of_not_mem member text
    have outside := isRun byte member
    simp only [decide_eq_false_iff_not] at outside
    simp [other, outside]
  · rcases stops with inside | rfl
    · simp only [decide_eq_true_eq] at inside
      simp [inside]
    · simp

/-- Where only delimiters are left, there is no token. -/
theorem strtokR_none (clean : 0 ∉ set) (separators : ∀ byte ∈ skipped, inSet set byte = true) :
    strtokR (done ++ (skipped ++ 0 :: rest)) set done.length =
      ⟨none, done.length + skipped.length, done ++ (skipped ++ 0 :: rest)⟩ := by
  have skips : strspn (skipped ++ 0 :: rest) set = skipped.length :=
    strspn_append separators (decide_eq_false clean)
  have ends : (done ++ (skipped ++ 0 :: rest))[done.length + skipped.length]? = some 0 := by
    simp
  simp only [strtokR, List.drop_left, skips, ends, ↓reduceIte]

/-- The token after the delimiters: a delimiter behind it becomes a NUL. -/
theorem strtokR_some (separators : ∀ byte ∈ skipped, inSet set byte = true) (nonempty : run ≠ [])
    (isRun : ∀ byte ∈ run, inSet set byte = false) (text : 0 ∉ run)
    (stops : inSet set stop = true ∨ stop = 0) :
    strtokR (done ++ (skipped ++ (run ++ stop :: rest))) set done.length =
      ⟨some (done.length + skipped.length),
        done.length + skipped.length + run.length + (if stop = 0 then 0 else 1),
        done ++ (skipped ++ (run ++ 0 :: rest))⟩ := by
  obtain ⟨first, more, rfl⟩ := List.exists_cons_of_ne_nil nonempty
  have skips : strspn (skipped ++ (first :: more ++ stop :: rest)) set = skipped.length :=
    strspn_append separators (isRun first List.mem_cons_self)
  have starts : (done ++ (skipped ++ (first :: more ++ stop :: rest)))[done.length +
      skipped.length]? = some first := by
    simp
  have isText : first ≠ 0 := ne_of_mem_of_not_mem List.mem_cons_self text
  have drops : (done ++ (skipped ++ (first :: more ++ stop :: rest))).drop
      (done.length + skipped.length) = first :: more ++ stop :: rest := by
    rw [← List.drop_drop, List.drop_left, List.drop_left]
  have runs : strcspn (first :: more ++ stop :: rest) set = (first :: more).length :=
    strcspn_append isRun text stops
  have ends : (done ++ (skipped ++ (first :: more ++ stop :: rest)))[done.length +
      skipped.length + (first :: more).length]? = some stop := by
    rw [← List.getElem?_drop, drops, List.getElem?_append_right (Nat.le_refl _), Nat.sub_self]
    rfl
  have writes : (done ++ (skipped ++ (first :: more ++ stop :: rest))).set
      (done.length + skipped.length + (first :: more).length) 0 =
        done ++ (skipped ++ (first :: more ++ 0 :: rest)) := by
    simp [Nat.add_assoc]
  simp only [strtokR, List.drop_left, skips, starts, Option.some.injEq, isText, ↓reduceIte, drops,
    runs, ends, writes]
  split
  · next nul =>
      rw [nul]
      rfl
  · rfl

/-- A C string ends at the first NUL. -/
theorem cString_append_nul {text : Bytes} (isText : 0 ∉ text) (rest : Bytes) :
    cString (text ++ 0 :: rest) = text := by
  apply takeWhile_append_stop
  · intro byte member
    exact decide_eq_true (ne_of_mem_of_not_mem member isText)
  · exact decide_eq_false (not_not_intro rfl)

/-- A text without NUL is its own C string. -/
theorem cString_eq_self {text : Bytes} (isText : 0 ∉ text) : cString text = text := by
  apply List.takeWhile_eq_self_iff.mpr
  intro byte member
  exact decide_eq_true (ne_of_mem_of_not_mem member isText)

/-- The token that was cut off is a C string of its own. -/
private theorem cString_cut (text : 0 ∉ run) :
    cString ((done ++ (skipped ++ (run ++ 0 :: rest))).drop (done.length + skipped.length)) =
      run := by
  rw [← List.drop_drop, List.drop_left, List.drop_left, cString_append_nul text]

/-- **The loop of `Split`** returns the tokens of the text and blanks the delimiters that end
them. -/
theorem splitFrom_spec (clean : 0 ∉ set) {text : Bytes} (isText : 0 ∉ text) {fuel : Nat}
    (enough : text.length < fuel) (done rest : Bytes) :
    splitFrom set fuel (done ++ (text ++ 0 :: rest)) done.length =
      (tokens (inSet set) text,
        done ++ (endTokens (inSet set) 0 false text ++ 0 :: rest)) := by
  induction text using tokens_induction (inSet set) generalizing fuel done with
  | none skipped separators =>
      obtain ⟨fuel, rfl⟩ : ∃ less, fuel = less + 1 := ⟨fuel - 1, by omega⟩
      rw [splitFrom, strtokR_none clean separators, tokens_of_separators separators,
        endTokens_of_separators separators]
  | last skipped run separators nonempty isRun =>
      obtain ⟨fuel, rfl⟩ : ∃ less, fuel = less + 1 := ⟨fuel - 1, by omega⟩
      have clear : 0 ∉ run := fun member => isText (List.mem_append_right skipped member)
      -- the search for a second token finds the end of the text
      have stops : splitFrom set fuel (done ++ (skipped ++ (run ++ 0 :: rest)))
          (done.length + skipped.length + run.length) =
            ([], done ++ (skipped ++ (run ++ 0 :: rest))) := by
        cases fuel with
        | zero => rfl
        | succ fuel =>
            have whole : done ++ (skipped ++ (run ++ 0 :: rest)) =
                done ++ skipped ++ run ++ ([] ++ 0 :: rest) := by
              simp only [List.append_assoc, List.nil_append]
            have position : done.length + skipped.length + run.length =
                (done ++ skipped ++ run).length := by
              rw [List.length_append, List.length_append]
            rw [whole, position, splitFrom, strtokR_none clean (List.forall_mem_nil _)]
      rw [splitFrom, List.append_assoc, strtokR_some separators nonempty isRun clear (.inr rfl)]
      dsimp only
      rw [if_pos rfl, Nat.add_zero, stops, cString_cut clear, tokens_skip separators,
        tokens_run nonempty isRun, endTokens_skip separators, endTokens_last isRun nonempty,
        List.append_assoc]
  | next skipped run symbol tail separators nonempty isRun separates ih =>
      obtain ⟨fuel, rfl⟩ : ∃ less, fuel = less + 1 := ⟨fuel - 1, by omega⟩
      rw [List.mem_append, List.mem_append, List.mem_cons, not_or, not_or, not_or] at isText
      obtain ⟨-, clear, notNul, isText⟩ := isText
      simp only [List.length_append, List.length_cons] at enough
      have whole : done ++ skipped ++ run ++ [0] ++ (tail ++ 0 :: rest) =
          done ++ (skipped ++ (run ++ 0 :: (tail ++ 0 :: rest))) := by
        simp only [List.append_assoc, List.cons_append, List.nil_append]
      have position : (done ++ skipped ++ run ++ [0]).length =
          done.length + skipped.length + run.length + 1 := by
        simp only [List.length_append, List.length_singleton]
      have later : splitFrom set fuel (done ++ skipped ++ run ++ [0] ++ (tail ++ 0 :: rest))
          (done ++ skipped ++ run ++ [0]).length = _ := ih isText (by omega) _
      rw [whole, position] at later
      have spelled : done ++ (skipped ++ (run ++ symbol :: tail) ++ 0 :: rest) =
          done ++ (skipped ++ (run ++ symbol :: (tail ++ 0 :: rest))) := by
        simp only [List.append_assoc, List.cons_append]
      rw [splitFrom, spelled, strtokR_some separators nonempty isRun clear (.inl separates)]
      dsimp only
      rw [if_neg (Ne.symm notNul), later, cString_cut clear, tokens_skip separators,
        tokens_append_cons run tail separates, tokens_run nonempty isRun,
        endTokens_skip separators, endTokens_run isRun nonempty, endTokens, if_pos separates]
      simp only [List.append_assoc, List.cons_append, List.nil_append, ↓reduceIte]

/-- A C string has no NUL in it. -/
theorem not_mem_cString (memory : Bytes) : 0 ∉ cString memory := by
  intro member
  have text := List.mem_takeWhile_imp member
  simp at text

/-- A C string is a front of its memory. -/
theorem cString_append_drop (str : Bytes) : cString str ++ str.drop (cString str).length = str :=
  List.prefix_iff_eq_append.mp (List.takeWhile_prefix _)

/-- A NUL stands behind the text of a string. -/
private theorem cString_memory (str : Bytes) :
    ∃ rest, str ++ [0] = cString str ++ 0 :: rest ∧
      (0 :: rest).take (str.length - (cString str).length) = str.drop (cString str).length := by
  by_cases nul : 0 ∈ str
  · obtain ⟨front, tail, rfl, text⟩ := List.eq_append_cons_of_mem nul
    rw [cString_append_nul text]
    refine ⟨tail ++ [0], by rw [List.append_assoc, List.cons_append], ?_⟩
    rw [List.drop_left, List.length_append, Nat.add_sub_cancel_left, ← List.cons_append,
      List.take_left]
  · rw [cString_eq_self nul]
    exact ⟨[], rfl, by rw [Nat.sub_self, List.drop_length, List.take_zero]⟩

/-- **`Split`** returns the tokens of the text before the first NUL, and leaves in its
argument the text with the delimiters that end a token blanked. -/
theorem split_eq (str delimiter : Bytes) :
    split str delimiter =
      (tokens (inSet (cString delimiter)) (cString str),
        endTokens (inSet (cString delimiter)) 0 false (cString str) ++
          str.drop (cString str).length) := by
  obtain ⟨rest, memory, behind⟩ := cString_memory str
  have short : (cString str).length ≤ str.length := (List.takeWhile_prefix _).length_le
  have run := splitFrom_spec (not_mem_cString delimiter) (not_mem_cString str)
    (Nat.lt_succ_of_le short) [] rest
  rw [List.nil_append, ← memory] at run
  rw [split, List.length_nil] at *
  rw [run]
  dsimp only
  rw [List.nil_append, List.take_append, length_endTokens, behind, List.take_of_length_le]
  rw [length_endTokens]
  exact short

/-- **The argument of `Split`** is left as it was, so that a second call returns the same
tokens, exactly when no delimiter stands right after another byte. -/
theorem split_frame_iff (str delimiter : Bytes) :
    ((split str delimiter).2 = str ∧
        (split (split str delimiter).2 delimiter).1 = (split str delimiter).1) ↔
      (cString str).IsChain fun byte next =>
        next ∈ cString delimiter → byte ∈ cString delimiter := by
  have kept : (split str delimiter).2 = str ↔
      (cString str).IsChain fun byte next =>
        next ∈ cString delimiter → byte ∈ cString delimiter := by
    rw [split_eq]
    dsimp only
    conv_lhs => rhs; rw [← cString_append_drop str]
    rw [List.append_left_inj, endTokens_eq_self_iff]
    · simp
    · exact decide_eq_false (not_mem_cString delimiter)
  constructor
  · intro frame
    exact kept.mp frame.1
  · intro chain
    have same := kept.mpr chain
    exact ⟨same, by rw [same]⟩

/-- The comma after the first word becomes a NUL, and a second call returns that word
alone. -/
theorem split_frame_comma :
    split (ascii "a,b") (ascii ",") = ([ascii "a", ascii "b"], [97, 0, 98]) ∧
      split [97, 0, 98] (ascii ",") = ([ascii "a"], [97, 0, 98]) ∧
      ¬ ((split (ascii "a,b") (ascii ",")).2 = ascii "a,b" ∧
        (split (split (ascii "a,b") (ascii ",")).2 (ascii ",")).1 =
          (split (ascii "a,b") (ascii ",")).1) := by
  decide

end Split

section Strtok

variable {str : StdString} {separator : UInt8}

/-- The byte is the separator. -/
abbrev isByte (separator byte : UInt8) : Bool := decide (byte = separator)

/-- The empty token that `Strtok` appends for nothing after the last separator. -/
def trailing (separator : UInt8) (text : Bytes) : List Bytes :=
  if text = [] ∨ text.getLast? = some separator then [[]] else []

/-- A separator that is not there is not found. -/
private theorem findFirstOf_absent {newPos : Nat}
    (absent : ∀ byte ∈ str.bytes.drop newPos, isByte separator byte = false) :
    findFirstOf str separator newPos = npos := by
  have nowhere : (str.bytes.drop newPos).findIdx? (· = separator) = none :=
    List.findIdx?_eq_none_iff.mpr absent
  rw [findFirstOf, nowhere]

/-- The first separator is found. -/
private theorem findFirstOf_found {newPos : Nat} {front rest : Bytes}
    (split : str.bytes.drop newPos = front ++ separator :: rest)
    (before : ∀ byte ∈ front, isByte separator byte = false) :
    findFirstOf str separator newPos = newPos + front.length := by
  have first : (front ++ separator :: rest).findIdx? (· = separator) = some front.length := by
    rw [List.findIdx?_append, List.findIdx?_eq_none_iff.mpr before]
    simp [List.findIdx?_cons]
  rw [findFirstOf, split, first]

/-- The tokens of a run: itself unless it is empty. -/
private theorem tokens_front {front : Bytes}
    (before : ∀ byte ∈ front, isByte separator byte = false) :
    tokens (isByte separator) front = if front = [] then [] else [front] := by
  split
  · next empty => rw [empty, tokens_nil]
  · next nonempty => exact tokens_run nonempty before

/-- Without a separator, the run is what `Strtok` returns, empty or not. -/
private theorem tokens_trailing_front {front : Bytes}
    (before : ∀ byte ∈ front, isByte separator byte = false) :
    tokens (isByte separator) front ++ trailing separator front = [front] := by
  rw [tokens_front before, trailing]
  by_cases empty : front = []
  · rw [if_pos empty, if_pos (.inl empty), empty, List.nil_append]
  · have last : front.getLast? ≠ some separator := by
      intro ends
      have separates := before separator (List.mem_of_getLast? ends)
      simp at separates
    rw [if_neg empty, if_neg (not_or.mpr ⟨empty, last⟩), List.append_nil]

/-- What trails depends on what is behind the last separator. -/
private theorem trailing_append (front rest : Bytes) :
    trailing separator (front ++ separator :: rest) = trailing separator rest := by
  cases rest with
  | nil => simp [trailing]
  | cons byte rest => simp [trailing, List.getLast?_append, List.getLast?_cons_cons]

/-- **The loop of `Strtok`** appends the tokens of what is left, and an empty one where it
is empty or ends with the separator. -/
theorem strtokFrom_spec {fuel newPos : Nat} (arr : List Bytes)
    (inside : newPos ≤ str.bytes.length) (enough : (str.bytes.drop newPos).length < fuel) :
    strtokFrom str separator fuel newPos arr =
      arr ++ (tokens (isByte separator) (str.bytes.drop newPos) ++
        trailing separator (str.bytes.drop newPos)) := by
  have short := str.short
  induction fuel generalizing newPos arr with
  | zero => exact absurd enough (Nat.not_lt_zero _)
  | succ fuel ih =>
      rw [List.length_drop] at enough
      obtain absent | ⟨front, found, rest, split, before, separates⟩ :=
        forall_or_exists_first (fun byte => !isByte separator byte) (str.bytes.drop newPos)
      · simp only [Bool.not_eq_true'] at absent
        have whole : substr str newPos (npos - newPos) = str.bytes.drop newPos := by
          refine List.take_of_length_le ?_
          rw [List.length_drop]
          omega
        rw [strtokFrom, findFirstOf_absent absent, if_pos rfl,
          if_pos (Nat.lt_of_le_of_lt inside short), whole, tokens_trailing_front absent]
      · simp only [Bool.not_eq_true', Bool.not_eq_false'] at before separates
        obtain rfl := of_decide_eq_true separates
        have lengths := congrArg List.length split
        rw [List.length_drop, List.length_append, List.length_cons] at lengths
        have here : findFirstOf str found newPos = newPos + front.length :=
          findFirstOf_found split before
        have left : str.bytes.drop (newPos + front.length + 1) = rest := by
          rw [Nat.add_assoc, ← List.drop_drop, split, ← List.drop_drop, List.drop_left,
            List.drop_one, List.tail_cons]
        have piece : substr str newPos (newPos + front.length - newPos) = front := by
          rw [substr, split, Nat.add_sub_cancel_left, List.take_left]
        have later (arr : List Bytes) :
            strtokFrom str found fuel (newPos + front.length + 1) arr =
              arr ++ (tokens (isByte found) rest ++ trailing found rest) := by
          rw [ih arr (by omega) (by rw [left]; omega), left]
        rw [strtokFrom, here, if_neg (by omega), piece, later, later, split,
          tokens_append_cons front rest separates, tokens_front before, trailing_append]
        by_cases empty : front = []
        · subst empty
          have here : ¬ newPos < newPos + ([] : Bytes).length := Nat.lt_irrefl newPos
          rw [if_neg here, if_pos rfl, List.nil_append]
        · have longer : newPos < newPos + front.length :=
            Nat.lt_add_of_pos_right (List.length_pos_iff.mpr empty)
          rw [if_pos longer, if_neg empty]
          simp only [List.append_assoc]

/-- Both overloads append the same tokens. -/
theorem strtokInto_eq (str : StdString) (separator : UInt8) (arr : List Bytes) :
    strtokInto str separator arr =
      arr ++ (tokens (isByte separator) str.bytes ++ trailing separator str.bytes) :=
  strtokFrom_spec arr (Nat.zero_le _) (Nat.lt_succ_self _)

/-- `Strtok` gives the tokens and what trails. -/
theorem strtok_eq (str : StdString) (separator : UInt8) :
    strtok str separator = tokens (isByte separator) str.bytes ++ trailing separator str.bytes :=
  strtokInto_eq str separator []

end Strtok

/-- **The tokenizers agree** on a string without NUL and a separator other than NUL, and
return its tokens, exactly when the string is not empty and does not end with the
separator. -/
theorem tokenizers_agree_iff (str : StdString) {separator : UInt8} (isText : 0 ∉ str.bytes)
    (notNul : separator ≠ 0) :
    ((split str.bytes [separator]).1 = tokens (isByte separator) str.bytes ∧
        strtokInto str separator [] = tokens (isByte separator) str.bytes ∧
        strtok str separator = tokens (isByte separator) str.bytes) ↔
      str.bytes ≠ [] ∧ str.bytes.getLast? ≠ some separator := by
  have text : cString str.bytes = str.bytes := cString_eq_self isText
  have delimiters : inSet (cString [separator]) = isByte separator := by
    have single : cString [separator] = [separator] := by simp [cString, notNul]
    funext byte
    rw [single]
    exact decide_eq_decide.mpr List.mem_singleton
  have splits : (split str.bytes [separator]).1 = tokens (isByte separator) str.bytes := by
    rw [split_eq, text, delimiters]
  have strtoks : strtok str separator = tokens (isByte separator) str.bytes ↔
      str.bytes ≠ [] ∧ str.bytes.getLast? ≠ some separator := by
    rw [strtok_eq, List.append_right_eq_self, trailing, ← not_or]
    split
    · next ends => simp [ends]
    · next ends => simp [ends]
  have overloads : strtokInto str separator [] = strtok str separator := rfl
  rw [overloads, strtoks]
  exact ⟨fun agree => agree.2.1, fun ends => ⟨splits, ends, ends⟩⟩

/-- A leading separator and a double one. -/
theorem tokenizers_agree_words :
    (split (ascii ",a,,b") (ascii ",")).1 = tokens (isByte 44) (ascii ",a,,b") ∧
      strtokInto ⟨ascii ",a,,b", by decide⟩ 44 [] = tokens (isByte 44) (ascii ",a,,b") ∧
      strtok ⟨ascii ",a,,b", by decide⟩ 44 = tokens (isByte 44) (ascii ",a,,b") :=
  (tokenizers_agree_iff ⟨ascii ",a,,b", by decide⟩ (by decide) (by decide)).mpr
    ⟨by decide, by decide⟩

/-- After a trailing separator, and in the empty string, `Strtok` finds an empty token that
`Split` does not. -/
theorem tokenizers_disagree :
    (split (ascii "a,") (ascii ",")).1 = [ascii "a"] ∧
      strtok ⟨ascii "a,", by decide⟩ 44 = [ascii "a", []] ∧
      strtokInto ⟨ascii "a,", by decide⟩ 44 [] = [ascii "a", []] ∧
      (split [] (ascii ",")).1 = [] ∧ strtok ⟨[], by decide⟩ 44 = [[]] := by
  decide +kernel

end FastDb.Util
