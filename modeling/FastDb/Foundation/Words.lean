import FastDb.Foundation.Framing

/-! # Searching a stream for a word

The first occurrence of a word in a stream, as a substring search reports it
(`Foundation.findWord`), and the complete lines of a stream whose lines a word
terminates (`Foundation.completeLines`). An occurrence is a decomposition of the
stream around the word; the search finds the shortest one
(`Foundation.findWord_least`) and fails exactly when there is none
(`Foundation.findWord_eq_none_iff`). An occurrence of a word that does not overlap
itself is found right after what is free of it (`Foundation.Unbordered.findWord_eq`).
-/

namespace Foundation

variable {α : Type*} [DecidableEq α]

/-- A word is stripped exactly where it is in front. -/
theorem stripWord_eq_some_iff (word stream rest : List α) :
    stripWord word stream = some rest ↔ stream = word ++ rest := by
  constructor
  · intro stripped
    induction word generalizing stream with
    | nil => exact Option.some.inj stripped
    | cons symbol word ih =>
        cases stream with
        | nil => cases stripped
        | cons first stream =>
            simp only [stripWord] at stripped
            split at stripped
            · next same => rw [same, ih stream stripped, List.cons_append]
            · cases stripped
  · rintro rfl
    exact stripWord_append word rest

/-- The position of the first occurrence of a word. -/
def findWord (word : List α) : List α → Option Nat
  | [] => if word = [] then some 0 else none
  | symbol :: stream =>
      if (stripWord word (symbol :: stream)).isSome then some 0
      else (findWord word stream).map (· + 1)

/-- A found position splits the stream around the word. -/
theorem findWord_split {word stream : List α} {position : Nat}
    (found : findWord word stream = some position) :
    stream = stream.take position ++ word ++ stream.drop (position + word.length) := by
  induction stream generalizing position with
  | nil =>
      simp only [findWord] at found
      split at found
      · next empty => simp [empty]
      · cases found
  | cons symbol stream ih =>
      simp only [findWord] at found
      split at found
      · next here =>
          obtain rfl := Option.some.inj found
          obtain ⟨rest, stripped⟩ := Option.isSome_iff_exists.mp here
          have spelled := (stripWord_eq_some_iff _ _ _).mp stripped
          rw [Nat.zero_add, List.take_zero, List.nil_append]
          conv_rhs => rw [spelled, List.drop_left]
          exact spelled
      · obtain ⟨earlier, foundEarlier, rfl⟩ := Option.map_eq_some_iff.mp found
        rw [List.take_succ_cons, List.cons_append, List.cons_append, Nat.succ_add,
          List.drop_succ_cons]
        exact congrArg (symbol :: ·) (ih foundEarlier)

/-- No occurrence lies before the found position. -/
theorem findWord_least {word stream before rest : List α} {position : Nat}
    (found : findWord word stream = some position) (occurs : stream = before ++ word ++ rest) :
    position ≤ before.length := by
  induction stream generalizing position before with
  | nil =>
      simp only [findWord] at found
      split at found
      · exact (Option.some.inj found) ▸ Nat.zero_le _
      · cases found
  | cons symbol stream ih =>
      simp only [findWord] at found
      split at found
      · exact (Option.some.inj found) ▸ Nat.zero_le _
      · next absent =>
          obtain ⟨earlier, foundEarlier, rfl⟩ := Option.map_eq_some_iff.mp found
          cases before with
          | nil => exact absurd (by rw [occurs, List.nil_append, stripWord_append]; rfl) absent
          | cons first before =>
              have tail : stream = before ++ word ++ rest := by
                simpa using congrArg List.tail occurs
              exact Nat.succ_le_succ (ih foundEarlier tail)

theorem findWord_le {word stream : List α} {position : Nat}
    (found : findWord word stream = some position) :
    position + word.length ≤ stream.length := by
  have least := findWord_least found (findWord_split found)
  have split := congrArg List.length (findWord_split found)
  simp only [List.length_append, List.length_take, List.length_drop] at split least
  omega

/-- A word is not found exactly where it does not occur. -/
theorem findWord_eq_none_iff {word stream : List α} :
    findWord word stream = none ↔ ∀ before rest, stream ≠ before ++ word ++ rest := by
  constructor
  · intro absent before rest occurs
    induction stream generalizing before with
    | nil =>
        have empty : word = [] := by
          have := congrArg List.length occurs
          simp only [List.length_nil, List.length_append] at this
          exact List.length_eq_zero_iff.mp (by omega)
        simp only [findWord, empty, ↓reduceIte] at absent
        cases absent
    | cons symbol stream ih =>
        simp only [findWord] at absent
        split at absent
        · cases absent
        · next missing =>
            cases before with
            | nil => exact missing (by rw [occurs, List.nil_append, stripWord_append]; rfl)
            | cons first before =>
                exact ih (Option.map_eq_none_iff.mp absent) before
                  (by simpa using congrArg List.tail occurs)
  · intro nowhere
    cases found : findWord word stream with
    | none => rfl
    | some position => exact absurd (findWord_split found) (nowhere _ _)

/-- Not found is not an infix. -/
theorem findWord_eq_none_iff_not_infix {word stream : List α} :
    findWord word stream = none ↔ ¬ word <:+: stream := by
  rw [findWord_eq_none_iff]
  constructor
  · rintro nowhere ⟨before, rest, occurs⟩
    exact nowhere before rest occurs.symm
  · intro nowhere before rest occurs
    exact nowhere ⟨before, rest, occurs.symm⟩

/-- No shorter nonempty word both begins and ends the word, so that two occurrences of it
do not overlap. -/
def Unbordered (word : List α) : Prop :=
  ∀ border, border ≠ [] → border <+: word → border <:+ word → border = word

omit [DecidableEq α] in
/-- A word whose first symbol does not occur again does not overlap itself. -/
theorem unbordered_cons {symbol : α} {word : List α} (absent : symbol ∉ word) :
    Unbordered (symbol :: word) := by
  intro border nonempty front back
  cases border with
  | nil => exact absurd rfl nonempty
  | cons first border =>
      obtain ⟨rfl, _⟩ := List.cons_prefix_cons.mp front
      rcases List.suffix_cons_iff.mp back with whole | inside
      · exact whole
      · exact absurd (inside.subset List.mem_cons_self) absent

/-- **The first occurrence** of a word that does not overlap itself is right after a prefix
in which it does not occur. -/
theorem Unbordered.findWord_eq {word before : List α} (unbordered : Unbordered word)
    (nowhere : ¬ word <:+: before) (rest : List α) :
    findWord word (before ++ (word ++ rest)) = some before.length := by
  cases found : findWord word (before ++ (word ++ rest)) with
  | none => exact absurd (List.append_assoc _ _ _).symm (findWord_eq_none_iff.mp found before rest)
  | some position =>
      have least := findWord_least found (List.append_assoc before word rest).symm
      have inside := findWord_le found
      have split := findWord_split found
      have width : ((before ++ (word ++ rest)).take position).length = position := by
        rw [List.length_take]
        omega
      rw [List.append_assoc] at split
      generalize (before ++ (word ++ rest)).take position = front at split width
      generalize (before ++ (word ++ rest)).drop (position + word.length) = back at split
      -- the part of the prefix behind the occurrence is empty
      obtain ⟨middle, spelled, tail⟩ | ⟨middle, spelled, tail⟩ :=
        List.append_eq_append_iff.mp split.symm
      · cases middle with
        | nil => rw [spelled, List.append_nil, width]
        | cons symbol middle =>
            exfalso
            obtain ⟨more, cut, _⟩ | ⟨more, cut, overlap⟩ := List.append_eq_append_iff.mp tail
            · exact nowhere ⟨front, more, by rw [spelled, cut, List.append_assoc]⟩
            · cases more with
              | nil =>
                  rw [List.append_nil] at cut
                  exact nowhere ⟨front, [], by rw [spelled, cut, List.append_nil]⟩
              | cons first more =>
                  have short : (first :: more).length ≤ word.length := by
                    rw [cut, List.length_append]
                    omega
                  have whole := unbordered (first :: more) (List.cons_ne_nil _ _)
                    (List.prefix_of_prefix_length_le ⟨_, overlap.symm⟩
                      (List.prefix_append word rest) short) ⟨_, cut.symm⟩
                  have lengths := congrArg List.length cut
                  rw [List.length_append, whole, List.length_cons] at lengths
                  omega
      · rw [spelled, List.length_append] at width
        have equal : before.length = position := by omega
        rw [equal]

/-- A word whose first symbol does not occur in a prefix is found right after
that prefix. -/
theorem findWord_after {symbol : α} {word before : List α} (rest : List α)
    (absent : symbol ∉ before) :
    findWord (symbol :: word) (before ++ (symbol :: word ++ rest)) = some before.length := by
  induction before with
  | nil =>
      have here : (stripWord (symbol :: word) (symbol :: (word ++ rest))).isSome :=
        Option.isSome_iff_exists.mpr ⟨rest, stripWord_append (symbol :: word) rest⟩
      simp only [List.nil_append, List.cons_append, findWord, here, ↓reduceIte, List.length_nil]
  | cons first before ih =>
      have different : first ≠ symbol := fun same => absent (same ▸ List.mem_cons_self)
      simp only [List.cons_append, findWord, stripWord, different, ↓reduceIte, Option.isSome_none,
        Bool.false_eq_true, List.length_cons]
      rw [← List.cons_append, ih fun member => absent (List.mem_cons_of_mem _ member)]
      rfl

/-- What follows a stream does not change the first occurrence in it. -/
theorem findWord_append {word stream : List α} {position : Nat}
    (found : findWord word stream = some position) (more : List α) :
    findWord word (stream ++ more) = some position := by
  have extended : stream ++ more =
      stream.take position ++ word ++ (stream.drop (position + word.length) ++ more) := by
    conv_lhs => rw [findWord_split found]
    exact List.append_assoc _ _ _
  cases search : findWord word (stream ++ more) with
  | none => exact absurd extended (findWord_eq_none_iff.mp search _ _)
  | some other =>
      have inside := findWord_le found
      have least := findWord_least search extended
      have width : (stream.take position).length = position := by
        rw [List.length_take]
        omega
      -- the occurrence found in the longer stream lies inside the shorter one
      have bound := findWord_le search
      have front : (stream ++ more).take other ++ word <+: stream := by
        refine List.prefix_of_prefix_length_le ⟨_, (findWord_split search).symm⟩
          (List.prefix_append stream more) ?_
        simp only [List.length_append, List.length_take] at bound ⊢
        omega
      obtain ⟨tail, shorter⟩ := front
      have back := findWord_least found shorter.symm
      simp only [List.length_append, List.length_take] at back bound
      exact congrArg some (by omega)

/-- The lines of a stream that the word terminates, each with its terminator;
what follows the last terminator is not a complete line. The fuel bounds the
number of lines. -/
def linesUpTo (word : List α) : Nat → List α → List (List α)
  | 0, _ => []
  | fuel + 1, stream =>
      match findWord word stream with
      | none => []
      | some position =>
          stream.take (position + word.length) ::
            linesUpTo word fuel (stream.drop (position + word.length))

/-- The complete lines of a stream. A nonempty terminator shortens what is left,
so the length of the stream is fuel enough. -/
def completeLines (word : List α) (stream : List α) : List (List α) :=
  linesUpTo word stream.length stream

theorem linesUpTo_of_le {word : List α} (nonempty : word ≠ []) {fuel : Nat} {stream : List α}
    (enough : stream.length ≤ fuel) : linesUpTo word fuel stream = completeLines word stream := by
  have positive : 0 < word.length := List.length_pos_iff.mpr nonempty
  unfold completeLines
  induction fuel using Nat.strongRecOn generalizing stream with
  | _ fuel ih =>
      cases fuel with
      | zero => rw [Nat.le_zero.mp enough]
      | succ fuel =>
          cases found : findWord word stream with
          | none =>
              simp only [linesUpTo, found]
              cases stream.length <;> simp only [linesUpTo, found]
          | some position =>
              have inside := findWord_le found
              obtain ⟨length, spelled⟩ : ∃ length, stream.length = length + 1 :=
                ⟨stream.length - 1, by omega⟩
              have shorter : (stream.drop (position + word.length)).length ≤ length := by
                rw [List.length_drop]; omega
              rw [spelled]
              simp only [linesUpTo, found]
              rw [ih fuel (Nat.lt_succ_self _) (by omega)]
              by_cases same : fuel = length
              · rw [← ih fuel (Nat.lt_succ_self _) (by omega), same]
              · rw [← ih length (by omega) shorter]

theorem completeLines_of_none {word stream : List α} (absent : findWord word stream = none) :
    completeLines word stream = [] := by
  unfold completeLines
  cases stream.length with
  | zero => rfl
  | succ fuel => simp only [linesUpTo, absent]

theorem completeLines_of_some {word stream : List α} (nonempty : word ≠ []) {position : Nat}
    (found : findWord word stream = some position) :
    completeLines word stream = stream.take (position + word.length) ::
      completeLines word (stream.drop (position + word.length)) := by
  have positive : 0 < word.length := List.length_pos_iff.mpr nonempty
  have inside := findWord_le found
  obtain ⟨length, spelled⟩ : ∃ length, stream.length = length + 1 := ⟨stream.length - 1, by omega⟩
  have shorter : (stream.drop (position + word.length)).length ≤ length := by
    rw [List.length_drop]; omega
  rw [← linesUpTo_of_le nonempty shorter, completeLines, spelled]
  simp only [linesUpTo, found]

/-- **Induction** on the complete lines of a stream. -/
@[elab_as_elim]
theorem lines_induction {word : List α} (nonempty : word ≠ []) {motive : List α → Prop}
    (stream : List α) (rest : ∀ stream, findWord word stream = none → motive stream)
    (line : ∀ stream position, findWord word stream = some position →
      motive (stream.drop (position + word.length)) → motive stream) : motive stream := by
  have positive : 0 < word.length := List.length_pos_iff.mpr nonempty
  induction size : stream.length using Nat.strongRecOn generalizing stream with
  | _ bound ih =>
      cases found : findWord word stream with
      | none => exact rest stream found
      | some position =>
          have inside := findWord_le found
          refine line stream position found (ih _ ?_ _ rfl)
          rw [List.length_drop]
          omega

end Foundation
