import FastDb.Redis.GenerateCommand

/-! # Reading a command's options back

The client appends optional arguments as words after parts of the caller's own, and leaves
an argument out when it has its default value. A reader of the argument vector recovers
what was given, whatever the caller's parts spell: the options of `SET`, the count and the
streams of `XREAD` (`FastDb.Redis.options_read_back`). The score ranges append their limit
only when both its numbers differ from `-1`, so that is what their bytes determine
(`FastDb.Redis.RedisSortedSet.scoreRange_eq_iff`).
-/

namespace FastDb.Redis

open Foundation

/-- Without options, a command is its name and its parts. -/
theorem allParts_default (command : Bytes) (parts : List Bytes) :
    allParts command parts {} = command :: parts := List.append_nil (command :: parts)

/-- The vector that the bytes of a command are read as. -/
theorem decode_generateCommand (command : Bytes) (parts : List Bytes) (options : SetOptions) :
    commandArray.decode (generateCommand command parts options) =
      some (allParts command parts options, []) := by
  have decoded := commandArray.decode_encode (allParts command parts options) []
  rwa [List.append_nil, ← generateCommand_eq_encode] at decoded

section Set

/-- Reads the option words of `SET`. -/
def readOptions : List Bytes → Option SetOptions
  | [] => some {}
  | word :: words =>
      if word = ascii "NX" then (readOptions words).map fun options => { options with nx := true }
      else if word = ascii "XX" then
        (readOptions words).map fun options => { options with xx := true }
      else
        match words with
        | [] => none
        | number :: words =>
            if word = ascii "EX" then
              (readInt number).bind fun ex =>
                (readOptions words).map fun options => { options with ex }
            else if word = ascii "PX" then
              (readInt number).bind fun px =>
                (readOptions words).map fun options => { options with px }
            else none

/-- Reads `SET key value` and the option words after it. -/
def readSet : List Bytes → Option (Bytes × Bytes × SetOptions)
  | command :: key :: value :: words =>
      if command = ascii "SET" then (readOptions words).map fun options => (key, value, options)
      else none
  | _ => none

@[simp] theorem readOptions_nx (words : List Bytes) :
    readOptions (ascii "NX" :: words) =
      (readOptions words).map fun options => { options with nx := true } := by
  rw [readOptions.eq_def]
  exact if_pos rfl

@[simp] theorem readOptions_xx (words : List Bytes) :
    readOptions (ascii "XX" :: words) =
      (readOptions words).map fun options => { options with xx := true } := by
  rw [readOptions.eq_def]
  exact (if_neg (by decide)).trans (if_pos rfl)

@[simp] theorem readOptions_ex (ex : Int) (words : List Bytes) :
    readOptions (ascii "EX" :: decimalInt ex :: words) =
      (readOptions words).map fun options => { options with ex } := by
  have read : readOptions (ascii "EX" :: decimalInt ex :: words) =
      (readInt (decimalInt ex)).bind fun ex =>
        (readOptions words).map fun options => { options with ex } := rfl
  rw [read, readInt_decimalInt, Option.bind_some]

@[simp] theorem readOptions_px (px : Int) (words : List Bytes) :
    readOptions (ascii "PX" :: decimalInt px :: words) =
      (readOptions words).map fun options => { options with px } := by
  have read : readOptions (ascii "PX" :: decimalInt px :: words) =
      (readInt (decimalInt px)).bind fun px =>
        (readOptions words).map fun options => { options with px } := rfl
  rw [read, readInt_decimalInt, Option.bind_some]

/-- The option words say which options were given. -/
theorem readOptions_words (options : SetOptions) : readOptions options.words = some options := by
  obtain ⟨nx, xx, ex, px⟩ := options
  -- from the last word back, since each option is read before what follows it
  have fourth : readOptions (if px ≠ -1 then [ascii "PX", decimalInt px] else []) =
      some { px } := by
    by_cases default : px = -1
    · rw [default]
      rfl
    · rw [if_pos default, readOptions_px]
      rfl
  have third : readOptions ((if ex ≠ -1 then [ascii "EX", decimalInt ex] else []) ++
      if px ≠ -1 then [ascii "PX", decimalInt px] else []) = some { ex, px } := by
    by_cases default : ex = -1
    · rw [default]
      exact fourth
    · rw [if_pos default, List.cons_append, List.cons_append, List.nil_append, readOptions_ex,
        fourth]
      rfl
  rw [SetOptions.words]
  dsimp only
  rw [List.append_assoc, List.append_assoc]
  cases nx <;> cases xx <;>
    simp only [Bool.false_eq_true, ↓reduceIte, List.nil_append, List.cons_append, readOptions_nx,
      readOptions_xx, third, Option.map_some]

/-- The vector of `SET` reads back. -/
theorem readSet_vector (key value : Bytes) (options : SetOptions) :
    readSet (allParts (ascii "SET") [key, value] options) = some (key, value, options) := by
  have read : readSet (allParts (ascii "SET") [key, value] options) =
      (readOptions options.words).map fun options => (key, value, options) := rfl
  rw [read, readOptions_words, Option.map_some]

end Set

namespace RedisStream

/-- `RedisStream::xread`. -/
def xread (streams ids : List Bytes) (count : Int := -1) : Bytes :=
  generateCommand (ascii "XREAD")
    ((if count ≠ -1 then [ascii "COUNT", decimalInt count] else []) ++
      [ascii "STREAMS"] ++ streams ++ ids)

end RedisStream

section Xread

/-- Reads `STREAMS`, the streams and as many ids. -/
def readStreams : List Bytes → Option (List (Bytes × Bytes))
  | [] => none
  | marker :: tail =>
      if marker = ascii "STREAMS" ∧ tail.length % 2 = 0 then
        some ((tail.take (tail.length / 2)).zip (tail.drop (tail.length / 2)))
      else none

/-- Reads `XREAD` with its count, `-1` where none is given, and its streams. -/
def readXread : List Bytes → Option (Int × List (Bytes × Bytes))
  | [] => none
  | command :: words =>
      if command = ascii "XREAD" then
        match words with
        | word :: number :: rest =>
            if word = ascii "COUNT" then
              (readInt number).bind fun count =>
                (readStreams rest).map fun streams => (count, streams)
            else (readStreams words).map fun streams => (-1, streams)
        | _ => (readStreams words).map fun streams => (-1, streams)
      else none

/-- The streams and ids of `XREAD` read back. -/
theorem readStreams_append {streams ids : List Bytes} (same : streams.length = ids.length) :
    readStreams (ascii "STREAMS" :: (streams ++ ids)) = some (streams.zip ids) := by
  have half : (streams ++ ids).length / 2 = streams.length := by
    rw [List.length_append]
    omega
  have even : (streams ++ ids).length % 2 = 0 := by
    rw [List.length_append]
    omega
  rw [readStreams, if_pos ⟨rfl, even⟩, half, List.take_left, List.drop_left]

/-- The words after the command say whether a count was given. -/
theorem readXread_vector {streams ids : List Bytes} (same : streams.length = ids.length)
    (count : Int) :
    readXread (ascii "XREAD" ::
        ((if count ≠ -1 then [ascii "COUNT", decimalInt count] else []) ++
          [ascii "STREAMS"] ++ streams ++ ids)) = some (count, streams.zip ids) := by
  have split := readStreams_append same
  by_cases default : count = -1
  · have read : readXread (ascii "XREAD" :: ascii "STREAMS" :: (streams ++ ids)) =
        (readStreams (ascii "STREAMS" :: (streams ++ ids))).map fun streams => (-1, streams) := by
      cases streams ++ ids <;> rfl
    simp only [default, ne_eq, not_true_eq_false, ↓reduceIte, List.nil_append, List.cons_append]
    exact read.trans (by rw [split, Option.map_some])
  · have read : readXread (ascii "XREAD" :: ascii "COUNT" :: decimalInt count ::
          ascii "STREAMS" :: (streams ++ ids)) =
        (readInt (decimalInt count)).bind fun count =>
          (readStreams (ascii "STREAMS" :: (streams ++ ids))).map
            fun streams => (count, streams) := rfl
    simp only [default, ne_eq, not_false_eq_true, ↓reduceIte, List.nil_append, List.cons_append]
    exact read.trans (by rw [readInt_decimalInt, Option.bind_some, split, Option.map_some])

end Xread

/-- **Option words are unambiguous.** The bytes of a `SET` are read as a vector from which
its key, its value and its options are read, and those of an `XREAD` of as many ids as
streams as one from which its count and its pairs are read. -/
theorem options_read_back :
    (∀ (key value : Bytes) (options : SetOptions),
      ∃ vector, commandArray.decode (RedisString.set key value options) = some (vector, []) ∧
        readSet vector = some (key, value, options)) ∧
    (∀ (streams ids : List Bytes) (count : Int), streams.length = ids.length →
      ∃ vector, commandArray.decode (RedisStream.xread streams ids count) = some (vector, []) ∧
        readXread vector = some (count, streams.zip ids)) := by
  refine ⟨fun key value options => ?_, fun streams ids count same => ?_⟩
  · exact ⟨_, decode_generateCommand _ _ options, readSet_vector key value options⟩
  · refine ⟨_, decode_generateCommand _ _ {}, ?_⟩
    rw [allParts_default, readXread_vector same]

/-- Keys and values that spell option words, and streams that spell the words before them. -/
theorem options_read_back_spelled :
    (∃ vector, commandArray.decode (RedisString.set (ascii "NX") (ascii "EX")
        { xx := true, px := 10 }) = some (vector, []) ∧
      readSet vector = some (ascii "NX", ascii "EX", { xx := true, px := 10 })) ∧
    (∃ vector, commandArray.decode (RedisStream.xread [ascii "COUNT", ascii "STREAMS"]
        [ascii "0", ascii "1"] 2) = some (vector, []) ∧
      readXread vector = some (2, [(ascii "COUNT", ascii "0"), (ascii "STREAMS", ascii "1")])) :=
  ⟨options_read_back.1 (ascii "NX") (ascii "EX") { xx := true, px := 10 },
    options_read_back.2 [ascii "COUNT", ascii "STREAMS"] [ascii "0", ascii "1"] 2 rfl⟩

namespace RedisSortedSet

/-- What `ZRANGEBYSCORE` and `ZREVRANGEBYSCORE` write, given the order of their bounds. -/
def scoreRange (command key first second : Bytes) (withScores : Bool) (offset count : Int) :
    Bytes :=
  generateCommand command
    ([key, first, second] ++ (if withScores then [ascii "WITHSCORES"] else []) ++
      if offset ≠ -1 ∧ count ≠ -1 then
        [ascii "LIMIT", decimalInt offset, decimalInt count]
      else [])

/-- `RedisSortedSet::zrangebyscore`. -/
def zrangebyscore (key min max : Bytes) (withScores : Bool := false) (offset : Int := -1)
    (count : Int := -1) : Bytes :=
  scoreRange (ascii "ZRANGEBYSCORE") key min max withScores offset count

/-- `RedisSortedSet::zrevrangebyscore`. -/
def zrevrangebyscore (key max min : Bytes) (withScores : Bool := false) (offset : Int := -1)
    (count : Int := -1) : Bytes :=
  scoreRange (ascii "ZREVRANGEBYSCORE") key max min withScores offset count

/-- The limit of a call: both numbers or none. -/
def limit (offset count : Int) : Option (Int × Int) :=
  if offset ≠ -1 ∧ count ≠ -1 then some (offset, count) else none

/-- What the vector of a score range says. -/
structure ScoreRange where
  command : Bytes
  key : Bytes
  first : Bytes
  second : Bytes
  withScores : Bool
  limit : Option (Int × Int)
  deriving DecidableEq

/-- Reads `LIMIT offset count` or nothing. -/
def readLimit : List Bytes → Option (Option (Int × Int))
  | [] => some none
  | [word, offset, count] =>
      if word = ascii "LIMIT" then
        (readInt offset).bind fun offset => (readInt count).map fun count => some (offset, count)
      else none
  | _ => none

/-- Reads a score range: its name, its three arguments and its option words. -/
def readScoreRange : List Bytes → Option ScoreRange
  | command :: key :: first :: second :: words =>
      if words.head? = some (ascii "WITHSCORES") then
        (readLimit words.tail).map fun limit => ⟨command, key, first, second, true, limit⟩
      else (readLimit words).map fun limit => ⟨command, key, first, second, false, limit⟩
  | _ => none

/-- The words a limit appends. -/
private def limitWords : Option (Int × Int) → List Bytes
  | some (offset, count) => [ascii "LIMIT", decimalInt offset, decimalInt count]
  | none => []

/-- The limit is written if neither number is -1. -/
private theorem limitWords_limit (offset count : Int) :
    limitWords (limit offset count) =
      if offset ≠ -1 ∧ count ≠ -1 then
        [ascii "LIMIT", decimalInt offset, decimalInt count]
      else [] := by
  unfold limit
  split <;> rfl

/-- A limit written reads back. -/
private theorem readLimit_limitWords (limit : Option (Int × Int)) :
    readLimit (limitWords limit) = some limit := by
  cases limit with
  | none => rfl
  | some pair =>
      rw [limitWords, readLimit, if_pos rfl, readInt_decimalInt, readInt_decimalInt]
      rfl

/-- No limit begins as the scores do. -/
private theorem head?_limitWords (limit : Option (Int × Int)) :
    (limitWords limit).head? ≠ some (ascii "WITHSCORES") := by
  cases limit with
  | none =>
      change none ≠ some (ascii "WITHSCORES")
      decide
  | some pair =>
      change some (ascii "LIMIT") ≠ some (ascii "WITHSCORES")
      decide

/-- The vector of a score range says its arguments, and its limit when both numbers are
given. -/
theorem readScoreRange_decode (command key first second : Bytes) (withScores : Bool)
    (offset count : Int) :
    ((commandArray.decode (scoreRange command key first second withScores offset count)).bind
        fun read => readScoreRange read.1) =
      some ⟨command, key, first, second, withScores, limit offset count⟩ := by
  rw [scoreRange, decode_generateCommand, allParts_default, ← limitWords_limit,
    Option.bind_some]
  cases withScores with
  | true =>
      have read : readScoreRange (command :: ([key, first, second] ++ [ascii "WITHSCORES"] ++
            limitWords (limit offset count))) =
          (readLimit (limitWords (limit offset count))).map
            fun limit => ⟨command, key, first, second, true, limit⟩ := rfl
      exact read.trans (by rw [readLimit_limitWords, Option.map_some])
  | false =>
      have read : readScoreRange (command :: key :: first :: second ::
            limitWords (limit offset count)) =
          (readLimit (limitWords (limit offset count))).map
            fun limit => ⟨command, key, first, second, false, limit⟩ :=
        if_neg (head?_limitWords _)
      exact read.trans (by rw [readLimit_limitWords, Option.map_some])

/-- The bytes of a score range determine its arguments and its limit, and nothing else. -/
theorem scoreRange_eq_iff {command key first second key' first' second' : Bytes}
    {withScores withScores' : Bool} {offset count offset' count' : Int} :
    scoreRange command key first second withScores offset count =
        scoreRange command key' first' second' withScores' offset' count' ↔
      key = key' ∧ first = first' ∧ second = second' ∧ withScores = withScores' ∧
        limit offset count = limit offset' count' := by
  constructor
  · intro same
    have read := readScoreRange_decode command key first second withScores offset count
    rw [same, readScoreRange_decode] at read
    have fields := (ScoreRange.mk.injEq ..).mp (Option.some.inj read).symm
    exact fields.2
  · rintro ⟨rfl, rfl, rfl, rfl, same⟩
    simp only [scoreRange, ← limitWords_limit, same]

/-- **What score ranges keep.** Two calls of `zrangebyscore`, and two of `zrevrangebyscore`,
write the same bytes exactly when they agree on the key, the bounds, the scores and the
limit: the offset and the count where both differ from `-1`, and no limit otherwise. What is
read back from the bytes is just that. -/
theorem scoreRanges_determine (key min max : Bytes) (withScores : Bool) (offset count : Int)
    (key' min' max' : Bytes) (withScores' : Bool) (offset' count' : Int) :
    (zrangebyscore key min max withScores offset count =
        zrangebyscore key' min' max' withScores' offset' count' ↔
      key = key' ∧ min = min' ∧ max = max' ∧ withScores = withScores' ∧
        limit offset count = limit offset' count') ∧
    (zrevrangebyscore key max min withScores offset count =
        zrevrangebyscore key' max' min' withScores' offset' count' ↔
      key = key' ∧ max = max' ∧ min = min' ∧ withScores = withScores' ∧
        limit offset count = limit offset' count') ∧
    ((commandArray.decode (zrangebyscore key min max withScores offset count)).bind
        fun read => readScoreRange read.1) =
      some ⟨ascii "ZRANGEBYSCORE", key, min, max, withScores, limit offset count⟩ ∧
    ((commandArray.decode (zrevrangebyscore key max min withScores offset count)).bind
        fun read => readScoreRange read.1) =
      some ⟨ascii "ZREVRANGEBYSCORE", key, max, min, withScores, limit offset count⟩ :=
  ⟨scoreRange_eq_iff, scoreRange_eq_iff, readScoreRange_decode .., readScoreRange_decode ..⟩

/-- An offset without a count, and a count without an offset, are not written. -/
theorem scoreRanges_limit_dropped :
    zrangebyscore (ascii "z") (ascii "0") (ascii "1") false 5 (-1) =
        zrangebyscore (ascii "z") (ascii "0") (ascii "1") false (-1) (-1) ∧
      zrangebyscore (ascii "z") (ascii "0") (ascii "1") false (-1) 5 =
        zrangebyscore (ascii "z") (ascii "0") (ascii "1") false (-1) (-1) ∧
      zrevrangebyscore (ascii "z") (ascii "1") (ascii "0") false 5 (-1) =
        zrevrangebyscore (ascii "z") (ascii "1") (ascii "0") false (-1) (-1) ∧
      ((5 : Int), (-1 : Int)) ≠ (-1, -1) ∧ ((-1 : Int), (5 : Int)) ≠ (-1, -1) := by
  refine ⟨rfl, rfl, rfl, ?_, ?_⟩
  all_goals decide

end RedisSortedSet

end FastDb.Redis
