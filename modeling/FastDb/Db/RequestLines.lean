import Mathlib.Data.List.Infix
import FastDb.Db.RespProtocol

/-! # The lines of a request

`parse_request` is meant to return the complete lines of the data, each without its first
byte. At an empty line its length computation `end_pos - pos - 1` wraps around, so it does
what it is meant to exactly when no complete line is empty
(`FastDb.Db.RespProtocol.splitsByLines_iff`). What `build_response` writes has no empty
line, so responses without a terminator of their own come back one by one
(`FastDb.Db.RespProtocol.parseRequest_buildResponse`).
-/

namespace FastDb.Db.RespProtocol

open Foundation

/-- The positions at which the loop of `parse_request` begins an iteration. -/
inductive Visits (data : Bytes) : Nat → Prop
  | start : Visits data 0
  | next {pos endPos : Nat} (visited : Visits data pos) (found : findFrom data pos = some endPos) :
      Visits data (endPos + 2)

/-- What a line is to contribute: its bytes before the terminator but for the first. -/
def lineField (line : Bytes) : Bytes := (line.take (line.length - crlf.length)).drop 1

/-- What the decoder is meant to do. -/
structure SplitsByLines (data : Bytes) : Prop where
  /-- With enough fuel, more fuel changes nothing: the loop ends. -/
  ends : ∀ fuel, data.length < fuel → parseFrom data fuel 0 = parseRequest data
  fields : parseRequest data = (completeLines crlf data).map lineField
  clean : ∀ field ∈ parseRequest data, ¬ crlf <:+: field
  /-- The computed length is the difference of the positions. -/
  measured : ∀ pos endPos, Visits data pos → findFrom data pos = some endPos →
    (sizeSub (sizeSub endPos pos) 1 : Int) = endPos - pos - 1

/-- The first complete line of the data. -/
private theorem lines_of_found {data : Bytes} {position : Nat}
    (found : findWord crlf data = some position) :
    completeLines crlf data =
      data.take (position + 2) :: completeLines crlf (data.drop (position + 2)) :=
  completeLines_of_some crlf_ne_nil found

/-- The fields of a request with a line are that line's and those of the rest. -/
private theorem parseRequest_of_found {data : Bytes} {position : Nat}
    (found : findWord crlf data = some position) :
    parseRequest data = fieldAt data position :: parseRequest (data.drop (position + 2)) := by
  rw [parseRequest_eq, found]

/-- A line is its bytes before the terminator, and the terminator. -/
private theorem take_found {data : Bytes} {position : Nat}
    (found : findWord crlf data = some position) :
    data.take (position + 2) = data.take position ++ crlf ∧
      (data.take position).length = position := by
  have inside := findWord_le found
  have split := findWord_split found
  rw [crlf_length] at inside
  have width : (data.take position).length = position := by
    rw [List.length_take]
    omega
  refine ⟨?_, width⟩
  have whole : (data.take position ++ crlf).length = position + 2 := by
    rw [List.length_append, width, crlf_length]
  conv_lhs => rw [split]
  exact List.take_left' whole

/-- An empty line is the terminator alone. -/
private theorem take_found_eq_crlf_iff {data : Bytes} {position : Nat}
    (found : findWord crlf data = some position) :
    data.take (position + 2) = crlf ↔ position = 0 := by
  obtain ⟨spelled, width⟩ := take_found found
  rw [spelled]
  constructor
  · intro empty
    have lengths := congrArg List.length empty
    rw [List.length_append, width, crlf_length] at lengths
    omega
  · rintro rfl
    rw [List.take_zero, List.nil_append]

/-- The field of a line is the line without its first byte. -/
theorem lineField_append (line : Bytes) : lineField (line ++ crlf) = line.drop 1 := by
  rw [lineField, List.length_append, Nat.add_sub_cancel, List.take_left]

/-- The field of a line is what the line is to contribute unless the line is empty. -/
private theorem fieldAt_found_iff {data : Bytes} {position : Nat}
    (found : findWord crlf data = some position) :
    fieldAt data position = lineField (data.take (position + 2)) ↔ position ≠ 0 := by
  obtain ⟨spelled, width⟩ := take_found found
  have split := findWord_split found
  rw [List.append_assoc] at split
  rw [spelled, lineField_append]
  constructor
  · rintro same rfl
    obtain ⟨tail, wrapped⟩ := fieldAt_zero (data.drop (0 + crlf.length))
    rw [List.take_zero, List.nil_append] at split
    rw [← split, same, List.take_zero, List.drop_nil] at wrapped
    cases wrapped
  · intro nonempty
    obtain ⟨shorter, rfl⟩ := Nat.exists_eq_succ_of_ne_zero nonempty
    cases front : data.take (shorter + 1) with
    | nil =>
        rw [front] at width
        cases width
    | cons first line =>
        rw [front, List.length_cons] at width
        obtain rfl := Nat.succ.inj width
        rw [front, List.cons_append] at split
        conv_lhs => rw [split]
        exact fieldAt_cons first line _

/-- The decoder returns what the lines are to contribute when none is empty. -/
theorem parseRequest_eq_map_lineField_iff (data : Bytes) :
    parseRequest data = (completeLines crlf data).map lineField ↔
      ∀ line ∈ completeLines crlf data, line ≠ crlf := by
  induction data using lines_induction crlf_ne_nil with
  | rest data absent =>
      rw [parseRequest_eq, absent, completeLines_of_none absent]
      exact ⟨fun _ line member => (nomatch member), fun _ => rfl⟩
  | line data position found ih =>
      rw [crlf_length] at ih
      rw [parseRequest_of_found found, lines_of_found found, List.map_cons, List.cons_eq_cons,
        fieldAt_found_iff found, ih, List.forall_mem_cons, Ne, Ne, take_found_eq_crlf_iff found]

/-- The bytes of a line before its terminator hold no terminator. -/
theorem not_infix_lineField {data line : Bytes} (member : line ∈ completeLines crlf data) :
    ¬ crlf <:+: lineField line := by
  induction data using lines_induction crlf_ne_nil with
  | rest data absent =>
      rw [completeLines_of_none absent] at member
      cases member
  | line data position found ih =>
      rw [lines_of_found found] at member
      rcases List.mem_cons.mp member with rfl | later
      · obtain ⟨spelled, width⟩ := take_found found
        rw [spelled, lineField_append]
        intro occurs
        obtain ⟨before, rest, cut⟩ := occurs.trans (List.drop_suffix 1 _).isInfix
        have earlier : data = before ++ crlf ++ (rest ++ data.drop position) := by
          rw [← List.append_assoc, cut, List.take_append_drop]
        have least := findWord_least found earlier
        have lengths := congrArg List.length cut
        rw [List.length_append, List.length_append, width, crlf_length] at lengths
        omega
      · exact ih later

/-- Every iteration begins where a complete line ends. -/
theorem Visits.suffix {data : Bytes} {pos : Nat} (visited : Visits data pos) :
    ∃ lines, completeLines crlf data = lines ++ completeLines crlf (data.drop pos) := by
  induction visited with
  | start => exact ⟨[], rfl⟩
  | @next pos endPos _ found ih =>
      obtain ⟨lines, split⟩ := ih
      obtain ⟨position, inside, rfl⟩ := Option.map_eq_some_iff.mp found
      rw [lines_of_found inside, List.drop_drop, ← Nat.add_assoc] at split
      exact ⟨lines ++ [(data.drop pos).take (position + 2)], by rw [split, List.append_assoc]; rfl⟩

/-- **The decoder splits by lines** exactly when no complete line of the data is empty. -/
theorem splitsByLines_iff (data : Bytes) :
    SplitsByLines data ↔ ∀ line ∈ completeLines crlf data, line ≠ crlf := by
  constructor
  · intro splits
    exact (parseRequest_eq_map_lineField_iff data).mp splits.fields
  · intro nonempty
    have fields := (parseRequest_eq_map_lineField_iff data).mpr nonempty
    refine ⟨fun fuel enough => parseFrom_eq_parseRequest enough, fields, ?_, ?_⟩
    · intro field member
      rw [fields] at member
      obtain ⟨line, isLine, rfl⟩ := List.mem_map.mp member
      exact not_infix_lineField isLine
    · intro pos endPos visited found
      obtain ⟨lines, split⟩ := visited.suffix
      obtain ⟨position, inside, rfl⟩ := Option.map_eq_some_iff.mp found
      rw [lines_of_found inside] at split
      have line := nonempty _ (split ▸ List.mem_append_right lines List.mem_cons_self)
      have positive : position ≠ 0 := fun zero => line ((take_found_eq_crlf_iff inside).mpr zero)
      rw [sizeSub, if_pos (by rw [sizeSub, if_pos (Nat.le_add_right _ _)]; omega), sizeSub,
        if_pos (Nat.le_add_right _ _)]
      omega

/-- An empty line before a `GET`: the field of the empty line is all that follows, from
the second byte of its terminator on. -/
theorem splitsByLines_empty_line :
    parseRequest (ascii "\r\n+GET\r\n") = [ascii "\n+GET\r\n", ascii "GET"] ∧
      (completeLines crlf (ascii "\r\n+GET\r\n")).map lineField = [[], ascii "GET"] ∧
      sizeSub (sizeSub 0 0) 1 = UInt64.size - 1 ∧
      ¬ SplitsByLines (ascii "\r\n+GET\r\n") := by
  have returned : parseRequest (ascii "\r\n+GET\r\n") = [ascii "\n+GET\r\n", ascii "GET"] := by
    decide +kernel
  refine ⟨returned, by decide, by decide, fun splits => ?_⟩
  have fields := splits.fields
  rw [returned] at fields
  revert fields
  decide

theorem crlf_unbordered : Unbordered crlf := unbordered_cons (by decide)

/-- The first field of a stream of responses is the first response. -/
theorem parseRequest_buildResponse_append {response : Bytes} (clean : ¬ crlf <:+: response)
    (rest : Bytes) :
    parseRequest (buildResponse response ++ rest) = response :: parseRequest rest := by
  have marked : ¬ crlf <:+: ascii "+" ++ response := by
    intro occurs
    rcases List.infix_cons_iff.mp occurs with front | inside
    · exact absurd (List.cons_prefix_cons.mp front).1 (by decide)
    · exact clean inside
  -- the terminator of the response is the first one, whatever byte stands before it
  have found : findWord crlf (buildResponse response ++ rest) = some (response.length + 1) := by
    rw [buildResponse, List.append_assoc, crlf_unbordered.findWord_eq marked rest]
    rfl
  have field : fieldAt (buildResponse response ++ rest) (response.length + 1) = response := by
    rw [buildResponse, List.append_assoc]
    exact fieldAt_cons (byteOf '+') response (crlf ++ rest)
  have width : (buildResponse response).length = response.length + 1 + 2 := by
    rw [buildResponse, List.length_append, List.length_append, crlf_length,
      Nat.add_comm (ascii "+").length]
    rfl
  rw [parseRequest_of_found found, field, List.drop_left' width]

/-- **Round trip.** Responses without a line terminator, written one after another, are
read back in order. -/
theorem parseRequest_buildResponse (responses : List Bytes)
    (clean : ∀ response ∈ responses, ¬ crlf <:+: response) :
    parseRequest (responses.flatMap buildResponse) = responses := by
  induction responses with
  | nil => rfl
  | cons response responses ih =>
      obtain ⟨first, others⟩ := List.forall_mem_cons.mp clean
      rw [List.flatMap_cons, parseRequest_buildResponse_append first, ih others]

/-- An empty response, one that ends in a carriage return, one that begins with a line feed,
and one that begins with the marker. -/
theorem parseRequest_buildResponse_edges :
    parseRequest ([[], ascii "a\r", ascii "\nb", ascii "+c"].flatMap buildResponse) =
      [[], ascii "a\r", ascii "\nb", ascii "+c"] := by
  refine parseRequest_buildResponse _ fun response member => ?_
  rw [← findWord_eq_none_iff_not_infix]
  revert response
  decide

end FastDb.Db.RespProtocol
