import FastDb.Foundation.Bytes

/-! # The server's request decoder

`parse_request` scans the data for line terminators and keeps of each line what
follows its first byte. The scan depends only on the bytes not yet read
(`FastDb.Db.RespProtocol.parseRequest_eq`), stops, and yields one field for each
complete line.
-/

namespace FastDb.Db.RespProtocol

open Foundation

/-- `size_t` subtraction: it wraps around modulo `2 ^ 64` below zero. -/
def sizeSub (left right : Nat) : Nat :=
  if right ≤ left then left - right else left + UInt64.size - right

/-- `std::string::substr`; it throws when `pos` is past the end, which
`parseFrom` never asks for (`findFrom_bound`). -/
def substr (data : Bytes) (pos count : Nat) : Bytes := (data.drop pos).take count

/-- `data.find("\r\n", pos)`. -/
def findFrom (data : Bytes) (pos : Nat) : Option Nat :=
  (findWord crlf (data.drop pos)).map (pos + ·)

/-- The loop of `parse_request`; the fuel bounds the number of iterations. -/
def parseFrom (data : Bytes) : Nat → Nat → List Bytes
  | 0, _ => []
  | fuel + 1, pos =>
      match findFrom data pos with
      | none => []
      | some endPos =>
          -- the first byte of the line is dropped, whatever it is
          substr data (pos + 1) (sizeSub (sizeSub endPos pos) 1) ::
            parseFrom data fuel (endPos + 2)

/-- `parse_request`; no loop goes on for more turns than there are bytes. -/
def parseRequest (data : Bytes) : List Bytes := parseFrom data (data.length + 1) 0

/-- `build_response`. -/
def buildResponse (response : Bytes) : Bytes := ascii "+" ++ response ++ crlf

/-- Both ends of a found line lie in the data, so `substr` does not throw. -/
theorem findFrom_bound {data : Bytes} {pos endPos : Nat} (found : findFrom data pos = some endPos) :
    pos ≤ endPos ∧ endPos + 2 ≤ data.length ∧ pos + 1 ≤ data.length := by
  obtain ⟨position, inside, rfl⟩ := Option.map_eq_some_iff.mp found
  have bound := findWord_le inside
  rw [crlf_length, List.length_drop] at bound
  omega

/-- The field of a line whose terminator is found at `position`. -/
def fieldAt (line : Bytes) (position : Nat) : Bytes := substr line 1 (sizeSub position 1)

/-- The field of a nonempty line is the line without its first byte. -/
theorem fieldAt_cons (first : UInt8) (field rest : Bytes) :
    fieldAt (first :: (field ++ rest)) (field.length + 1) = field := by
  have width : sizeSub (field.length + 1) 1 = field.length := by
    rw [sizeSub, if_pos (Nat.le_add_left 1 _), Nat.add_sub_cancel]
  rw [fieldAt, width, substr, List.drop_one, List.tail_cons, List.take_left]

/-- The field of an empty line begins with the second byte of its terminator. -/
theorem fieldAt_zero (rest : Bytes) : ∃ tail, fieldAt (crlf ++ rest) 0 = lf :: tail := by
  obtain ⟨count, wrapped⟩ : ∃ count, sizeSub 0 1 = count + 1 := ⟨UInt64.size - 2, by decide⟩
  rw [fieldAt, wrapped, substr]
  exact ⟨rest.take count, rfl⟩

/-- A turn that finds the end of a line. -/
private theorem parseFrom_step {data : Bytes} {fuel pos position : Nat}
    (found : findWord crlf (data.drop pos) = some position) :
    parseFrom data (fuel + 1) pos =
      fieldAt (data.drop pos) position :: parseFrom data fuel (pos + position + 2) := by
  have reached : findFrom data pos = some (pos + position) := by
    rw [findFrom, found, Option.map_some]
  have width : sizeSub (pos + position) pos = position := by
    rw [sizeSub, if_pos (Nat.le_add_right _ _), Nat.add_sub_cancel_left]
  simp only [parseFrom, reached, width, fieldAt, substr, List.drop_drop]

/-- A turn that finds none. -/
private theorem parseFrom_stop {data : Bytes} {fuel pos : Nat}
    (absent : findWord crlf (data.drop pos) = none) : parseFrom data fuel pos = [] := by
  cases fuel with
  | zero => rfl
  | succ fuel => simp only [parseFrom, findFrom, absent, Option.map_none]

/-- The scan depends only on the bytes not yet read, with any fuel that covers
them. -/
private theorem parseFrom_congr {fuel other : Nat} {data copy : Bytes} {pos start : Nat}
    (same : data.drop pos = copy.drop start) (enough : (data.drop pos).length < fuel)
    (sufficient : (data.drop pos).length < other) :
    parseFrom data fuel pos = parseFrom copy other start := by
  induction fuel generalizing other pos start with
  | zero => exact absurd enough (Nat.not_lt_zero _)
  | succ fuel ih =>
      obtain ⟨other, rfl⟩ : ∃ less, other = less + 1 := ⟨other - 1, by omega⟩
      cases found : findWord crlf (data.drop pos) with
      | none => rw [parseFrom_stop found, parseFrom_stop (same ▸ found)]
      | some position =>
          have inside := findWord_le found
          have rest : data.drop (pos + position + 2) = copy.drop (start + position + 2) := by
            simpa only [List.drop_drop, Nat.add_assoc] using
              congrArg (List.drop (position + 2)) same
          have shorter : (data.drop (pos + position + 2)).length + 2 ≤ (data.drop pos).length := by
            simp only [List.length_drop, crlf_length] at inside ⊢
            omega
          rw [parseFrom_step found, parseFrom_step (same ▸ found), same,
            @ih other _ _ rest (by omega) (by omega)]

/-- The scan ends: fuel for every byte is enough, and more changes nothing. -/
theorem parseFrom_eq_parseRequest {data : Bytes} {fuel : Nat} (enough : data.length < fuel) :
    parseFrom data fuel 0 = parseRequest data :=
  parseFrom_congr rfl enough (Nat.lt_succ_self _)

/-- **One iteration of the scan.** The field of the first complete line, then
the fields of what follows its terminator. -/
theorem parseRequest_eq (data : Bytes) :
    parseRequest data =
      match findWord crlf data with
      | none => []
      | some position => fieldAt data position :: parseRequest (data.drop (position + 2)) := by
  cases found : findWord crlf data with
  | none => exact parseFrom_stop (by rwa [List.drop_zero])
  | some position =>
      have inside := findWord_le found
      have shorter : (data.drop (position + 2)).length < data.length := by
        rw [crlf_length] at inside
        rw [List.length_drop]
        omega
      rw [parseRequest, parseFrom_step (by rwa [List.drop_zero]), List.drop_zero, Nat.zero_add]
      exact congrArg (fieldAt data position :: ·)
        (parseFrom_congr (List.drop_zero).symm shorter (Nat.lt_succ_self _))

end FastDb.Db.RespProtocol
