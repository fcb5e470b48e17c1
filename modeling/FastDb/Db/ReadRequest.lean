import FastDb.Db.RespProtocol
import FastDb.Db.RedisSession

/-! # The session's read loop

The socket delivers the client's bytes in reads. Each turn of the loop reads
into a fresh buffer until the buffer holds a line terminator, takes the bytes up
to and including the first one, and drops the buffer with whatever else it
holds. Every received byte is therefore in a processed line or still awaited,
and the processed vectors are those of the lines of the byte stream, exactly
when every line terminator of the stream ends a read
(`FastDb.Db.readRequest_lossless_iff`).
-/

namespace FastDb.Db

open Foundation RespProtocol RedisSession

/-- `asio::async_read_until(socket, buffer, "\r\n")` over the reads still to
come: the length up to and including the first terminator, the buffer filled so
far, and the reads left; `none` when the reads end first. -/
def asyncReadUntil (buffer : Bytes) : List Bytes → Option (Nat × Bytes × List Bytes)
  | [] => (findWord crlf buffer).map fun position => (position + 2, buffer, [])
  | read :: reads =>
      match findWord crlf buffer with
      | some position => some (position + 2, buffer, read :: reads)
      | none => asyncReadUntil (buffer ++ read) reads

/-- What a session has done: the data it took from its buffers, the vectors it
processed, the responses it sent, the store it left, and the bytes in the buffer
it is waiting on. -/
structure Transcript where
  lines : List Bytes
  commands : List (List Bytes)
  sent : List Bytes
  store : Store
  pending : Bytes

/-- The loop of `read_request`, at its given turn; the fuel bounds the number of
turns, and `clock` gives the clock reading of each. -/
def readLoop (clock : Nat → Time) : Nat → Nat → Store → List Bytes → Transcript
  | 0, _, store, _ => ⟨[], [], [], store, []⟩
  | fuel + 1, turn, store, reads =>
      -- the buffer is declared inside the loop, so every turn starts with an empty one
      match asyncReadUntil [] reads with
      | none => ⟨[], [], [], store, reads.flatten⟩
      | some (length, buffer, rest) =>
          let data := buffer.take length
          let command := parseRequest data
          let outcome := processCommand store (clock turn) command
          match outcome.ending with
          | .completed =>
              let later := readLoop clock fuel (turn + 1) outcome.store rest
              { later with
                lines := data :: later.lines
                commands := command :: later.commands
                sent := outcome.sent ++ later.sent }
          -- an exception breaks out of the loop
          | .thrown _ => ⟨[data], [command], outcome.sent, outcome.store, []⟩
          | .undefined => ⟨[data], [command], outcome.sent, outcome.store, []⟩

/-- Every turn that does not end the loop uses up a read, so the number of reads
is fuel enough. -/
def readRequest (clock : Nat → Time) (store : Store) (reads : List Bytes) : Transcript :=
  readLoop clock (reads.length + 1) 0 store reads

/-- The session processed the lines of the byte stream in order and skipped no
received byte. -/
def Transcript.Lossless (transcript : Transcript) (reads : List Bytes) : Prop :=
  transcript.commands = (completeLines crlf reads.flatten).map parseRequest ∧
    transcript.lines.flatten ++ transcript.pending = reads.flatten

/-- Every line terminator of the byte stream is the end of a read. -/
def LineAligned (reads : List Bytes) : Prop :=
  ∀ before rest, reads.flatten = before ++ crlf ++ rest →
    ∃ count, (reads.take count).flatten = before ++ crlf

/-- A read that stays blocked has met no end of line. -/
theorem asyncReadUntil_none {buffer : Bytes} {reads : List Bytes}
    (blocked : asyncReadUntil buffer reads = none) :
    findWord crlf (buffer ++ reads.flatten) = none := by
  induction reads generalizing buffer with
  | nil =>
      rw [List.flatten_nil, List.append_nil]
      exact Option.map_eq_none_iff.mp blocked
  | cons read reads ih =>
      simp only [asyncReadUntil] at blocked
      split at blocked
      · cases blocked
      · rw [List.flatten_cons, ← List.append_assoc]
        exact ih blocked

/-- A completed read fills the buffer up to the read that brings the first
terminator. -/
theorem asyncReadUntil_some {buffer filled : Bytes} {reads rest : List Bytes} {length : Nat}
    (completed : asyncReadUntil buffer reads = some (length, filled, rest)) :
    ∃ used position, reads = used ++ rest ∧ filled = buffer ++ used.flatten ∧
      findWord crlf filled = some position ∧ length = position + 2 ∧
      ∀ count < used.length, findWord crlf (buffer ++ (used.take count).flatten) = none := by
  induction reads generalizing buffer with
  | nil =>
      obtain ⟨position, found, spelled⟩ := Option.map_eq_some_iff.mp completed
      obtain ⟨rfl, rfl, rfl⟩ : position + 2 = length ∧ buffer = filled ∧ [] = rest := by
        simpa only [Prod.mk.injEq] using spelled
      exact ⟨[], position, rfl, (List.append_nil _).symm, found, rfl,
        fun _ below => absurd below (Nat.not_lt_zero _)⟩
  | cons read reads ih =>
      simp only [asyncReadUntil] at completed
      split at completed
      · next position found =>
          obtain ⟨rfl, rfl, rfl⟩ : position + 2 = length ∧ buffer = filled ∧
              read :: reads = rest := by
            simpa only [Option.some.injEq, Prod.mk.injEq] using completed
          exact ⟨[], position, rfl, (List.append_nil _).symm, found, rfl,
            fun _ below => absurd below (Nat.not_lt_zero _)⟩
      · next absent =>
          obtain ⟨used, position, split, full, found, width, early⟩ := ih completed
          refine ⟨read :: used, position, by rw [split, List.cons_append], ?_, found, width, ?_⟩
          · rw [full, List.flatten_cons, List.append_assoc]
          · intro count below
            cases count with
            | zero => rwa [List.take_zero, List.flatten_nil, List.append_nil]
            | succ count =>
                rw [List.take_succ_cons, List.flatten_cons, ← List.append_assoc]
                exact early count (Nat.lt_of_succ_lt_succ below)

/-- The first turn of a byte stream: the reads it uses bring the line `head`, its
terminator and a surplus, and no fewer of them bring a terminator. -/
structure FirstTurn (reads used rest : List Bytes) (head surplus : Bytes) : Prop where
  split : reads = used ++ rest
  filled : used.flatten = head ++ crlf ++ surplus
  found : findWord crlf used.flatten = some head.length
  early : ∀ count < used.length, findWord crlf (used.take count).flatten = none

/-- A read that completes leaves a first turn. -/
theorem firstTurn_of_completed {buffer : Bytes} {reads rest : List Bytes} {length : Nat}
    (completed : asyncReadUntil [] reads = some (length, buffer, rest)) :
    ∃ used head surplus, FirstTurn reads used rest head surplus ∧
      buffer.take length = head ++ crlf := by
  obtain ⟨used, position, split, full, found, width, early⟩ := asyncReadUntil_some completed
  rw [List.nil_append] at full
  have around := findWord_split found
  have inside := findWord_le found
  have size : (buffer.take position).length = position := by
    rw [List.length_take]
    omega
  refine ⟨used, buffer.take position, buffer.drop (position + crlf.length),
    ⟨split, full ▸ around, by rw [size, ← full, found], early⟩, ?_⟩
  have ended : length = (buffer.take position ++ crlf).length := by
    rw [List.length_append, size, width, crlf_length]
  calc buffer.take length
      = (buffer.take position ++ crlf ++ buffer.drop (position + crlf.length)).take
          (buffer.take position ++ crlf).length := by rw [ended, ← around]
    _ = buffer.take position ++ crlf := List.take_left

section Turn

variable {reads used rest : List Bytes} {head surplus : Bytes}

/-- The line of a turn contains no earlier terminator. -/
theorem FirstTurn.line (first : FirstTurn reads used rest head surplus) :
    findWord crlf (head ++ crlf) = some head.length := by
  have filled : used.flatten = head ++ crlf ++ surplus := first.filled
  cases search : findWord crlf (head ++ crlf) with
  | none =>
      have nowhere := findWord_eq_none_iff.mp search head []
      exact absurd (List.append_nil _).symm nowhere
  | some position =>
      have extended := findWord_append search surplus
      rw [← filled, first.found] at extended
      exact extended.symm

/-- The reads that end a turn's first line are all the reads of the turn. -/
private theorem le_of_take_flatten
    (early : ∀ count < used.length, findWord crlf (used.take count).flatten = none)
    {count : Nat} {before : Bytes}
    (ended : ((used ++ rest).take count).flatten = before ++ crlf) : used.length ≤ count := by
  by_contra below
  have short : count < used.length := Nat.lt_of_not_le below
  rw [List.take_append_of_le_length (Nat.le_of_lt short)] at ended
  have nowhere := findWord_eq_none_iff.mp (early count short) before []
  exact nowhere (by rw [ended, List.append_nil])

private theorem take_flatten_of_le {count : Nat} (whole : used.length ≤ count) :
    ((used ++ rest).take count).flatten =
      used.flatten ++ (rest.take (count - used.length)).flatten := by
  rw [List.take_append, List.take_of_length_le whole, List.flatten_append]

/-- A terminator of the stream is the one that ends the first line or lies
behind it. -/
private theorem occurrence_cases {stream before after : Bytes}
    (found : findWord crlf (head ++ crlf) = some head.length)
    (occurs : head ++ crlf ++ stream = before ++ crlf ++ after) :
    before = head ∨ ∃ later, before = head ++ crlf ++ later ∧ stream = later ++ crlf ++ after := by
  have least := findWord_least (findWord_append found stream) occurs
  obtain ⟨skipped, rfl⟩ : ∃ skipped, before = head ++ skipped := by
    refine ⟨before.drop head.length, ?_⟩
    have front := congrArg (List.take head.length) occurs
    rw [List.append_assoc, List.take_left, List.append_assoc,
      List.take_append_of_le_length least] at front
    exact (List.take_append_drop head.length before).symm.trans (by rw [← front])
  have tail : crlf ++ stream = skipped ++ (crlf ++ after) := by
    have cut := congrArg (List.drop head.length) occurs
    simpa only [List.append_assoc, List.drop_left] using cut
  -- the second byte of a terminator begins none
  match skipped, tail with
  | [], _ => exact .inl (List.append_nil head)
  | [_], tail =>
      have second : lf = cr := by
        have bytes := congrArg (fun word => word[1]?) tail
        exact Option.some.inj bytes
      exact absurd second (by decide)
  | _ :: _ :: later, tail =>
      obtain ⟨rfl, line⟩ := List.cons.inj tail
      obtain ⟨rfl, behind⟩ := List.cons.inj line
      refine .inr ⟨later, by rw [List.append_assoc]; rfl, ?_⟩
      rw [List.append_assoc]
      exact behind

/-- One turn's part of the alignment: nothing follows the line in the reads that
brought it, and the later reads are aligned. -/
theorem FirstTurn.lineAligned_iff (first : FirstTurn reads used rest head surplus) :
    LineAligned reads ↔ surplus = [] ∧ LineAligned rest := by
  have line := first.line
  obtain ⟨rfl, split, found, early⟩ := first
  constructor
  · intro aligned
    have empty : surplus = [] := by
      obtain ⟨count, ended⟩ := aligned head (surplus ++ rest.flatten) (by
        rw [List.flatten_append, split, List.append_assoc])
      have whole := le_of_take_flatten early ended
      rw [take_flatten_of_le whole, split] at ended
      have size := congrArg List.length ended
      simp only [List.length_append] at size
      exact List.length_eq_zero_iff.mp (by omega)
    refine ⟨empty, fun before after occurs => ?_⟩
    rw [empty, List.append_nil] at split
    obtain ⟨count, ended⟩ := aligned (head ++ crlf ++ before) after (by
      rw [List.flatten_append, split, occurs]
      simp only [List.append_assoc])
    have whole := le_of_take_flatten early ended
    refine ⟨count - used.length, ?_⟩
    rw [take_flatten_of_le whole, split, List.append_assoc _ before] at ended
    exact List.append_cancel_left ended
  · rintro ⟨rfl, aligned⟩ before after occurs
    rw [List.append_nil] at split
    rw [List.flatten_append, split] at occurs
    rcases occurrence_cases line occurs with rfl | ⟨later, rfl, inside⟩
    · exact ⟨used.length, by rw [List.take_left, split]⟩
    · obtain ⟨count, ended⟩ := aligned later after inside
      refine ⟨used.length + count, ?_⟩
      rw [take_flatten_of_le (Nat.le_add_right _ _), Nat.add_sub_cancel_left, ended, split]
      simp only [List.append_assoc]

end Turn

/-- A single line is one field, so it names a command without arguments, and the
dispatcher answers it as unknown. -/
theorem processCommand_line (store : Store) (now : Time) {head : Bytes}
    (found : findWord crlf (head ++ crlf) = some head.length) :
    processCommand store now (parseRequest (head ++ crlf)) =
      .respond store (ascii "-ERR unknown command\r\n") := by
  have tail : (head ++ crlf).drop (head.length + 2) = [] :=
    List.drop_of_length_le (Nat.le_of_eq (by rw [List.length_append, crlf_length]))
  have single : parseRequest (head ++ crlf) = [fieldAt (head ++ crlf) head.length] := by
    rw [parseRequest_eq, found]
    simp only [tail]
    rfl
  have short : ¬ 2 ≤ [fieldAt (head ++ crlf) head.length].length := Nat.lt_irrefl 1
  rw [single]
  unfold processCommand
  dsimp only
  split
  · rw [if_neg short]
  · rfl

/-- **One turn of the loop.** A turn processes one line, and the surplus of its
buffer is gone for the later ones. -/
theorem readLoop_of_completed (clock : Nat → Time) (fuel turn : Nat) (store : Store)
    {reads rest : List Bytes} {length : Nat} {buffer head : Bytes}
    (completed : asyncReadUntil [] reads = some (length, buffer, rest))
    (taken : buffer.take length = head ++ crlf)
    (found : findWord crlf (head ++ crlf) = some head.length) :
    readLoop clock (fuel + 1) turn store reads =
      { readLoop clock fuel (turn + 1) store rest with
        lines := (head ++ crlf) :: (readLoop clock fuel (turn + 1) store rest).lines
        commands := parseRequest (head ++ crlf) ::
          (readLoop clock fuel (turn + 1) store rest).commands
        sent := [ascii "-ERR unknown command\r\n"] ++
          (readLoop clock fuel (turn + 1) store rest).sent } := by
  simp only [readLoop, completed, taken, processCommand_line store (clock turn) found,
    Outcome.respond]

/-- The taken lines and the awaited bytes are never more than what was received. -/
theorem readLoop_length_le (clock : Nat → Time) (fuel turn : Nat) (store : Store)
    (reads : List Bytes) :
    ((readLoop clock fuel turn store reads).lines.flatten ++
      (readLoop clock fuel turn store reads).pending).length ≤ reads.flatten.length := by
  induction fuel generalizing turn store reads with
  | zero => exact Nat.zero_le _
  | succ fuel ih =>
      cases completed : asyncReadUntil [] reads with
      | none =>
          simp only [readLoop, completed, List.flatten_nil, List.nil_append]
          exact Nat.le_refl _
      | some result =>
          obtain ⟨length, buffer, rest⟩ := result
          obtain ⟨used, head, surplus, first, taken⟩ := firstTurn_of_completed completed
          have later := ih (turn + 1) store rest
          rw [readLoop_of_completed clock fuel turn store completed taken first.line]
          simp only [first.split, List.flatten_append, first.filled, List.flatten_cons,
            List.append_assoc, List.length_append] at later ⊢
          omega

/-- The first line of the stream is the line of the first turn, and the other lines
are those of the stream behind it. -/
theorem FirstTurn.completeLines_eq {reads used rest : List Bytes} {head : Bytes}
    (first : FirstTurn reads used rest head []) :
    completeLines crlf reads.flatten = (head ++ crlf) :: completeLines crlf rest.flatten := by
  have stream : reads.flatten = head ++ crlf ++ rest.flatten := by
    rw [first.split, List.flatten_append, first.filled, List.append_nil]
  have size : head.length + crlf.length = (head ++ crlf).length := (List.length_append).symm
  rw [stream, completeLines_of_some crlf_ne_nil (findWord_append first.line rest.flatten), size,
    List.take_left, List.drop_left]

/-- The loop loses nothing exactly when every read ends with a line. -/
theorem readLoop_lossless_iff (clock : Nat → Time) (fuel turn : Nat) (store : Store)
    (reads : List Bytes) (enough : reads.length < fuel) :
    (readLoop clock fuel turn store reads).Lossless reads ↔ LineAligned reads := by
  induction fuel generalizing turn store reads with
  | zero => exact absurd enough (Nat.not_lt_zero _)
  | succ fuel ih =>
      cases completed : asyncReadUntil [] reads with
      | none =>
          have absent := asyncReadUntil_none completed
          rw [List.nil_append] at absent
          refine ⟨fun _ before rest occurs => ?_, fun _ => ?_⟩
          · exact absurd occurs (findWord_eq_none_iff.mp absent before rest)
          · simp only [readLoop, completed, Transcript.Lossless, completeLines_of_none absent,
              List.map_nil, List.flatten_nil, List.nil_append, and_self]
      | some result =>
          obtain ⟨length, buffer, rest⟩ := result
          obtain ⟨used, head, surplus, first, taken⟩ := firstTurn_of_completed completed
          have reading : 0 < used.length := by
            rw [List.length_pos_iff]
            rintro rfl
            have size := congrArg List.length first.filled
            simp only [List.flatten_nil, List.length_nil, List.length_append, crlf_length] at size
            omega
          have fewer : rest.length < fuel := by
            rw [first.split, List.length_append] at enough
            omega
          have stream : reads.flatten = (head ++ crlf) ++ (surplus ++ rest.flatten) := by
            rw [first.split, List.flatten_append, first.filled, List.append_assoc]
          have bound := readLoop_length_le clock fuel (turn + 1) store rest
          rw [readLoop_of_completed clock fuel turn store completed taken first.line,
            first.lineAligned_iff, ← ih (turn + 1) store rest fewer]
          generalize readLoop clock fuel (turn + 1) store rest = later at bound
          simp only [Transcript.Lossless, List.flatten_cons, List.append_assoc _ _ later.pending,
            stream, List.append_cancel_left_eq]
          constructor
          · rintro ⟨processed, received⟩
            have empty : surplus = [] := by
              rw [received, List.length_append] at bound
              exact List.length_eq_zero_iff.mp (by omega)
            subst empty
            rw [← stream, first.completeLines_eq, List.map_cons] at processed
            exact ⟨rfl, (List.cons.inj processed).2, received⟩
          · rintro ⟨rfl, processed, received⟩
            refine ⟨?_, received⟩
            rw [← stream, first.completeLines_eq, List.map_cons, processed]

/-- **Independence of the reads.** For every way the client's bytes are cut into
reads, the session processes the lines of the stream in order and skips no
received byte exactly when every line terminator ends a read. -/
theorem readRequest_lossless_iff (clock : Nat → Time) (store : Store) (reads : List Bytes) :
    (readRequest clock store reads).Lossless reads ↔ LineAligned reads :=
  readLoop_lossless_iff clock _ 0 store reads (Nat.lt_succ_self _)

/-- Two lines in one read: the second is lost. -/
theorem readRequest_two_lines :
    (readRequest (fun _ => 0) Store.empty [ascii "+A\r\n+B\r\n"]).commands = [[ascii "A"]] ∧
      ¬ (readRequest (fun _ => 0) Store.empty [ascii "+A\r\n+B\r\n"]).Lossless
        [ascii "+A\r\n+B\r\n"] := by
  constructor
  · decide
  · intro ⟨processed, _⟩
    exact absurd processed (by decide)

end FastDb.Db
