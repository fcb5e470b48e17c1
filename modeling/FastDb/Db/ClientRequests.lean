import FastDb.Db.RespProtocol
import FastDb.Db.RedisSession

/-! # Client commands at the server

The server's decoder reads the array header of a client command as a line of its
own, so the vector it dispatches begins with the printed number of parts. No
registered command is named by a numeral: the decoder never recovers a command
(`FastDb.Db.parseRequest_generateCommand_ne`), and the dispatcher answers every
one of them as unknown (`FastDb.Db.processCommand_generateCommand`).
-/

namespace FastDb.Db

open Foundation RespProtocol RedisSession

/-- The first field of a client command is the number of its parts. -/
theorem parseRequest_generateCommand (command : Bytes) (arguments : List Bytes)
    (options : Redis.SetOptions) :
    ∃ fields, parseRequest (Redis.generateCommand command arguments options) =
      decimal (Redis.allParts command arguments options).length :: fields := by
  generalize count : decimal (Redis.allParts command arguments options).length = header
  obtain ⟨rest, spelled⟩ : ∃ rest, Redis.generateCommand command arguments options =
      (ascii "*" ++ header) ++ (crlf ++ rest) := by
    rw [Redis.generateCommand, count, List.append_assoc]
    exact ⟨_, rfl⟩
  have absent : cr ∉ ascii "*" ++ header := by
    intro member
    rcases List.mem_append.mp member with star | digit
    · exact absurd star (by decide)
    · exact cr_not_mem_decimal _ (count ▸ digit)
  have found : findWord crlf ((ascii "*" ++ header) ++ (crlf ++ rest)) =
      some (ascii "*" ++ header).length := findWord_after rest absent
  have field : fieldAt ((ascii "*" ++ header) ++ (crlf ++ rest)) (ascii "*" ++ header).length =
      header := by
    have star : (ascii "*").length = 1 := rfl
    rw [List.length_append, star, fieldAt, sizeSub, if_pos (Nat.le_add_right 1 _),
      Nat.add_sub_cancel_left, substr, List.append_assoc, ← star, List.drop_left, List.take_left]
  rw [spelled, parseRequest_eq, found]
  exact ⟨_, congrArg (· :: _) field⟩

/-- No numeral is a registered command name. -/
theorem commandMap_decimal (number : Nat) : commandMap (decimal number) = none := by
  have differs : ∀ {name : Bytes}, (∃ byte ∈ name, isDigit byte = false) →
      decimal number ≠ name := by
    rintro name ⟨byte, member, letter⟩ same
    have digit := isDigit_of_mem_decimal (same ▸ member)
    rw [letter] at digit
    cases digit
  unfold commandMap
  rw [if_neg (differs (by decide)), if_neg (differs (by decide)), if_neg (differs (by decide)),
    if_neg (differs (by decide)), if_neg (differs (by decide)), if_neg (differs (by decide))]

/-- **The server answers every client command as unknown**, and leaves the store
as it is. -/
theorem processCommand_generateCommand (store : Store) (now : Time) (command : Bytes)
    (arguments : List Bytes) (options : Redis.SetOptions) :
    processCommand store now (parseRequest (Redis.generateCommand command arguments options)) =
      .respond store (ascii "-ERR unknown command\r\n") := by
  obtain ⟨fields, parsed⟩ := parseRequest_generateCommand command arguments options
  simp only [parsed, processCommand, commandMap_decimal]

/-- **The decoder recovers no client command.** For every registered command and
every list of arguments, the vector the server dispatches differs from the
command and its arguments. -/
theorem parseRequest_generateCommand_ne (command : Bytes) (arguments : List Bytes)
    (registered : (commandMap command).isSome) :
    parseRequest (Redis.generateCommand command arguments) ≠ command :: arguments := by
  obtain ⟨fields, parsed⟩ := parseRequest_generateCommand command arguments {}
  rw [parsed]
  intro same
  rw [← (List.cons.inj same).1, commandMap_decimal] at registered
  cases registered

/-- `HSET` with a key, a field and a value that has bytes of the protocol in it. -/
theorem parseRequest_generateCommand_ne_hset :
    parseRequest (Redis.generateCommand (ascii "HSET")
        [ascii "user", ascii "name", ascii "a\r\nb"]) ≠
      [ascii "HSET", ascii "user", ascii "name", ascii "a\r\nb"] :=
  parseRequest_generateCommand_ne (ascii "HSET")
    [ascii "user", ascii "name", ascii "a\r\nb"] rfl

/-- What the decoder makes of `GET k`. -/
theorem parseRequest_get :
    parseRequest (Redis.RedisString.get (ascii "k")) =
        [ascii "2", ascii "3", ascii "ET", ascii "1", []] ∧
      parseRequest (Redis.RedisString.get (ascii "k")) ≠ [ascii "GET", ascii "k"] := by
  decide

end FastDb.Db
