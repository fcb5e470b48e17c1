import FastDb.Foundation.Bytes

/-! # Client commands

The client writes a command as an array of bulk strings
(`FastDb.Redis.generateCommand`). The array is a framing assembled from the
numeral line, the sized payload and the counted sequence
(`FastDb.Redis.commandArray`), so a pipeline of commands is read back command
by command whatever bytes the arguments hold
(`FastDb.Redis.generateCommand_pipeline`).
-/

namespace FastDb.Redis

open Foundation

/-- The optional arguments of `SET`. -/
structure SetOptions where
  nx : Bool := false
  xx : Bool := false
  ex : Int := -1
  px : Int := -1

/-- The words the options append to a command. -/
def SetOptions.words (options : SetOptions) : List Bytes :=
  (if options.nx then [ascii "NX"] else []) ++
  (if options.xx then [ascii "XX"] else []) ++
  (if options.ex ≠ -1 then [ascii "EX", decimalInt options.ex] else []) ++
  (if options.px ≠ -1 then [ascii "PX", decimalInt options.px] else [])

/-- The command name, its parts and the option words, in the order written. -/
def allParts (command : Bytes) (parts : List Bytes) (options : SetOptions) : List Bytes :=
  [command] ++ parts ++ options.words

/-- The Redis array format of a command. -/
def generateCommand (command : Bytes) (parts : List Bytes) (options : SetOptions := {}) : Bytes :=
  ascii "*" ++ decimal (allParts command parts options).length ++ crlf ++
    (allParts command parts options).flatMap fun part =>
      ascii "$" ++ decimal part.length ++ crlf ++ (part ++ crlf)

namespace RedisString

/-- `RedisString::set`. -/
def set (key value : Bytes) (options : SetOptions := {}) : Bytes :=
  generateCommand (ascii "SET") [key, value] options

/-- `RedisString::get`. -/
def get (key : Bytes) : Bytes := generateCommand (ascii "GET") [key]

end RedisString

/-- A bulk string: its length, and that many bytes of any content. -/
def bulkString : Framing UInt8 Bytes :=
  ((Framing.sized decimalLine).marked (ascii "$")).terminated crlf

/-- An array of bulk strings: their number, and that many bulk strings. -/
def commandArray : Framing UInt8 (List Bytes) :=
  (Framing.counted decimalLine bulkString).marked (ascii "*")

/-- The bytes of a bulk string. -/
theorem bulkString_encode (payload : Bytes) :
    bulkString.encode payload =
      ascii "$" ++ decimal payload.length ++ crlf ++ (payload ++ crlf) := by
  simp only [bulkString, Framing.marked, Framing.terminated, Framing.sized, decimalLine,
    List.append_assoc]

/-- The client's command is the array of its parts. -/
theorem generateCommand_eq_encode (command : Bytes) (parts : List Bytes) (options : SetOptions) :
    generateCommand command parts options =
      commandArray.encode (allParts command parts options) := by
  have items : bulkString.encode = fun part =>
      ascii "$" ++ decimal part.length ++ crlf ++ (part ++ crlf) := funext bulkString_encode
  simp only [generateCommand, commandArray, Framing.marked, Framing.counted, decimalLine, items,
    List.append_assoc]

/-- A command as a caller of the client issues it. -/
structure Request where
  command : Bytes
  parts : List Bytes
  options : SetOptions := {}

namespace Request

/-- The argument vector a request stands for. -/
def vector (request : Request) : List Bytes :=
  allParts request.command request.parts request.options

/-- The bytes of a request. -/
def bytes (request : Request) : Bytes :=
  generateCommand request.command request.parts request.options

end Request

/-- **Pipelines of commands are lossless and self-delimiting.** Reading arrays
until the stream is empty returns the argument vectors of a pipeline in order
with no byte left over, and the first request of a stream is read back, leaving
exactly what follows it, whatever that is. -/
theorem generateCommand_pipeline (requests : List Request) :
    commandArray.decodeAll (requests.flatMap Request.bytes) =
        (requests.map Request.vector, []) ∧
      ∀ (request : Request) (rest : Bytes),
        commandArray.decode (request.bytes ++ rest) = some (request.vector, rest) := by
  constructor
  · have pipeline : requests.flatMap Request.bytes =
        (requests.map Request.vector).flatMap commandArray.encode := by
      rw [List.flatMap_map]
      exact List.flatMap_congr fun request _ => generateCommand_eq_encode _ _ _
    rw [pipeline]
    exact commandArray.decodeAll_flatMap rfl _
  · intro request rest
    have written : request.bytes = commandArray.encode request.vector :=
      generateCommand_eq_encode _ _ _
    rw [written]
    exact commandArray.decode_encode _ _

example : commandArray.decode
    (RedisString.set (ascii "a\r\n") (ascii "$3") { nx := true } ++ ascii "*1") =
      some ([ascii "SET", ascii "a\r\n", ascii "$3", ascii "NX"], ascii "*1") := by
  decide

end FastDb.Redis
