import Mathlib.Data.List.TakeWhile
import FastDb.Db.RespProtocol
import FastDb.Db.RedisSession

/-! # Replies of a running server

`SET` is the only command that creates a value, so in every reachable state the
keys of the slot `default` point to strings (`FastDb.Db.stores_of_reaches`). From
this follow the replies of all six handlers: no hash is ever written or read
(`FastDb.Db.hset_hget_nil`), a command with all its arguments is answered once
unless it carries a malformed number (`FastDb.Db.processCommand_answers_iff`), and
a request is dispatched without an index past its end exactly when it brings the
arguments its handler reads (`FastDb.Db.dispatch_safe_iff`). Where a key holds a hash
after all, `HGET` replies with what the hash holds of a field exactly when that is a
nonempty value (`FastDb.Db.hgetValue_faithful_iff`).
-/

namespace FastDb.Db

open Foundation RespProtocol RedisSession

/-- Every key of the slot `default` points to a string object. -/
def StoresStrings (store : Store) : Prop :=
  ∀ key pointer, store.defaultSlot.data key = some pointer →
    ∃ ref text, pointer = some ref ∧ ref < store.heap.fresh ∧
      store.heap.cells ref = some (.string text)

section StoresStrings

variable {store : Store}

theorem storesStrings_empty : StoresStrings Store.empty := by
  intro key pointer stored
  cases stored

/-- A slot that keeps only pointers the old one had. -/
theorem StoresStrings.putDefault (stores : StoresStrings store) {slot : Slot}
    (fewer : ∀ key pointer, slot.data key = some pointer →
      store.defaultSlot.data key = some pointer) : StoresStrings (store.putDefault slot) := by
  intro key pointer stored
  rw [Store.defaultSlot_putDefault] at stored
  exact stores key pointer (fewer key pointer stored)

theorem StoresStrings.putDefault_self (stores : StoresStrings store) :
    StoresStrings (store.putDefault store.defaultSlot) :=
  stores.putDefault fun _ _ stored => stored

/-- What is there after an erase was there before. -/
theorem data_of_erase {slot : Slot} {key other : Bytes} {pointer : ValuePtr}
    (stored : (slot.erase other).data key = some pointer) : slot.data key = some pointer := by
  simp only [Slot.erase] at stored
  by_cases same : key = other
  · subst same
    rw [Function.update_self] at stored
    cases stored
  · rwa [Function.update_of_ne same] at stored

theorem StoresStrings.setValue (stores : StoresStrings store) (key value : Bytes) :
    StoresStrings (RedisSession.setValue store key value).store := by
  intro other pointer stored
  simp only [RedisSession.setValue, Outcome.respond, Store.defaultSlot_putDefault, Slot.setValue,
    Heap.alloc, Store.putDefault_heap] at stored ⊢
  by_cases same : other = key
  · subst same
    rw [Function.update_self] at stored
    obtain rfl := Option.some.inj stored
    exact ⟨store.heap.fresh, value, rfl, Nat.lt_succ_self _, Function.update_self _ _ _⟩
  · rw [Function.update_of_ne same] at stored
    obtain ⟨ref, text, rfl, old, cell⟩ := stores other pointer stored
    refine ⟨ref, text, rfl, Nat.lt_succ_of_lt old, ?_⟩
    rw [Function.update_of_ne (Nat.ne_of_lt old), cell]

/-- No pointer of the slot casts to a hash. -/
theorem StoresStrings.castMap (stores : StoresStrings store) {key : Bytes} {pointer : ValuePtr}
    (stored : store.defaultSlot.data key = some pointer) : store.heap.castMap pointer = none := by
  obtain ⟨ref, text, rfl, _, cell⟩ := stores key pointer stored
  simp only [Heap.castMap, cell]

theorem StoresStrings.hset (stores : StoresStrings store) (key field value : Bytes) :
    store.defaultSlot.hset store.heap key field value = (false, store.heap) := by
  unfold Slot.hset
  split
  · next pointer stored => simp only [stores.castMap stored]
  · rfl

theorem StoresStrings.hget (stores : StoresStrings store) (key field : Bytes) :
    store.defaultSlot.hget store.heap key field = .ok [] := by
  unfold Slot.hget
  split
  · next pointer stored => simp only [stores.castMap stored]
  · rfl

/-- `HSET` finds no hash to write to. -/
theorem StoresStrings.hsetValue (stores : StoresStrings store) (key field value : Bytes) :
    RedisSession.hsetValue store key field value =
      .respond (store.putDefault store.defaultSlot)
        (ascii "-ERR failed to set hash field\r\n") := by
  simp only [RedisSession.hsetValue, stores.putDefault_self.hset, Bool.false_eq_true, ↓reduceIte]

/-- `HGET` finds no hash to read. -/
theorem StoresStrings.hgetValue (stores : StoresStrings store) (key field : Bytes) :
    RedisSession.hgetValue store key field =
      .respond (store.putDefault store.defaultSlot) nilReply := by
  simp only [RedisSession.hgetValue, stores.putDefault_self.hget, ne_eq, not_true_eq_false,
    ↓reduceIte]

/-- `GET` replies with the name of the string type, or with nil. -/
theorem StoresStrings.getValue (stores : StoresStrings store) (now : Time) (key : Bytes) :
    ∃ reply, (reply = bulkReply (ascii "String") ∨ reply = nilReply) ∧
      RedisSession.getValue store now key =
        .respond (store.putDefault (store.defaultSlot.getValue now key).2) reply := by
  unfold RedisSession.getValue
  cases returned : (store.defaultSlot.getValue now key).1 with
  | none => exact ⟨nilReply, .inr rfl, by simp only [returned]⟩
  | some ref =>
      obtain ⟨found, text, same, _, cell⟩ := stores key (some ref) (data_of_getValue returned)
      obtain rfl := Option.some.inj same
      exact ⟨bulkReply (ascii "String"), .inl rfl, by
        simp only [returned, Store.putDefault_heap, cell, Value.type]⟩

/-- A handler keeps every key on a string. -/
theorem StoresStrings.run (stores : StoresStrings store) (handler : Handler) (now : Time)
    (command : List Bytes) : StoresStrings (handler.run store now command).store := by
  cases handler with
  | set =>
      unfold Handler.run
      dsimp only
      split
      · exact stores.setValue _ _
      · exact stores
  | get =>
      unfold Handler.run
      dsimp only
      split
      · next key _ =>
          obtain ⟨reply, _, replied⟩ := stores.getValue now key
          rw [replied]
          refine stores.putDefault ?_
          intro other pointer stored
          rcases getValue_data store.defaultSlot now key with kept | erased
          · rwa [kept] at stored
          · rw [erased] at stored
            exact data_of_erase stored
      · exact stores
  | del =>
      unfold Handler.run
      dsimp only
      split
      · exact stores.putDefault fun _ _ stored => data_of_erase stored
      · exact stores
  | hset =>
      unfold Handler.run
      dsimp only
      split
      · rw [stores.hsetValue]
        exact stores.putDefault_self
      · exact stores
  | hget =>
      unfold Handler.run
      dsimp only
      split
      · rw [stores.hgetValue]
        exact stores.putDefault_self
      · exact stores
  | expire =>
      unfold Handler.run
      dsimp only
      split
      · split
        · exact stores.putDefault fun _ _ stored => stored
        · exact stores
      · exact stores

theorem StoresStrings.processCommand (stores : StoresStrings store) (now : Time)
    (command : List Bytes) :
    StoresStrings (RedisSession.processCommand store now command).store := by
  unfold RedisSession.processCommand
  split
  · exact stores
  · split
    · next handler _ =>
        split
        · exact stores.run handler now _
        · exact stores
    · exact stores

end StoresStrings

/-- **No command creates anything but strings.** -/
theorem stores_of_reaches {start : Time} {state : ServerState}
    (reached : serverMachine.Reaches Machine.anyStep (ServerState.initial start) state) :
    StoresStrings state.store := by
  refine reached.invariant (fun state => StoresStrings state.store) storesStrings_empty ?_
  intro before event after stores _ stepped
  rw [(serverMachine_step stepped).1]
  exact stores.processCommand event.1 event.2

/-- No payload is answered as nil. -/
theorem nilReply_ne_bulkReply (payload : Bytes) : nilReply ≠ bulkReply payload := by
  intro same
  obtain ⟨first, digits, printed⟩ :=
    List.exists_cons_of_ne_nil (decimal_ne_nil payload.length)
  have digit : isDigit first = true := isDigit_of_mem_decimal (printed ▸ List.mem_cons_self)
  rw [bulkReply, printed] at same
  have minus : (45 : UInt8) = first := (List.cons.inj (List.cons.inj same).2).1
  subst minus
  exact absurd digit (by decide)

/-- The step of a command that is answered. -/
theorem step_of_respond {state : ServerState} {now : Time} {command : List Bytes} {store : Store}
    {response : Bytes} (later : state.clock ≤ now)
    (replied : processCommand state.store now command = .respond store response) :
    serverMachine.step state (now, command) = some ⟨now, store, [response]⟩ := by
  simp only [serverMachine, replied, Outcome.respond, later, ↓reduceIte]

/-- `HSET` is answered with an error. -/
theorem StoresStrings.step_hset {state : ServerState} {now : Time}
    (stores : StoresStrings state.store) (key field value : Bytes) (later : state.clock ≤ now) :
    ∃ after, serverMachine.step state (now, [ascii "HSET", key, field, value]) = some after ∧
      after.clock = now ∧ StoresStrings after.store :=
  ⟨_, step_of_respond later (stores.hsetValue key field value), rfl, stores.putDefault_self⟩

/-- `HGET` is answered with nil. -/
theorem StoresStrings.step_hget {state : ServerState} {now : Time}
    (stores : StoresStrings state.store) (key field : Bytes) (later : state.clock ≤ now) :
    ∃ after, serverMachine.step state (now, [ascii "HGET", key, field]) = some after ∧
      after.sent = [nilReply] :=
  ⟨_, step_of_respond later (stores.hgetValue key field), rfl⟩

/-- **Hash commands never work.** In every reachable state, whatever the key
holds, a field stored with `HSET` is not found by the `HGET` that follows. -/
theorem hset_hget_nil (start written read : Time) (key field value : Bytes)
    {state : ServerState}
    (reached : serverMachine.Reaches Machine.anyStep (ServerState.initial start) state)
    (later : state.clock ≤ written) (last : written ≤ read) :
    ∃ after, serverMachine.execute Machine.anyStep
        [(written, [ascii "HSET", key, field, value]), (read, [ascii "HGET", key, field])]
        state = some after ∧
      after.sent = [nilReply] ∧ after.sent ≠ [bulkReply value] := by
  have stores := stores_of_reaches reached
  obtain ⟨middle, set, clock, kept⟩ := stores.step_hset key field value later
  obtain ⟨after, get, sent⟩ := kept.step_hget key field (Int.le_trans (Int.le_of_eq clock) last)
  refine ⟨after, ?_, sent, ?_⟩
  · simp only [Machine.execute, Machine.anyStep, ↓reduceIte, set, get, Option.bind_some]
  · rw [sent]
    intro same
    exact nilReply_ne_bulkReply value (List.cons.inj same).1

/-- A field stored under an absent key and read back. -/
theorem hset_hget_nil_absent :
    ∃ after, serverMachine.execute Machine.anyStep
        [(1, [ascii "HSET", ascii "h", ascii "f", ascii "v"]),
          (1, [ascii "HGET", ascii "h", ascii "f"])] (ServerState.initial 0) = some after ∧
      after.sent = [nilReply] ∧ after.sent ≠ [bulkReply (ascii "v")] :=
  hset_hget_nil 0 1 1 (ascii "h") (ascii "f") (ascii "v") (Machine.Reaches.refl _) (by decide)
    (by decide)

/-- After `SET` of another key, `HSET` of an absent one fails and its field is not
found. -/
theorem hset_refused :
    ∃ before middle after, serverMachine.execute Machine.anyStep
        [(0, [ascii "SET", ascii "k", ascii "v"])] (ServerState.initial 0) = some before ∧
      before.store.defaultSlot.data (ascii "h") = none ∧
      serverMachine.step before (1, [ascii "HSET", ascii "h", ascii "f", ascii "v"]) =
        some middle ∧
      middle.sent = [ascii "-ERR failed to set hash field\r\n"] ∧
      serverMachine.step middle (1, [ascii "HGET", ascii "h", ascii "f"]) = some after ∧
      after.sent = [ascii "$-1\r\n"] ∧ after.sent ≠ [bulkReply (ascii "v")] :=
  ⟨_, _, _, rfl, rfl, rfl, rfl, rfl, rfl, by decide⟩

section MapReplies

variable {store : Store} {key : Bytes} {pointer : ValuePtr} {ref : Ref}
  {items : Bytes → Option Bytes}

/-- What a stored hash holds of a field, as a reply. -/
def fieldReply (items : Bytes → Option Bytes) (field : Bytes) : Bytes :=
  match items field with
  | some value => bulkReply value
  | none => nilReply

/-- A field that is not in the hash is an exception, and one that holds nothing is
answered like a key that is not stored. -/
theorem hgetValue_of_map (stored : store.defaultSlot.data key = some pointer)
    (cast : store.heap.castMap pointer = some (ref, items)) (field : Bytes) :
    hgetValue store key field =
      match items field with
      | some [] => .respond (store.putDefault store.defaultSlot) nilReply
      | some value => .respond (store.putDefault store.defaultSlot) (bulkReply value)
      | none => .throw (store.putDefault store.defaultSlot)
          (.outOfRange (ascii "Key not found in map: " ++ field)) := by
  simp only [hgetValue, Store.defaultSlot_putDefault, Store.putDefault_heap, Slot.hget, stored,
    cast, MapValue.get]
  cases items field with
  | none => rfl
  | some value => cases value <;> rfl

/-- **The reply to `HGET`.** Where the key holds a hash, the reply is what the hash holds
of the field exactly when it holds a value that is not empty. -/
theorem hgetValue_faithful_iff (stored : store.defaultSlot.data key = some pointer)
    (cast : store.heap.castMap pointer = some (ref, items)) (field : Bytes) :
    (hgetValue store key field).sent = [fieldReply items field] ↔
      ∃ value, items field = some value ∧ value ≠ [] := by
  rw [hgetValue_of_map stored cast, fieldReply]
  cases found : items field with
  | none =>
      constructor
      · intro sent
        cases sent
      · rintro ⟨value, present, -⟩
        cases present
  | some value =>
      cases value with
      | nil =>
          constructor
          · intro sent
            exact absurd (List.cons.inj sent).1 (nilReply_ne_bulkReply [])
          · rintro ⟨value, present, nonempty⟩
            exact absurd (Option.some.inj present).symm nonempty
      | cons first value => exact ⟨fun _ => ⟨_, rfl, List.cons_ne_nil first value⟩, fun _ => rfl⟩

/-- A hash of one field. -/
def oneField (field value : Bytes) : Bytes → Option Bytes :=
  MapValue.set (fun _ => none) field value

/-- A store whose slot `default` holds one hash. -/
def hashStore (key : Bytes) (items : Bytes → Option Bytes) : Store where
  heap := ((Heap.mk (fun _ => none) 0).alloc (.map items)).2
  slots := Function.update (fun _ => none) (ascii "default")
    (some (Slot.empty.setValue key (some 0)))

/-- A field that holds one byte. -/
theorem hgetValue_faithful_byte :
    (hgetValue (hashStore (ascii "h") (oneField (ascii "f") (ascii "v"))) (ascii "h")
      (ascii "f")).sent = [fieldReply (oneField (ascii "f") (ascii "v")) (ascii "f")] := by
  have stored : (hashStore (ascii "h") (oneField (ascii "f") (ascii "v"))).defaultSlot.data
      (ascii "h") = some (some 0) := rfl
  have cast : (hashStore (ascii "h") (oneField (ascii "f") (ascii "v"))).heap.castMap (some 0) =
      some (0, oneField (ascii "f") (ascii "v")) := rfl
  exact (hgetValue_faithful_iff stored cast (ascii "f")).mpr ⟨ascii "v", rfl, by decide⟩

/-- A field that holds the empty string is answered with nil, and a field that is not there
with nothing. -/
theorem hgetValue_unfaithful :
    (hgetValue (hashStore (ascii "h") (oneField (ascii "f") [])) (ascii "h")
        (ascii "f")).sent = [ascii "$-1\r\n"] ∧
      fieldReply (oneField (ascii "f") []) (ascii "f") = ascii "$0\r\n\r\n" ∧
      (hgetValue (hashStore (ascii "h") (oneField (ascii "f") [])) (ascii "h")
        (ascii "g")).sent = [] ∧
      fieldReply (oneField (ascii "f") []) (ascii "g") = ascii "$-1\r\n" ∧
      (hgetValue (hashStore (ascii "h") (oneField (ascii "f") [])) (ascii "h")
        (ascii "f")).sent ≠ [fieldReply (oneField (ascii "f") []) (ascii "f")] ∧
      (hgetValue (hashStore (ascii "h") (oneField (ascii "f") [])) (ascii "h")
        (ascii "g")).sent ≠ [fieldReply (oneField (ascii "f") []) (ascii "g")] := by
  refine ⟨rfl, ?_, rfl, rfl, ?_, ?_⟩
  all_goals decide

end MapReplies

/-- A line of text: neither terminator byte occurs in it. -/
abbrev Line := {text : Bytes // cr ∉ text ∧ lf ∉ text}

/-- The well-formed replies of the protocol. -/
inductive Reply
  | simple (text : Line)
  | error (text : Line)
  | integer (number : Int)
  | bulk (payload : Bytes)
  | nil

/-- The bytes of a reply. -/
def Reply.encode : Reply → Bytes
  | .simple text => ascii "+" ++ text.1 ++ crlf
  | .error text => ascii "-" ++ text.1 ++ crlf
  | .integer number => ascii ":" ++ decimalInt number ++ crlf
  | .bulk payload => bulkReply payload
  | .nil => nilReply

/-- One well-formed reply is sent and the session goes on. -/
def Outcome.Answers (outcome : Outcome) : Prop :=
  (∃ reply : Reply, outcome.sent = [reply.encode]) ∧ outcome.ending = .completed

/-- A response that encodes a reply answers. -/
theorem answers_respond {store : Store} {response : Bytes} (reply : Reply)
    (encoded : response = reply.encode) : (Outcome.respond store response).Answers :=
  ⟨⟨reply, congrArg ([·]) encoded⟩, rfl⟩

/-- The length of a handler's argument vector, the command's name included. -/
def RedisSession.Handler.arity : Handler → Nat
  | .set => 3
  | .get => 2
  | .del => 2
  | .hset => 4
  | .hget => 3
  | .expire => 3

/-- White space, a sign and the digits of an `int`, whatever follows them. -/
def IntNumeral (text : Bytes) : Prop :=
  ∃ spaces sign digits rest, text = spaces ++ (sign ++ (digits ++ rest)) ∧
    (∀ byte ∈ spaces, isSpace byte) ∧ (sign = [] ∨ sign = ascii "+" ∨ sign = ascii "-") ∧
    digits ≠ [] ∧ (∀ byte ∈ digits, isDigit byte) ∧
    (∀ byte, rest.head? = some byte → ¬ isDigit byte) ∧
    numeralValue digits ≤ if sign = ascii "-" then 2147483648 else 2147483647

/-- The number of a sign and digits, when an `int` holds it. -/
private def intOf (negative : Bool) (digits : Bytes) : Except Exception Int :=
  let magnitude : Int := numeralValue digits
  let number := if negative then -magnitude else magnitude
  if digits = [] then .error (.invalidArgument (ascii "stoi"))
  else if -2147483648 ≤ number ∧ number ≤ 2147483647 then .ok number
  else .error (.outOfRange (ascii "stoi"))

/-- The digits give an `int` when there are some and they are in range. -/
private theorem intOf_ok_iff (negative : Bool) (digits : Bytes) :
    (∃ number, intOf negative digits = .ok number) ↔
      digits ≠ [] ∧ numeralValue digits ≤ if negative then 2147483648 else 2147483647 := by
  have range : (-2147483648 ≤ (if negative then -(numeralValue digits : Int)
      else numeralValue digits) ∧ (if negative then -(numeralValue digits : Int)
      else numeralValue digits) ≤ 2147483647) ↔
      numeralValue digits ≤ if negative then 2147483648 else 2147483647 := by
    cases negative <;> simp only [Bool.false_eq_true, ↓reduceIte] <;> omega
  unfold intOf
  simp only [range]
  by_cases empty : digits = []
  · simp only [empty, ↓reduceIte, reduceCtorEq, exists_false, ne_eq, not_true_eq_false, false_and]
  · by_cases small : numeralValue digits ≤ if negative then 2147483648 else 2147483647
    · simp only [empty, small, ↓reduceIte, Except.ok.injEq, exists_eq', ne_eq, not_false_eq_true,
        and_self]
    · simp only [empty, small, ↓reduceIte, reduceCtorEq, exists_false, and_false]

/-- `stoi` skips blanks, takes a sign and reads digits. -/
private theorem stoi_eq (text : Bytes) :
    stoi text = intOf ((text.dropWhile isSpace).head? = some 45)
      ((if (text.dropWhile isSpace).head? = some 45 ∨ (text.dropWhile isSpace).head? = some 43
        then (text.dropWhile isSpace).tail else text.dropWhile isSpace).takeWhile isDigit) := by
  simp only [stoi, intOf, decide_eq_true_eq]

/-- The blanks in front are skipped. -/
private theorem dropWhile_space {spaces tail : Bytes} (white : ∀ byte ∈ spaces, isSpace byte)
    (stop : ∀ byte, tail.head? = some byte → ¬ isSpace byte) :
    (spaces ++ tail).dropWhile isSpace = tail := by
  rw [List.dropWhile_append_of_pos white]
  cases tail with
  | nil => rfl
  | cons first tail => rw [List.dropWhile_cons_of_neg (stop first rfl)]

/-- The digits in front are read. -/
private theorem takeWhile_digit {digits rest : Bytes} (digital : ∀ byte ∈ digits, isDigit byte)
    (stop : ∀ byte, rest.head? = some byte → ¬ isDigit byte) :
    (digits ++ rest).takeWhile isDigit = digits := by
  rw [List.takeWhile_append_of_pos digital]
  cases rest with
  | nil => exact List.append_nil _
  | cons first rest =>
      rw [List.takeWhile_cons_of_neg (stop first rfl), List.append_nil]

/-- A digit is no blank and no sign. -/
private theorem not_space_of_digit {byte : UInt8} (digit : isDigit byte) :
    ¬ isSpace byte ∧ byte ≠ 45 ∧ byte ≠ 43 := by
  simp only [isDigit, isSpace, Bool.and_eq_true, Bool.or_eq_true, decide_eq_true_eq,
    UInt8.le_iff_toNat_le, ne_eq, ← UInt8.toNat_inj, UInt8.reduceToNat] at digit ⊢
  omega

/-- What follows the white space decides the number. -/
private theorem stoi_body (sign digits rest : Bytes)
    (signed : sign = [] ∨ sign = ascii "+" ∨ sign = ascii "-") (nonempty : digits ≠ [])
    (digital : ∀ byte ∈ digits, isDigit byte)
    (stop : ∀ byte, rest.head? = some byte → ¬ isDigit byte) :
    (∀ byte, (sign ++ (digits ++ rest)).head? = some byte → ¬ isSpace byte) ∧
      ((sign ++ (digits ++ rest)).head? = some 45 ↔ sign = ascii "-") ∧
      (if (sign ++ (digits ++ rest)).head? = some 45 ∨ (sign ++ (digits ++ rest)).head? = some 43
        then (sign ++ (digits ++ rest)).tail else sign ++ (digits ++ rest)).takeWhile isDigit =
        digits := by
  have taken := takeWhile_digit digital stop
  obtain ⟨first, more, rfl⟩ := List.exists_cons_of_ne_nil nonempty
  obtain ⟨visible, notMinus, notPlus⟩ := not_space_of_digit (digital first List.mem_cons_self)
  obtain rfl | rfl | rfl := signed
  · simp only [List.nil_append, List.cons_append, List.head?_cons, Option.some.injEq, notMinus,
      notPlus, or_self, ↓reduceIte]
    refine ⟨fun byte same => same ▸ visible, ⟨fun absurd => absurd.elim, fun same => ?_⟩, taken⟩
    cases same
  · refine ⟨?_, ⟨fun other => ?_, fun other => ?_⟩, taken⟩
    · intro byte same
      exact Option.some.inj same ▸ by decide
    · exact absurd (Option.some.inj other) (by decide)
    · exact absurd other (by decide)
  · refine ⟨?_, ⟨fun _ => rfl, fun _ => rfl⟩, taken⟩
    intro byte same
    exact Option.some.inj same ▸ by decide

/-- A numeral in range is read. -/
theorem stoi_ok_of_intNumeral {text : Bytes} (numeral : IntNumeral text) :
    ∃ number, stoi text = .ok number := by
  obtain ⟨spaces, sign, digits, rest, rfl, white, signed, nonempty, digital, stop, small⟩ := numeral
  obtain ⟨visible, minus, taken⟩ := stoi_body sign digits rest signed nonempty digital stop
  rw [stoi_eq, dropWhile_space white visible, taken, intOf_ok_iff]
  refine ⟨nonempty, ?_⟩
  simpa only [minus, decide_eq_true_eq] using small

/-- The leading digits of what follows the sign. -/
private theorem intNumeral_of_digits {spaces tail : Bytes} (sign : Bytes)
    (white : ∀ byte ∈ spaces, isSpace byte)
    (signed : sign = [] ∨ sign = ascii "+" ∨ sign = ascii "-")
    (nonempty : tail.takeWhile isDigit ≠ [])
    (small : numeralValue (tail.takeWhile isDigit) ≤
      if sign = ascii "-" then 2147483648 else 2147483647) :
    IntNumeral (spaces ++ (sign ++ tail)) := by
  refine ⟨spaces, sign, tail.takeWhile isDigit, tail.dropWhile isDigit, ?_, white, signed, nonempty,
    fun _ member => List.mem_takeWhile_imp member, ?_, small⟩
  · rw [List.takeWhile_append_dropWhile]
  · intro byte stopped digit
    have stop := List.head?_dropWhile_not isDigit tail
    rw [stopped] at stop
    exact absurd digit (by simpa using stop)

/-- What is read is a numeral in range. -/
theorem intNumeral_of_stoi_ok {text : Bytes} {number : Int} (read : stoi text = .ok number) :
    IntNumeral text := by
  have white : ∀ byte ∈ text.takeWhile isSpace, isSpace byte :=
    fun byte member => List.mem_takeWhile_imp member
  rw [← List.takeWhile_append_dropWhile (p := isSpace) (l := text)]
  rw [stoi_eq] at read
  obtain ⟨nonempty, small⟩ := (intOf_ok_iff _ _).mp ⟨number, read⟩
  generalize text.dropWhile isSpace = body at nonempty small ⊢
  by_cases minus : body.head? = some 45
  · obtain ⟨tail, rfl⟩ := List.head?_eq_some_iff.mp minus
    exact intNumeral_of_digits (ascii "-") white (.inr (.inr rfl)) nonempty small
  · by_cases plus : body.head? = some 43
    · obtain ⟨tail, rfl⟩ := List.head?_eq_some_iff.mp plus
      exact intNumeral_of_digits (ascii "+") white (.inr (.inl rfl)) nonempty small
    · simp only [minus, plus, or_self, ↓reduceIte, decide_false, Bool.false_eq_true]
        at nonempty small
      exact intNumeral_of_digits [] white (.inl rfl) nonempty small

/-- `std::stoi` returns exactly on numerals of the `int` range. -/
theorem stoi_ok_iff (text : Bytes) : (∃ number, stoi text = .ok number) ↔ IntNumeral text :=
  ⟨fun ⟨_, read⟩ => intNumeral_of_stoi_ok read, stoi_ok_of_intNumeral⟩

/-- A handler that finds its vector too short indexes past the end. -/
theorem run_of_short {handler : Handler} {command : List Bytes}
    (short : command.length < handler.arity) (store : Store) (now : Time) :
    handler.run store now command = .undefined store := by
  have absent : command[handler.arity - 1]? = none := List.getElem?_eq_none (by omega)
  cases handler <;> simp only [Handler.arity, Nat.add_one_sub_one] at absent <;>
    unfold Handler.run <;> simp only [absent]
  case set => cases command[1]? <;> rfl
  case hset => cases command[1]? <;> cases command[2]? <;> rfl
  case hget => cases command[1]? <;> rfl
  case expire => cases command[1]? <;> rfl

/-- A handler that finds its arguments, a numeral among them where it reads one,
answers once. -/
theorem StoresStrings.run_answers {store : Store} (stores : StoresStrings store)
    {handler : Handler} {command : List Bytes} (enough : handler.arity ≤ command.length)
    (numeral : handler = .expire → ∀ ttl, command[2]? = some ttl → IntNumeral ttl) (now : Time) :
    (handler.run store now command).Answers := by
  have argument : ∀ i, i < handler.arity → ∃ part, command[i]? = some part :=
    fun i inside => ⟨_, List.getElem?_eq_getElem (Nat.lt_of_lt_of_le inside enough)⟩
  cases handler with
  | set =>
      obtain ⟨key, first⟩ := argument 1 (by decide)
      obtain ⟨value, second⟩ := argument 2 (by decide)
      simp only [Handler.run, first, second]
      exact answers_respond (.simple ⟨ascii "OK", by decide⟩) (by decide)
  | get =>
      obtain ⟨key, first⟩ := argument 1 (by decide)
      obtain ⟨reply, named, replied⟩ := stores.getValue now key
      simp only [Handler.run, first, replied]
      rcases named with rfl | rfl
      · exact answers_respond (.bulk (ascii "String")) rfl
      · exact answers_respond .nil rfl
  | del =>
      obtain ⟨key, first⟩ := argument 1 (by decide)
      simp only [Handler.run, first]
      exact answers_respond (.integer 1) (by decide)
  | hset =>
      obtain ⟨key, first⟩ := argument 1 (by decide)
      obtain ⟨field, second⟩ := argument 2 (by decide)
      obtain ⟨value, third⟩ := argument 3 (by decide)
      simp only [Handler.run, first, second, third, stores.hsetValue]
      exact answers_respond (.error ⟨ascii "ERR failed to set hash field", by decide⟩) (by decide)
  | hget =>
      obtain ⟨key, first⟩ := argument 1 (by decide)
      obtain ⟨field, second⟩ := argument 2 (by decide)
      simp only [Handler.run, first, second, stores.hgetValue]
      exact answers_respond .nil rfl
  | expire =>
      obtain ⟨key, first⟩ := argument 1 (by decide)
      obtain ⟨ttl, second⟩ := argument 2 (by decide)
      obtain ⟨ttlSeconds, read⟩ := stoi_ok_of_intNumeral (numeral rfl ttl second)
      simp only [Handler.run, first, second, read]
      exact answers_respond (.integer 1) (by decide)

/-- `EXPIRE` with anything but a numeral sends nothing and throws. -/
theorem run_expire_throws {command : List Bytes} {ttl : Bytes} (enough : 3 ≤ command.length)
    (argument : command[2]? = some ttl) (malformed : ¬ IntNumeral ttl) (store : Store)
    (now : Time) : ∃ exception, Handler.expire.run store now command = .throw store exception := by
  have first : command[1]? = some command[1] := List.getElem?_eq_getElem (by omega)
  simp only [Handler.run, first, argument]
  cases read : stoi ttl with
  | ok number => exact absurd (intNumeral_of_stoi_ok read) malformed
  | error exception => exact ⟨exception, rfl⟩

/-- A handler that finds its arguments does not index past the end. -/
theorem StoresStrings.run_ending {store : Store} (stores : StoresStrings store)
    {handler : Handler} {command : List Bytes} (enough : handler.arity ≤ command.length)
    (now : Time) : (handler.run store now command).ending ≠ .undefined := by
  by_cases numeral : handler = .expire → ∀ ttl, command[2]? = some ttl → IntNumeral ttl
  · rw [(stores.run_answers enough numeral now).2]
    exact Ending.noConfusion
  · push Not at numeral
    obtain ⟨rfl, ttl, argument, malformed⟩ := numeral
    obtain ⟨exception, thrown⟩ := run_expire_throws enough argument malformed store now
    rw [thrown]
    exact Ending.noConfusion

/-- A registered command with an argument runs its handler. -/
theorem processCommand_of_registered {command : List Bytes} {handler : Handler}
    (registered : command.head?.bind commandMap = some handler) (long : 2 ≤ command.length)
    (store : Store) (now : Time) :
    processCommand store now command = handler.run store now command := by
  cases command with
  | nil => cases registered
  | cons name arguments =>
      rw [List.head?_cons, Option.bind_some] at registered
      simp only [processCommand, registered, long, ↓reduceIte]

/-- **One reply per command.** In every reachable state, a registered command with
its number of arguments is answered by one well-formed reply and the session goes
on, exactly when the time to live of an `EXPIRE` is a numeral. -/
theorem processCommand_answers_iff (start now : Time) {state : ServerState} {command : List Bytes}
    {handler : Handler}
    (reached : serverMachine.Reaches Machine.anyStep (ServerState.initial start) state)
    (registered : command.head?.bind commandMap = some handler)
    (length : command.length = handler.arity) :
    (processCommand state.store now command).Answers ↔
      (handler = .expire → ∀ ttl, command[2]? = some ttl → IntNumeral ttl) := by
  have long : 2 ≤ command.length := by
    rw [length]
    cases handler <;> decide
  rw [processCommand_of_registered registered long]
  constructor
  · rintro ⟨_, completed⟩ rfl ttl argument
    by_contra malformed
    obtain ⟨exception, thrown⟩ :=
      run_expire_throws (Nat.le_of_eq length.symm) argument malformed state.store now
    rw [thrown] at completed
    cases completed
  · intro numeral
    exact (stores_of_reaches reached).run_answers (Nat.le_of_eq length.symm) numeral now

/-- An `EXPIRE` of a stored key. -/
theorem processCommand_answers_expire :
    (processCommand Store.empty 0 [ascii "EXPIRE", ascii "k", ascii "10"]).Answers := by
  have registered : [ascii "EXPIRE", ascii "k", ascii "10"].head?.bind commandMap =
      some .expire := rfl
  refine (processCommand_answers_iff 0 0 (Machine.Reaches.refl (ServerState.initial 0)) registered
    rfl).mpr ?_
  intro _ ttl argument
  obtain rfl := Option.some.inj argument
  refine ⟨[], [], ascii "10", [], rfl, fun _ member => absurd member List.not_mem_nil, .inl rfl,
    List.cons_ne_nil _ _, ?_, fun _ absent => absurd absent (by simp), ?_⟩
  · decide +kernel
  · decide +kernel

/-- An `EXPIRE` whose time to live is no number is not answered, and ends the
session. -/
theorem processCommand_expire_unanswered :
    (processCommand Store.empty 0 [ascii "EXPIRE", ascii "k", ascii "x"]).sent = [] ∧
      ¬ (processCommand Store.empty 0 [ascii "EXPIRE", ascii "k", ascii "x"]).Answers := by
  refine ⟨by decide, ?_⟩
  rintro ⟨_, completed⟩
  cases completed

/-- One field for each complete line. -/
theorem parseRequest_length (data : Bytes) :
    (parseRequest data).length = (completeLines crlf data).length := by
  induction data using lines_induction crlf_ne_nil with
  | rest data absent => rw [parseRequest_eq, absent, completeLines_of_none absent]
  | line data position found ih =>
      rw [parseRequest_eq, found, completeLines_of_some crlf_ne_nil found, List.length_cons,
        List.length_cons, ← ih, crlf_length]

/-- The first line of the request names the handler's command, after its first
byte. -/
def Names (data : Bytes) (handler : Handler) : Prop :=
  ∃ first name rest, data = first :: (name ++ (crlf ++ rest)) ∧ commandMap name = some handler

/-- A command's name is a word of capital letters. -/
theorem commandMap_letters {name : Bytes} {handler : Handler}
    (registered : commandMap name = some handler) :
    cr ∉ name ∧ ∃ letter tail, name = letter :: tail ∧ letter ≠ lf := by
  unfold commandMap at registered
  split_ifs at registered with set get del hset hget expire
  · exact set ▸ ⟨by decide, _, _, rfl, by decide⟩
  · exact get ▸ ⟨by decide, _, _, rfl, by decide⟩
  · exact del ▸ ⟨by decide, _, _, rfl, by decide⟩
  · exact hset ▸ ⟨by decide, _, _, rfl, by decide⟩
  · exact hget ▸ ⟨by decide, _, _, rfl, by decide⟩
  · exact expire ▸ ⟨by decide, _, _, rfl, by decide⟩

/-- When the first field of a request names a handler. -/
theorem head_parseRequest_iff (data : Bytes) (handler : Handler) :
    (parseRequest data).head?.bind commandMap = some handler ↔ Names data handler := by
  rw [parseRequest_eq]
  constructor
  · intro registered
    cases found : findWord crlf data with
    | none =>
        rw [found] at registered
        cases registered
    | some position =>
        rw [found, List.head?_cons, Option.bind_some] at registered
        have split := findWord_split found
        rw [List.append_assoc] at split
        cases position with
        | zero =>
            obtain ⟨_, letter, tail, named, notLf⟩ := commandMap_letters registered
            obtain ⟨rest, field⟩ := fieldAt_zero (data.drop (0 + crlf.length))
            rw [split, List.take_zero, List.nil_append, field] at named
            exact absurd (List.cons.inj named).1.symm notLf
        | succ position =>
            have inside := findWord_le found
            cases data with
            | nil => exact absurd inside (by simp)
            | cons first data =>
                rw [List.take_succ_cons, List.cons_append] at split
                have width : (data.take position).length = position := by
                  rw [List.length_take]
                  rw [List.length_cons, crlf_length] at inside
                  omega
                have field : fieldAt (first :: data) (position + 1) = data.take position := by
                  have taken := fieldAt_cons first (data.take position)
                    (crlf ++ (first :: data).drop (position + 1 + crlf.length))
                  rwa [width, ← split] at taken
                exact ⟨first, data.take position, _, split, field ▸ registered⟩
  · rintro ⟨first, name, rest, rfl, registered⟩
    obtain ⟨clean, letter, tail, spelled, notLf⟩ := commandMap_letters registered
    have elsewhere : stripWord crlf (first :: (name ++ (crlf ++ rest))) = none := by
      rw [spelled]
      simp only [crlf, List.cons_append, stripWord, notLf, ↓reduceIte, ite_self]
    have found : findWord crlf (first :: (name ++ (crlf ++ rest))) = some (name.length + 1) := by
      have after : findWord crlf (name ++ (crlf ++ rest)) = some name.length :=
        findWord_after rest clean
      simp only [findWord, elsewhere, Option.isSome_none, Bool.false_eq_true, ↓reduceIte, after,
        Option.map_some]
    simp only [found, List.head?_cons, Option.bind_some, fieldAt_cons, registered]

/-- **Index safety of the dispatch.** In every reachable state a request is
dispatched without reading past the end of its vector exactly when a request of two
or more lines that names a command brings as many lines as its handler reads. -/
theorem dispatch_safe_iff (start now : Time) (data : Bytes) {state : ServerState}
    (reached : serverMachine.Reaches Machine.anyStep (ServerState.initial start) state) :
    (processCommand state.store now (parseRequest data)).ending ≠ .undefined ↔
      ∀ handler, Names data handler → 2 ≤ (completeLines crlf data).length →
        handler.arity ≤ (completeLines crlf data).length := by
  rw [← parseRequest_length]
  simp only [← head_parseRequest_iff]
  constructor
  · intro safe handler registered long
    by_contra short
    rw [processCommand_of_registered registered long,
      run_of_short (Nat.lt_of_not_le short) state.store now] at safe
    exact safe rfl
  · intro enough
    have stores := stores_of_reaches reached
    unfold processCommand
    split
    · exact Ending.noConfusion
    · next name arguments fields =>
        split
        · next handler registered =>
            split
            · next long =>
                refine stores.run_ending (fields ▸ enough handler ?_ (fields ▸ long)) now
                rw [fields]
                exact registered
            · exact Ending.noConfusion
        · exact Ending.noConfusion

/-- A `GET` of a key is dispatched within its vector. -/
theorem dispatch_safe_get :
    (processCommand Store.empty 0 (parseRequest (ascii "+GET\r\n+k\r\n"))).ending ≠ .undefined := by
  refine (dispatch_safe_iff 0 0 (ascii "+GET\r\n+k\r\n")
    (Machine.Reaches.refl (ServerState.initial 0))).mpr ?_
  intro handler named _
  have get : (parseRequest (ascii "+GET\r\n+k\r\n")).head?.bind commandMap = some .get := by decide
  obtain rfl := Option.some.inj (get.symm.trans ((head_parseRequest_iff _ handler).mpr named))
  decide

/-- A `SET` without a value reads past the end. -/
theorem dispatch_set_undefined :
    (processCommand Store.empty 0 (parseRequest (ascii "+SET\r\n+k\r\n"))).ending = .undefined :=
  rfl

end FastDb.Db
