import FastDb.Db.Slot
import FastDb.Redis.GenerateCommand

/-! # Sessions

A session dispatches argument vectors to the registered command handlers, which
read and write the slot named `default` and send one response each. A handler
that indexes its vector past the end has no defined behaviour, and one that
throws ends the session; both are outcomes of the model. `GET` replies with the
name of the value's type, so a stored string comes back exactly when it is that
name (`FastDb.Db.set_get_reply_iff`).
-/

namespace FastDb.Db

open Foundation

/-- What all sessions share: the slots, and the objects behind their values. -/
structure Store where
  heap : Heap
  slots : Bytes → Option Slot

namespace Store

/-- A store without objects, with one empty slot. -/
def empty : Store where
  heap := ⟨fun _ => none, 0⟩
  slots := fun _ => none

/-- `slots["default"]`, which creates the slot when it is missing. -/
def defaultSlot (store : Store) : Slot := (store.slots (ascii "default")).getD Slot.empty

/-- Replaces the slot of the default database. -/
def putDefault (store : Store) (slot : Slot) : Store :=
  { store with slots := Function.update store.slots (ascii "default") (some slot) }

@[simp] theorem putDefault_heap (store : Store) (slot : Slot) :
    (store.putDefault slot).heap = store.heap := rfl

@[simp] theorem defaultSlot_putDefault (store : Store) (slot : Slot) :
    (store.putDefault slot).defaultSlot = slot := by
  simp only [defaultSlot, putDefault, Function.update_self, Option.getD_some]

end Store

/-- How the processing of one command ends. -/
inductive Ending
  | completed
  | thrown (exception : Exception)
  | undefined

/-- The store a command leaves behind, the responses it sent, and its end. -/
structure Outcome where
  store : Store
  sent : List Bytes
  ending : Ending

namespace Outcome

/-- The handler writes one response and returns. -/
def respond (store : Store) (response : Bytes) : Outcome := ⟨store, [response], .completed⟩

/-- The handler throws before it writes. -/
def throw (store : Store) (exception : Exception) : Outcome := ⟨store, [], .thrown exception⟩

/-- An index past the end of the argument vector. -/
def undefined (store : Store) : Outcome := ⟨store, [], .undefined⟩

end Outcome

/-- `std::isspace` in the C locale. -/
def isSpace (byte : UInt8) : Bool := byte = 32 || (9 ≤ byte && byte ≤ 13)

/-- `std::stoi`: leading white space, an optional sign and as many digits as
there are; the result is an `int`. -/
def stoi (text : Bytes) : Except Exception Int :=
  let body := text.dropWhile isSpace
  let negative := body.head? = some 45
  let digits :=
    (if body.head? = some 45 ∨ body.head? = some 43 then body.tail else body).takeWhile isDigit
  let magnitude : Int := numeralValue digits
  let number := if negative then -magnitude else magnitude
  if digits = [] then .error (.invalidArgument (ascii "stoi"))
  else if -2147483648 ≤ number ∧ number ≤ 2147483647 then .ok number
  else .error (.outOfRange (ascii "stoi"))

namespace RedisSession

/-- The reply that carries a byte string. -/
def bulkReply (payload : Bytes) : Bytes :=
  ascii "$" ++ decimal payload.length ++ ascii "\r\n" ++ payload ++ ascii "\r\n"

/-- The bulk string for a null value. -/
def nilReply : Bytes := ascii "$-1\r\n"

/-- `set_value`. -/
def setValue (store : Store) (key value : Bytes) : Outcome :=
  let (ref, heap) := store.heap.alloc (.string value)
  let store := { store with heap := heap }
  .respond (store.putDefault (store.defaultSlot.setValue key (some ref))) (ascii "+OK\r\n")

/-- `get_value`, which answers with the type of the value. -/
def getValue (store : Store) (now : Time) (key : Bytes) : Outcome :=
  let (pointer, slot) := store.defaultSlot.getValue now key
  let store := store.putDefault slot
  match pointer with
  | some ref =>
      match store.heap.cells ref with
      -- the reply names the type of the value
      | some value => .respond store (bulkReply value.type)
      | none => .undefined store
  | none => .respond store nilReply

/-- `delete_value`. -/
def deleteValue (store : Store) (key : Bytes) : Outcome :=
  .respond (store.putDefault (store.defaultSlot.remove key)) (ascii ":1\r\n")

/-- `hset_value`. -/
def hsetValue (store : Store) (key field value : Bytes) : Outcome :=
  let store := store.putDefault store.defaultSlot
  let (success, heap) := store.defaultSlot.hset store.heap key field value
  let store := { store with heap := heap }
  if success then .respond store (ascii "+OK\r\n")
  else .respond store (ascii "-ERR failed to set hash field\r\n")

/-- `hget_value`. -/
def hgetValue (store : Store) (key field : Bytes) : Outcome :=
  let store := store.putDefault store.defaultSlot
  match store.defaultSlot.hget store.heap key field with
  | .ok value => if value ≠ [] then .respond store (bulkReply value) else .respond store nilReply
  | .error exception => .throw store exception

/-- `expire_value`. -/
def expireValue (store : Store) (now : Time) (key : Bytes) (ttlSeconds : Int) : Outcome :=
  .respond (store.putDefault (store.defaultSlot.setExpiration now key ttlSeconds))
    (ascii ":1\r\n")

/-- The commands registered in `command_map_`. -/
inductive Handler
  | set
  | get
  | del
  | hset
  | hget
  | expire
  deriving DecidableEq

/-- `command_map_`, as the constructor fills it. -/
def commandMap (name : Bytes) : Option Handler :=
  if name = ascii "SET" then some .set
  else if name = ascii "GET" then some .get
  else if name = ascii "DEL" then some .del
  else if name = ascii "HSET" then some .hset
  else if name = ascii "HGET" then some .hget
  else if name = ascii "EXPIRE" then some .expire
  else none

/-- The registered functions: each indexes the vector without a bounds check. -/
def Handler.run (handler : Handler) (store : Store) (now : Time) (command : List Bytes) :
    Outcome :=
  match handler with
  | .set =>
      match command[1]?, command[2]? with
      | some key, some value => setValue store key value
      | _, _ => .undefined store
  | .get =>
      match command[1]? with
      | some key => getValue store now key
      | none => .undefined store
  | .del =>
      match command[1]? with
      | some key => deleteValue store key
      | none => .undefined store
  | .hset =>
      match command[1]?, command[2]?, command[3]? with
      | some key, some field, some value => hsetValue store key field value
      | _, _, _ => .undefined store
  | .hget =>
      match command[1]?, command[2]? with
      | some key, some field => hgetValue store key field
      | _, _ => .undefined store
  | .expire =>
      match command[1]?, command[2]? with
      | some key, some ttl =>
          match stoi ttl with
          | .ok ttlSeconds => expireValue store now key ttlSeconds
          | .error exception => .throw store exception
      | _, _ => .undefined store

/-- `process_command`. -/
def processCommand (store : Store) (now : Time) (command : List Bytes) : Outcome :=
  match command with
  | [] => .respond store (ascii "-ERR empty command\r\n")
  | name :: _ =>
      match commandMap name with
      | some handler =>
          if 2 ≤ command.length then handler.run store now command
          else .respond store (ascii "-ERR unknown command\r\n")
      | none => .respond store (ascii "-ERR unknown command\r\n")

end RedisSession

open RedisSession

/-- The server between commands: the last clock reading, what the sessions
share, and the responses sent to the last command. -/
structure ServerState where
  clock : Time
  store : Store
  sent : List Bytes

/-- A server with an empty store. -/
def ServerState.initial (clock : Time) : ServerState := ⟨clock, Store.empty, []⟩

/-- Commands of any sessions at nondecreasing clock readings. An exception ends
the session that threw it and the server goes on; there is no step past an
index out of range. -/
def serverMachine : Machine ServerState (Time × List Bytes) where
  step state event :=
    let outcome := processCommand state.store event.1 event.2
    if state.clock ≤ event.1 then
      match outcome.ending with
      | .undefined => none
      | .completed => some ⟨event.1, outcome.store, outcome.sent⟩
      | .thrown _ => some ⟨event.1, outcome.store, outcome.sent⟩
    else none

/-- A step of the server runs one command. -/
theorem serverMachine_step {state next : ServerState} {event : Time × List Bytes}
    (stepped : serverMachine.step state event = some next) :
    next.store = (processCommand state.store event.1 event.2).store ∧
      next.sent = (processCommand state.store event.1 event.2).sent := by
  simp only [serverMachine] at stepped
  split at stepped
  · split at stepped
    · cases stepped
    all_goals
      obtain rfl := Option.some.inj stepped
      exact ⟨rfl, rfl⟩
  · cases stepped

/-- The key holds the string, in an object of its own, without a deadline. -/
def HoldsString (store : Store) (key value : Bytes) : Prop :=
  (∃ ref, store.defaultSlot.data key = some (some ref) ∧
      store.heap.cells ref = some (.string value) ∧ ref < store.heap.fresh) ∧
    store.defaultSlot.expirationTimes key = none

/-- The command stores, deletes or expires the key. -/
def Writes (command : List Bytes) (key : Bytes) : Prop :=
  (command[0]? = some (ascii "SET") ∨ command[0]? = some (ascii "DEL") ∨
    command[0]? = some (ascii "EXPIRE")) ∧ command[1]? = some key

section HoldsString

variable {store : Store} {key value : Bytes}

/-- A changed slot that agrees at the key, over a heap that keeps its strings,
still holds the string. -/
private theorem HoldsString.of_agree (holds : HoldsString store key value) {next : Store}
    (data : next.defaultSlot.data key = store.defaultSlot.data key)
    (deadline : next.defaultSlot.expirationTimes key = store.defaultSlot.expirationTimes key)
    (cells : ∀ ref text, ref < store.heap.fresh → store.heap.cells ref = some (.string text) →
      next.heap.cells ref = some (.string text))
    (fresh : store.heap.fresh ≤ next.heap.fresh) : HoldsString next key value := by
  obtain ⟨⟨ref, stored, cell, old⟩, absent⟩ := holds
  exact ⟨⟨ref, data.trans stored, cells ref value old cell, Nat.lt_of_lt_of_le old fresh⟩,
    deadline.trans absent⟩

/-- `get_value` of another key. -/
private theorem getValue_of_ne (slot : Slot) (now : Time) {key other : Bytes}
    (different : other ≠ key) :
    (slot.getValue now other).2.data key = slot.data key ∧
      (slot.getValue now other).2.expirationTimes key = slot.expirationTimes key := by
  unfold Slot.getValue
  split
  · exact ⟨Function.update_of_ne (Ne.symm different) _ _,
      Function.update_of_ne (Ne.symm different) _ _⟩
  · split <;> exact ⟨rfl, rfl⟩

/-- `get_value` of a key without a deadline. -/
private theorem getValue_of_live {slot : Slot} {now : Time} {key : Bytes} {pointer : ValuePtr}
    (present : slot.data key = some pointer) (absent : slot.expirationTimes key = none) :
    slot.getValue now key = (pointer, slot) := by
  have live : ¬ slot.Expired now key := by
    rintro ⟨deadline, set, _⟩
    rw [absent] at set
    cases set
  simp only [Slot.getValue, live, ↓reduceIte, present]

/-- `set_value` stores the string. -/
theorem holdsString_setValue (absent : store.defaultSlot.expirationTimes key = none) :
    HoldsString (RedisSession.setValue store key value).store key value := by
  refine ⟨⟨store.heap.fresh, ?_, ?_, Nat.lt_succ_self _⟩, ?_⟩
  · simp only [RedisSession.setValue, Outcome.respond, Store.defaultSlot_putDefault, Slot.setValue,
      Heap.alloc, Function.update_self]
  · simp only [RedisSession.setValue, Outcome.respond, Store.putDefault_heap, Heap.alloc,
      Function.update_self]
  · simp only [RedisSession.setValue, Outcome.respond, Store.defaultSlot_putDefault, Slot.setValue]
    exact absent

/-- Hash fields are written to hashes only, so every string object is kept. -/
private theorem hset_keeps (slot : Slot) (heap : Heap) (other field text : Bytes) :
    (∀ ref content, heap.cells ref = some (.string content) →
        (slot.hset heap other field text).2.cells ref = some (.string content)) ∧
      (slot.hset heap other field text).2.fresh = heap.fresh := by
  unfold Slot.hset
  split
  · next pointer stored =>
      split
      · next found items cast =>
          refine ⟨fun ref content cell => ?_, rfl⟩
          have different : ref ≠ found := by
            rintro rfl
            unfold Heap.castMap at cast
            split at cast
            · cases cast
            · next other =>
                split at cast
                · next same =>
                    obtain ⟨rfl, _⟩ := Prod.mk.inj (Option.some.inj cast)
                    rw [cell] at same
                    cases same
                · cases cast
          simp only [Heap.store, Function.update_of_ne different, cell]
      · exact ⟨fun _ _ cell => cell, rfl⟩
  · exact ⟨fun _ _ cell => cell, rfl⟩

private theorem HoldsString.putDefault (holds : HoldsString store key value) {slot : Slot}
    (data : slot.data key = store.defaultSlot.data key)
    (deadline : slot.expirationTimes key = store.defaultSlot.expirationTimes key) :
    HoldsString (store.putDefault slot) key value :=
  holds.of_agree (by rw [Store.defaultSlot_putDefault, data])
    (by rw [Store.defaultSlot_putDefault, deadline]) (fun _ _ _ cell => cell) (Nat.le_refl _)

private theorem HoldsString.setValue (holds : HoldsString store key value) {other text : Bytes}
    (different : other ≠ key) :
    HoldsString (RedisSession.setValue store other text).store key value := by
  have slotEq : (RedisSession.setValue store other text).store.defaultSlot =
      store.defaultSlot.setValue other (some store.heap.fresh) := by
    simp only [RedisSession.setValue, Outcome.respond, Store.defaultSlot_putDefault, Heap.alloc]
    rfl
  refine holds.of_agree ?_ ?_ ?_ (Nat.le_succ _)
  · rw [slotEq]
    exact Function.update_of_ne (Ne.symm different) _ _
  · rw [slotEq]
    rfl
  · intro ref content old cell
    exact (Function.update_of_ne (Nat.ne_of_lt old) _ _).trans cell

private theorem HoldsString.getValue (holds : HoldsString store key value) (now : Time)
    (other : Bytes) : HoldsString (RedisSession.getValue store now other).store key value := by
  have storeEq : (RedisSession.getValue store now other).store =
      store.putDefault (store.defaultSlot.getValue now other).2 := by
    unfold RedisSession.getValue
    dsimp only
    split
    · split <;> rfl
    · rfl
  rw [storeEq]
  by_cases same : other = key
  · subst same
    obtain ⟨⟨ref, stored, cell, old⟩, absent⟩ := holds
    have kept : (store.defaultSlot.getValue now other).2 = store.defaultSlot := by
      rw [getValue_of_live stored absent]
    rw [kept]
    exact HoldsString.putDefault ⟨⟨ref, stored, cell, old⟩, absent⟩ rfl rfl
  · obtain ⟨data, deadline⟩ := getValue_of_ne store.defaultSlot now same
    exact holds.putDefault data deadline

private theorem HoldsString.hsetValue (holds : HoldsString store key value)
    (other field text : Bytes) :
    HoldsString (RedisSession.hsetValue store other field text).store key value := by
  have base : HoldsString (store.putDefault store.defaultSlot) key value :=
    holds.putDefault rfl rfl
  have storeEq : (RedisSession.hsetValue store other field text).store =
      { store.putDefault store.defaultSlot with
        heap := (store.defaultSlot.hset store.heap other field text).2 } := by
    simp only [RedisSession.hsetValue, Store.defaultSlot_putDefault, Store.putDefault_heap]
    split <;> rfl
  obtain ⟨cells, fresh⟩ := hset_keeps store.defaultSlot store.heap other field text
  rw [storeEq]
  exact base.of_agree rfl rfl (fun ref content _ cell => cells ref content cell)
    (Nat.le_of_eq fresh.symm)

private theorem HoldsString.hgetValue (holds : HoldsString store key value)
    (other field : Bytes) :
    HoldsString (RedisSession.hgetValue store other field).store key value := by
  have storeEq : (RedisSession.hgetValue store other field).store =
      store.putDefault store.defaultSlot := by
    unfold RedisSession.hgetValue
    dsimp only
    split
    · split <;> rfl
    · rfl
  rw [storeEq]
  exact holds.putDefault rfl rfl

private theorem HoldsString.deleteValue (holds : HoldsString store key value) {other : Bytes}
    (different : other ≠ key) :
    HoldsString (RedisSession.deleteValue store other).store key value :=
  holds.putDefault (Function.update_of_ne (Ne.symm different) _ _)
    (Function.update_of_ne (Ne.symm different) _ _)

private theorem HoldsString.expireValue (holds : HoldsString store key value) (now : Time)
    {other : Bytes} (ttlSeconds : Int) (different : other ≠ key) :
    HoldsString (RedisSession.expireValue store now other ttlSeconds).store key value :=
  holds.putDefault rfl (Function.update_of_ne (Ne.symm different) _ _)

/-- A handler is registered under one name. -/
private theorem commandMap_eq_some {name : Bytes} {handler : Handler}
    (registered : commandMap name = some handler) :
    name = match handler with
      | .set => ascii "SET"
      | .get => ascii "GET"
      | .del => ascii "DEL"
      | .hset => ascii "HSET"
      | .hget => ascii "HGET"
      | .expire => ascii "EXPIRE" := by
  unfold commandMap at registered
  split_ifs at registered <;> cases registered <;> assumption

/-- A handler that does not write the key leaves its string in place. -/
private theorem HoldsString.run (holds : HoldsString store key value) (now : Time)
    {handler : Handler} {command : List Bytes} {name : Bytes} (named : command[0]? = some name)
    (registered : commandMap name = some handler) (untouched : ¬ Writes command key) :
    HoldsString (handler.run store now command).store key value := by
  have nameEq := commandMap_eq_some registered
  have undefined : HoldsString (Outcome.undefined store).store key value := holds
  cases handler with
  | set =>
      have elsewhere : ∀ other, command[1]? = some other → other ≠ key := fun other first same =>
        untouched ⟨.inl (named.trans (congrArg some nameEq)), first.trans (congrArg some same)⟩
      unfold Handler.run
      dsimp only
      split
      · next other text first _ => exact holds.setValue (elsewhere other first)
      · exact undefined
  | get =>
      unfold Handler.run
      dsimp only
      split
      · exact holds.getValue now _
      · exact undefined
  | del =>
      have elsewhere : ∀ other, command[1]? = some other → other ≠ key := fun other first same =>
        untouched ⟨.inr (.inl (named.trans (congrArg some nameEq))),
          first.trans (congrArg some same)⟩
      unfold Handler.run
      dsimp only
      split
      · next other first => exact holds.deleteValue (elsewhere other first)
      · exact undefined
  | hset =>
      unfold Handler.run
      dsimp only
      split
      · exact holds.hsetValue _ _ _
      · exact undefined
  | hget =>
      unfold Handler.run
      dsimp only
      split
      · exact holds.hgetValue _ _
      · exact undefined
  | expire =>
      have elsewhere : ∀ other, command[1]? = some other → other ≠ key := fun other first same =>
        untouched ⟨.inr (.inr (named.trans (congrArg some nameEq))),
          first.trans (congrArg some same)⟩
      unfold Handler.run
      dsimp only
      split
      · next other ttl first _ =>
          split
          · exact holds.expireValue now _ (elsewhere other first)
          · exact holds
      · exact undefined

/-- A command that does not write the key leaves its string in place. -/
theorem HoldsString.processCommand (holds : HoldsString store key value) (now : Time)
    {command : List Bytes} (untouched : ¬ Writes command key) :
    HoldsString (RedisSession.processCommand store now command).store key value := by
  cases command with
  | nil => exact holds
  | cons name arguments =>
      unfold RedisSession.processCommand
      dsimp only
      split
      · next handler registered =>
          split
          · exact holds.run now rfl registered untouched
          · exact holds
      · exact holds

end HoldsString

/-- A run of commands that do not write the key leaves its string in place. -/
theorem HoldsString.execute {key value : Bytes} {commands : List (Time × List Bytes)}
    {before after : ServerState}
    (ran : serverMachine.execute Machine.anyStep commands before = some after)
    (holds : HoldsString before.store key value)
    (untouched : ∀ event ∈ commands, ¬ Writes event.2 key) :
    HoldsString after.store key value := by
  induction commands generalizing before with
  | nil => exact Option.some.inj ran ▸ holds
  | cons event commands ih =>
      simp only [Machine.execute, Machine.anyStep, ↓reduceIte] at ran
      obtain ⟨middle, stepped, rest⟩ := Option.bind_eq_some_iff.mp ran
      refine ih rest ?_ fun later member => untouched later (List.mem_cons_of_mem _ member)
      rw [(serverMachine_step stepped).1]
      exact holds.processCommand event.1 (untouched event List.mem_cons_self)

/-- Different payloads give different replies. -/
theorem bulkReply_injective : Function.Injective bulkReply := by
  intro first second same
  have framed : ∀ payload, bulkReply payload = Redis.bulkString.encode payload := fun payload => by
    rw [Redis.bulkString_encode]
    simp only [bulkReply, List.append_assoc]
    rfl
  rw [framed, framed] at same
  exact Redis.bulkString.encode_injective same

/-- A key that holds a string is answered with the name of the string type. -/
theorem getValue_reply {store : Store} {key value : Bytes} (holds : HoldsString store key value)
    (now : Time) : (getValue store now key).sent = [bulkReply (ascii "String")] := by
  obtain ⟨⟨ref, stored, cell, _⟩, absent⟩ := holds
  simp only [getValue, getValue_of_live stored absent, Store.putDefault_heap, cell,
    Outcome.respond, Value.type]

/-- A single command of a run. -/
theorem execute_singleton {event : Time × List Bytes} {before after : ServerState}
    (ran : serverMachine.execute Machine.anyStep [event] before = some after) :
    serverMachine.step before event = some after := by
  simp only [Machine.execute, Machine.anyStep, ↓reduceIte] at ran
  rwa [Option.bind_fun_some] at ran

/-- **The reply to a stored string.** After any history, a string stored under a
key that has no deadline and read later, with no store, delete or expiry of the
key in between, is the payload of the reply exactly when it is the text
`String`. -/
theorem set_get_reply_iff (start stored read : Time) (key value : Bytes)
    (history between : List (Time × List Bytes)) {reached : ServerState}
    (ran : serverMachine.execute Machine.anyStep
      (history ++ ([(stored, [ascii "SET", key, value])] ++
        (between ++ [(read, [ascii "GET", key])]))) (ServerState.initial start) = some reached)
    (noTtl : ∀ before, serverMachine.execute Machine.anyStep history (ServerState.initial start) =
      some before → before.store.defaultSlot.expirationTimes key = none)
    (untouched : ∀ event ∈ between, ¬ Writes event.2 key) :
    reached.sent = [bulkReply value] ↔ value = ascii "String" := by
  rw [Machine.execute_append] at ran
  obtain ⟨before, earlier, ran⟩ := Option.bind_eq_some_iff.mp ran
  rw [Machine.execute_append] at ran
  obtain ⟨written, set, ran⟩ := Option.bind_eq_some_iff.mp ran
  rw [Machine.execute_append] at ran
  obtain ⟨last, others, get⟩ := Option.bind_eq_some_iff.mp ran
  have holdsWritten : HoldsString written.store key value := by
    rw [(serverMachine_step (execute_singleton set)).1]
    exact holdsString_setValue (noTtl before earlier)
  have holdsLast : HoldsString last.store key value := holdsWritten.execute others untouched
  have reply : reached.sent = [bulkReply (ascii "String")] := by
    rw [(serverMachine_step (execute_singleton get)).2]
    exact getValue_reply holdsLast read
  rw [reply]
  constructor
  · intro same
    exact (bulkReply_injective (List.cons.inj same).1).symm
  · rintro rfl
    rfl

/-- The text `String` stored after another command is returned. -/
theorem set_get_reply_string :
    ∃ reached, serverMachine.execute Machine.anyStep
      ([(0, [ascii "DEL", ascii "k"])] ++ ([(1, [ascii "SET", ascii "k", ascii "String"])] ++
        ([(2, [ascii "GET", ascii "j"])] ++ [(3, [ascii "GET", ascii "k"])])))
      (ServerState.initial 0) = some reached ∧ reached.sent = [bulkReply (ascii "String")] := by
  refine ⟨_, rfl, (set_get_reply_iff 0 1 3 (ascii "k") (ascii "String")
    [(0, [ascii "DEL", ascii "k"])] [(2, [ascii "GET", ascii "j"])] rfl ?_ ?_).mpr rfl⟩
  · intro before earlier
    exact Option.some.inj earlier ▸ rfl
  · intro event member
    rw [List.mem_singleton.mp member]
    rintro ⟨-, onKey⟩
    exact absurd onKey (by decide)

/-- The reply to a stored `v` carries the type name. -/
theorem set_get_reply_type :
    ∃ reached, serverMachine.execute Machine.anyStep
      ([] ++ ([(1, [ascii "SET", ascii "k", ascii "v"])] ++
        ([] ++ [(3, [ascii "GET", ascii "k"])]))) (ServerState.initial 0) = some reached ∧
      reached.sent = [ascii "$6\r\nString\r\n"] ∧ reached.sent ≠ [bulkReply (ascii "v")] :=
  ⟨_, rfl, by decide, by decide⟩

end FastDb.Db
