import FastDb.Foundation.Components
import FastDb.Db.Replies

/-! # What a client can see of the store

Strings are all that sessions store, and no reply carries one. To its clients the server
is a table of keys that are present or not and may have a deadline: it gives exactly the
replies of that table, to every sequence of commands and whatever the deadlines
(`FastDb.Db.server_replies_eq`). No reply depends on what a command stores or names in a
hash (`FastDb.Db.replies_of_masked`).
-/

namespace FastDb.Db

open Foundation RedisSession

/-! ## The table of keys -/

/-- Which keys are present, and their deadlines. -/
structure KeyTable where
  clock : Time
  present : Bytes → Bool
  deadline : Bytes → Option Time

namespace KeyTable

/-- The table of an empty store. -/
def initial (clock : Time) : KeyTable where
  clock := clock
  present _ := false
  deadline _ := none

/-- The key is there, and keeps its deadline. -/
def add (table : KeyTable) (key : Bytes) : KeyTable :=
  { table with present := Function.update table.present key true }

/-- The key is gone with its deadline. -/
def drop (table : KeyTable) (key : Bytes) : KeyTable :=
  { table with
    present := Function.update table.present key false
    deadline := Function.update table.deadline key none }

/-- The key gets a deadline. -/
def expire (table : KeyTable) (key : Bytes) (seconds : Int) : KeyTable :=
  { table with
    deadline :=
      Function.update table.deadline key (some (table.clock + Slot.seconds seconds)) }

/-- The deadline of the key is behind the clock. -/
def passed (table : KeyTable) (key : Bytes) : Bool :=
  (table.deadline key).any fun deadline => deadline < table.clock

/-- The reply of `GET` to a key that is there. -/
def stringReply : Bytes := bulkReply (ascii "String")

/-- What a handler answers: the table it leaves and the replies. -/
def handle (table : KeyTable) : Handler → List Bytes → Option (KeyTable × List Bytes)
  | .set, key :: _ :: _ => some (table.add key, [ascii "+OK\r\n"])
  | .get, key :: _ =>
      if table.passed key then some (table.drop key, [nilReply])
      else some (table, [if table.present key then stringReply else nilReply])
  | .del, key :: _ => some (table.drop key, [ascii ":1\r\n"])
  | .hset, _ :: _ :: _ :: _ => some (table, [ascii "-ERR failed to set hash field\r\n"])
  | .hget, _ :: _ :: _ => some (table, [nilReply])
  | .expire, key :: ttl :: _ =>
      match stoi ttl with
      | .ok seconds => some (table.expire key seconds, [ascii ":1\r\n"])
      | .error _ => some (table, [])
  | _, _ => none

/-- The answer to one command. -/
def answer (table : KeyTable) : List Bytes → Option (KeyTable × List Bytes)
  | [] => some (table, [ascii "-ERR empty command\r\n"])
  | name :: arguments =>
      match commandMap name, arguments with
      | some handler, _ :: _ => table.handle handler arguments
      | _, _ => some (table, [ascii "-ERR unknown command\r\n"])

end KeyTable

/-- Commands at nondecreasing clock readings. -/
def keyComponent : Component KeyTable (Time × List Bytes) (List Bytes) where
  call table event :=
    if table.clock ≤ event.1 then { table with clock := event.1 }.answer event.2 else none

/-- The server, with the responses to each command as its answer. -/
def serverComponent : Component ServerState (Time × List Bytes) (List Bytes) where
  call state event := (serverMachine.step state event).map fun next => (next, next.sent)

/-! ## The server gives the answers of the table -/

/-- How the end of a command at a clock reading becomes an answer. -/
def Outcome.answer (outcome : Outcome) (now : Time) : Option (ServerState × List Bytes) :=
  match outcome.ending with
  | .undefined => none
  | .completed | .thrown _ => some (⟨now, outcome.store, outcome.sent⟩, outcome.sent)

/-- What the server answers to a command at a time. -/
theorem serverComponent_call (state : ServerState) (event : Time × List Bytes) :
    serverComponent.call state event =
      if state.clock ≤ event.1 then (processCommand state.store event.1 event.2).answer event.1
      else none := by
  simp only [serverComponent, serverMachine]
  split
  · rw [Outcome.answer]
    cases (processCommand state.store event.1 event.2).ending <;> rfl
  · rfl

/-- The table that a store shows at a clock reading. -/
structure Shows (store : Store) (clock : Time) (table : KeyTable) : Prop where
  strings : StoresStrings store
  clock : table.clock = clock
  present : ∀ key, table.present key = (store.defaultSlot.data key).isSome
  deadline : table.deadline = store.defaultSlot.expirationTimes

/-- The table a server shows its clients. -/
def ShowsState (state : ServerState) (table : KeyTable) : Prop :=
  Shows state.store state.clock table

theorem shows_initial (clock : Time) :
    ShowsState (ServerState.initial clock) (KeyTable.initial clock) where
  strings := storesStrings_empty
  clock := rfl
  present _ := rfl
  deadline := rfl

namespace Shows

variable {store : Store} {now : Time} {table : KeyTable}

/-- The keys present after one of them is changed. -/
theorem present_update (shows : Shows store now table) (key : Bytes)
    (pointer : Option ValuePtr) (other : Bytes) :
    Function.update table.present key pointer.isSome other =
      (Function.update store.defaultSlot.data key pointer other).isSome := by
  by_cases same : other = key
  · subst same
    rw [Function.update_self, Function.update_self]
  · rw [Function.update_of_ne same, Function.update_of_ne same, shows.present]

/-- Creating the slot `default` shows nothing. -/
theorem touch (shows : Shows store now table) :
    Shows (store.putDefault store.defaultSlot) now table where
  strings := shows.strings.putDefault_self
  clock := shows.clock
  present key := by rw [Store.defaultSlot_putDefault, shows.present]
  deadline := by rw [Store.defaultSlot_putDefault, shows.deadline]

/-- Setting a value shows as adding its key. -/
theorem add (shows : Shows store now table) (key value : Bytes) :
    Shows (setValue store key value).store now (table.add key) where
  strings := shows.strings.setValue key value
  clock := shows.clock
  present other := by
    have slot : (setValue store key value).store.defaultSlot =
        store.defaultSlot.setValue key (some store.heap.fresh) := by
      simp only [setValue, Outcome.respond, Store.defaultSlot_putDefault, Heap.alloc]
      rfl
    rw [slot]
    exact shows.present_update key (some (some store.heap.fresh)) other
  deadline := by
    simp only [setValue, Outcome.respond, Store.defaultSlot_putDefault, Slot.setValue]
    exact shows.deadline

/-- Erasing a key shows as dropping it. -/
theorem drop (shows : Shows store now table) (key : Bytes) :
    Shows (store.putDefault (store.defaultSlot.erase key)) now (table.drop key) where
  strings := shows.strings.putDefault fun _ _ stored => data_of_erase stored
  clock := shows.clock
  present other := by
    rw [Store.defaultSlot_putDefault]
    exact shows.present_update key none other
  deadline := by
    rw [Store.defaultSlot_putDefault, Slot.erase, KeyTable.drop, shows.deadline]

/-- Setting an expiry shows as one. -/
theorem expire (shows : Shows store now table) (key : Bytes) (seconds : Int) :
    Shows (expireValue store now key seconds).store now (table.expire key seconds) where
  strings := shows.strings.putDefault fun _ _ stored => stored
  clock := shows.clock
  present other := by
    rw [expireValue, Outcome.respond, Store.defaultSlot_putDefault, Slot.setExpiration]
    exact shows.present other
  deadline := by
    rw [expireValue, Outcome.respond, Store.defaultSlot_putDefault, Slot.setExpiration,
      KeyTable.expire, shows.deadline, shows.clock]

/-- A deadline has passed in the table when it has in the slot. -/
theorem passed_iff (shows : Shows store now table) (key : Bytes) :
    table.passed key = true ↔ store.defaultSlot.Expired now key := by
  rw [KeyTable.passed, Option.any_eq_true, shows.deadline, shows.clock]
  exact exists_congr fun deadline => and_congr_right fun _ => decide_eq_true_iff

/-- `GET`: an expired key is dropped, and a present one is answered with the name of the
string type. -/
theorem get (shows : Shows store now table) (key : Bytes) :
    Option.Rel (Component.Agree ShowsState) ((getValue store now key).answer now)
      (if table.passed key then some (table.drop key, [nilReply])
        else some (table, [if table.present key then KeyTable.stringReply else nilReply])) := by
  by_cases expired : store.defaultSlot.Expired now key
  · rw [if_pos ((shows.passed_iff key).mpr expired)]
    have read : store.defaultSlot.getValue now key = (none, store.defaultSlot.erase key) :=
      if_pos expired
    rw [getValue, read]
    exact .some ⟨shows.drop key, rfl⟩
  · rw [if_neg (mt (shows.passed_iff key).mp expired)]
    cases stored : store.defaultSlot.data key with
    | none =>
        have absent : table.present key = false := by rw [shows.present, stored]; rfl
        have read : store.defaultSlot.getValue now key = (none, store.defaultSlot) := by
          rw [Slot.getValue, if_neg expired, stored]
        rw [getValue, read, absent]
        exact .some ⟨shows.touch, rfl⟩
    | some pointer =>
        have here : table.present key = true := by rw [shows.present, stored]; rfl
        obtain ⟨ref, text, rfl, -, cell⟩ := shows.strings key pointer stored
        have read : store.defaultSlot.getValue now key = (some ref, store.defaultSlot) := by
          rw [Slot.getValue, if_neg expired, stored]
        rw [getValue, read, here]
        simp only [Store.putDefault_heap, cell]
        exact .some ⟨shows.touch, rfl⟩

/-- **One handler** answers as the table does. -/
theorem handle (shows : Shows store now table) (handler : Handler) (name first : Bytes)
    (arguments : List Bytes) :
    Option.Rel (Component.Agree ShowsState)
      ((handler.run store now (name :: first :: arguments)).answer now)
      (table.handle handler (first :: arguments)) := by
  cases handler with
  | set =>
      cases arguments with
      | nil => exact .none
      | cons value rest => exact .some ⟨shows.add first value, rfl⟩
  | get => exact shows.get first
  | del => exact .some ⟨shows.drop first, rfl⟩
  | hset =>
      rcases arguments with _ | ⟨field, _ | ⟨value, rest⟩⟩
      · exact .none
      · exact .none
      · have refused := shows.strings.hsetValue first field value
        change Option.Rel _ ((hsetValue store first field value).answer now) _
        rw [refused]
        exact .some ⟨shows.touch, rfl⟩
  | hget =>
      cases arguments with
      | nil => exact .none
      | cons field rest =>
          have empty := shows.strings.hgetValue first field
          change Option.Rel _ ((hgetValue store first field).answer now) _
          rw [empty]
          exact .some ⟨shows.touch, rfl⟩
  | expire =>
      cases arguments with
      | nil => exact .none
      | cons ttl rest =>
          simp only [Handler.run, KeyTable.handle, List.getElem?_cons_succ,
            List.getElem?_cons_zero]
          cases stoi ttl with
          | error exception => exact .some ⟨shows, rfl⟩
          | ok seconds => exact .some ⟨shows.expire first seconds, rfl⟩

/-- One command is answered as by the table. -/
theorem command (shows : Shows store now table) (command : List Bytes) :
    Option.Rel (Component.Agree ShowsState) ((processCommand store now command).answer now)
      (table.answer command) := by
  cases command with
  | nil => exact .some ⟨shows, rfl⟩
  | cons name arguments =>
      simp only [processCommand, KeyTable.answer]
      cases commandMap name with
      | none => exact .some ⟨shows, rfl⟩
      | some handler =>
          cases arguments with
          | nil => exact .some ⟨shows, rfl⟩
          | cons first arguments =>
              have enough : 2 ≤ (name :: first :: arguments).length :=
                Nat.le_add_left 2 arguments.length
              simp only [enough, ↓reduceIte]
              exact shows.handle handler name first arguments

end Shows

/-- The server and the table are bisimilar. -/
theorem server_bisimulation : Component.Bisimulation serverComponent keyComponent ShowsState where
  answers := by
    intro state table event shows
    rw [serverComponent_call]
    change Option.Rel _ _ (if table.clock ≤ event.1 then _ else none)
    rw [shows.clock]
    split
    · have later : Shows state.store event.1 { table with clock := event.1 } :=
        { shows with clock := rfl }
      exact later.command event.2
    · exact .none

/-- **What clients see.** A server that starts empty gives, to every sequence of commands
at whatever clock readings, exactly the replies of a table of keys. -/
theorem server_replies_eq (clock : Time) (events : List (Time × List Bytes)) :
    (serverComponent.run events (ServerState.initial clock)).map Prod.snd =
      (keyComponent.run events (KeyTable.initial clock)).map Prod.snd :=
  server_bisimulation.outputs_eq events (shows_initial clock)

/-! ## What replies do not depend on -/

/-- A command without what it stores, and without the field and value of a hash. -/
def masked : List Bytes → List Bytes
  | name :: key :: arguments =>
      match commandMap name with
      | some .set | some .hset | some .hget => name :: key :: arguments.map fun _ => []
      | _ => name :: key :: arguments
  | command => command

/-- The table answers without regard to what is stored. -/
theorem KeyTable.answer_masked (table : KeyTable) (command : List Bytes) :
    table.answer (masked command) = table.answer command := by
  rcases command with _ | ⟨name, _ | ⟨key, arguments⟩⟩
  · rfl
  · rfl
  · rw [masked]
    cases registered : commandMap name with
    | none => rfl
    | some handler =>
        cases handler with
        | get | del | expire => rfl
        | set | hget =>
            cases arguments with
            | nil => rfl
            | cons value rest => simp only [answer, registered, List.map_cons, handle]
        | hset =>
            rcases arguments with _ | ⟨field, _ | ⟨value, rest⟩⟩
            · rfl
            · simp only [answer, registered, List.map_cons, List.map_nil, handle]
            · simp only [answer, registered, List.map_cons, handle]

/-- **No value is ever shown.** The replies to a sequence of commands are the same when
every stored value and every hash field is replaced by the empty string. -/
theorem replies_of_masked (clock : Time) (events : List (Time × List Bytes)) :
    (serverComponent.run (events.map fun event => (event.1, masked event.2))
        (ServerState.initial clock)).map Prod.snd =
      (serverComponent.run events (ServerState.initial clock)).map Prod.snd := by
  apply server_bisimulation.outputs_map _ events (shows_initial clock)
  intro table event
  simp only [keyComponent, KeyTable.answer_masked]

end FastDb.Db
