import Mathlib.Logic.Function.Basic
import FastDb.Foundation.Bytes
import FastDb.Foundation.Machine

/-! # Slots

A slot maps keys to shared values and, in a second table, to deadlines. Values
are heap objects reached through shared pointers, so a hash stored under two
keys is one object. Expiry is lazy: a passed deadline takes effect when the key
is next read. Storing a value leaves an earlier deadline of the key in place;
consequently a stored value is read back at the same clock reading exactly when
the key has no passed deadline (`FastDb.Db.Slot.getValue_setValue_iff`).
-/

namespace FastDb.Db

open Foundation

/-- The address of a shared value. -/
abbrev Ref := Nat

/-- `std::shared_ptr<Value>`; `none` is the null pointer. -/
abbrev ValuePtr := Option Ref

/-- A reading of the steady clock, in nanoseconds. -/
abbrev Time := Int

/-- The C++ exceptions the store can throw, with their texts. -/
inductive Exception
  | outOfRange (what : Bytes)
  | invalidArgument (what : Bytes)
  deriving DecidableEq

/-- The derived classes of `Value` with the contents the store reads. -/
inductive Value
  | list (items : List Bytes)
  | set (items : List Bytes)
  | map (items : Bytes → Option Bytes)
  | geo
  | string (value : Bytes)
  | number

namespace Value

/-- `type()`. -/
def type : Value → Bytes
  | .list _ => ascii "List"
  | .set _ => ascii "Set"
  | .map _ => ascii "Map"
  | .geo => ascii "Geo"
  | .string _ => ascii "String"
  | .number => ascii "Number"

end Value

namespace MapValue

/-- `MapValue::set`. -/
def set (items : Bytes → Option Bytes) (key value : Bytes) : Bytes → Option Bytes :=
  Function.update items key (some value)

/-- `MapValue::get`, whose `at` throws. -/
def get (items : Bytes → Option Bytes) (key : Bytes) : Except Exception Bytes :=
  match items key with
  | some value => .ok value
  | none => .error (.outOfRange (ascii "Key not found in map: " ++ key))

end MapValue

/-- The objects behind the shared pointers; addresses from `fresh` on have never
been used. -/
structure Heap where
  cells : Ref → Option Value
  fresh : Ref

namespace Heap

/-- `std::make_shared`. -/
def alloc (heap : Heap) (value : Value) : Ref × Heap :=
  (heap.fresh,
    { cells := Function.update heap.cells heap.fresh (some value), fresh := heap.fresh + 1 })

/-- Replaces the object at an address. -/
def store (heap : Heap) (ref : Ref) (value : Value) : Heap :=
  { heap with cells := Function.update heap.cells ref (some value) }

/-- `std::dynamic_pointer_cast<MapValue>`. -/
def castMap (heap : Heap) (pointer : ValuePtr) : Option (Ref × (Bytes → Option Bytes)) :=
  match pointer with
  | none => none
  | some ref =>
      match heap.cells ref with
      | some (.map items) => some (ref, items)
      | _ => none

end Heap

/-- `Slot`: `data_` and `expiration_times_`. -/
structure Slot where
  data : Bytes → Option ValuePtr
  expirationTimes : Bytes → Option Time

namespace Slot

/-- A new slot. -/
def empty : Slot where
  data := fun _ => none
  expirationTimes := fun _ => none

/-- `data_.erase(key)`, `expiration_times_.erase(key)`. -/
def erase (slot : Slot) (key : Bytes) : Slot where
  data := Function.update slot.data key none
  expirationTimes := Function.update slot.expirationTimes key none

/-- `set_value`. -/
def setValue (slot : Slot) (key : Bytes) (value : ValuePtr) : Slot :=
  { slot with data := Function.update slot.data key (some value) }

/-- The key has a deadline and the clock has passed it. -/
def Expired (slot : Slot) (now : Time) (key : Bytes) : Prop :=
  ∃ deadline, slot.expirationTimes key = some deadline ∧ deadline < now

instance (slot : Slot) (now : Time) (key : Bytes) : Decidable (slot.Expired now key) :=
  match deadlineEq : slot.expirationTimes key with
  | none => .isFalse fun ⟨_, present, _⟩ => by rw [deadlineEq] at present; cases present
  | some deadline =>
      if passed : deadline < now then .isTrue ⟨deadline, deadlineEq, passed⟩
      else .isFalse fun ⟨_, present, before⟩ => passed (by
        rw [deadlineEq] at present
        exact Option.some.inj present ▸ before)

/-- `get_value`, which erases a key whose deadline has passed. -/
def getValue (slot : Slot) (now : Time) (key : Bytes) : ValuePtr × Slot :=
  if slot.Expired now key then (none, slot.erase key)
  else
    match slot.data key with
    | some value => (value, slot)
    | none => (none, slot)

/-- `remove`. -/
def remove (slot : Slot) (key : Bytes) : Slot := slot.erase key

/-- `std::chrono::seconds` as clock readings. -/
def seconds (count : Int) : Time := count * 1000000000

/-- `set_expiration`. -/
def setExpiration (slot : Slot) (now : Time) (key : Bytes) (ttlSeconds : Int) : Slot :=
  { slot with
    expirationTimes :=
      Function.update slot.expirationTimes key (some (now + seconds ttlSeconds)) }

/-- `hset`, which fails for a key of another type. -/
def hset (slot : Slot) (heap : Heap) (key field value : Bytes) : Bool × Heap :=
  match slot.data key with
  | some pointer =>
      match heap.castMap pointer with
      | some (ref, items) => (true, heap.store ref (.map (MapValue.set items field value)))
      | none => (false, heap)
  | none => (false, heap)

/-- `hget`. -/
def hget (slot : Slot) (heap : Heap) (key field : Bytes) : Except Exception Bytes :=
  match slot.data key with
  | some pointer =>
      match heap.castMap pointer with
      | some (_, items) => MapValue.get items field
      | none => .ok []
  | none => .ok []

end Slot

/-- The calls a client of a slot makes. -/
inductive SlotCall
  | setValue (key : Bytes) (value : ValuePtr)
  | getValue (key : Bytes)
  | remove (key : Bytes)
  | setExpiration (key : Bytes) (ttlSeconds : Int)
  | hset (key field value : Bytes)
  | hget (key field : Bytes)

/-- What a call returns. -/
inductive SlotResult
  | done
  | pointer (value : ValuePtr)
  | flag (success : Bool)
  | text (outcome : Except Exception Bytes)

/-- A slot in use: the last clock reading, the shared objects, the tables, and
what the last call returned. -/
structure SlotState where
  clock : Time
  heap : Heap
  slot : Slot
  result : SlotResult

namespace SlotState

/-- The empty slot over the objects its clients have made. -/
def initial (heap : Heap) (clock : Time) : SlotState where
  clock := clock
  heap := heap
  slot := Slot.empty
  result := .done

/-- A call with the clock at a reading. -/
def call (state : SlotState) (now : Time) : SlotCall → SlotState
  | .setValue key value =>
      { state with clock := now, slot := state.slot.setValue key value, result := .done }
  | .getValue key =>
      let (value, slot) := state.slot.getValue now key
      { state with clock := now, slot := slot, result := .pointer value }
  | .remove key => { state with clock := now, slot := state.slot.remove key, result := .done }
  | .setExpiration key ttlSeconds =>
      { state with
        clock := now, slot := state.slot.setExpiration now key ttlSeconds, result := .done }
  | .hset key field value =>
      let (success, heap) := state.slot.hset state.heap key field value
      { state with clock := now, heap := heap, result := .flag success }
  | .hget key field =>
      { state with clock := now, result := .text (state.slot.hget state.heap key field) }

end SlotState

/-- Calls at nondecreasing clock readings. -/
def slotMachine : Machine SlotState (Time × SlotCall) where
  step state event := if state.clock ≤ event.1 then some (state.call event.1 event.2) else none

/-- What one call does to the deadline pending on a key. -/
def pendingStep (key : Bytes) (pending : Option Time) : Time × SlotCall → Option Time
  | (now, .setExpiration other ttlSeconds) =>
      if other = key then some (now + Slot.seconds ttlSeconds) else pending
  | (_, .remove other) => if other = key then none else pending
  | (now, .getValue other) =>
      if other = key then pending.filter fun deadline => now ≤ deadline else pending
  | _ => pending

/-- The deadline a history of calls leaves on a key: the last one set since the
key was last removed or read after its deadline. -/
def pendingDeadline (key : Bytes) (history : List (Time × SlotCall)) : Option Time :=
  history.foldl (pendingStep key) none

/-- The deadlines after an erase. -/
theorem erase_expirationTimes (slot : Slot) (key other : Bytes) :
    (slot.erase other).expirationTimes key =
      if other = key then none else slot.expirationTimes key := by
  by_cases same : other = key
  · subst same
    simp only [Slot.erase, Function.update_self, ↓reduceIte]
  · simp only [Slot.erase, Function.update_of_ne (Ne.symm same), same, ↓reduceIte]

/-- Reading a key drops its deadline exactly when it has passed. -/
theorem getValue_expirationTimes (slot : Slot) (now : Time) (key other : Bytes) :
    (slot.getValue now other).2.expirationTimes key =
      if other = key then (slot.expirationTimes key).filter fun deadline => now ≤ deadline
      else slot.expirationTimes key := by
  unfold Slot.getValue
  split
  · next expired =>
      rw [erase_expirationTimes]
      by_cases same : other = key
      · subst same
        obtain ⟨deadline, present, passed⟩ := expired
        have late : ¬ now ≤ deadline := Int.not_le.mpr passed
        simp only [↓reduceIte, present, Option.filter_some, late, decide_false, Bool.false_eq_true]
      · simp only [same, ↓reduceIte]
  · next live =>
      have kept : (match slot.data other with
          | some value => (value, slot)
          | none => (none, slot)).2 = slot := by split <;> rfl
      rw [kept]
      by_cases same : other = key
      · subst same
        cases present : slot.expirationTimes other with
        | none => simp only [↓reduceIte, Option.filter_none]
        | some deadline =>
            have early : now ≤ deadline := by
              by_contra late
              exact live ⟨deadline, present, Int.not_le.mp late⟩
            simp only [↓reduceIte, Option.filter_some, early, decide_true]
      · simp only [same, ↓reduceIte]

/-- Reading leaves a key as it is, or erases it. -/
theorem getValue_data (slot : Slot) (now : Time) (key : Bytes) :
    (slot.getValue now key).2.data = slot.data ∨
      (slot.getValue now key).2.data = Function.update slot.data key none := by
  rw [Slot.getValue]
  split
  · exact Or.inr rfl
  · left
    split <;> rfl

/-- What reading returns is stored under the key. -/
theorem data_of_getValue {slot : Slot} {now : Time} {key : Bytes} {ref : Ref}
    (returned : (slot.getValue now key).1 = some ref) : slot.data key = some (some ref) := by
  rw [Slot.getValue] at returned
  split at returned
  · cases returned
  · split at returned
    · next pointer stored => exact stored.trans (congrArg some returned)
    · cases returned

/-- One call changes the deadline of a key as it changes the pending one. -/
theorem call_expirationTimes (state : SlotState) (event : Time × SlotCall) (key : Bytes) :
    (state.call event.1 event.2).slot.expirationTimes key =
      pendingStep key (state.slot.expirationTimes key) event := by
  obtain ⟨now, call⟩ := event
  cases call with
  | setValue other value => rfl
  | getValue other => exact getValue_expirationTimes state.slot now key other
  | remove other => exact erase_expirationTimes state.slot key other
  | setExpiration other ttlSeconds =>
      by_cases same : other = key
      · subst same
        simp only [SlotState.call, Slot.setExpiration, Function.update_self, pendingStep,
          ↓reduceIte]
      · simp only [SlotState.call, Slot.setExpiration, Function.update_of_ne (Ne.symm same),
          pendingStep, same, ↓reduceIte]
  | hset other field value => rfl
  | hget other field => rfl

/-- A run leaves on every key the deadline pending after its calls. -/
theorem execute_expirationTimes {history : List (Time × SlotCall)} {before after : SlotState}
    (ran : slotMachine.execute Machine.anyStep history before = some after) (key : Bytes) :
    after.slot.expirationTimes key =
      history.foldl (pendingStep key) (before.slot.expirationTimes key) := by
  induction history generalizing before with
  | nil => exact Option.some.inj ran ▸ rfl
  | cons event history ih =>
      simp only [Machine.execute, Machine.anyStep, ↓reduceIte] at ran
      obtain ⟨middle, stepped, rest⟩ := Option.bind_eq_some_iff.mp ran
      simp only [slotMachine] at stepped
      split at stepped
      · obtain rfl := Option.some.inj stepped
        rw [List.foldl_cons, ← call_expirationTimes before]
        exact ih rest
      · cases stepped

/-- A stored value is read back at a clock reading exactly when no deadline of
the key has passed. -/
theorem Slot.getValue_setValue_iff (slot : Slot) (now : Time) (key : Bytes) (ref : Ref) :
    ((slot.setValue key (some ref)).getValue now key).1 = some ref ↔ ¬ slot.Expired now key := by
  have same : (slot.setValue key (some ref)).Expired now key ↔ slot.Expired now key := Iff.rfl
  unfold Slot.getValue
  by_cases expired : slot.Expired now key
  · rw [if_pos (same.mpr expired)]
    exact ⟨fun absent => (nomatch absent), fun live => absurd expired live⟩
  · rw [if_neg (mt same.mp expired)]
    simp only [Slot.setValue, Function.update_self, expired, not_false_eq_true]

/-- The result of a store followed by a read at the same clock reading. -/
theorem execute_setValue_getValue {state reached : SlotState} {now : Time} {key : Bytes} {ref : Ref}
    (ran : slotMachine.execute Machine.anyStep
      [(now, .setValue key (some ref)), (now, .getValue key)] state = some reached) :
    reached.result = .pointer ((state.slot.setValue key (some ref)).getValue now key).1 := by
  simp only [Machine.execute, Machine.anyStep, ↓reduceIte, slotMachine, SlotState.call,
    Option.bind_eq_some_iff, Option.ite_none_right_eq_some, Option.some.injEq] at ran
  obtain ⟨stored, ⟨_, rfl⟩, last, ⟨_, rfl⟩, rfl⟩ := ran
  rfl

/-- **Reading a stored value back.** After any history of calls, a value stored
under a key and read at the same clock reading is returned exactly when the
history leaves no deadline on the key that has passed. -/
theorem setValue_getValue_iff (heap : Heap) (start now : Time) (key : Bytes) (ref : Ref)
    (history : List (Time × SlotCall)) {reached : SlotState}
    (ran : slotMachine.execute Machine.anyStep
      (history ++ [(now, .setValue key (some ref)), (now, .getValue key)])
      (SlotState.initial heap start) = some reached) :
    reached.result = .pointer (some ref) ↔
      ∀ deadline, pendingDeadline key history = some deadline → now ≤ deadline := by
  rw [Machine.execute_append] at ran
  obtain ⟨before, earlier, ran⟩ := Option.bind_eq_some_iff.mp ran
  have pending : before.slot.expirationTimes key = pendingDeadline key history :=
    execute_expirationTimes earlier key
  rw [execute_setValue_getValue ran, SlotResult.pointer.injEq, Slot.getValue_setValue_iff]
  constructor
  · intro live deadline left
    by_contra late
    exact live ⟨deadline, pending.trans left, Int.not_le.mp late⟩
  · rintro inTime ⟨deadline, present, passed⟩
    exact Int.not_le.mpr passed (inTime deadline (pending.symm.trans present))

/-- A value stored before the deadline of its key is read back. -/
theorem setValue_getValue_before_deadline :
    ∃ reached, slotMachine.execute Machine.anyStep
      ([(0, .setExpiration (ascii "k") 1)] ++
        [(5, .setValue (ascii "k") (some 7)), (5, .getValue (ascii "k"))])
      (SlotState.initial ⟨fun _ => none, 8⟩ 0) = some reached ∧
      reached.result = .pointer (some 7) := by
  refine ⟨_, rfl, (setValue_getValue_iff ⟨fun _ => none, 8⟩ 0 5 (ascii "k") 7
    [(0, .setExpiration (ascii "k") 1)] rfl).mpr ?_⟩
  intro deadline left
  have spelled : (1000000000 : Time) = deadline := Option.some.inj left
  subst spelled
  decide

/-- A deadline put on a key that was never stored expires the value stored
after it. -/
theorem setValue_getValue_after_deadline :
    ∃ reached, slotMachine.execute Machine.anyStep
      ([(0, .setExpiration (ascii "k") 0)] ++
        [(1, .setValue (ascii "k") (some 7)), (1, .getValue (ascii "k"))])
      (SlotState.initial ⟨fun _ => none, 8⟩ 0) = some reached ∧
      reached.result = .pointer none :=
  ⟨_, rfl, rfl⟩

end FastDb.Db
