import FastDb.Db.Slot

/-! # Expired keys and their deadlines

Only reading a key looks at its deadline. The hash commands find an expired key as long
as it is not erased, so lazy expiry is unobservable through them exactly where the key
holds no hash (`FastDb.Db.hash_expired_iff`). A deadline belongs to a stored key as long
as deadlines are set on stored keys only (`FastDb.Db.deadlines_present`).
-/

namespace FastDb.Db

open Foundation

/-! ## Hash commands on expired keys -/

/-- The hash stored under a key. -/
def SlotState.hashAt (state : SlotState) (key : Bytes) : Option (Ref × (Bytes → Option Bytes)) :=
  (state.slot.data key).bind state.heap.castMap

/-- `hset` writes where a hash is stored. -/
theorem SlotState.hset_eq (state : SlotState) (key field value : Bytes) :
    state.slot.hset state.heap key field value =
      match state.hashAt key with
      | some (ref, items) => (true, state.heap.store ref (.map (MapValue.set items field value)))
      | none => (false, state.heap) := by
  rw [Slot.hset, hashAt]
  cases state.slot.data key with
  | none => rfl
  | some pointer => rfl

/-- `hget` by what the slot holds under the key. -/
theorem SlotState.hget_eq (state : SlotState) (key field : Bytes) :
    state.slot.hget state.heap key field =
      match state.hashAt key with
      | some (_, items) => MapValue.get items field
      | none => .ok [] := by
  rw [Slot.hget, hashAt]
  cases state.slot.data key with
  | none => rfl
  | some pointer => rfl

/-- **Hash commands on expired keys.** Where the deadline of a key has passed, so that
`get_value` returns null, `hget` returns the empty string and `hset` returns false and
stores nothing exactly when no hash is stored under the key. -/
theorem hash_expired_iff (state : SlotState) {now : Time} {key : Bytes}
    (expired : state.slot.Expired now key) (field value : Bytes) :
    (state.slot.getValue now key).1 = none ∧
      (((state.call now (.hget key field)).result = .text (.ok []) ∧
        (state.call now (.hset key field value)).result = .flag false ∧
        (state.call now (.hset key field value)).heap = state.heap ∧
        (state.call now (.hset key field value)).slot = state.slot) ↔ state.hashAt key = none) := by
  refine ⟨by rw [Slot.getValue, if_pos expired], ?_⟩
  have got : (state.call now (.hget key field)).result =
      .text (state.slot.hget state.heap key field) := rfl
  have set : (state.call now (.hset key field value)).result =
      .flag (state.slot.hset state.heap key field value).1 := rfl
  have stored : (state.call now (.hset key field value)).heap =
      (state.slot.hset state.heap key field value).2 := rfl
  rw [got, set, stored, state.hget_eq, state.hset_eq]
  cases state.hashAt key with
  | none => exact iff_of_true ⟨rfl, rfl, rfl, rfl⟩ rfl
  | some hash =>
      refine iff_of_false ?_ (Option.some_ne_none hash)
      intro absent
      exact Bool.noConfusion (SlotResult.flag.inj absent.2.1)

/-- An expired key under which a string is stored. -/
theorem hash_expired_string :
    ∃ state, slotMachine.execute Machine.anyStep
        [(0, .setValue (ascii "k") (some 7)), (0, .setExpiration (ascii "k") 0)]
        (SlotState.initial ⟨fun _ => some (.string []), 8⟩ 0) = some state ∧
      (state.call 1 (.hget (ascii "k") (ascii "f"))).result = .text (.ok []) := by
  refine ⟨_, rfl, ((hash_expired_iff _ ⟨0, rfl, Int.zero_lt_one⟩ (ascii "f") []).2.mpr ?_).1⟩
  rfl

/-- An expired hash is read and written. -/
theorem hash_expired_hash :
    ∃ state, slotMachine.execute Machine.anyStep
        [(0, .setValue (ascii "k") (some 7)), (0, .hset (ascii "k") (ascii "f") (ascii "v")),
          (0, .setExpiration (ascii "k") 0)]
        (SlotState.initial ⟨fun _ => some (.map fun _ => none), 8⟩ 0) = some state ∧
      state.slot.Expired 1 (ascii "k") ∧
      (state.call 1 (.hget (ascii "k") (ascii "f"))).result = .text (.ok (ascii "v")) ∧
      (state.call 1 (.hset (ascii "k") (ascii "f") [])).result = .flag true :=
  ⟨_, rfl, ⟨0, rfl, Int.zero_lt_one⟩, rfl, rfl⟩

/-! ## Deadlines of stored keys -/

/-- A deadline is set on a stored key only. -/
def SetsPresent (state : SlotState) : Time × SlotCall → Prop
  | (_, .setExpiration key _) => (state.slot.data key).isSome = true
  | _ => True

instance (state : SlotState) : ∀ event, Decidable (SetsPresent state event)
  | (_, .setExpiration key _) => inferInstanceAs (Decidable ((state.slot.data key).isSome = true))
  | (_, .setValue ..) | (_, .getValue ..) | (_, .remove ..) | (_, .hset ..) | (_, .hget ..) =>
      inferInstanceAs (Decidable True)

/-- Every key with a deadline is stored. -/
def DeadlinesPresent (slot : Slot) : Prop :=
  ∀ key deadline, slot.expirationTimes key = some deadline → (slot.data key).isSome = true

theorem DeadlinesPresent.erase {slot : Slot} (present : DeadlinesPresent slot) (key : Bytes) :
    DeadlinesPresent (slot.erase key) := by
  intro other deadline pending
  by_cases same : other = key
  · subst same
    simp only [Slot.erase, Function.update_self] at pending
    cases pending
  · simp only [Slot.erase, Function.update_of_ne same] at pending ⊢
    exact present other deadline pending

theorem DeadlinesPresent.getValue {slot : Slot} (present : DeadlinesPresent slot) (now : Time)
    (key : Bytes) : DeadlinesPresent (slot.getValue now key).2 := by
  rw [Slot.getValue]
  split
  · exact present.erase key
  · split
    · exact present
    · exact present

/-- Storing a value keeps every key stored. -/
theorem DeadlinesPresent.setValue {slot : Slot} (present : DeadlinesPresent slot) (key : Bytes)
    (value : ValuePtr) : DeadlinesPresent (slot.setValue key value) := by
  intro other deadline pending
  by_cases same : other = key
  · subst same
    simp only [Slot.setValue, Function.update_self, Option.isSome_some]
  · simp only [Slot.setValue, Function.update_of_ne same]
    exact present other deadline pending

/-- A deadline set keeps the tables in step exactly where its key is stored. -/
theorem DeadlinesPresent.setExpiration_iff {slot : Slot} (present : DeadlinesPresent slot)
    (now : Time) (key : Bytes) (ttlSeconds : Int) :
    DeadlinesPresent (slot.setExpiration now key ttlSeconds) ↔
      (slot.data key).isSome = true := by
  constructor
  · intro kept
    exact kept key _ (Function.update_self ..)
  · intro stored other deadline pending
    by_cases same : other = key
    · exact same ▸ stored
    · simp only [Slot.setExpiration, Function.update_of_ne same] at pending
      exact present other deadline pending

/-- **One call** keeps the tables in step exactly where it sets no deadline on a key that is
not stored. -/
theorem deadlinesPresent_call_iff {state : SlotState} (present : DeadlinesPresent state.slot)
    (event : Time × SlotCall) :
    DeadlinesPresent (state.call event.1 event.2).slot ↔ SetsPresent state event := by
  obtain ⟨now, call⟩ := event
  cases call with
  | setValue key value => exact iff_of_true (present.setValue key value) trivial
  | getValue key => exact iff_of_true (present.getValue now key) trivial
  | remove key => exact iff_of_true (present.erase key) trivial
  | setExpiration key ttlSeconds => exact present.setExpiration_iff now key ttlSeconds
  | hset key field value => exact iff_of_true present trivial
  | hget key field => exact iff_of_true present trivial

/-- **Deadlines of stored keys.** In every run of calls from the empty slot that sets
deadlines on stored keys only, every key with a deadline is stored. -/
theorem deadlines_present (heap : Heap) (start : Time) {state : SlotState}
    (run : slotMachine.Reaches SetsPresent (SlotState.initial heap start) state) (key : Bytes)
    (deadline : Time) (pending : state.slot.expirationTimes key = some deadline) :
    (state.slot.data key).isSome = true := by
  have present : DeadlinesPresent state.slot := by
    apply run.invariant fun state => DeadlinesPresent state.slot
    · intro key deadline pending
      cases pending
    · intro before event after present sets stepped
      rw [slotMachine, Option.ite_none_right_eq_some] at stepped
      obtain ⟨-, rfl⟩ := stepped.imp_right Option.some.inj
      exact (deadlinesPresent_call_iff present event).mpr sets
  exact present key deadline pending

/-- A stored key is given a deadline. -/
theorem deadlines_present_stored :
    ∃ state, slotMachine.execute SetsPresent
        [(0, .setValue (ascii "k") (some 7)), (0, .setExpiration (ascii "k") 1)]
        (SlotState.initial ⟨fun _ => none, 8⟩ 0) = some state ∧
      (state.slot.data (ascii "k")).isSome = true := by
  have ran : ∃ state, slotMachine.execute SetsPresent
      [(0, .setValue (ascii "k") (some 7)), (0, .setExpiration (ascii "k") 1)]
      (SlotState.initial ⟨fun _ => none, 8⟩ 0) = some state ∧
      state.slot.expirationTimes (ascii "k") = some 1000000000 := ⟨_, rfl, rfl⟩
  obtain ⟨state, reached, pending⟩ := ran
  exact ⟨state, reached, deadlines_present ⟨fun _ => none, 8⟩ 0
    (Machine.reaches_of_execute reached) (ascii "k") 1000000000 pending⟩

/-- A deadline is set on a key of the empty slot. -/
theorem deadline_absent :
    ∃ state, slotMachine.execute Machine.anyStep [(0, .setExpiration (ascii "k") 1)]
        (SlotState.initial ⟨fun _ => none, 8⟩ 0) = some state ∧
      state.slot.expirationTimes (ascii "k") = some 1000000000 ∧
      state.slot.data (ascii "k") = none :=
  ⟨_, rfl, rfl, rfl⟩

end FastDb.Db
