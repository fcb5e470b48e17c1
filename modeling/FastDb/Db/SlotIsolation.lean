import FastDb.Db.Slot
import FastDb.Foundation.Noninterference

/-! # Isolation of keys

Seen from one key, a slot answers as if the other keys were not there, as long as no
value object is stored under two keys: a call changes the tables at its own key and the
object stored under it (`FastDb.Db.KeyAgree`). So two runs with the same calls of a key,
at the same clock readings and with objects of the same contents, return the same to
each of them (`FastDb.Db.slot_isolation`).
-/

namespace FastDb.Db

open Foundation

/-- The key a call is of. -/
def SlotCall.key : SlotCall → Bytes
  | .setValue key _ => key
  | .getValue key => key
  | .remove key => key
  | .setExpiration key _ => key
  | .hset key _ _ => key
  | .hget key _ => key

/-- The contents of the object a call passes. -/
def SlotState.passed (state : SlotState) : SlotCall → Option Value
  | .setValue _ (some ref) => state.heap.cells ref
  | _ => none

/-- What the last call returned, with the contents of the object it points to. -/
def SlotState.answer (state : SlotState) : SlotResult × Option Value :=
  (state.result,
    match state.result with
    | .pointer (some ref) => state.heap.cells ref
    | _ => none)

/-- A client of one key: it sees the calls of the key, with their clock readings and the
contents of the objects they pass, and what they return. -/
def keyObserver (key : Bytes) : Machine.Observer SlotState (Time × SlotCall)
    (Time × SlotCall × Option Value) (SlotResult × Option Value) where
  issue state event :=
    if event.2.key = key then some (event.1, event.2, state.passed event.2) else none
  result := SlotState.answer

/-- The object of a key is stored under no other key. -/
def Owns (slot : Slot) (key : Bytes) : Prop :=
  ∀ ref other, other ≠ key → slot.data key = some (some ref) → slot.data other ≠ some (some ref)

/-- A value object that is stored is not stored under another key. -/
def Unshared (state : SlotState) (event : Time × SlotCall) : Prop :=
  ∀ key ref, event.2 = .setValue key (some ref) → ∀ other, other ≠ key →
    state.slot.data other ≠ some (some ref)

/-- States that are the same to the client of a key. -/
structure KeyAgree (key : Bytes) (left right : SlotState) : Prop where
  data : left.slot.data key = right.slot.data key
  expirationTimes : left.slot.expirationTimes key = right.slot.expirationTimes key
  contents : ∀ ref, left.slot.data key = some (some ref) →
    left.heap.cells ref = right.heap.cells ref
  ownsLeft : Owns left.slot key
  ownsRight : Owns right.slot key

@[simp] theorem Slot.setValue_data_self (slot : Slot) (key : Bytes) (value : ValuePtr) :
    (slot.setValue key value).data key = some value := Function.update_self ..

@[simp] theorem Slot.erase_data_self (slot : Slot) (key : Bytes) :
    (slot.erase key).data key = none := Function.update_self ..

section Call

variable {state : SlotState} {now : Time} {call : SlotCall} {key : Bytes}

/-- Equal results over equal objects are equal answers. -/
theorem answer_congr {left right : SlotState} (same : left.result = right.result)
    (contents : ∀ ref, left.result = .pointer (some ref) →
      left.heap.cells ref = right.heap.cells ref) : left.answer = right.answer := by
  rw [SlotState.answer, SlotState.answer, ← same]
  cases returned : left.result with
  | pointer value =>
      cases value with
      | none => rfl
      | some ref => exact congrArg _ (contents ref returned)
  | done | flag | text => rfl

/-- A call changes the table at its own key. -/
theorem call_data_of_ne (foreign : call.key ≠ key) :
    (state.call now call).slot.data key = state.slot.data key := by
  cases call with
  | setValue other value => exact Function.update_of_ne (Ne.symm foreign) _ _
  | getValue other =>
      rcases getValue_data state.slot now other with same | erased
      · exact congrFun same key
      · exact (congrFun erased key).trans (Function.update_of_ne (Ne.symm foreign) _ _)
  | remove other => exact Function.update_of_ne (Ne.symm foreign) _ _
  | setExpiration other ttlSeconds => rfl
  | hset other field value => rfl
  | hget other field => rfl

/-- A call of another key leaves the deadline. -/
theorem call_expirationTimes_of_ne (foreign : call.key ≠ key) :
    (state.call now call).slot.expirationTimes key = state.slot.expirationTimes key := by
  rw [call_expirationTimes state (now, call)]
  cases call with
  | getValue other => exact if_neg foreign
  | remove other => exact if_neg foreign
  | setExpiration other ttlSeconds => exact if_neg foreign
  | setValue | hset | hget => rfl

/-- What a call leaves under a key was there, or is what it stores. -/
theorem stored_of_call {ref : Ref}
    (stored : (state.call now call).slot.data key = some (some ref)) :
    state.slot.data key = some (some ref) ∨ call = .setValue key (some ref) := by
  by_cases own : call.key = key
  · cases call with
    | setValue other value =>
        obtain rfl : other = key := own
        have same := (state.slot.setValue_data_self other value).symm.trans stored
        exact Or.inr (congrArg (SlotCall.setValue other) (Option.some.inj same))
    | getValue other =>
        obtain rfl : other = key := own
        rcases getValue_data state.slot now other with same | erased
        · exact Or.inl ((congrFun same other).symm.trans stored)
        · have none := (congrFun erased other).symm.trans stored
          rw [Function.update_self] at none
          cases none
    | remove other =>
        obtain rfl : other = key := own
        cases (state.slot.erase_data_self other).symm.trans stored
    | setExpiration | hset | hget => exact Or.inl stored
  · rw [call_data_of_ne own] at stored
    exact Or.inl stored

/-- A call changes no object but the one stored under its key. -/
theorem call_cells_of_ne {ref : Ref} (elsewhere : state.slot.data call.key ≠ some (some ref)) :
    (state.call now call).heap.cells ref = state.heap.cells ref := by
  cases call with
  | hset other field value =>
      change (state.slot.hset state.heap other field value).2.cells ref = _
      rw [Slot.hset]
      split
      · next pointer found =>
          split
          · next target items cast =>
              have same : pointer = some target := by
                cases pointer with
                | none => cases cast
                | some address =>
                    rw [Heap.castMap] at cast
                    split at cast
                    · rw [(Prod.mk.inj (Option.some.inj cast)).1]
                    · cases cast
              apply Function.update_of_ne
              rintro rfl
              exact elsewhere (found.trans (congrArg some same))
          · rfl
      · rfl
  | setValue | getValue | remove | setExpiration | hget => rfl

/-- While values are not shared, a key owns its object. -/
theorem Owns.after_call (owns : Owns state.slot key) (unshared : Unshared state (now, call)) :
    Owns (state.call now call).slot key := by
  intro ref other different stored otherStored
  rcases stored_of_call stored with was | stores
  · rcases stored_of_call otherStored with otherWas | otherStores
    · exact owns ref other different was otherWas
    · exact unshared other ref otherStores key (Ne.symm different) was
  · rcases stored_of_call otherStored with otherWas | otherStores
    · exact unshared key ref stores other different otherWas
    · obtain ⟨same, -⟩ := SlotCall.setValue.inj (stores.symm.trans otherStores)
      exact different same.symm

end Call

section Agree

variable {left right : SlotState} {key : Bytes}

theorem KeyAgree.symm (agree : KeyAgree key left right) : KeyAgree key right left where
  data := agree.data.symm
  expirationTimes := agree.expirationTimes.symm
  contents ref stored := (agree.contents ref (agree.data.trans stored)).symm
  ownsLeft := agree.ownsRight
  ownsRight := agree.ownsLeft

theorem KeyAgree.expired_iff (agree : KeyAgree key left right) (now : Time) :
    left.slot.Expired now key ↔ right.slot.Expired now key := by
  rw [Slot.Expired, Slot.Expired, agree.expirationTimes]

/-- A call of another key is not noticed. -/
theorem KeyAgree.hidden (agree : KeyAgree key left right) {now : Time} {call : SlotCall}
    (unshared : Unshared left (now, call)) (foreign : call.key ≠ key) :
    KeyAgree key (left.call now call) right where
  data := (call_data_of_ne foreign).trans agree.data
  expirationTimes := (call_expirationTimes_of_ne foreign).trans agree.expirationTimes
  contents ref stored := by
    rw [call_data_of_ne foreign] at stored
    rw [call_cells_of_ne (agree.ownsLeft ref call.key foreign stored)]
    exact agree.contents ref stored
  ownsLeft := agree.ownsLeft.after_call unshared
  ownsRight := agree.ownsRight

/-- Pointers stored under the key lead to the same hash. -/
theorem KeyAgree.castMap (agree : KeyAgree key left right) {pointer : ValuePtr}
    (stored : left.slot.data key = some pointer) :
    left.heap.castMap pointer = right.heap.castMap pointer := by
  cases pointer with
  | none => rfl
  | some ref => rw [Heap.castMap, Heap.castMap, agree.contents ref stored]

theorem KeyAgree.getValue (agree : KeyAgree key left right) (now : Time) :
    (left.slot.getValue now key).1 = (right.slot.getValue now key).1 ∧
      (left.slot.getValue now key).2.data key = (right.slot.getValue now key).2.data key := by
  rw [Slot.getValue, Slot.getValue]
  by_cases expired : left.slot.Expired now key
  · rw [if_pos expired, if_pos ((agree.expired_iff now).mp expired)]
    exact ⟨rfl, (left.slot.erase_data_self key).trans (right.slot.erase_data_self key).symm⟩
  · rw [if_neg expired, if_neg (mt (agree.expired_iff now).mpr expired), ← agree.data]
    cases stored : left.slot.data key with
    | none => exact ⟨rfl, stored.trans (agree.data.symm.trans stored).symm⟩
    | some pointer => exact ⟨rfl, stored.trans (agree.data.symm.trans stored).symm⟩

theorem KeyAgree.hset (agree : KeyAgree key left right) (field value : Bytes) :
    (left.slot.hset left.heap key field value).1 = (right.slot.hset right.heap key field value).1 ∧
      ∀ ref, left.slot.data key = some (some ref) →
        (left.slot.hset left.heap key field value).2.cells ref =
          (right.slot.hset right.heap key field value).2.cells ref := by
  rw [Slot.hset, Slot.hset, ← agree.data]
  cases stored : left.slot.data key with
  | none => exact ⟨rfl, fun ref other => absurd other.symm (Option.some_ne_none _)⟩
  | some pointer =>
      dsimp only
      rw [← agree.castMap stored]
      cases left.heap.castMap pointer with
      | none => exact ⟨rfl, fun ref same => agree.contents ref (stored.trans same)⟩
      | some hash =>
          refine ⟨rfl, fun ref same => ?_⟩
          change Function.update left.heap.cells hash.1 _ ref =
            Function.update right.heap.cells hash.1 _ ref
          by_cases here : ref = hash.1
          · rw [here, Function.update_self, Function.update_self]
          · rw [Function.update_of_ne here, Function.update_of_ne here]
            exact agree.contents ref (stored.trans same)

theorem KeyAgree.hget (agree : KeyAgree key left right) (field : Bytes) :
    left.slot.hget left.heap key field = right.slot.hget right.heap key field := by
  rw [Slot.hget, Slot.hget, ← agree.data]
  cases stored : left.slot.data key with
  | none => rfl
  | some pointer =>
      dsimp only
      rw [agree.castMap stored]

/-- What a call of the key points to has the same contents. -/
theorem KeyAgree.answer (agree : KeyAgree key left right) {now : Time} {call : SlotCall}
    (own : call.key = key) (same : (left.call now call).result = (right.call now call).result) :
    (left.call now call).answer = (right.call now call).answer := by
  apply answer_congr same
  intro ref returned
  cases call with
  | getValue other =>
      obtain rfl : other = key := own
      exact agree.contents ref (data_of_getValue (SlotResult.pointer.inj returned))
  | setValue | remove | setExpiration | hset | hget => cases returned

/-- A call of the key that passes an object of the same contents returns the same. -/
theorem KeyAgree.shown (agree : KeyAgree key left right) {now : Time} {call : SlotCall}
    (unshared : Unshared left (now, call)) (otherUnshared : Unshared right (now, call))
    (own : call.key = key) (passed : left.passed call = right.passed call) :
    (left.call now call).result = (right.call now call).result ∧
      KeyAgree key (left.call now call) (right.call now call) := by
  have times : (left.call now call).slot.expirationTimes key =
      (right.call now call).slot.expirationTimes key := by
    rw [call_expirationTimes left (now, call), call_expirationTimes right (now, call),
      agree.expirationTimes]
  have ownsLeft := agree.ownsLeft.after_call unshared
  have ownsRight := agree.ownsRight.after_call otherUnshared
  cases call with
  | setValue other value =>
      obtain rfl : other = key := own
      refine ⟨rfl, ?_, times, ?_, ownsLeft, ownsRight⟩
      · exact (left.slot.setValue_data_self other value).trans
          (right.slot.setValue_data_self other value).symm
      · intro ref stored
        have same := (left.slot.setValue_data_self other value).symm.trans stored
        obtain rfl := Option.some.inj same
        exact passed
  | getValue other =>
      obtain rfl : other = key := own
      obtain ⟨sameResult, sameData⟩ := agree.getValue now
      refine ⟨congrArg SlotResult.pointer sameResult, sameData, times, ?_, ownsLeft, ownsRight⟩
      intro ref stored
      refine agree.contents ref ((stored_of_call stored).resolve_right ?_)
      exact SlotCall.noConfusion
  | remove other =>
      obtain rfl : other = key := own
      refine ⟨rfl, ?_, times, ?_, ownsLeft, ownsRight⟩
      · exact (left.slot.erase_data_self other).trans (right.slot.erase_data_self other).symm
      · intro ref stored
        cases (left.slot.erase_data_self other).symm.trans stored
  | setExpiration other ttlSeconds =>
      obtain rfl : other = key := own
      exact ⟨rfl, agree.data, times, agree.contents, ownsLeft, ownsRight⟩
  | hset other field value =>
      obtain rfl : other = key := own
      obtain ⟨sameResult, sameCells⟩ := agree.hset field value
      exact ⟨congrArg SlotResult.flag sameResult, agree.data, times, sameCells, ownsLeft,
        ownsRight⟩
  | hget other field =>
      obtain rfl : other = key := own
      exact ⟨congrArg SlotResult.text (agree.hget field), agree.data, times, agree.contents,
        ownsLeft, ownsRight⟩

end Agree

/-- A step is a call. -/
theorem call_of_step {state after : SlotState} {event : Time × SlotCall}
    (stepped : slotMachine.step state event = some after) :
    after = state.call event.1 event.2 := by
  rw [slotMachine, Option.ite_none_right_eq_some] at stepped
  exact (Option.some.inj stepped.2).symm

/-- **Unwinding** of a slot for the client of a key. -/
theorem unwinding (key : Bytes) :
    Machine.Unwinding slotMachine Unshared (keyObserver key) (KeyAgree key) where
  symm _ _ agree := agree.symm
  hidden left right event next agree unshared unseen stepped := by
    rw [keyObserver, ite_eq_right_iff] at unseen
    rw [call_of_step stepped]
    exact agree.hidden unshared fun own => Option.some_ne_none _ (unseen own)
  shown left right event other issued next otherNext agree unshared otherUnshared seen otherSeen
      stepped otherStepped := by
    rw [keyObserver, Option.ite_none_right_eq_some] at seen otherSeen
    obtain ⟨own, issuedHere⟩ := seen
    have same := Option.some.inj (issuedHere.trans otherSeen.2.symm)
    obtain ⟨now, call⟩ := event
    obtain ⟨otherNow, otherCall⟩ := other
    obtain ⟨rfl, rest⟩ := Prod.mk.inj same
    obtain ⟨sameCall, passed⟩ := Prod.mk.inj rest
    dsimp only at sameCall passed
    subst sameCall
    rw [call_of_step stepped, call_of_step otherStepped]
    obtain ⟨sameResult, after⟩ := agree.shown unshared otherUnshared own passed
    exact ⟨agree.answer own sameResult, after⟩

theorem keyAgree_initial (key : Bytes) (heap otherHeap : Heap) (start otherStart : Time) :
    KeyAgree key (SlotState.initial heap start) (SlotState.initial otherHeap otherStart) where
  data := rfl
  expirationTimes := rfl
  contents _ stored := absurd stored.symm (Option.some_ne_none _)
  ownsLeft _ _ _ stored := absurd stored.symm (Option.some_ne_none _)
  ownsRight _ _ _ stored := absurd stored.symm (Option.some_ne_none _)

/-- **Key isolation.** Two runs from the empty slot in which no value is stored under two
keys, with the same calls of a key at the same clock readings, passing objects of the same
contents, return the same to each of them, down to the contents of the objects returned,
whatever the calls of other keys. -/
theorem slot_isolation (key : Bytes) {heap otherHeap : Heap} {start otherStart : Time}
    {last otherLast : SlotState}
    {log otherLog : List ((Time × SlotCall × Option Value) × SlotResult × Option Value)}
    (run : slotMachine.Logged Unshared (keyObserver key) (SlotState.initial heap start) log last)
    (otherRun : slotMachine.Logged Unshared (keyObserver key)
      (SlotState.initial otherHeap otherStart) otherLog otherLast)
    (same : log.map Prod.fst = otherLog.map Prod.fst) :
    log.map Prod.snd = otherLog.map Prod.snd := by
  have agree := keyAgree_initial key heap otherHeap start otherStart
  rw [(unwinding key).log_eq agree run otherRun same]

/-- The runs that have a log are the runs in which no value is stored under two keys. -/
theorem exists_logged_iff (key : Bytes) {first last : SlotState} :
    (∃ log, slotMachine.Logged Unshared (keyObserver key) first log last) ↔
      slotMachine.Reaches Unshared first last :=
  ⟨fun logged => logged.elim fun _ run => run.reaches, fun run => run.exists_logged _⟩

/-- A hash is stored and read, alone and with calls of another key in between. -/
theorem slot_isolation_otherKey :
    ∃ last otherLast log otherLog,
      slotMachine.Logged Unshared (keyObserver (ascii "k"))
        (SlotState.initial ⟨fun _ => some (.map fun _ => some []), 8⟩ 0) log last ∧
      slotMachine.Logged Unshared (keyObserver (ascii "k"))
        (SlotState.initial ⟨fun _ => some (.map fun _ => some []), 8⟩ 0) otherLog otherLast ∧
      log.map Prod.snd = [(.done, none), (.text (.ok []), none)] ∧
      log.map Prod.snd = otherLog.map Prod.snd := by
  have stores : Unshared (SlotState.initial ⟨fun _ => some (.map fun _ => some []), 8⟩ 0)
      (0, .setValue (ascii "k") (some 7)) := fun _ _ _ _ _ stored => nomatch stored
  have reads : ∀ state, Unshared state (2, .hget (ascii "k") (ascii "f")) :=
    fun _ _ _ other => SlotCall.noConfusion other
  have limits : ∀ state, Unshared state (1, .setExpiration (ascii "j") 1) :=
    fun _ _ _ other => SlotCall.noConfusion other
  have removes : ∀ state, Unshared state (1, .remove (ascii "j")) :=
    fun _ _ _ other => SlotCall.noConfusion other
  have alone : ∃ last log, slotMachine.Logged Unshared (keyObserver (ascii "k"))
      (SlotState.initial ⟨fun _ => some (.map fun _ => some []), 8⟩ 0) log last ∧
      log.map Prod.snd = [(.done, none), (.text (.ok []), none)] ∧
      log.map Prod.fst = [(0, .setValue (ascii "k") (some 7), some (.map fun _ => some [])),
        (2, .hget (ascii "k") (ascii "f"), none)] :=
    ⟨_, _, .shown stores rfl rfl (.shown (reads _) rfl rfl (.done _)), rfl, rfl⟩
  have between : ∃ last log, slotMachine.Logged Unshared (keyObserver (ascii "k"))
      (SlotState.initial ⟨fun _ => some (.map fun _ => some []), 8⟩ 0) log last ∧
      log.map Prod.fst = [(0, .setValue (ascii "k") (some 7), some (.map fun _ => some [])),
        (2, .hget (ascii "k") (ascii "f"), none)] :=
    ⟨_, _, .shown stores rfl rfl (.hidden (limits _) rfl rfl (.hidden (removes _) rfl rfl
      (.shown (reads _) rfl rfl (.done _)))), rfl⟩
  obtain ⟨last, log, run, results, issued⟩ := alone
  obtain ⟨otherLast, otherLog, otherRun, otherIssued⟩ := between
  exact ⟨last, otherLast, log, otherLog, run, otherRun, results,
    slot_isolation (ascii "k") run otherRun (issued.trans otherIssued.symm)⟩

end FastDb.Db
