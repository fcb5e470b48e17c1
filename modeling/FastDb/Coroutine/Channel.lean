import Mathlib.Tactic.ByContra
import FastDb.Foundation.Machine

/-! # Channels

`Channel` of `test/std_coroutine.cpp`. Its operations run under `channel_lock`, so each is
a function of the channel it finds, which leaves the awaiters it resumes. An open channel
delivers: what was handed to readers, what is buffered and what parked writers hold is
together what was written, in order (`FastDb.Coroutine.Channel.delivery`).
-/

namespace FastDb.Coroutine

open Foundation

/-- `Channel<ValueType>`, with awaiters named by `W` and `R`; a parked writer is kept with
the value it holds. -/
structure Channel (W R V : Type*) where
  capacity : Nat
  buffer : List V := []
  writerList : List (W × V) := []
  readerList : List R := []
  isActive : Bool := true

/-- The resumption of an awaiter. -/
inductive Resumption (W R V : Type*)
  | writer (writer : W)
  /-- `reader->resume(value)`. -/
  | reader (reader : R) (value : V)
  /-- `reader->resume()`, when the channel is closed. -/
  | closedReader (reader : R)

/-- The values that resumptions hand over, and their readers. -/
def handedOver {W R V : Type*} (resumed : List (Resumption W R V)) : List (R × V) :=
  resumed.filterMap fun
    | .reader reader value => some (reader, value)
    | .writer _ | .closedReader _ => none

/-- The writers that are resumed. -/
def wokenWriters {W R V : Type*} (resumed : List (Resumption W R V)) : List W :=
  resumed.filterMap fun
    | .writer writer => some writer
    | .reader .. | .closedReader _ => none

/-- The readers that are resumed without a value. -/
def closedReaders {W R V : Type*} (resumed : List (Resumption W R V)) : List R :=
  resumed.filterMap fun
    | .closedReader reader => some reader
    | .reader .. | .writer _ => none

namespace Channel

variable {W R V : Type*}

/-- `try_push_writer`; `none` is a closed channel, where `check_closed` throws. -/
def tryPushWriter (channel : Channel W R V) (writer : W) (value : V) :
    Option (Channel W R V × List (Resumption W R V)) :=
  if channel.isActive then
    match channel.readerList with
    | reader :: readers =>
        some ({ channel with readerList := readers }, [.reader reader value, .writer writer])
    | [] =>
        if channel.buffer.length < channel.capacity then
          some ({ channel with buffer := channel.buffer ++ [value] }, [.writer writer])
        else some ({ channel with writerList := channel.writerList ++ [(writer, value)] }, [])
  else none

/-- `try_push_reader`. -/
def tryPushReader (channel : Channel W R V) (reader : R) :
    Option (Channel W R V × List (Resumption W R V)) :=
  if channel.isActive then
    match channel.buffer, channel.writerList with
    | value :: buffer, (writer, held) :: writers =>
        some ({ channel with buffer := buffer ++ [held], writerList := writers },
          [.writer writer, .reader reader value])
    | value :: buffer, [] => some ({ channel with buffer }, [.reader reader value])
    | [], (writer, held) :: writers =>
        some ({ channel with writerList := writers }, [.reader reader held, .writer writer])
    | [], [] => some ({ channel with readerList := channel.readerList ++ [reader] }, [])
  else none

/-- A push of a writer that does not throw finds the channel active. -/
theorem isActive_of_tryPushWriter {channel after : Channel W R V} {writer : W} {value : V}
    {resumed : List (Resumption W R V)}
    (pushed : channel.tryPushWriter writer value = some (after, resumed)) :
    channel.isActive = true := by
  rw [tryPushWriter, Option.ite_none_right_eq_some] at pushed
  exact pushed.1

/-- A push of a reader that does not throw finds the channel active. -/
theorem isActive_of_tryPushReader {channel after : Channel W R V} {reader : R}
    {resumed : List (Resumption W R V)}
    (pushed : channel.tryPushReader reader = some (after, resumed)) :
    channel.isActive = true := by
  rw [tryPushReader, Option.ite_none_right_eq_some] at pushed
  exact pushed.1

/-- `remove_reader`. -/
def removeReader [DecidableEq R] (channel : Channel W R V) (reader : R) : Channel W R V :=
  { channel with readerList := channel.readerList.filter fun other => other ≠ reader }

/-- The values in the channel, those of parked writers last. -/
def contents (channel : Channel W R V) : List V :=
  channel.buffer ++ channel.writerList.map Prod.snd

/-- Readers are parked only on an empty channel, and writers only on a full one. -/
structure Settled (channel : Channel W R V) : Prop where
  readers : channel.readerList ≠ [] → channel.buffer = [] ∧ channel.writerList = []
  writers : channel.writerList ≠ [] → channel.buffer.length = channel.capacity
  bounded : channel.buffer.length ≤ channel.capacity

/-- What an operation leaves of a channel, for the writers and readers that come in with it:
a settled channel, where the values handed over and those left are the values that were there
and came in, and writers and readers are resumed in the order in which they came. -/
structure Moved (before after : Channel W R V) (writers : List (W × V)) (readers : List R)
    (resumed : List (Resumption W R V)) : Prop where
  capacity : after.capacity = before.capacity
  isActive : after.isActive = before.isActive
  settled : after.Settled
  contents : (handedOver resumed).map Prod.snd ++ after.contents =
    before.contents ++ writers.map Prod.snd
  writerList : ∃ woken, woken.map Prod.fst = wokenWriters resumed ∧
    woken ++ after.writerList = before.writerList ++ writers
  readerList : (handedOver resumed).map Prod.fst ++ after.readerList =
    before.readerList ++ readers
  closed : closedReaders resumed = []

theorem Settled.contents_nil {channel : Channel W R V} (settled : channel.Settled)
    (parked : channel.readerList ≠ []) : channel.contents = [] := by
  obtain ⟨empty, unparked⟩ := settled.readers parked
  rw [contents, empty, unparked]
  rfl

/-- A write brings in its value. -/
theorem Settled.tryPushWriter {channel after : Channel W R V} {writer : W} {value : V}
    {resumed : List (Resumption W R V)} (settled : channel.Settled)
    (pushed : channel.tryPushWriter writer value = some (after, resumed)) :
    Moved channel after [(writer, value)] [] resumed := by
  unfold Channel.tryPushWriter at pushed
  split at pushed
  · split at pushed
    · next reader readers parked =>
        have some : channel.readerList ≠ [] := by
          rw [parked]
          exact List.cons_ne_nil _ _
        have empty := settled.contents_nil some
        have none := (settled.readers some).2
        cases pushed
        refine ⟨rfl, rfl, ⟨fun _ => settled.readers some, settled.writers, settled.bounded⟩, ?_,
          ⟨[(writer, value)], rfl, ?_⟩, ?_, rfl⟩
        · change [value] ++ channel.contents = _
          rw [empty]
          rfl
        · simp [none]
        · simp [handedOver, parked]
    · next unparked =>
        split at pushed
        · next room =>
            have none : channel.writerList = [] := by
              by_contra parked
              have full := settled.writers parked
              omega
            cases pushed
            refine ⟨rfl, rfl, ⟨fun some => absurd unparked some, fun some => absurd none some, ?_⟩,
              ?_, ⟨[(writer, value)], rfl, ?_⟩, ?_, rfl⟩
            · rw [List.length_append, List.length_singleton]
              exact room
            · simp [handedOver, contents, none]
            · simp [none]
            · simp [handedOver]
        · next full =>
            cases pushed
            refine ⟨rfl, rfl, ⟨fun some => absurd unparked some, fun _ => ?_, settled.bounded⟩, ?_,
              ⟨[], rfl, rfl⟩, ?_, rfl⟩
            · exact Nat.le_antisymm settled.bounded (Nat.not_lt.mp full)
            · simp [handedOver, contents]
            · simp [handedOver]
  · cases pushed

/-- A read hands over the first value, if there is one. -/
theorem Settled.tryPushReader {channel after : Channel W R V} {reader : R}
    {resumed : List (Resumption W R V)} (settled : channel.Settled)
    (pushed : channel.tryPushReader reader = some (after, resumed)) :
    Moved channel after [] [reader] resumed := by
  have unparked : channel.contents ≠ [] → channel.readerList = [] := by
    intro filled
    by_contra parked
    exact filled (settled.contents_nil parked)
  unfold Channel.tryPushReader at pushed
  split at pushed
  · split at pushed
    · next value buffer writer held writers buffered parked =>
        have none := unparked (by simp [contents, buffered])
        have full := settled.writers (by simp [parked])
        cases pushed
        rw [buffered, List.length_cons] at full
        refine ⟨rfl, rfl, ⟨fun some => absurd none some, fun _ => ?_, ?_⟩, ?_,
          ⟨[(writer, held)], rfl, ?_⟩, ?_, rfl⟩
        · rw [List.length_append, List.length_singleton]
          exact full
        · rw [List.length_append, List.length_singleton]
          exact Nat.le_of_eq full
        · simp [handedOver, contents, buffered, parked]
        · simp [parked]
        · simp [handedOver, none]
    · next value buffer buffered parked =>
        have none := unparked (by simp [contents, buffered])
        have bounded := settled.bounded
        cases pushed
        rw [buffered, List.length_cons] at bounded
        refine ⟨rfl, rfl, ⟨fun some => absurd none some, fun some => absurd parked some, ?_⟩, ?_,
          ⟨[], rfl, ?_⟩, ?_, rfl⟩
        · exact Nat.le_of_succ_le bounded
        · simp [handedOver, contents, buffered, parked]
        · simp
        · simp [handedOver, none]
    · next writer held writers buffered parked =>
        have none := unparked (by simp [contents, parked])
        have full := settled.writers (by simp [parked])
        cases pushed
        refine ⟨rfl, rfl, ⟨fun some => absurd none some, fun _ => full, settled.bounded⟩, ?_,
          ⟨[(writer, held)], rfl, ?_⟩, ?_, rfl⟩
        · simp [handedOver, contents, buffered, parked]
        · simp [parked]
        · simp [handedOver, none]
    · next buffered parked =>
        cases pushed
        refine ⟨rfl, rfl, ⟨fun _ => ⟨buffered, parked⟩, settled.writers, settled.bounded⟩, ?_,
          ⟨[], rfl, ?_⟩, ?_, rfl⟩
        · simp [handedOver, contents]
        · simp
        · simp [handedOver]
  · cases pushed

/-- Removing a reader keeps the channel settled. -/
theorem Settled.removeReader [DecidableEq R] {channel : Channel W R V} (settled : channel.Settled)
    (reader : R) : (channel.removeReader reader).Settled := by
  refine ⟨fun some => settled.readers fun none => some ?_, settled.writers, settled.bounded⟩
  change channel.readerList.filter _ = []
  rw [none]
  rfl

/-! ## Deliveries -/

/-- An operation on the channel, each under `channel_lock`. -/
inductive Operation (W R V : Type*)
  | write (writer : W) (value : V)
  | read (reader : R)
  | removeReader (reader : R)

/-- A channel, what was written to it and what was handed to which reader. -/
structure Ledger (W R V : Type*) where
  channel : Channel W R V
  written : List V := []
  handed : List (R × V) := []

/-- One operation; on a closed channel a write or a read throws. -/
def Ledger.step [DecidableEq R] (ledger : Ledger W R V) :
    Operation W R V → Option (Ledger W R V)
  | .write writer value =>
      (ledger.channel.tryPushWriter writer value).map fun (after, resumed) =>
        ⟨after, ledger.written ++ [value], ledger.handed ++ handedOver resumed⟩
  | .read reader =>
      (ledger.channel.tryPushReader reader).map fun (after, resumed) =>
        ⟨after, ledger.written, ledger.handed ++ handedOver resumed⟩
  | .removeReader reader =>
      some { ledger with channel := ledger.channel.removeReader reader }

/-- The channel with the coroutines parked at it. -/
def machine [DecidableEq R] : Machine (Ledger W R V) (Operation W R V) where
  step := Ledger.step

/-- `Channel(capacity)`. -/
def new (capacity : Nat) : Ledger W R V where
  channel := { capacity }

/-- The values handed over, then those in the channel, are the values written. -/
structure Ledger.Delivers (ledger : Ledger W R V) : Prop where
  settled : ledger.channel.Settled
  order : ledger.handed.map Prod.snd ++ ledger.channel.contents = ledger.written

/-- What an operation moves is delivered. -/
theorem Ledger.Delivers.moved {ledger : Ledger W R V} (delivers : ledger.Delivers)
    {after : Channel W R V} {writers : List (W × V)} {readers : List R}
    {resumed : List (Resumption W R V)}
    (moved : Moved ledger.channel after writers readers resumed) :
    Ledger.Delivers
      ⟨after, ledger.written ++ writers.map Prod.snd, ledger.handed ++ handedOver resumed⟩ where
  settled := moved.settled
  order := by
    dsimp only
    rw [List.map_append, List.append_assoc, moved.contents, ← List.append_assoc, delivers.order]

/-- **One operation** keeps the deliveries. -/
theorem Ledger.Delivers.step [DecidableEq R] {ledger after : Ledger W R V}
    (delivers : ledger.Delivers) {operation : Operation W R V}
    (stepped : ledger.step operation = some after) :
    after.Delivers ∧ after.channel.capacity = ledger.channel.capacity := by
  cases operation with
  | write writer value =>
      obtain ⟨⟨channel, resumed⟩, pushed, rfl⟩ := Option.map_eq_some_iff.mp stepped
      have moved := delivers.settled.tryPushWriter pushed
      exact ⟨delivers.moved moved, moved.capacity⟩
  | read reader =>
      obtain ⟨⟨channel, resumed⟩, pushed, rfl⟩ := Option.map_eq_some_iff.mp stepped
      have moved := delivers.settled.tryPushReader pushed
      have kept := delivers.moved moved
      rw [List.map_nil, List.append_nil] at kept
      exact ⟨kept, moved.capacity⟩
  | removeReader reader =>
      cases stepped
      exact ⟨⟨delivers.settled.removeReader reader, delivers.order⟩, rfl⟩

/-- **Delivery.** Whatever the order of writes, reads and cancellations on a channel, no reader
is parked beside a value or a writer, writers are parked only while the buffer holds exactly
as many values as its capacity, which it never exceeds, and what was handed to readers, the
buffer and what parked writers hold are together the values written, in order. -/
theorem delivery [DecidableEq R] (capacity : Nat) {ledger : Ledger W R V}
    (reached : machine.Reaches Machine.anyStep (new capacity) ledger) :
    (ledger.channel.readerList ≠ [] →
        ledger.channel.buffer = [] ∧ ledger.channel.writerList = []) ∧
      (ledger.channel.writerList ≠ [] → ledger.channel.buffer.length = capacity) ∧
      ledger.channel.buffer.length ≤ capacity ∧
      ledger.handed.map Prod.snd ++ ledger.channel.buffer ++
        ledger.channel.writerList.map Prod.snd = ledger.written := by
  have kept : ledger.Delivers ∧ ledger.channel.capacity = capacity := by
    refine reached.invariant (fun ledger => ledger.Delivers ∧ ledger.channel.capacity = capacity)
      ⟨⟨⟨fun some => absurd rfl some, fun some => absurd rfl some, Nat.zero_le _⟩, rfl⟩, rfl⟩ ?_
    intro before operation after kept _ stepped
    obtain ⟨delivers, same⟩ := kept.1.step stepped
    exact ⟨delivers, same.trans kept.2⟩
  obtain ⟨⟨settled, order⟩, rfl⟩ := kept
  refine ⟨settled.readers, settled.writers, settled.bounded, ?_⟩
  rw [List.append_assoc]
  exact order

/-- A buffer of one value is full, a second writer is parked, and a reader gets the first
value. -/
theorem delivery_parked :
    ∃ ledger : Ledger Nat Nat Char, (machine.execute Machine.anyStep
        [.write 0 'a', .write 1 'b', .read 2] (new 1)) = some ledger ∧
      ledger.channel.buffer = ['b'] ∧
      ledger.handed.map Prod.snd ++ ledger.channel.buffer ++
        ledger.channel.writerList.map Prod.snd = ledger.written := by
  have ran : ((machine (W := Nat) (R := Nat)).execute Machine.anyStep
      [.write 0 'a', .write 1 'b', .read 2] (new 1)).map (fun ledger => ledger.channel.buffer) =
      some ['b'] := by decide
  obtain ⟨ledger, executed, buffer⟩ := Option.map_eq_some_iff.mp ran
  exact ⟨ledger, executed, buffer, (delivery 1 (Machine.reaches_of_execute executed)).2.2.2⟩

end Channel

end FastDb.Coroutine
