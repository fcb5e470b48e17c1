import Mathlib.Data.List.Nodup
import FastDb.Coroutine.Channel

/-! # Closing a channel

Writes, reads and `close()` around one channel, with awaiters that an executor resumes at any
later time and that look at the closed flag when they are called, under the lock and once
more when they are resumed. `close()` clears the flag first and cleans up under the lock
later. Every value carries its writer, which no operation looks at. A value whose write
completed is returned by exactly one read once a reader that it was handed to is resumed
on the open channel; what is buffered when the channel is cleaned up is dropped
(`FastDb.Coroutine.Traffic.close_drops_buffer_only`).
-/

namespace FastDb.Coroutine

open Foundation

/-- A `write` and its `WriterAwaiter`. -/
inductive Write (V : Type*)
  | idle
  /-- Past `check_closed` in `write`, before `await_suspend`. -/
  | called (value : V)
  | suspended (value : V)
  /-- Handed to the executor. -/
  | resuming (value : V)
  | completed (value : V)
  /-- With a `ChannelClosedException`. -/
  | failed
  deriving DecidableEq

/-- A `read` and its `ReaderAwaiter`, with the `_value` it was resumed with. -/
inductive Read (V : Type*)
  | idle
  | called
  | suspended
  | resuming (value : Option V)
  | returned (value : Option V)
  | failed (value : Option V)
  deriving DecidableEq

/-- What a reader was handed. -/
def Read.value {V : Type*} : Read V → Option V
  | .resuming value | .returned value | .failed value => value
  | .idle | .called | .suspended => none

/-- A channel with the writes and reads around it. What was written, handed over and, in
`clean_up`, dropped from the buffer or sent back to parked writers is history. -/
structure Traffic (W R V : Type*) where
  channel : Channel W R (W × V)
  closing : Bool := false
  writes : W → Write V := fun _ => .idle
  reads : R → Read (W × V) := fun _ => .idle
  written : List (W × V) := []
  handed : List (R × (W × V)) := []
  dropped : List (W × V) := []
  rejected : List (W × V) := []

/-- The steps of writers and readers, and of the close. -/
inductive Traffic.Event (W R V : Type*)
  | write (writer : W) (value : V)
  | pushWriter (writer : W)
  | resumeWriter (writer : W)
  | read (reader : R)
  | pushReader (reader : R)
  | resumeReader (reader : R)
  | close
  | cleanUp

namespace Channel

variable {W R V : Type*}

/-- `clean_up`. -/
def cleanUp (channel : Channel W R V) : Channel W R V × List (Resumption W R V) :=
  ({ channel with buffer := [], writerList := [], readerList := [] },
    channel.writerList.map (fun entry => .writer entry.1) ++
      channel.readerList.map .closedReader)

end Channel

namespace Traffic

variable {W R V : Type*} [DecidableEq W] [DecidableEq R]

/-- Takes over a channel and the resumptions it leaves. -/
def absorb (traffic : Traffic W R V) (channel : Channel W R (W × V))
    (resumed : List (Resumption W R (W × V))) : Traffic W R V :=
  { traffic with
    channel
    handed := traffic.handed ++ handedOver resumed
    writes := fun writer =>
      match traffic.writes writer with
      | .suspended value =>
          if writer ∈ wokenWriters resumed then .resuming value else .suspended value
      | other => other
    reads := fun reader =>
      match (handedOver resumed).lookup reader with
      | some value => .resuming (some value)
      | none => if reader ∈ closedReaders resumed then .resuming none else traffic.reads reader }

/-- Replaces what a writer is at. -/
def setWrite (traffic : Traffic W R V) (writer : W) (write : Write V) : Traffic W R V :=
  { traffic with writes := Function.update traffic.writes writer write }

/-- Replaces what a reader is at. -/
def setRead (traffic : Traffic W R V) (reader : R) (read : Read (W × V)) : Traffic W R V :=
  { traffic with reads := Function.update traffic.reads reader read }

/-- What `clean_up` leaves, with the end of `close()`. -/
def cleanUp (traffic : Traffic W R V) : Traffic W R V :=
  { traffic.absorb traffic.channel.cleanUp.1 traffic.channel.cleanUp.2 with
    closing := false
    dropped := traffic.dropped ++ traffic.channel.buffer
    rejected := traffic.channel.writerList.map Prod.snd ++ traffic.rejected }

/-- One step. An awaiter that finds the channel closed fails. -/
def step (traffic : Traffic W R V) : Event W R V → Option (Traffic W R V)
  | .write writer value =>
      match traffic.writes writer with
      | .idle =>
          some (traffic.setWrite writer
            (if traffic.channel.isActive then .called value else .failed))
      | _ => none
  | .pushWriter writer =>
      match traffic.writes writer with
      | .called value =>
          match traffic.channel.tryPushWriter writer (writer, value) with
          | some (channel, resumed) =>
              some ({ traffic.setWrite writer (.suspended value) with
                written := traffic.written ++ [(writer, value)] }.absorb channel resumed)
          | none => some (traffic.setWrite writer .failed)
      | _ => none
  | .resumeWriter writer =>
      match traffic.writes writer with
      | .resuming value =>
          some (traffic.setWrite writer
            (if traffic.channel.isActive then .completed value else .failed))
      | _ => none
  | .read reader =>
      match traffic.reads reader with
      | .idle =>
          some (traffic.setRead reader
            (if traffic.channel.isActive then .called else .failed none))
      | _ => none
  | .pushReader reader =>
      match traffic.reads reader with
      | .called =>
          match traffic.channel.tryPushReader reader with
          | some (channel, resumed) =>
              some ((traffic.setRead reader .suspended).absorb channel resumed)
          | none => some (traffic.setRead reader (.failed none))
      | _ => none
  | .resumeReader reader =>
      match traffic.reads reader with
      | .resuming value =>
          some (traffic.setRead reader
            (if traffic.channel.isActive then .returned value else .failed value))
      | _ => none
  | .close =>
      if traffic.channel.isActive then
        some { traffic with
          channel := { traffic.channel with isActive := false }
          closing := true }
      else none
  | .cleanUp =>
      if traffic.closing then some traffic.cleanUp else none

/-- The channel with its writers and readers. -/
def machine : Machine (Traffic W R V) (Event W R V) where
  step := step

/-- `Channel(capacity)`, nobody around it. -/
def new (capacity : Nat) : Traffic W R V where
  channel := { capacity }

/-- What holds of a channel and the writes and reads around it, with the writers and readers
that are about to come in. -/
structure Kept (traffic : Traffic W R V) (writers : List (W × (W × V))) (readers : List R) :
    Prop where
  settled : traffic.channel.Settled
  order : traffic.handed.map Prod.snd ++ traffic.dropped ++
    (traffic.channel.contents ++ writers.map Prod.snd) ++ traffic.rejected = traffic.written
  closed : traffic.closing = true → traffic.channel.isActive = false
  fresh : traffic.channel.isActive = true → traffic.dropped = [] ∧ traffic.rejected = []
  once : (traffic.written.map Prod.fst).Nodup
  parked : ∀ entry ∈ traffic.channel.writerList ++ writers,
    ∃ value, entry.2 = (entry.1, value) ∧ traffic.writes entry.1 = .suspended value
  outside : ∀ writer, traffic.writes writer = .idle ∨ (∃ value,
    traffic.writes writer = .called value) → writer ∉ traffic.written.map Prod.fst
  passed : ∀ writer value, traffic.writes writer = .resuming value ∨
    traffic.writes writer = .completed value → (writer, value) ∈ traffic.written
  accepted : ∀ writer value, traffic.writes writer = .completed value →
    writer ∉ traffic.rejected.map Prod.fst
  waiting : ∀ reader ∈ traffic.channel.readerList ++ readers, traffic.reads reader = .suspended
  line : (traffic.channel.readerList ++ readers).Nodup
  held : ∀ reader value, (traffic.reads reader).value = some value ↔
    (reader, value) ∈ traffic.handed
  refused : ∀ reader value, traffic.reads reader = .failed (some value) →
    traffic.channel.isActive = false

omit [DecidableEq W] in
/-- Where no reader is listed twice, looking one up is finding its entry. -/
theorem lookup_eq_some_iff_mem {entries : List (R × V)} (once : (entries.map Prod.fst).Nodup)
    (reader : R) (value : V) : entries.lookup reader = some value ↔ (reader, value) ∈ entries := by
  induction entries with
  | nil => simp
  | cons entry entries ih =>
      obtain ⟨other, held⟩ := entry
      rw [List.map_cons, List.nodup_cons] at once
      rw [List.lookup_cons, List.mem_cons]
      by_cases same : reader = other
      · subst same
        rw [BEq.rfl]
        dsimp only
        rw [Option.some.injEq, Prod.mk.injEq, eq_comm (a := held), and_iff_right rfl]
        refine ⟨Or.inl, fun found => found.resolve_right fun member => ?_⟩
        exact once.1 (List.mem_map.mpr ⟨_, member, rfl⟩)
      · rw [beq_eq_false_iff_ne.mpr same]
        dsimp only
        rw [ih once.2, Prod.mk.injEq, or_iff_right fun found => same found.1]

section Steps

variable {traffic : Traffic W R V}

omit [DecidableEq R] in
/-- A write that is not parked moves on. -/
theorem Kept.setWrite (kept : Kept traffic [] []) (writer : W) (write : Write V)
    (unparked : ∀ value, traffic.writes writer ≠ .suspended value)
    (outside : write = .idle ∨ (∃ value, write = .called value) →
      writer ∉ traffic.written.map Prod.fst)
    (passed : ∀ value, write = .resuming value ∨ write = .completed value →
      (writer, value) ∈ traffic.written)
    (accepted : ∀ value, write = .completed value → writer ∉ traffic.rejected.map Prod.fst) :
    Kept (traffic.setWrite writer write) [] [] := by
  refine { kept with parked := ?_, outside := ?_, passed := ?_, accepted := ?_ }
  · intro entry member
    obtain ⟨value, same, suspended⟩ := kept.parked entry member
    refine ⟨value, same, ?_⟩
    have other : entry.1 ≠ writer := fun same => unparked value (same ▸ suspended)
    exact (Function.update_of_ne other _ _).trans suspended
  · intro other stage
    by_cases same : other = writer
    · subst same
      simp only [Traffic.setWrite, Function.update_self] at stage
      exact outside stage
    · simp only [Traffic.setWrite, Function.update_of_ne same] at stage
      exact kept.outside other stage
  · intro other value stage
    by_cases same : other = writer
    · subst same
      simp only [Traffic.setWrite, Function.update_self] at stage
      exact passed value stage
    · simp only [Traffic.setWrite, Function.update_of_ne same] at stage
      exact kept.passed other value stage
  · intro other value stage
    by_cases same : other = writer
    · subst same
      simp only [Traffic.setWrite, Function.update_self] at stage
      exact accepted value stage
    · simp only [Traffic.setWrite, Function.update_of_ne same] at stage
      exact kept.accepted other value stage

omit [DecidableEq W] in
/-- A read that is not parked moves on with the value it has. -/
theorem Kept.setRead (kept : Kept traffic [] []) (reader : R) (read : Read (W × V))
    (unparked : traffic.reads reader ≠ .suspended)
    (same : read.value = (traffic.reads reader).value)
    (refused : ∀ value, read = .failed (some value) → traffic.channel.isActive = false) :
    Kept (traffic.setRead reader read) [] [] := by
  refine { kept with waiting := ?_, held := ?_, refused := ?_ }
  · intro other member
    have suspended := kept.waiting other member
    have different : other ≠ reader := fun same => unparked (same ▸ suspended)
    exact (Function.update_of_ne different _ _).trans suspended
  · intro other value
    refine Iff.trans ?_ (kept.held other value)
    by_cases here : other = reader
    · subst here
      simp only [Traffic.setRead, Function.update_self, same]
    · simp only [Traffic.setRead, Function.update_of_ne here]
  · intro other value fails
    by_cases here : other = reader
    · subst here
      simp only [Traffic.setRead, Function.update_self] at fails
      exact refused value fails
    · simp only [Traffic.setRead, Function.update_of_ne here] at fails
      exact kept.refused other value fails

variable {writers : List (W × (W × V))} {readers : List R}

omit [DecidableEq W] [DecidableEq R] in
/-- Parked and resumed writers are among those that have written, in order. -/
theorem Kept.sublist_written (kept : Kept traffic writers readers) :
    ((traffic.channel.writerList ++ writers).map Prod.snd).Sublist traffic.written := by
  rw [← kept.order, List.map_append, Channel.contents, List.append_assoc traffic.channel.buffer]
  exact ((List.sublist_append_right _ _).trans (List.sublist_append_right _ _)).trans
    (List.sublist_append_left _ _)

omit [DecidableEq W] [DecidableEq R] in
/-- A writer is parked, or about to come in, once. -/
theorem Kept.nodup (kept : Kept traffic writers readers) :
    ((traffic.channel.writerList ++ writers).map Prod.fst).Nodup := by
  have named : (traffic.channel.writerList ++ writers).map Prod.fst =
      ((traffic.channel.writerList ++ writers).map Prod.snd).map Prod.fst := by
    rw [List.map_map]
    apply List.map_congr_left
    intro entry member
    obtain ⟨value, same, -⟩ := kept.parked entry member
    rw [Function.comp_apply, same]
  rw [named]
  exact kept.once.sublist (kept.sublist_written.map _)

/-- A write that is resumed was parked. -/
theorem absorb_writes (traffic : Traffic W R V) (channel : Channel W R (W × V))
    (resumed : List (Resumption W R (W × V))) (writer : W) :
    (traffic.absorb channel resumed).writes writer = traffic.writes writer ∨
      ∃ value, traffic.writes writer = .suspended value ∧ writer ∈ wokenWriters resumed ∧
        (traffic.absorb channel resumed).writes writer = .resuming value := by
  unfold absorb
  dsimp only
  split
  · next value suspended =>
      split
      · next wakes => exact Or.inr ⟨value, suspended, wakes, rfl⟩
      · exact Or.inl suspended.symm
  · exact Or.inl rfl

variable {channel : Channel W R (W × V)} {resumed : List (Resumption W R (W × V))}

/-- **Moving values.** What an operation of an open channel moves keeps what holds, with the
writer or the reader that came in now among the others. -/
theorem Kept.absorb (kept : Kept traffic writers readers)
    (active : traffic.channel.isActive = true)
    (moved : traffic.channel.Moved channel writers readers resumed) :
    Kept (traffic.absorb channel resumed) [] [] := by
  obtain ⟨undropped, unrejected⟩ := kept.fresh active
  obtain ⟨woken, names, cut⟩ := moved.writerList
  have lined := kept.line
  rw [← moved.readerList] at lined
  obtain ⟨handedOnce, lineOnce, apart⟩ := List.nodup_append.mp lined
  have idle : ∀ reader value, (reader, value) ∈ handedOver resumed →
      traffic.reads reader = .suspended := by
    intro reader value member
    apply kept.waiting
    rw [← moved.readerList]
    exact List.mem_append_left _ (List.mem_map_of_mem (f := Prod.fst) member)
  constructor
  · exact moved.settled
  · have order := kept.order
    rw [undropped, unrejected, List.append_nil, List.append_nil, ← moved.contents] at order
    simp only [Traffic.absorb, undropped, unrejected, List.append_nil, List.map_append,
      List.map_nil, List.append_assoc]
    exact order
  · exact fun closing => moved.isActive.trans (kept.closed closing)
  · exact fun _ => ⟨undropped, unrejected⟩
  · exact kept.once
  · intro entry member
    rw [List.append_nil] at member
    have there : entry ∈ traffic.channel.writerList ++ writers := by
      rw [← cut]
      exact List.mem_append_right _ member
    obtain ⟨value, same, suspended⟩ := kept.parked entry there
    refine ⟨value, same, ?_⟩
    rcases absorb_writes traffic channel resumed entry.1 with unchanged | ⟨_, _, wakes, _⟩
    · exact unchanged.trans suspended
    · -- a writer that is resumed is parked no more
      have once := kept.nodup
      rw [← cut, List.map_append, names] at once
      exact absurd rfl ((List.nodup_append.mp once).2.2 _ wakes _ (List.mem_map_of_mem member))
  · intro writer stage
    rcases absorb_writes traffic channel resumed writer with unchanged | ⟨_, _, _, resumes⟩
    · rw [unchanged] at stage
      exact kept.outside writer stage
    · rw [resumes] at stage
      simp at stage
  · intro writer value stage
    rcases absorb_writes traffic channel resumed writer with
      unchanged | ⟨held, suspended, wakes, resumes⟩
    · rw [unchanged] at stage
      exact kept.passed writer value stage
    · rw [resumes] at stage
      rw [← names] at wakes
      obtain ⟨entry, member, rfl⟩ := List.mem_map.mp wakes
      have there : entry ∈ traffic.channel.writerList ++ writers := by
        rw [← cut]
        exact List.mem_append_left _ member
      obtain ⟨own, same, parked⟩ := kept.parked entry there
      obtain rfl : own = held := Write.suspended.inj (parked.symm.trans suspended)
      obtain rfl : own = value := by simpa using stage
      exact same ▸ kept.sublist_written.mem (List.mem_map_of_mem (f := Prod.snd) there)
  · intro writer value stage
    rcases absorb_writes traffic channel resumed writer with unchanged | ⟨_, _, _, resumes⟩
    · rw [unchanged] at stage
      exact kept.accepted writer value stage
    · rw [resumes] at stage
      cases stage
  · intro reader member
    rw [List.append_nil] at member
    have there : reader ∈ traffic.channel.readerList ++ readers := by
      rw [← moved.readerList]
      exact List.mem_append_right _ member
    have unhanded : (handedOver resumed).lookup reader = none := by
      rw [List.lookup_eq_none_iff]
      intro entry handed
      rw [bne_iff_ne]
      exact (apart _ (List.mem_map_of_mem handed) _ member).symm
    simp only [Traffic.absorb, unhanded, moved.closed, List.not_mem_nil, ↓reduceIte]
    exact kept.waiting reader there
  · rw [List.append_nil]
    exact lineOnce
  · intro reader value
    change _ ↔ _ ∈ traffic.handed ++ handedOver resumed
    rw [List.mem_append, ← kept.held, ← lookup_eq_some_iff_mem handedOnce]
    simp only [Traffic.absorb, moved.closed, List.not_mem_nil, ↓reduceIte]
    cases found : (handedOver resumed).lookup reader with
    | none => simp
    | some other =>
        have member := (lookup_eq_some_iff_mem handedOnce reader other).mp found
        rw [idle reader other member]
        simp [Read.value]
  · intro reader value fails
    simp only [Traffic.absorb, moved.closed, List.not_mem_nil, ↓reduceIte] at fails
    split at fails
    · cases fails
    · exact moved.isActive.trans (kept.refused reader value fails)

omit [DecidableEq R] in
/-- A write that comes in is suspended before it is parked. -/
theorem Kept.pushWriter (kept : Kept traffic [] []) {writer : W} {value : V}
    (called : traffic.writes writer = .called value) (active : traffic.channel.isActive = true) :
    Kept { traffic.setWrite writer (.suspended value) with
      written := traffic.written ++ [(writer, value)] } [(writer, (writer, value))] [] := by
  obtain ⟨undropped, unrejected⟩ := kept.fresh active
  have absent := kept.outside writer (Or.inr ⟨value, called⟩)
  have others : ∀ other, other ≠ writer →
      (traffic.setWrite writer (.suspended value)).writes other = traffic.writes other :=
    fun other different => Function.update_of_ne different _ _
  have own : (traffic.setWrite writer (.suspended value)).writes writer = .suspended value :=
    Function.update_self _ _ _
  refine { kept with order := ?_, once := ?_, parked := ?_, outside := ?_, passed := ?_,
                     accepted := ?_ }
  · have order := kept.order
    rw [unrejected, List.map_nil, List.append_nil, List.append_nil] at order
    dsimp only [Traffic.setWrite]
    rw [unrejected, List.append_nil, ← order, List.append_assoc, List.append_assoc,
      List.append_assoc]
    rfl
  · dsimp only
    rw [List.map_append, List.nodup_append]
    refine ⟨kept.once, List.nodup_singleton _, ?_⟩
    intro other member new same
    obtain rfl := List.mem_singleton.mp same
    intro fresh
    exact absent (fresh ▸ member)
  · intro entry member
    rw [List.mem_append, List.mem_singleton] at member
    rcases member with parked | rfl
    · obtain ⟨held, same, suspended⟩ := kept.parked entry (List.mem_append_left _ parked)
      refine ⟨held, same, (others _ fun here => ?_).trans suspended⟩
      rw [here, called] at suspended
      cases suspended
    · exact ⟨value, rfl, own⟩
  · intro other stage
    by_cases same : other = writer
    · subst same
      rw [own] at stage
      simp at stage
    · rw [others other same] at stage
      rw [List.map_append, List.mem_append, not_or]
      exact ⟨kept.outside other stage, fun new => same (List.mem_singleton.mp new)⟩
  · intro other held stage
    by_cases same : other = writer
    · subst same
      rw [own] at stage
      simp at stage
    · rw [others other same] at stage
      exact List.mem_append_left _ (kept.passed other held stage)
  · intro other held stage
    by_cases same : other = writer
    · subst same
      rw [own] at stage
      cases stage
    · rw [others other same] at stage
      exact kept.accepted other held stage

omit [DecidableEq W] in
/-- A read that comes in is suspended before it is parked. -/
theorem Kept.pushReader (kept : Kept traffic [] []) {reader : R}
    (called : traffic.reads reader = .called) :
    Kept (traffic.setRead reader .suspended) [] [reader] := by
  have absent : reader ∉ traffic.channel.readerList := by
    intro member
    have suspended := kept.waiting reader (List.mem_append_left _ member)
    rw [called] at suspended
    cases suspended
  have line := kept.line
  rw [List.append_nil] at line
  refine { kept with waiting := ?_, line := ?_, held := ?_, refused := ?_ }
  · intro other member
    by_cases same : other = reader
    · subst same
      exact Function.update_self _ _ _
    · refine (Function.update_of_ne same _ _).trans (kept.waiting other ?_)
      rw [List.append_nil]
      exact (List.mem_append.mp member).resolve_right fun new => same (List.mem_singleton.mp new)
  · refine List.nodup_append.mpr ⟨line, List.nodup_singleton _, ?_⟩
    intro other member new same here
    rw [List.mem_singleton.mp same] at here
    exact absent (here ▸ member)
  · intro other value
    refine Iff.trans ?_ (kept.held other value)
    by_cases same : other = reader
    · subst same
      simp only [Traffic.setRead, Function.update_self, called, Read.value]
    · simp only [Traffic.setRead, Function.update_of_ne same]
  · intro other value fails
    by_cases same : other = reader
    · subst same
      simp [Traffic.setRead] at fails
    · simp only [Traffic.setRead, Function.update_of_ne same] at fails
      exact kept.refused other value fails

omit [DecidableEq W] [DecidableEq R] in
/-- `close()` clears the flag. -/
theorem Kept.close (kept : Kept traffic [] []) :
    Kept { traffic with
      channel := { traffic.channel with isActive := false }
      closing := true } [] [] := by
  refine { kept with
    settled := ?_, closed := fun _ => rfl, fresh := fun active => Bool.noConfusion active,
    refused := fun _ _ _ => rfl }
  exact ⟨kept.settled.readers, kept.settled.writers, kept.settled.bounded⟩

omit [DecidableEq W] [DecidableEq R] in
/-- `clean_up` resumes all parked writers and readers, and hands nothing over. -/
theorem cleanUp_resumed (channel : Channel W R (W × V)) :
    handedOver channel.cleanUp.2 = [] ∧
      wokenWriters channel.cleanUp.2 = channel.writerList.map Prod.fst ∧
      closedReaders channel.cleanUp.2 = channel.readerList := by
  simp only [Channel.cleanUp, handedOver, wokenWriters, closedReaders, List.filterMap_append,
    List.filterMap_map]
  simp

/-- `clean_up` drops the buffer and sends the parked writers and readers back. -/
theorem Kept.cleanUp (kept : Kept traffic [] []) (closing : traffic.closing = true) :
    Kept traffic.cleanUp [] [] := by
  obtain ⟨unhanded, woken, sent⟩ := cleanUp_resumed traffic.channel
  have inactive := kept.closed closing
  have handed : traffic.cleanUp.handed = traffic.handed := by
    change traffic.handed ++ handedOver traffic.channel.cleanUp.2 = _
    rw [unhanded, List.append_nil]
  have writes : ∀ writer, traffic.cleanUp.writes writer = traffic.writes writer ∨
      ∃ value, traffic.writes writer = .suspended value ∧
        writer ∈ traffic.channel.writerList.map Prod.fst ∧
        traffic.cleanUp.writes writer = .resuming value := by
    intro writer
    rw [← woken]
    exact absorb_writes traffic traffic.channel.cleanUp.1 traffic.channel.cleanUp.2 writer
  constructor
  · exact ⟨fun some => absurd rfl some, fun some => absurd rfl some, Nat.zero_le _⟩
  · have order := kept.order
    rw [List.map_nil, List.append_nil, Channel.contents] at order
    rw [handed]
    simp only [Traffic.cleanUp, Traffic.absorb, Channel.contents, Channel.cleanUp, List.map_nil,
      List.append_nil, List.append_assoc] at order ⊢
    exact order
  · exact fun closing => Bool.noConfusion closing
  · intro active
    change traffic.channel.isActive = true at active
    rw [inactive] at active
    cases active
  · exact kept.once
  · exact fun _ member => absurd member List.not_mem_nil
  · intro writer stage
    rcases writes writer with unchanged | ⟨_, _, _, resumes⟩
    · rw [unchanged] at stage
      exact kept.outside writer stage
    · rw [resumes] at stage
      simp at stage
  · intro writer value stage
    rcases writes writer with unchanged | ⟨held, suspended, parked, resumes⟩
    · rw [unchanged] at stage
      exact kept.passed writer value stage
    · rw [resumes] at stage
      obtain rfl : held = value := by simpa using stage
      obtain ⟨entry, member, rfl⟩ := List.mem_map.mp parked
      have there := List.mem_append_left [] member
      obtain ⟨own, same, here⟩ := kept.parked entry there
      obtain rfl : own = held := Write.suspended.inj (here.symm.trans suspended)
      exact same ▸ kept.sublist_written.mem (List.mem_map_of_mem (f := Prod.snd) there)
  · intro writer value stage rejected
    rcases writes writer with unchanged | ⟨_, _, _, resumes⟩
    · rw [unchanged] at stage
      change writer ∈ (traffic.channel.writerList.map Prod.snd ++ traffic.rejected).map Prod.fst
        at rejected
      rw [List.map_append, List.mem_append] at rejected
      refine rejected.elim (fun parked => ?_) (kept.accepted writer value stage)
      -- a write that completed is not parked
      obtain ⟨item, there, rfl⟩ := List.mem_map.mp parked
      obtain ⟨entry, member, rfl⟩ := List.mem_map.mp there
      obtain ⟨own, same, here⟩ := kept.parked entry (List.mem_append_left [] member)
      rw [same, here] at stage
      cases stage
    · rw [resumes] at stage
      cases stage
  · exact fun _ member => absurd member List.not_mem_nil
  · exact List.nodup_nil
  · intro reader value
    rw [handed, ← kept.held reader value]
    change (match (handedOver traffic.channel.cleanUp.2).lookup reader with
      | some value => Read.resuming (some value)
      | none => if reader ∈ closedReaders traffic.channel.cleanUp.2 then .resuming none
          else traffic.reads reader).value = _ ↔ _
    rw [unhanded, sent]
    dsimp only [List.lookup_nil]
    split
    · next parked =>
        rw [kept.waiting reader (List.mem_append_left _ parked)]
        rfl
    · exact Iff.rfl
  · exact fun _ _ _ => inactive

/-- **One step** keeps what holds. -/
theorem Kept.step (kept : Kept traffic [] []) {event : Event W R V} {next : Traffic W R V}
    (stepped : traffic.step event = some next) : Kept next [] [] := by
  cases event with
  | write writer value =>
      simp only [Traffic.step] at stepped
      split at stepped
      · next idle =>
          cases stepped
          refine kept.setWrite writer _ (by simp [idle]) (fun _ => ?_) ?_ ?_
          · exact kept.outside writer (Or.inl idle)
          · split <;> simp
          · split <;> simp
      · cases stepped
  | pushWriter writer =>
      simp only [Traffic.step] at stepped
      split at stepped
      · next value called =>
          split at stepped
          · next channel resumed pushed =>
              have active := Channel.isActive_of_tryPushWriter pushed
              cases stepped
              exact (kept.pushWriter called active).absorb active
                (kept.settled.tryPushWriter pushed)
          · cases stepped
            exact kept.setWrite writer .failed (by simp [called]) (by simp) (by simp) (by simp)
      · cases stepped
  | resumeWriter writer =>
      simp only [Traffic.step] at stepped
      split at stepped
      · next value resuming =>
          cases stepped
          refine kept.setWrite writer _ (by simp [resuming]) ?_ ?_ ?_
          · split <;> simp
          · intro other stage
            have passed := kept.passed writer value (Or.inl resuming)
            split at stage
            · obtain rfl : value = other := by simpa using stage
              exact passed
            · simp at stage
          · intro other stage
            split at stage
            · next active =>
                rw [(kept.fresh active).2]
                exact List.not_mem_nil
            · cases stage
      · cases stepped
  | read reader =>
      simp only [Traffic.step] at stepped
      split at stepped
      · next idle =>
          cases stepped
          refine kept.setRead reader _ (by simp [idle]) ?_ ?_
          · rw [idle]
            split <;> rfl
          · split <;> simp
      · cases stepped
  | pushReader reader =>
      simp only [Traffic.step] at stepped
      split at stepped
      · next called =>
          split at stepped
          · next channel resumed pushed =>
              have active := Channel.isActive_of_tryPushReader pushed
              cases stepped
              exact (kept.pushReader called).absorb active (kept.settled.tryPushReader pushed)
          · cases stepped
            exact kept.setRead reader (.failed none) (by simp [called]) (by rw [called]; rfl)
              (by simp)
      · cases stepped
  | resumeReader reader =>
      simp only [Traffic.step] at stepped
      split at stepped
      · next value resuming =>
          cases stepped
          refine kept.setRead reader _ (by simp [resuming]) ?_ ?_
          · rw [resuming]
            split <;> rfl
          · intro other stage
            split at stage
            · cases stage
            · next closed => exact Bool.eq_false_iff.mpr closed
      · cases stepped
  | close =>
      simp only [Traffic.step] at stepped
      split at stepped
      · cases stepped
        exact kept.close
      · cases stepped
  | cleanUp =>
      simp only [Traffic.step] at stepped
      split at stepped
      · next closing =>
          cases stepped
          exact kept.cleanUp closing
      · cases stepped

end Steps

section Runs

variable {traffic : Traffic W R V}

theorem kept_of_reaches {capacity : Nat}
    (reached : machine.Reaches Machine.anyStep (new capacity) traffic) : Kept traffic [] [] := by
  refine reached.invariant (fun traffic => Kept traffic [] []) ?_
    fun before event after kept _ stepped => kept.step stepped
  constructor
  · exact ⟨fun some => absurd rfl some, fun some => absurd rfl some, Nat.zero_le _⟩
  · rfl
  · exact fun closing => Bool.noConfusion closing
  · exact fun _ => ⟨rfl, rfl⟩
  · exact List.nodup_nil
  · exact fun _ member => absurd member List.not_mem_nil
  · exact fun _ _ => List.not_mem_nil
  · intro writer value stage
    simp [new] at stage
  · intro writer value stage
    cases stage
  · exact fun _ member => absurd member List.not_mem_nil
  · exact List.nodup_nil
  · intro reader value
    simp [new, Read.value]
  · intro reader value stage
    cases stage

/-- The value was handed to a read. -/
def Handed (traffic : Traffic W R V) (reader : R) (value : W × V) : Prop :=
  (traffic.reads reader).value = some value

omit [DecidableEq W] [DecidableEq R] in
/-- The values handed over, dropped and buffered are different ones. -/
theorem Kept.apart (kept : Kept traffic [] []) :
    (traffic.handed.map Prod.snd ++ traffic.dropped ++ traffic.channel.buffer).Nodup := by
  have once := List.Nodup.of_map _ kept.once
  rw [← kept.order, List.map_nil, List.append_nil, Channel.contents] at once
  refine once.sublist (List.Sublist.trans ?_ (List.sublist_append_left _ _))
  exact List.Sublist.append (List.Sublist.refl _) (List.sublist_append_left _ _)

omit [DecidableEq W] [DecidableEq R] in
/-- A write that completed put its value where readers get it from. -/
theorem Kept.mem_of_completed (kept : Kept traffic [] []) {writer : W} {value : V}
    (completed : traffic.writes writer = .completed value) :
    (writer, value) ∈ traffic.handed.map Prod.snd ++ traffic.dropped ++ traffic.channel.buffer := by
  have written := kept.passed writer value (Or.inr completed)
  rw [← kept.order, List.map_nil, List.append_nil, Channel.contents] at written
  simp only [List.mem_append] at written ⊢
  rcases written with (earlier | buffered | parked) | rejected
  · exact Or.inl earlier
  · exact Or.inr buffered
  · obtain ⟨entry, member, same⟩ := List.mem_map.mp parked
    obtain ⟨held, own, suspended⟩ := kept.parked entry (List.mem_append_left _ member)
    rw [same, Prod.mk.injEq] at own
    rw [← own.1, completed] at suspended
    cases suspended
  · exact absurd (List.mem_map.mpr ⟨_, rejected, rfl⟩) (kept.accepted writer value completed)

/-- **Closing.** In every run, a value whose write completed is in the buffer, or was dropped
with it by `close()`, or was handed to exactly one read, which has returned it, is about to
be resumed, or was resumed only when the channel was closed. -/
theorem close_drops_buffer_only (capacity : Nat)
    (reached : machine.Reaches Machine.anyStep (new capacity) traffic) {writer : W} {value : V}
    (completed : traffic.writes writer = .completed value) :
    ((writer, value) ∈ traffic.channel.buffer ∧ (writer, value) ∉ traffic.dropped ∧
        ∀ reader, ¬traffic.Handed reader (writer, value)) ∨
      ((writer, value) ∉ traffic.channel.buffer ∧ (writer, value) ∈ traffic.dropped ∧
        (∀ reader, ¬traffic.Handed reader (writer, value)) ∧ traffic.channel.isActive = false) ∨
      ((writer, value) ∉ traffic.channel.buffer ∧ (writer, value) ∉ traffic.dropped ∧
        ∃ reader, (∀ other, traffic.Handed other (writer, value) ↔ other = reader) ∧
          (traffic.reads reader = .returned (some (writer, value)) ∨
            traffic.reads reader = .resuming (some (writer, value)) ∨
            traffic.reads reader = .failed (some (writer, value)) ∧
              traffic.channel.isActive = false)) := by
  have kept := kept_of_reaches reached
  obtain ⟨earlier, -, unbuffered⟩ := List.nodup_append.mp kept.apart
  obtain ⟨handedOnce, -, undropped⟩ := List.nodup_append.mp earlier
  have handed : ∀ reader, traffic.Handed reader (writer, value) ↔
      (reader, (writer, value)) ∈ traffic.handed := fun reader => kept.held reader _
  have passes : ∀ reader, traffic.Handed reader (writer, value) →
      (writer, value) ∈ traffic.handed.map Prod.snd := fun reader holds =>
    List.mem_map.mpr ⟨_, (handed reader).mp holds, rfl⟩
  have place := kept.mem_of_completed completed
  rw [List.mem_append, List.mem_append] at place
  rcases place with (given | drop) | buffered
  · right; right
    obtain ⟨⟨reader, item⟩, member, same⟩ := List.mem_map.mp given
    obtain rfl : item = (writer, value) := same
    have own := (handed reader).mpr member
    refine ⟨fun buffered => ?_, fun drop => undropped _ given _ drop rfl, reader,
      fun other => ⟨fun holds => ?_, fun same => same ▸ own⟩, ?_⟩
    · exact unbuffered _ (List.mem_append_left _ given) _ buffered rfl
    · exact congrArg Prod.fst
        (List.inj_on_of_nodup_map handedOnce ((handed other).mp holds) member rfl)
    · unfold Handed at own
      cases stage : traffic.reads reader with
      | idle | called | suspended =>
          rw [stage] at own
          cases own
      | resuming item =>
          rw [stage] at own
          exact Or.inr (Or.inl (congrArg Read.resuming own))
      | returned item =>
          rw [stage] at own
          exact Or.inl (congrArg Read.returned own)
      | failed item =>
          rw [stage] at own
          obtain rfl : item = some (writer, value) := own
          exact Or.inr (Or.inr ⟨rfl, kept.refused reader _ stage⟩)
  · right; left
    refine ⟨fun buffered => ?_, drop, fun reader holds => ?_, ?_⟩
    · exact unbuffered _ (List.mem_append_right _ drop) _ buffered rfl
    · exact undropped _ (passes reader holds) _ drop rfl
    · rw [← Bool.not_eq_true]
      intro active
      rw [(kept.fresh active).1] at drop
      exact absurd drop List.not_mem_nil
  · left
    refine ⟨buffered, fun drop => ?_, fun reader holds => ?_⟩
    · exact unbuffered _ (List.mem_append_right _ drop) _ buffered rfl
    · exact unbuffered _ (List.mem_append_left _ (passes reader holds)) _ buffered rfl

end Runs

/-- A value is written, read and returned before the channel is closed. -/
theorem close_drops_buffer_only_returned :
    ∃ traffic : Traffic Nat Nat Char, machine.execute Machine.anyStep
        [.write 0 'a', .pushWriter 0, .resumeWriter 0, .read 1, .pushReader 1, .resumeReader 1,
          .close, .cleanUp] (new 1) = some traffic ∧
      traffic.reads 1 = .returned (some (0, 'a')) ∧
      ∃ reader, ∀ other, traffic.Handed other (0, 'a') ↔ other = reader := by
  have ran : ((machine (W := Nat) (R := Nat)).execute Machine.anyStep
      [.write 0 'a', .pushWriter 0, .resumeWriter 0, .read 1, .pushReader 1, .resumeReader 1,
        .close, .cleanUp] (new 1)).map (fun traffic => decide (
          traffic.writes 0 = .completed 'a' ∧ traffic.reads 1 = .returned (some (0, 'a')) ∧
            (0, 'a') ∉ traffic.channel.buffer ∧ (0, 'a') ∉ traffic.dropped)) = some true := by
    decide
  obtain ⟨traffic, executed, checked⟩ := Option.map_eq_some_iff.mp ran
  obtain ⟨completed, returned, unbuffered, undropped⟩ := of_decide_eq_true checked
  refine ⟨traffic, executed, returned, ?_⟩
  rcases close_drops_buffer_only 1 (Machine.reaches_of_execute executed) completed with
    buffered | drop | handed
  · exact absurd buffered.1 unbuffered
  · exact absurd drop.2.1 undropped
  · obtain ⟨-, -, reader, only, -⟩ := handed
    exact ⟨reader, only⟩

/-- What was dropped stays dropped. -/
theorem dropped_step {traffic : Traffic W R V} {event : Event W R V} {next : Traffic W R V}
    (stepped : traffic.step event = some next) {item : W × V} (drop : item ∈ traffic.dropped) :
    item ∈ next.dropped := by
  cases event with
  | cleanUp =>
      simp only [step] at stepped
      split at stepped
      · cases stepped
        exact List.mem_append_left _ drop
      · cases stepped
  | write | pushWriter | resumeWriter | read | pushReader | resumeReader | close =>
      simp only [step] at stepped
      repeat' split at stepped
      all_goals first
        | cases stepped
          exact drop
        | cases stepped

/-- A value that was written, whose write completed, and that is still in the buffer when the
channel is closed is never returned. -/
theorem close_loses_buffered :
    ∃ traffic : Traffic Nat Nat Char,
      machine.Reaches Machine.anyStep (new 1) traffic ∧ traffic.writes 0 = .completed 'a' ∧
      ∀ later, machine.Reaches Machine.anyStep traffic later →
        ∀ reader, later.reads reader ≠ .returned (some (0, 'a')) := by
  have ran : ((machine (W := Nat) (R := Nat)).execute Machine.anyStep
      [.write 0 'a', .pushWriter 0, .resumeWriter 0, .close, .cleanUp] (new 1)).map
      (fun traffic => decide (traffic.writes 0 = .completed 'a' ∧ (0, 'a') ∈ traffic.dropped)) =
      some true := by decide
  obtain ⟨traffic, executed, checked⟩ := Option.map_eq_some_iff.mp ran
  obtain ⟨completed, drop⟩ := of_decide_eq_true checked
  have reached := Machine.reaches_of_execute executed
  refine ⟨traffic, reached, completed, ?_⟩
  intro later continues reader returned
  have kept := kept_of_reaches (reached.trans continues)
  have stays : (0, 'a') ∈ later.dropped :=
    continues.invariant (fun traffic => (0, 'a') ∈ traffic.dropped) drop
      fun _ _ _ drop _ stepped => dropped_step stepped drop
  have handed := (kept.held reader (0, 'a')).mp (by rw [returned]; rfl)
  have apart := (List.nodup_append.mp (List.nodup_append.mp kept.apart).1).2.2
  exact apart _ (List.mem_map.mpr ⟨_, handed, rfl⟩) _ stays rfl

end Traffic

end FastDb.Coroutine
