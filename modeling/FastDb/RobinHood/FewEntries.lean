import FastDb.RobinHood.Dictionary

/-! # Tables with few entries

With at most 126 entries no key is so far from its home that its info byte overflows at the
smallest increment. Such a table never throws, whatever the hash function: it answers every
sequence of calls exactly as a finite map
(`FastDb.RobinHood.Table.answers_of_few`).
-/

namespace FastDb.RobinHood

open Foundation

/-- A large array allows more than few entries. -/
theorem few_lt_allowed {load maxElements : Nat} (large : 10 < load) (many : 2048 ≤ maxElements) :
    fewEntries < calcMaxNumElementsAllowed load maxElements := by
  rw [fewEntries, calcMaxNumElementsAllowed]
  split
  · have least : maxElements * 11 ≤ maxElements * load := Nat.mul_le_mul_left _ large
    omega
  · have least : maxElements / 100 * 11 ≤ maxElements / 100 * load := Nat.mul_le_mul_left _ large
    omega

/-- The calls that reserve no more than the largest array allows. -/
def Call.within {κ ν : Type} (load : Nat) : Call κ ν → Bool
  | .reserve count | .rehash count => count ≤ mostAllowed load
  | _ => true

/-- Few entries fit into the largest array. -/
theorem few_le_mostAllowed {load : Nat} (large : 10 < load) : fewEntries ≤ mostAllowed load :=
  Nat.le_of_lt (few_lt_allowed large (by omega))

section Answer

variable {ν : Type}

theorem Answer.value_ne (found : Option ν) : Answer.value found ≠ .overflow := by simp

theorem Answer.flag_ne (yes : Bool) : (Answer.flag yes : Answer ν) ≠ .overflow := by simp

theorem Answer.count_ne (number : Nat) : (Answer.count number : Answer ν) ≠ .overflow := by simp

theorem Answer.done_ne : (Answer.done : Answer ν) ≠ .overflow := by simp

end Answer

namespace Table

variable {κ ν : Type} {hash : κ → UInt64} {load : Nat} {table : Table κ ν}

/-! ## Insertions -/

/-- How preparing an insertion ends that does not throw. -/
inductive Settled (load : Nat) (key : κ) : Table κ ν × InsertionState → Prop
  | found (next : Table κ ν) (idx : Nat) (value : ν) (node : next.node load idx = some (key, value))
      (lenient : next.Lenient) : Settled load key (next, .keyFound idx)
  | spot (next : Table κ ν) (idx : Nat) (state : InsertionState)
      (either : state = .newNode idx ∨ state = .overwriteNode idx)
      (lenient : ∀ value, (next.place idx key value).Lenient) : Settled load key (next, state)

section Growing

/-- Growing a table that is closed but allows another entry: the info makes room. -/
theorem Valid.increaseSize_closed (valid : Valid hash load table) (lenient : table.Lenient)
    (full : table.maxNumElementsAllowed ≤ table.numElements)
    (more : table.numElements < calcMaxNumElementsAllowed load (table.mask + 1)) :
    ¬ table.infoInc ≤ 2 ∧
      table.increaseSize hash load = some ((table.tryIncreaseInfo load).2, true) := by
  have notSmallest : ¬ table.infoInc ≤ 2 := by
    intro smallest
    obtain ⟨allowed, -⟩ := valid.headroom (lenient smallest)
    omega
  obtain ⟨increased, -⟩ := valid.tryIncreaseInfo_shape notSmallest
  refine ⟨notSmallest, ?_⟩
  rw [increaseSize, if_neg valid.allocated]
  dsimp only
  rw [if_pos ⟨more, increased⟩]

/-- Growing a table that allows no more: the array is doubled. -/
theorem Valid.increaseSize_full (valid : Valid hash load table)
    (full : calcMaxNumElementsAllowed load (table.mask + 1) ≤ table.numElements)
    (small : table.numElements ≤ fewEntries) :
    ∃ next, table.increaseSize hash load = some (next, true) ∧ Valid hash load next ∧
      next.mask + 1 = (table.mask + 1) * 2 ∧ Grown hash load table next true := by
  obtain ⟨next, completed, rehashed, mask, grown⟩ := valid.rehashPowerOfTwo_spec rfl rfl rfl
    (show 2 ≤ (table.mask + 1) * 2 by omega)
    (valid.allowed.trans (calcMaxNumElementsAllowed_double load _))
  obtain ⟨rfl, -⟩ := grown.lenient small
  refine ⟨next, ?_, ?_, by omega, grown⟩
  · rw [increaseSize, if_neg valid.allocated]
    dsimp only
    rw [if_neg fun both => absurd both.1 (Nat.not_lt.mpr full), if_neg (by omega)]
    exact rehashed
  · rcases grown.ready with unallocated | validNext
    · have none := unallocated.mask_eq
      omega
    · exact validNext

end Growing

section Insert

variable [DecidableEq κ] {key : κ}

/-- An attempt at a key that is not held, in a table with room for it. -/
theorem Valid.settles_open (valid : Valid hash load table)
    (absent : ∀ value, ¬ table.Holds key value) (few : table.numElements < fewEntries)
    (more : table.numElements < table.maxNumElementsAllowed) (attempts : Nat) :
    ∃ result, prepare hash load key (attempts + 1) table = some result ∧
      Settled load key result := by
  have room : table.maxNumElementsAllowed ≠ 0 := by omega
  obtain ⟨allowed, -⟩ := valid.headroom room
  obtain ⟨next, idx, empty, state, found, either, spot, opened⟩ :=
    valid.prepare_open absent attempts more
  refine ⟨_, found, .spot next idx state either fun value => ?_⟩
  exact (valid.place spot opened absent room (by omega) value).lenient_place opened room few

/-- Two attempts at a key that is not held, in an array that allows it. -/
theorem Valid.settles_allowed (valid : Valid hash load table) (lenient : table.Lenient)
    (absent : ∀ value, ¬ table.Holds key value) (few : table.numElements < fewEntries)
    (more : table.numElements < calcMaxNumElementsAllowed load (table.mask + 1))
    (attempts : Nat) :
    ∃ result, prepare hash load key (attempts + 2) table = some result ∧
      Settled load key result := by
  rcases Nat.lt_or_ge table.numElements table.maxNumElementsAllowed with room | full
  · exact valid.settles_open absent few room (attempts + 1)
  · obtain ⟨notSmallest, increased⟩ := valid.increaseSize_closed lenient full more
    obtain ⟨-, -, keyVals, count, -, allowed, -, -⟩ := valid.tryIncreaseInfo_shape notSmallest
    rw [valid.prepare_full absent (attempts + 1) full, increased, Option.bind_some, if_pos rfl]
    refine (valid.tryIncreaseInfo notSmallest).settles_open (fun value held => ?_) ?_ ?_ attempts
    · rw [Holds, keyVals] at held
      exact absent value held
    · rwa [count]
    · rwa [count, allowed]

/-- Attempts at a key that is not held: the array is doubled until it allows it. -/
theorem Valid.settles_absent (valid : Valid hash load table) (lenient : table.Lenient)
    (absent : ∀ value, ¬ table.Holds key value) (few : table.numElements < fewEntries)
    (doubled : Nat) {attempts : Nat} (enough : 2 * doubled + 2 ≤ attempts)
    (allowed : fewEntries < calcMaxNumElementsAllowed load ((table.mask + 1) * 2 ^ doubled)) :
    ∃ result, prepare hash load key attempts table = some result ∧ Settled load key result := by
  induction doubled generalizing table attempts with
  | zero =>
      obtain ⟨attempts, rfl⟩ := Nat.exists_eq_add_of_le' enough
      rw [Nat.pow_zero, Nat.mul_one] at allowed
      exact valid.settles_allowed lenient absent few (few.trans allowed) _
  | succ doubled ih =>
      obtain ⟨attempts, rfl⟩ := Nat.exists_eq_add_of_le' (show 2 ≤ attempts by omega)
      rcases Nat.lt_or_ge table.numElements (calcMaxNumElementsAllowed load (table.mask + 1))
        with more | full
      · exact valid.settles_allowed lenient absent few more attempts
      · have noRoom : table.maxNumElementsAllowed ≤ table.numElements := by
          by_cases closed : table.maxNumElementsAllowed = 0
          · omega
          · exact (valid.headroom closed).1.trans_le full
        obtain ⟨next, doubledSize, validNext, mask, grown⟩ :=
          valid.increaseSize_full full (Nat.le_of_lt few)
        rw [valid.prepare_full absent (attempts + 1) noRoom, doubledSize, Option.bind_some,
          if_pos rfl]
        refine ih validNext (grown.lenient (Nat.le_of_lt few)).2
          (fun value held => absent value (grown.holds key value held)) ?_ (by omega) ?_
        · rwa [grown.count rfl]
        · rwa [mask, Nat.mul_assoc, ← Nat.pow_succ']

/-- A valid table with few entries settles where a key goes. -/
theorem Valid.settles (valid : Valid hash load table) (lenient : table.Lenient)
    (few : (∀ value, ¬ table.Holds key value) → table.numElements < fewEntries)
    (large : 10 < load) {attempts : Nat} (enough : 22 ≤ attempts) :
    ∃ result, prepare hash load key attempts table = some result ∧ Settled load key result := by
  by_cases held : ∃ value, table.Holds key value
  · obtain ⟨value, holds⟩ := held
    obtain ⟨attempts, rfl⟩ := Nat.exists_eq_add_of_le' (Nat.one_le_of_lt enough)
    obtain ⟨idx, content, stored, found⟩ := valid.prepare_stored holds attempts
    refine ⟨_, found, .found table idx content ?_ lenient⟩
    rw [valid.node_eq (valid.coded idx _ stored).1, stored]
  · have absent : ∀ value, ¬ table.Holds key value := fun value holds => held ⟨value, holds⟩
    have allocated := valid.allocated
    exact valid.settles_absent lenient absent (few absent) 10 (by omega)
      (few_lt_allowed large (by omega))

/-- **Preparing** an insertion into a lenient table does not throw. -/
theorem Ready.settles (ready : Ready hash load table) (lenient : table.Lenient)
    (few : (∀ value, ¬ table.Holds key value) → table.numElements < fewEntries)
    (large : 10 < load) :
    ∃ result, table.insertKeyPrepareEmptySpot hash load key = some result ∧
      Settled load key result := by
  rcases ready with unallocated | valid
  · have fresh := initData_valid hash load table (show 2 ≤ initialNumElements by decide)
    rw [insertKeyPrepareEmptySpot, unallocated.prepare_succ]
    exact fresh.settles (initData_lenient _) (fun _ => show 0 < fewEntries by decide) large
      (by omega)
  · exact valid.settles lenient few large (by omega)

end Insert

/-! ## One call -/

variable [DecidableEq κ] {entries : Finmap fun _ : κ => ν}

/-- A call that does not throw and keeps the table lenient. -/
def Undisturbed (hash : κ → UInt64) (load : Nat) (table : Table κ ν) (call : Call κ ν) : Prop :=
  ∃ answer, table.perform hash load call = some answer ∧ answer.2 ≠ .overflow ∧ answer.1.Lenient

/-- A key can be inserted where the dictionary has room for it. -/
theorem Shows.settles (shows : Shows hash load table entries) (lenient : table.Lenient) {key : κ}
    (few : entries.lookup key = none → entries.keys.card < fewEntries) (large : 10 < load) :
    ∃ result, table.insertKeyPrepareEmptySpot hash load key = some result ∧
      Settled load key result := by
  refine shows.ready.settles lenient (fun absent => ?_) large
  rw [← shows.card_keys]
  exact few (shows.lookup_of_absent absent)

section Inserts

variable {key : κ} {result : Table κ ν × InsertionState}

/-- `emplace` is answered where it settles. -/
theorem undisturbed_emplace (value : ν)
    (prepared : table.insertKeyPrepareEmptySpot hash load key = some result)
    (settled : Settled load key result) : Undisturbed hash load table (.emplace key value) := by
  rw [Undisturbed, perform, emplace, prepared]
  cases settled with
  | found next idx old node lenient => exact ⟨_, rfl, Answer.flag_ne _, lenient⟩
  | spot next idx state either lenient =>
      rcases either with rfl | rfl <;> exact ⟨_, rfl, Answer.flag_ne _, lenient value⟩

/-- `insert_or_assign` is answered where it settles. -/
theorem undisturbed_insertOrAssign (value : ν)
    (prepared : table.insertKeyPrepareEmptySpot hash load key = some result)
    (settled : Settled load key result) :
    Undisturbed hash load table (.insertOrAssign key value) := by
  rw [Undisturbed, perform, insertOrAssign, prepared, Option.bind_some]
  cases settled with
  | found next idx old node lenient =>
      dsimp only
      rw [node]
      exact ⟨_, rfl, Answer.flag_ne _, lenient⟩
  | spot next idx state either lenient =>
      rcases either with rfl | rfl <;> exact ⟨_, rfl, Answer.flag_ne _, lenient value⟩

/-- `operator[]` is answered where it settles. -/
theorem undisturbed_subscript (fresh : ν)
    (prepared : table.insertKeyPrepareEmptySpot hash load key = some result)
    (settled : Settled load key result) : Undisturbed hash load table (.subscript key fresh) := by
  rw [Undisturbed, perform, subscript, prepared, Option.bind_some]
  cases settled with
  | found next idx value node lenient =>
      dsimp only
      rw [node]
      exact ⟨_, rfl, Answer.value_ne _, lenient⟩
  | spot next idx state either lenient =>
      rcases either with rfl | rfl <;> exact ⟨_, rfl, Answer.value_ne _, lenient fresh⟩

end Inserts

/-- A new key makes one more. -/
theorem card_keys_insert {key : κ} (value : ν) (absent : entries.lookup key = none) :
    (entries.insert key value).keys.card = entries.keys.card + 1 := by
  have keys : (entries.insert key value).keys = insert key entries.keys := by
    ext other
    rw [Finmap.mem_keys, Finmap.mem_insert, Finset.mem_insert, Finmap.mem_keys]
  rw [keys, Finset.card_insert_of_notMem]
  rwa [Finmap.mem_keys, ← Finmap.lookup_eq_none]

namespace Shows

/-- `reserve` is answered where the array allows the count. -/
theorem undisturbed_reserve (shows : Shows hash load table entries) (lenient : table.Lenient)
    (large : 10 < load) (small : load < 100) {call : Call κ ν} {count : Nat} {forceRehash : Bool}
    (few : entries.keys.card ≤ fewEntries) (within : decide (count ≤ mostAllowed load))
    (performs : table.perform hash load call =
      (table.reserve hash load count forceRehash).map doneOr) :
    Undisturbed hash load table call := by
  have fewNodes := shows.card_keys.symm.trans_le few
  obtain ⟨next, completed, reserved, -, keeps⟩ :=
    shows.ready.reserve_spec small count forceRehash
  obtain ⟨rfl, lenientNext⟩ := keeps lenient fewNodes
    (max_le (of_decide_eq_true within) (fewNodes.trans (few_le_mostAllowed large)))
  refine ⟨(next, .done), ?_, Answer.done_ne, lenientNext⟩
  rw [performs, reserved]
  rfl

/-- **No call** that leaves few entries throws. -/
theorem undisturbed (shows : Shows hash load table entries) (lenient : table.Lenient)
    (large : 10 < load) (small : load < 100) {call : Call κ ν} (within : call.within load)
    (few : (call.answer entries).1.keys.card ≤ fewEntries) : Undisturbed hash load table call := by
  have inserts : ∀ key : κ, (entries.lookup key = none → entries.keys.card < fewEntries) →
      ∃ result, table.insertKeyPrepareEmptySpot hash load key = some result ∧
        Settled load key result := fun _ few => shows.settles lenient few large
  cases call with
  | find key =>
      exact ⟨(table, .value (entries.lookup key)),
        by rw [perform, shows.find_eq, Option.map_some], Answer.value_ne _, lenient⟩
  | contains key =>
      obtain ⟨answer, -, performed, -⟩ := shows.answered_contains key
      refine ⟨answer, performed, ?_⟩
      obtain ⟨idx, -, rfl⟩ := Option.map_eq_some_iff.mp performed
      exact ⟨Answer.flag_ne _, lenient⟩
  | emplace key value =>
      obtain ⟨result, prepared, settled⟩ := inserts key fun absent => by
        rw [Call.answer, absent, if_neg (by simp), card_keys_insert value absent] at few
        exact few
      exact undisturbed_emplace value prepared settled
  | insertOrAssign key value =>
      obtain ⟨result, prepared, settled⟩ := inserts key fun absent => by
        rw [Call.answer, card_keys_insert value absent] at few
        exact few
      exact undisturbed_insertOrAssign value prepared settled
  | subscript key fresh =>
      obtain ⟨result, prepared, settled⟩ := inserts key fun absent => by
        rw [Call.answer, card_keys_insert _ absent] at few
        exact few
      exact undisturbed_subscript fresh prepared settled
  | erase key =>
      obtain ⟨next, count, erased, -, keeps, -⟩ := shows.ready.erase_spec key
      exact ⟨(next, .count count), by rw [perform, erased, Option.map_some], Answer.count_ne _,
        keeps lenient⟩
  | clear => exact ⟨_, rfl, Answer.done_ne, shows.ready.clear_spec.2.1 lenient⟩
  | reserve count => exact shows.undisturbed_reserve lenient large small few within rfl
  | rehash count => exact shows.undisturbed_reserve lenient large small few within rfl
  | compact =>
      have count := shows.card_keys.symm.trans_le few
      obtain ⟨next, completed, compacted, -, keeps⟩ := shows.ready.compact_spec small
      obtain ⟨rfl, lenientNext⟩ := keeps lenient count (count.trans (few_le_mostAllowed large))
      refine ⟨(next, .done), ?_, Answer.done_ne, lenientNext⟩
      rw [perform, compacted]
      rfl
  | size => exact ⟨_, rfl, Answer.count_ne _, lenient⟩

end Shows

/-- A finite map for as long as it has few entries. -/
def smallDictionary (load : Nat) : Component (Finmap fun _ : κ => ν) (Call κ ν) (Answer ν) where
  call entries call :=
    if call.within load ∧ (call.answer entries).1.keys.card ≤ fewEntries then
      some (call.answer entries)
    else none

/-- A table with few entries answers as the map does. -/
theorem small_simulation (hash : κ → UInt64) (large : 10 < load) (small : load < 100) :
    Component.Simulation (smallDictionary load) (tableComponent (ν := ν) hash load)
      fun entries table => Shows hash load table entries ∧ table.Lenient where
  answers entries table call answer related answered := by
    obtain ⟨shows, lenient⟩ := related
    obtain ⟨⟨within, few⟩, same⟩ := Option.ite_none_right_eq_some.mp answered
    obtain ⟨result, performed, noThrow, keeps⟩ := shows.undisturbed lenient large small within few
    obtain ⟨other, modelAnswer, alsoPerformed, allowed, agree⟩ := shows.answered_call small call
    obtain rfl := Option.some.inj (performed.symm.trans alsoPerformed)
    refine ⟨result, performed, ?_⟩
    rcases allowed with rfl | ⟨-, thrown, -⟩
    · obtain rfl := Option.some.inj same
      exact ⟨⟨agree.states, keeps⟩, agree.outputs.symm⟩
    · exact absurd (agree.outputs.trans thrown) noThrow

/-- **Few entries.** As long as the finite map has at most 126 entries the table gives its
answers, whatever the hash function. -/
theorem answers_of_few (hash : κ → UInt64) {load : Nat} (large : 10 < load) (small : load < 100)
    {calls : List (Call κ ν)} {entries : Finmap fun _ : κ => ν} {answers : List (Answer ν)}
    (few : (smallDictionary load).run calls ∅ = some (entries, answers)) :
    ∃ table, (tableComponent hash load).run calls {} = some (table, answers) ∧
      ∀ key, table.find hash load key = some (entries.lookup key) := by
  have start : Shows hash load {} (∅ : Finmap fun _ : κ => ν) ∧ ({} : Table κ ν).Lenient :=
    ⟨shows_empty _, fun smallest => absurd smallest (show ¬ 32 ≤ 2 by omega)⟩
  obtain ⟨⟨table, _⟩, ran, ⟨shows, -⟩, rfl⟩ :=
    (small_simulation hash large small).run start few
  exact ⟨table, ran, shows.find_eq⟩

/-- Two keys, which collide, are put in, one of them again, and one is taken out. -/
theorem answers_of_few_colliding : ∃ table,
    (tableComponent (fun _ : Nat => 0) 80).run
      [.emplace 1 10, .insertOrAssign 1 11, .subscript 2 20, .erase 1, .size] {} =
      some (table, [.flag true, .flag false, .value (some 20), .count 1, .count 1]) ∧
    ∀ key, table.find (fun _ : Nat => 0) 80 key =
      some (((∅ : Finmap fun _ : Nat => Nat).insert 2 20).lookup key) :=
  answers_of_few (fun _ => 0) (by omega) (by omega) (by decide +kernel)

end Table

end FastDb.RobinHood
