import FastDb.RobinHood.Growth

/-! # Attempts at an insertion

`insertKeyPrepareEmptySpot` walks to the nodes that may be the key's and past them, grows
the table when it must, and begins again. It settles with the key found, with a spot for a
key that is not held, or, after as many attempts or when growing throws, with an overflow
(`FastDb.RobinHood.Table.Ready.prepare_spec`).
-/

namespace FastDb.RobinHood

open Foundation Foundation.RobinHood

namespace Table

variable {κ ν : Type} {hash : κ → UInt64} {load : Nat} {table : Table κ ν}

/-- How preparing an insertion may end. -/
inductive Prepared (hash : κ → UInt64) (load : Nat) (table : Table κ ν) (key : κ) :
    Table κ ν × InsertionState → Prop
  | overflow (next : Table κ ν) (ready : Ready hash load next)
      (holds : ∀ other value, next.Holds other value → table.Holds other value) :
      Prepared hash load table key (next, .overflowError)
  | found (next : Table κ ν) (idx : Nat) (value : ν) (valid : Valid hash load next)
      (stored : next.keyVals idx = some (key, value))
      (holds : ∀ other value, next.Holds other value ↔ table.Holds other value) :
      Prepared hash load table key (next, .keyFound idx)
  | spot (next : Table κ ν) (idx : Nat) (state : InsertionState)
      (either : state = .newNode idx ∨ state = .overwriteNode idx)
      (absent : ∀ value, ¬ table.Holds key value)
      (valid : ∀ value, Valid hash load (next.place idx key value))
      (holds : ∀ value other content, (next.place idx key value).Holds other content ↔
        other = key ∧ content = value ∨ table.Holds other content) :
      Prepared hash load table key (next, state)

/-- What is prepared for a table with the same entries. -/
theorem Prepared.congr {key : κ} {next : Table κ ν} {result : Table κ ν × InsertionState}
    (prepared : Prepared hash load next key result)
    (same : ∀ other value, next.Holds other value ↔ table.Holds other value) :
    Prepared hash load table key result := by
  cases prepared with
  | overflow last ready holds =>
      exact .overflow last ready fun other value held =>
        (same other value).mp (holds other value held)
  | found last idx value valid stored holds =>
      exact .found last idx value valid stored fun other value =>
        (holds other value).trans (same other value)
  | spot last idx state either absent valid holds =>
      exact .spot last idx state either (fun value held => absent value ((same _ _).mpr held)) valid
        fun value other content =>
          (holds value other content).trans (or_congr_right (same other content))

section Prepare

variable [DecidableEq κ]

/-- The matching nodes of a held key. -/
theorem Valid.matchLoop_of_stored (valid : Valid hash load table) {key : κ} {value : ν}
    {last : Nat} (stored : table.keyVals last = some (key, value)) {fuel idx : Nat}
    (behind : table.home hash key ≤ idx) (before : idx ≤ last)
    (equal : table.info idx = table.infoAt hash key idx) (enough : last < idx + fuel) :
    table.matchLoop load key fuel idx (table.infoAt hash key idx) = some (.inl last) := by
  obtain ⟨inside, -, coded⟩ := valid.coded last _ stored
  induction fuel generalizing idx with
  | zero => omega
  | succ fuel ih =>
      have isNode : idx < table.numNodes load := Nat.lt_of_le_of_lt before inside
      have least := infoInc_le_infoAt hash table key idx
      have two := valid.two_le
      obtain ⟨entry, there⟩ := valid.exists_entry isNode (by omega)
      rw [matchLoop, valid.readInfo_eq (by omega), Option.bind_some, if_pos equal.symm,
        valid.node_eq isNode, there, Option.bind_some]
      split
      · next same =>
          exact congrArg (fun idx => some (Sum.inl idx))
            (valid.unique _ _ _ _ there stored same.symm)
      · next different =>
          have later : idx < last := by
            rcases Nat.eq_or_lt_of_le before with rfl | later
            · rw [stored] at there
              exact absurd (congrArg Prod.fst (Option.some.inj there)) different
            · exact later
          rw [← infoAt_succ behind]
          refine ih (by omega) later ?_ (by omega)
          have here : table.code load idx = table.infoAt hash key idx := by
            rw [code_of_lt isNode, equal]
          have reached : table.infoAt hash key last ≤ table.code load last := by
            rw [code_of_lt inside, coded]
          have same := valid.ordered.code_eq (by omega) behind here reached (Nat.le_succ idx) later
          rwa [code_of_lt (by omega)] at same

/-- The matching nodes of a key that is not held, up to a spot for it. -/
theorem Valid.matchLoop_of_absent (valid : Valid hash load table) {key : κ}
    (absent : ∀ value, ¬ table.Holds key value) {fuel idx : Nat}
    (behind : table.home hash key ≤ idx) (inside : idx ≤ table.numNodes load)
    (notLarger : table.info idx ≤ table.infoAt hash key idx)
    (passed : ∀ position, table.home hash key ≤ position → position < idx →
      table.infoAt hash key position ≤ table.info position)
    (enough : table.numNodes load < idx + fuel) :
    ∃ spot, Spot hash load table key spot ∧
      table.matchLoop load key fuel idx (table.infoAt hash key idx) =
        some (.inr (spot, table.infoAt hash key spot)) := by
  induction fuel generalizing idx with
  | zero => omega
  | succ fuel ih =>
      rw [matchLoop, valid.readInfo_eq (by omega), Option.bind_some]
      split
      · next equal =>
          have isNode : idx < table.numNodes load := by
            by_contra outside
            exact absurd equal
              (Nat.ne_of_gt (valid.info_lt_infoAt (Nat.le_of_not_lt outside) key idx))
          have least := infoInc_le_infoAt hash table key idx
          have two := valid.two_le
          obtain ⟨entry, there⟩ := valid.exists_entry isNode (by omega)
          have different : key ≠ entry.1 := by
            rintro rfl
            exact absent entry.2 ⟨idx, there⟩
          rw [valid.node_eq isNode, there, Option.bind_some, if_neg different,
            ← infoAt_succ behind]
          refine ih (by omega) (by omega) ?_ ?_ (by omega)
          · rw [infoAt_succ behind, equal]
            rcases Nat.lt_or_ge (idx + 1) (table.numNodes load) with next | past
            · have grows : table.code load (idx + 1) ≤ _ :=
                valid.ordered.succ_le (by rw [code_of_lt isNode]; omega)
              rwa [code_of_lt next, code_of_lt isNode] at grows
            · have less := valid.info_lt_infoAt past key (idx + 1)
              rw [infoAt_succ behind, equal] at less
              exact Nat.le_of_lt less
          · intro position from_home below
            rcases Nat.eq_or_lt_of_le (Nat.le_of_lt_succ below) with rfl | earlier
            · exact Nat.le_of_eq equal
            · exact passed position from_home earlier
      · next unequal =>
          exact ⟨idx, ⟨behind, inside, Nat.lt_of_le_of_ne notLarger (Ne.symm unequal), passed⟩, rfl⟩

/-- **One walk** of an attempt on a valid table. -/
theorem Valid.walk_spec (valid : Valid hash load table) (key : κ) :
    ∃ place, table.skip load (fun info byte => info < byte) (table.home hash key)
        (table.infoAt hash key (table.home hash key)) = some place ∧
      ((∃ idx value, table.keyVals idx = some (key, value) ∧
          table.matchLoop load key (table.numBytesInfo load) place.1 place.2 =
            some (.inl idx)) ∨
        (∀ value, ¬ table.Holds key value) ∧ ∃ idx, Spot hash load table key idx ∧
          table.matchLoop load key (table.numBytesInfo load) place.1 place.2 =
            some (.inr (idx, table.infoAt hash key idx))) := by
  have low := home_lt_numNodes hash load table key
  obtain ⟨start, behind, inside, walked, passed, stopped⟩ :=
    valid.skip_spec (fun info byte => info < byte) (Nat.le_refl _) (Nat.le_of_lt low) (by omega)
      (decide_eq_false (Nat.not_lt.mpr
        (Nat.le_of_lt (valid.info_lt_infoAt (Nat.le_refl _) key _))))
  have notLarger := Nat.le_of_not_lt (of_decide_eq_false stopped)
  refine ⟨_, walked, ?_⟩
  by_cases held : ∃ value, table.Holds key value
  · obtain ⟨value, idx, stored⟩ := held
    obtain ⟨isNode, home, coded⟩ := valid.coded idx _ stored
    -- the walk does not pass the node, whose info byte is the key's own
    have before : start ≤ idx := by
      by_contra past
      have larger := of_decide_eq_true (passed idx home (Nat.lt_of_not_le past))
      exact absurd coded (Nat.ne_of_gt larger)
    have equal := Nat.le_antisymm notLarger (valid.infoAt_le_info stored behind before)
    exact Or.inl ⟨idx, value, stored, valid.matchLoop_of_stored stored behind before equal
      (by rw [valid.numBytesInfo_eq]; omega)⟩
  · have absent : ∀ value, ¬ table.Holds key value := fun value holds => held ⟨value, holds⟩
    exact Or.inr ⟨absent, valid.matchLoop_of_absent absent behind inside notLarger
      (fun position from_home below =>
        Nat.le_of_lt (of_decide_eq_true (passed position from_home below)))
      (by rw [valid.numBytesInfo_eq]; omega)⟩

/-- An attempt on a table without an allocation allocates one. -/
theorem Unallocated.prepare_succ (unallocated : table.Unallocated) (key : κ) (attempts : Nat) :
    prepare hash load key (attempts + 1) table =
      prepare hash load key attempts (table.initData load initialNumElements) := by
  have read : table.readInfo load 0 = some 0 := unallocated.readInfo_eq (by omega)
  have empty : table.maxNumElementsAllowed ≤ table.numElements := by rw [unallocated]
  rw [prepare, unallocated.keyToIdx_eq]
  dsimp only
  rw [skip, unallocated.numBytesInfo_eq, walk, read, Option.bind_some, if_neg (by
    rw [decide_eq_true_iff]
    omega), Option.bind_some]
  dsimp only
  rw [matchLoop, read, Option.bind_some, if_neg (by omega), Option.bind_some]
  dsimp only
  rw [if_pos empty, increaseSize, if_pos unallocated.mask_eq, Option.bind_some, if_pos rfl]

/-- An attempt for a held key. -/
theorem Valid.prepare_stored (valid : Valid hash load table) {key : κ} {value : ν}
    (held : table.Holds key value) (attempts : Nat) :
    ∃ idx content, table.keyVals idx = some (key, content) ∧
      prepare hash load key (attempts + 1) table = some (table, .keyFound idx) := by
  obtain ⟨place, walked, ⟨idx, content, stored, found⟩ | ⟨absent, -⟩⟩ := valid.walk_spec key
  · refine ⟨idx, content, stored, ?_⟩
    rw [prepare, keyToIdx_eq]
    dsimp only
    rw [walked, Option.bind_some, found, Option.bind_some]
  · exact absurd held (absent value)

section Absent

variable {key : κ}

/-- An attempt for a key that is not held: its spot, unless the table must grow. -/
theorem Valid.prepare_absent (valid : Valid hash load table)
    (absent : ∀ value, ¬ table.Holds key value) (attempts : Nat) :
    ∃ idx, Spot hash load table key idx ∧ prepare hash load key (attempts + 1) table =
      if table.maxNumElementsAllowed ≤ table.numElements then
        (table.increaseSize hash load).bind fun grown =>
          if grown.2 then prepare hash load key attempts grown.1
          else some (grown.1, .overflowError)
      else (table.openSpot load idx (table.infoAt hash key idx)).map fun opened =>
        (opened.1, if opened.2 = idx then .newNode idx else .overwriteNode idx) := by
  obtain ⟨place, walked, ⟨idx, content, stored, -⟩ | ⟨-, idx, spot, passed⟩⟩ :=
    valid.walk_spec key
  · exact absurd ⟨idx, stored⟩ (absent content)
  · refine ⟨idx, spot, ?_⟩
    rw [prepare, keyToIdx_eq]
    dsimp only
    rw [walked, Option.bind_some, passed, Option.bind_some]

/-- An attempt for a key that is not held, in a table that must grow. -/
theorem Valid.prepare_full (valid : Valid hash load table)
    (absent : ∀ value, ¬ table.Holds key value) (attempts : Nat)
    (full : table.maxNumElementsAllowed ≤ table.numElements) :
    prepare hash load key (attempts + 1) table =
      (table.increaseSize hash load).bind fun grown =>
        if grown.2 then prepare hash load key attempts grown.1
        else some (grown.1, .overflowError) := by
  obtain ⟨idx, -, attempt⟩ := valid.prepare_absent absent attempts
  rw [attempt, if_pos full]

/-- An attempt for a key that is not held, in a table with room. -/
theorem Valid.prepare_open (valid : Valid hash load table)
    (absent : ∀ value, ¬ table.Holds key value) (attempts : Nat)
    (more : table.numElements < table.maxNumElementsAllowed) :
    ∃ next idx empty state, prepare hash load key (attempts + 1) table = some (next, state) ∧
      (state = .newNode idx ∨ state = .overwriteNode idx) ∧ Spot hash load table key idx ∧
      Opened load table next idx empty (table.infoAt hash key idx) := by
  obtain ⟨idx, spot, attempt⟩ := valid.prepare_absent absent attempts
  obtain ⟨next, empty, opening, opened⟩ := valid.openSpot_spec spot (by omega)
  rw [attempt, if_neg (by omega), opening, Option.map_some]
  refine ⟨next, idx, empty, _, rfl, ?_, spot, opened⟩
  dsimp only
  split
  · exact Or.inl rfl
  · exact Or.inr rfl

end Absent

/-- **Preparing** an insertion. -/
theorem Ready.prepare_spec (ready : Ready hash load table) (key : κ) (attempts : Nat) :
    ∃ result, prepare hash load key attempts table = some result ∧
      Prepared hash load table key result := by
  induction attempts generalizing table with
  | zero => exact ⟨_, rfl, .overflow table ready fun _ _ held => held⟩
  | succ attempts ih =>
      rcases ready with unallocated | valid
      · have fresh := initData_valid hash load table (show 2 ≤ initialNumElements by decide)
        obtain ⟨result, prepared, ends⟩ := ih (Or.inr fresh)
        rw [unallocated.prepare_succ]
        refine ⟨result, prepared, ends.congr fun other value => ?_⟩
        exact iff_of_false (initData_empty _ _ _) (unallocated.not_holds other value)
      · by_cases held : ∃ value, table.Holds key value
        · obtain ⟨value, holds⟩ := held
          obtain ⟨idx, content, stored, found⟩ := valid.prepare_stored holds attempts
          exact ⟨_, found, .found table idx content valid stored fun _ _ => Iff.rfl⟩
        · have absent : ∀ value, ¬ table.Holds key value := fun value holds => held ⟨value, holds⟩
          rcases Nat.lt_or_ge table.numElements table.maxNumElementsAllowed with more | full
          · have room : table.maxNumElementsAllowed ≠ 0 := by omega
            obtain ⟨allowed, -⟩ := valid.headroom room
            obtain ⟨next, idx, empty, state, found, either, spot, opened⟩ :=
              valid.prepare_open absent attempts more
            exact ⟨_, found, .spot next idx state either absent
              (fun value => valid.place spot opened absent room (by omega) value)
              (fun value => valid.holds_place opened value)⟩
          · obtain ⟨next, completed, grows, grown⟩ := valid.increaseSize_spec
            rw [valid.prepare_full absent attempts full, grows, Option.bind_some]
            cases completed with
            | false => exact ⟨_, rfl, .overflow next grown.ready grown.holds⟩
            | true =>
                obtain ⟨result, prepared, ends⟩ := ih grown.ready
                refine ⟨result, prepared, ends.congr fun other value => ?_⟩
                exact ⟨grown.holds other value, grown.all rfl other value⟩

end Prepare

end Table

end FastDb.RobinHood
