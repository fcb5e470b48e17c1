import Mathlib.Data.Finmap
import FastDb.Foundation.Components
import FastDb.RobinHood.Attempts

/-! # The table as a dictionary

To its callers the table is a finite map: every call on it, after whatever calls, is
defined and answered as the map answers it, or throws `std::overflow_error` where it may
grow, which at most loses entries
(`FastDb.RobinHood.Table.answers_of_empty`). Nothing is assumed of the hash function.
-/

namespace FastDb.RobinHood

open Foundation

/-- The calls on a table. -/
inductive Call (κ ν : Type)
  | find (key : κ)
  | contains (key : κ)
  | emplace (key : κ) (value : ν)
  | insertOrAssign (key : κ) (value : ν)
  | subscript (key : κ) (fresh : ν)
  | erase (key : κ)
  | clear
  | reserve (count : Nat)
  | rehash (count : Nat)
  | compact
  | size

/-- What a call returns, or that it throws `std::overflow_error`. -/
inductive Answer (ν : Type)
  | value (found : Option ν)
  | flag (yes : Bool)
  | count (number : Nat)
  | done
  | overflow
  deriving DecidableEq

/-- The calls that may move the nodes into another array. -/
def Call.mayGrow {κ ν : Type} : Call κ ν → Bool
  | .emplace _ _ | .insertOrAssign _ _ | .subscript _ _ | .reserve _ | .rehash _ | .compact => true
  | _ => false

section

variable {κ ν : Type} [DecidableEq κ]

/-- The result of a call that throws or not. -/
def thrownOr {α : Type} (answer : α → Answer ν) (result : Table κ ν × Option α) :
    Table κ ν × Answer ν :=
  (result.1, result.2.elim .overflow answer)

/-- The result of a call that returns nothing. -/
def doneOr (result : Table κ ν × Bool) : Table κ ν × Answer ν :=
  (result.1, if result.2 then .done else .overflow)

/-- One call. -/
def Table.perform (hash : κ → UInt64) (load : Nat) (table : Table κ ν) :
    Call κ ν → Option (Table κ ν × Answer ν)
  | .find key => (table.find hash load key).map fun found => (table, .value found)
  | .contains key =>
      (table.findIdx hash load key).map fun idx => (table, .flag (idx ≠ table.endIdx load))
  | .emplace key value => (table.emplace hash load key value).map (thrownOr .flag)
  | .insertOrAssign key value => (table.insertOrAssign hash load key value).map (thrownOr .flag)
  | .subscript key fresh =>
      (table.subscript hash load key fresh).map (thrownOr fun value => .value (some value))
  | .erase key =>
      (table.erase hash load key).map fun erased => (erased.1, .count erased.2)
  | .clear => some (table.clear load, .done)
  | .reserve count => (table.reserve hash load count false).map doneOr
  | .rehash count => (table.reserve hash load count true).map doneOr
  | .compact => (table.compact hash load).map doneOr
  | .size => some (table, .count table.numElements)

/-- The table as a component. -/
def tableComponent (hash : κ → UInt64) (load : Nat) :
    Component (Table κ ν) (Call κ ν) (Answer ν) where
  call table := table.perform hash load

/-! ## The dictionary -/

/-- What a finite map answers, and the map after it. -/
def Call.answer (call : Call κ ν) (entries : Finmap fun _ : κ => ν) :
    (Finmap fun _ : κ => ν) × Answer ν :=
  match call with
  | .find key => (entries, .value (entries.lookup key))
  | .contains key => (entries, .flag (entries.lookup key).isSome)
  | .emplace key value =>
      if (entries.lookup key).isSome then (entries, .flag false)
      else (entries.insert key value, .flag true)
  | .insertOrAssign key value => (entries.insert key value, .flag (entries.lookup key).isNone)
  | .subscript key fresh =>
      (entries.insert key ((entries.lookup key).getD fresh),
        .value (some ((entries.lookup key).getD fresh)))
  | .erase key => (entries.erase key, .count (if (entries.lookup key).isSome then 1 else 0))
  | .clear => (∅, .done)
  | .reserve _ | .rehash _ | .compact => (entries, .done)
  | .size => (entries, .count entries.keys.card)

/-- One finite map has only entries of another. -/
def Within (entries others : Finmap fun _ : κ => ν) : Prop :=
  ∀ key value, entries.lookup key = some value → others.lookup key = some value

/-- As many entries that are all in another map are the other map. -/
theorem eq_of_within {entries others : Finmap fun _ : κ => ν} (within : Within others entries)
    (card : others.keys.card = entries.keys.card) : entries = others := by
  have sub : others.keys ⊆ entries.keys := by
    intro key member
    obtain ⟨value, found⟩ := Finmap.mem_iff.mp (Finmap.mem_keys.mp member)
    exact Finmap.mem_keys.mpr (Finmap.mem_of_lookup_eq_some (within key value found))
  have keys := Finset.eq_of_subset_of_card_le sub card.ge
  refine Finmap.ext_lookup fun key => ?_
  cases found : others.lookup key with
  | some value => exact within key value found
  | none =>
      rw [Finmap.lookup_eq_none, ← Finmap.mem_keys, keys, Finmap.mem_keys] at found
      exact Finmap.lookup_eq_none.mpr found

/-- The dictionary: a call is answered, or throws and at most loses entries. -/
def dictionary : Component.Specification (Finmap fun _ : κ => ν) (Call κ ν) (Answer ν) where
  allows entries call answer := answer = call.answer entries ∨
    call.mayGrow ∧ answer.2 = .overflow ∧ Within answer.1 entries

/-- The entries of a finite map whose keys are kept. -/
theorem exists_kept (entries : Finmap fun _ : κ => ν) (kept : κ → Prop) :
    ∃ rest : Finmap fun _ : κ => ν, ∀ key value,
      rest.lookup key = some value ↔ kept key ∧ entries.lookup key = some value := by
  classical
  let lookup : κ → Option ν := fun key => if kept key then entries.lookup key else none
  have some_iff : ∀ key, (lookup key).isSome ↔ key ∈ entries.keys.filter kept := by
    intro key
    rw [Finset.mem_filter, Finmap.mem_keys, ← Finmap.lookup_isSome]
    by_cases keeps : kept key
    · simp only [lookup, if_pos keeps, keeps, and_true]
    · simp only [lookup, if_neg keeps, keeps, and_false, Option.isSome_none, Bool.false_eq_true]
  refine ⟨Finmap.keysLookupEquiv.symm ⟨(_, lookup), some_iff⟩, fun key value => ?_⟩
  rw [Finmap.keysLookupEquiv_symm_apply_lookup]
  by_cases keeps : kept key
  · simp only [lookup, if_pos keeps, keeps, true_and]
  · simp only [lookup, if_neg keeps, keeps, false_and, reduceCtorEq]

end

namespace Table

variable {κ ν : Type} {hash : κ → UInt64} {load : Nat} {table : Table κ ν}

/-! ## Ready tables -/

namespace Ready

section Lookup

variable [DecidableEq κ]

/-- The position of a key: that of its node, or the end. -/
theorem findIdx_spec (ready : Ready hash load table) (key : κ) :
    (table.findIdx hash load key = some (table.endIdx load) ∧ ∀ value, ¬ table.Holds key value) ∨
      ∃ idx value, table.findIdx hash load key = some idx ∧ idx ≠ table.endIdx load ∧
        table.node load idx = some (key, value) ∧ table.Holds key value := by
  rcases ready with unallocated | valid
  · exact Or.inl ⟨unallocated.findIdx_eq key, unallocated.not_holds key⟩
  · by_cases held : ∃ value, table.Holds key value
    · obtain ⟨value, idx, stored⟩ := held
      have inside := (valid.coded idx _ stored).1
      refine Or.inr ⟨idx, value, valid.findIdx_of_stored stored, ?_, ?_, idx, stored⟩
      · rw [endIdx, if_neg valid.allocated]
        exact Nat.ne_of_lt inside
      · rw [valid.node_eq inside, stored]
    · have absent : ∀ value, ¬ table.Holds key value := fun value holds => held ⟨value, holds⟩
      exact Or.inl ⟨valid.findIdx_of_absent absent, absent⟩

/-- **Erasing** a key takes out its entry, where there is one. -/
theorem erase_spec (ready : Ready hash load table) (key : κ) :
    ∃ next count, table.erase hash load key = some (next, count) ∧ Ready hash load next ∧
      (table.Lenient → next.Lenient) ∧
      (∀ other value, next.Holds other value ↔ other ≠ key ∧ table.Holds other value) ∧
      (count = 1 ∧ (∃ value, table.Holds key value) ∨
        count = 0 ∧ ∀ value, ¬ table.Holds key value) := by
  rcases ready with unallocated | valid
  · have empty := unallocated.not_holds
    exact ⟨table, 0, unallocated.erase_eq key, Or.inl unallocated, id,
      fun other value => ⟨fun holds => absurd holds (empty other value), And.right⟩,
      Or.inr ⟨rfl, empty key⟩⟩
  · obtain ⟨next, count, erased, validNext, lenient, holds, counted⟩ := valid.erase_spec key
    exact ⟨next, count, erased, Or.inr validNext, lenient, holds, counted⟩

end Lookup

/-- **Rehashing** a table into an array that allows its elements. -/
theorem rehashPowerOfTwo_spec (ready : Ready hash load table) (small : load < 100)
    {numBuckets : Nat} (enough : 2 ≤ numBuckets)
    (fits : table.numElements ≤ calcMaxNumElementsAllowed load numBuckets) :
    ∃ next completed, table.rehashPowerOfTwo hash load numBuckets = some (next, completed) ∧
      Grown hash load table next completed := by
  rcases ready with unallocated | valid
  · have single : ¬ 1 < table.numNodes load := by
      rw [numNodes, unallocated.mask_eq, calcNumElementsWithBuffer,
        calcMaxNumElementsAllowed_one small]
      omega
    refine ⟨_, true, by rw [rehashPowerOfTwo, if_neg single],
      ⟨Or.inr (initData_valid hash load table enough), fun key value held => ?_,
        fun _ key value held => ?_⟩, fun _ => ?_, fun _ => ⟨rfl, initData_lenient numBuckets⟩⟩
    · exact absurd held (initData_empty numBuckets key value)
    · exact absurd held (unallocated.not_holds key value)
    · rw [unallocated]
      rfl
  · obtain ⟨next, completed, rehashed, -, grown⟩ :=
      valid.rehashPowerOfTwo_spec rfl rfl rfl enough fits
    exact ⟨next, completed, rehashed, grown⟩

/-- A call that leaves the table as it is. -/
theorem kept_self (ready : Ready hash load table) (completed : Bool) :
    Kept hash load table table completed :=
  ⟨ready, fun _ _ held => held, fun _ _ _ held => held⟩

/-- Whether nodes are moved into an array that allows as many entries, or not. -/
theorem resize_spec (ready : Ready hash load table) (small : load < 100) {count : Nat}
    (least : table.numElements ≤ count) (moves : Nat → Prop) [DecidablePred moves] :
    ∃ next completed, (match fittingSize load count 61 initialNumElements with
      | none => some (table, false)
      | some newSize =>
          if moves newSize then table.rehashPowerOfTwo hash load newSize
          else some (table, true)) = some (next, completed) ∧
      Kept hash load table next completed ∧
      (table.Lenient → table.numElements ≤ fewEntries → count ≤ mostAllowed load →
        completed = true ∧ next.Lenient) := by
  cases fits : fittingSize load count 61 initialNumElements with
  | none =>
      refine ⟨table, false, rfl, ready.kept_self false, fun _ _ allowed => ?_⟩
      obtain ⟨found, some⟩ := exists_initial_fittingSize allowed
      rw [fits] at some
      cases some
  | some newSize =>
      obtain ⟨eight, allowed⟩ := fittingSize_spec fits
      rw [initialNumElements] at eight
      dsimp only
      split
      · obtain ⟨next, completed, rehashed, grown⟩ :=
          ready.rehashPowerOfTwo_spec small (by omega) (least.trans allowed)
        exact ⟨next, completed, rehashed, grown.toKept, fun _ few _ => grown.lenient few⟩
      · exact ⟨table, true, rfl, ready.kept_self true, fun lenient _ _ => ⟨rfl, lenient⟩⟩

/-- **Reserving**, whether or not the nodes are moved anyway. -/
theorem reserve_spec (ready : Ready hash load table) (small : load < 100) (count : Nat)
    (forceRehash : Bool) :
    ∃ next completed, table.reserve hash load count forceRehash = some (next, completed) ∧
      Kept hash load table next completed ∧
      (table.Lenient → table.numElements ≤ fewEntries →
        max count table.numElements ≤ mostAllowed load → completed = true ∧ next.Lenient) :=
  ready.resize_spec small (Nat.le_max_right _ _) fun newSize =>
    forceRehash ∨ table.mask + 1 < newSize

/-- **Compacting.** -/
theorem compact_spec (ready : Ready hash load table) (small : load < 100) :
    ∃ next completed, table.compact hash load = some (next, completed) ∧
      Kept hash load table next completed ∧
      (table.Lenient → table.numElements ≤ fewEntries →
        table.numElements ≤ mostAllowed load → completed = true ∧ next.Lenient) :=
  ready.resize_spec small (Nat.le_refl _) fun newSize => newSize < table.mask + 1

/-- The nodes that count are those that are held. -/
theorem empty_of_numElements (ready : Ready hash load table) (none : table.numElements = 0)
    (key : κ) (value : ν) : ¬ table.Holds key value := by
  rcases ready with unallocated | valid
  · exact unallocated.not_holds key value
  · intro holds
    obtain ⟨idx, stored⟩ := holds
    have member : idx ∈ table.occupied load := by
      rw [occupied, Finset.mem_filter, Finset.mem_range]
      exact ⟨(valid.coded idx _ stored).1, valid.info_ne_zero stored⟩
    rw [valid.count, Finset.card_eq_zero] at none
    rw [none] at member
    exact absurd member (Finset.notMem_empty idx)

end Ready

/-- **Clearing** leaves nothing. -/
theorem Ready.clear_spec (ready : Ready hash load table) :
    Ready hash load (table.clear load) ∧ (table.Lenient → (table.clear load).Lenient) ∧
      ∀ key value, ¬ (table.clear load).Holds key value := by
  rw [clear]
  split
  · next none => exact ⟨ready, id, ready.empty_of_numElements none⟩
  · next some =>
      rcases ready with unallocated | valid
      · exact absurd (by rw [unallocated]) some
      · have blank : Blank load { table with
            numElements := 0
            keyVals := fun _ => (none : Option (κ × ν))
            info := fun idx => if idx = table.numNodes load then 1 else 0
            infoInc := 32
            infoHashShift := 0 } :=
          ⟨valid.allocated, rfl, rfl, fun _ => rfl, fun _ => rfl, rfl,
            fun room => (valid.headroom room).1⟩
        refine ⟨Or.inr (blank.valid hash), fun _ smallest => ?_, fun key value holds => ?_⟩
        · exact absurd smallest (show ¬ 32 ≤ 2 by omega)
        · obtain ⟨idx, stored⟩ := holds
          exact blank.not_stored stored

section Assign

variable {idx : Nat} {key : κ} {old : ν}

/-- A node of a table with another value in one of its nodes. -/
theorem place_source (stored : table.keyVals idx = some (key, old)) {value : ν} {other : Nat}
    {entry : κ × ν} (there : (table.place idx key value).keyVals other = some entry) :
    ∃ content, table.keyVals other = some (entry.1, content) := by
  change Function.update table.keyVals idx (some (key, value)) other = some entry at there
  rw [Function.update_apply] at there
  split at there
  · next same =>
      obtain rfl := Option.some.inj there
      exact ⟨old, same ▸ stored⟩
  · exact ⟨entry.2, there⟩

/-- **Assigning** to a held key keeps the table valid. -/
theorem Valid.assign (valid : Valid hash load table)
    (stored : table.keyVals idx = some (key, old)) (value : ν) :
    Valid hash load (table.place idx key value) where
  allocated := valid.allocated
  increment := valid.increment
  two_le := valid.two_le
  sentinel := valid.sentinel
  padding := valid.padding
  free other inside empty := by
    change Function.update table.keyVals idx (some (key, value)) other = none at empty
    rw [Function.update_apply] at empty
    split at empty
    · cases empty
    · exact valid.free other inside empty
  coded other entry there := by
    obtain ⟨content, source⟩ := place_source stored there
    exact valid.coded other (entry.1, content) source
  ordered := valid.ordered
  unique other another entry anotherEntry there anotherThere same := by
    obtain ⟨content, source⟩ := place_source stored there
    obtain ⟨anotherContent, anotherSource⟩ := place_source stored anotherThere
    exact valid.unique other another _ _ source anotherSource same
  bytes := valid.bytes
  headroom := valid.headroom
  count := valid.count
  allowed := valid.allowed

/-- Assigning to a held key changes its value only. -/
theorem Valid.holds_assign (valid : Valid hash load table)
    (stored : table.keyVals idx = some (key, old)) (value : ν) (other : κ) (content : ν) :
    (table.place idx key value).Holds other content ↔
      other = key ∧ content = value ∨ other ≠ key ∧ table.Holds other content := by
  have here : (table.place idx key value).keyVals idx = some (key, value) :=
    Function.update_self _ _ _
  constructor
  · intro holds
    obtain ⟨position, there⟩ := holds
    by_cases same : other = key
    · subst same
      obtain ⟨_, source⟩ := place_source stored there
      obtain rfl := valid.unique position idx _ _ source stored rfl
      rw [here] at there
      exact Or.inl ⟨rfl, (Prod.mk.inj (Option.some.inj there)).2.symm⟩
    · have elsewhere : position ≠ idx := by
        rintro rfl
        rw [here] at there
        exact same (Prod.mk.inj (Option.some.inj there)).1.symm
      refine Or.inr ⟨same, position, ?_⟩
      rw [← there]
      exact (Function.update_of_ne elsewhere _ _).symm
  · intro either
    rcases either with ⟨rfl, rfl⟩ | ⟨different, position, there⟩
    · exact ⟨idx, here⟩
    · have elsewhere : position ≠ idx := by
        rintro rfl
        rw [stored] at there
        exact different (Prod.mk.inj (Option.some.inj there)).1.symm
      exact ⟨position, (Function.update_of_ne elsewhere _ _).trans there⟩

end Assign

/-! ## The table and the dictionary -/

/-- A ready table and its entries. -/
structure Shows (hash : κ → UInt64) (load : Nat) [DecidableEq κ] (table : Table κ ν)
    (entries : Finmap fun _ : κ => ν) : Prop where
  ready : Ready hash load table
  holds : ∀ key value, table.Holds key value ↔ entries.lookup key = some value

variable [DecidableEq κ]

/-- A new table shows the empty map. -/
theorem shows_empty (multiplier : UInt64) :
    Shows hash load { hashMultiplier := multiplier } (∅ : Finmap fun _ : κ => ν) where
  ready := Or.inl rfl
  holds key value := by
    rw [Finmap.lookup_empty]
    refine iff_of_false (fun holds => ?_) (Option.some_ne_none value).symm
    obtain ⟨_, stored⟩ := holds
    cases stored

namespace Shows

variable {entries : Finmap fun _ : κ => ν}

/-- A key that the table holds has its value in the map. -/
theorem lookup_of_holds (shows : Shows hash load table entries) {key : κ} {value : ν}
    (held : table.Holds key value) : entries.lookup key = some value :=
  (shows.holds key value).mp held

/-- A key that the table does not hold is not in the map. -/
theorem lookup_of_absent (shows : Shows hash load table entries) {key : κ}
    (absent : ∀ value, ¬ table.Holds key value) : entries.lookup key = none := by
  cases found : entries.lookup key with
  | none => rfl
  | some value => exact absurd ((shows.holds key value).mpr found) (absent value)

/-- The entries of a table that holds the same. -/
theorem congr (shows : Shows hash load table entries) {next : Table κ ν}
    (ready : Ready hash load next)
    (same : ∀ key value, next.Holds key value ↔ table.Holds key value) :
    Shows hash load next entries :=
  ⟨ready, fun key value => (same key value).trans (shows.holds key value)⟩

/-- The entries of a table with one more, or one changed. -/
theorem insert (shows : Shows hash load table entries) {next : Table κ ν} {key : κ} {value : ν}
    (ready : Ready hash load next)
    (holds : ∀ other content, next.Holds other content ↔
      other = key ∧ content = value ∨ other ≠ key ∧ table.Holds other content) :
    Shows hash load next (entries.insert key value) where
  ready := ready
  holds other content := by
    rw [holds]
    by_cases same : other = key
    · subst same
      rw [Finmap.lookup_insert, Option.some.injEq]
      refine ⟨fun either => ?_, fun equal => Or.inl ⟨rfl, equal.symm⟩⟩
      rcases either with ⟨-, equal⟩ | ⟨different, -⟩
      · exact equal.symm
      · exact absurd rfl different
    · rw [Finmap.lookup_insert_of_ne _ same, ← shows.holds]
      refine ⟨fun either => ?_, fun held => Or.inr ⟨same, held⟩⟩
      rcases either with ⟨equal, -⟩ | ⟨-, held⟩
      · exact absurd equal same
      · exact held

/-- Erasing a key shows as erasing it. -/
theorem erase (shows : Shows hash load table entries) {next : Table κ ν} {key : κ}
    (ready : Ready hash load next)
    (holds : ∀ other value, next.Holds other value ↔ other ≠ key ∧ table.Holds other value) :
    Shows hash load next (entries.erase key) where
  ready := ready
  holds other value := by
    rw [holds]
    by_cases same : other = key
    · subst same
      rw [Finmap.lookup_erase]
      exact iff_of_false (fun both => both.1 rfl) (Option.some_ne_none value).symm
    · rw [Finmap.lookup_erase_ne same, ← shows.holds]
      exact and_iff_right same

/-- The entries of a table that has lost some. -/
theorem lose (shows : Shows hash load table entries) {next : Table κ ν}
    (ready : Ready hash load next)
    (holds : ∀ key value, next.Holds key value → table.Holds key value) :
    ∃ rest, Shows hash load next rest ∧ Within rest entries := by
  obtain ⟨rest, kept⟩ := exists_kept entries fun key => ∃ value, next.Holds key value
  refine ⟨rest, ⟨ready, fun key value => ?_⟩, fun key value found => ((kept key value).mp found).2⟩
  rw [kept, ← shows.holds]
  refine ⟨fun held => ⟨⟨value, held⟩, holds key value held⟩, fun both => ?_⟩
  obtain ⟨⟨content, held⟩, here⟩ := both
  have same := (shows.lookup_of_holds (holds key content held)).symm.trans
    (shows.lookup_of_holds here)
  exact Option.some.inj same ▸ held

/-- The number of entries. -/
theorem card_keys (shows : Shows hash load table entries) :
    entries.keys.card = table.numElements := by
  rcases shows.ready with unallocated | valid
  · have none : entries.keys = ∅ := by
      refine Finset.eq_empty_of_forall_notMem fun key member => ?_
      obtain ⟨value, found⟩ := Finmap.mem_iff.mp (Finmap.mem_keys.mp member)
      exact unallocated.not_holds key value ((shows.holds key value).mpr found)
    rw [none, unallocated]
    rfl
  · -- the keys are those of the occupied nodes, and no two of these have one key
    have keys : entries.keys.image some =
        (table.occupied load).image fun idx => (table.keyVals idx).map Prod.fst := by
      ext label
      rw [Finset.mem_image, Finset.mem_image]
      constructor
      · intro member
        obtain ⟨key, inside, rfl⟩ := member
        obtain ⟨value, found⟩ := Finmap.mem_iff.mp (Finmap.mem_keys.mp inside)
        obtain ⟨idx, stored⟩ := (shows.holds key value).mpr found
        refine ⟨idx, ?_, by rw [stored, Option.map_some]⟩
        rw [occupied, Finset.mem_filter, Finset.mem_range]
        exact ⟨(valid.coded idx _ stored).1, valid.info_ne_zero stored⟩
      · intro member
        obtain ⟨idx, inside, rfl⟩ := member
        rw [occupied, Finset.mem_filter, Finset.mem_range] at inside
        obtain ⟨⟨key, value⟩, stored⟩ := valid.exists_entry inside.1 inside.2
        refine ⟨key, ?_, by rw [stored, Option.map_some]⟩
        exact Finmap.mem_keys.mpr
          (Finmap.mem_of_lookup_eq_some (shows.lookup_of_holds ⟨idx, stored⟩))
    have distinct : Set.InjOn (fun idx => (table.keyVals idx).map Prod.fst)
        (table.occupied load) := by
      intro idx inside other otherInside same
      rw [Finset.mem_coe, occupied, Finset.mem_filter, Finset.mem_range] at inside otherInside
      obtain ⟨entry, stored⟩ := valid.exists_entry inside.1 inside.2
      obtain ⟨otherEntry, otherStored⟩ := valid.exists_entry otherInside.1 otherInside.2
      simp only [stored, otherStored, Option.map_some, Option.some.injEq] at same
      exact valid.unique idx other entry otherEntry stored otherStored same
    rw [← Finset.card_image_of_injective _ (Option.some_injective κ), keys,
      Finset.card_image_of_injOn distinct, valid.count]

/-! ## One call -/

/-- A call is answered as the dictionary allows. -/
def Answered (hash : κ → UInt64) (load : Nat) (table : Table κ ν)
    (entries : Finmap fun _ : κ => ν) (call : Call κ ν) : Prop :=
  ∃ answer modelAnswer, table.perform hash load call = some answer ∧
    dictionary.allows entries call modelAnswer ∧
    Component.Agree (Shows hash load) answer modelAnswer

/-- A call that is answered as the finite map answers it. -/
theorem answered {call : Call κ ν} (answer : Table κ ν × Answer ν)
    (performed : table.perform hash load call = some answer)
    (shows : Shows hash load answer.1 (call.answer entries).1)
    (same : answer.2 = (call.answer entries).2) : Answered hash load table entries call :=
  ⟨answer, call.answer entries, performed, Or.inl rfl, shows, same⟩

/-- A call that throws. -/
theorem answered_overflow (shows : Shows hash load table entries) {call : Call κ ν}
    {next : Table κ ν} (grows : call.mayGrow)
    (performed : table.perform hash load call = some (next, .overflow))
    (ready : Ready hash load next)
    (holds : ∀ key value, next.Holds key value → table.Holds key value) :
    Answered hash load table entries call := by
  obtain ⟨rest, showsRest, within⟩ := shows.lose ready holds
  exact ⟨_, (rest, .overflow), performed, Or.inr ⟨grows, rfl, within⟩, showsRest, rfl⟩

/-- `find` looks the key up. -/
theorem find_eq (shows : Shows hash load table entries) (key : κ) :
    table.find hash load key = some (entries.lookup key) := by
  rcases shows.ready.findIdx_spec key with ⟨searched, absent⟩ |
    ⟨idx, value, searched, inner, node, held⟩
  · rw [find, searched, Option.bind_some, if_pos rfl, shows.lookup_of_absent absent]
  · rw [find, searched, Option.bind_some, if_neg inner, node, Option.map_some,
      shows.lookup_of_holds held]

/-- `find` is answered. -/
theorem answered_find (shows : Shows hash load table entries) (key : κ) :
    Answered hash load table entries (.find key) :=
  answered _ (by rw [perform, shows.find_eq, Option.map_some]) shows rfl

/-- `contains` is answered. -/
theorem answered_contains (shows : Shows hash load table entries) (key : κ) :
    Answered hash load table entries (.contains key) := by
  rcases shows.ready.findIdx_spec key with ⟨searched, absent⟩ |
    ⟨idx, value, searched, inner, -, held⟩
  · refine answered _ (by rw [perform, searched, Option.map_some]) shows ?_
    rw [Call.answer, shows.lookup_of_absent absent]
    simp only [ne_eq, not_true_eq_false, decide_false, Option.isSome_none]
  · refine answered _ (by rw [perform, searched, Option.map_some]) shows ?_
    rw [Call.answer, shows.lookup_of_holds held]
    simp only [ne_eq, inner, not_false_eq_true, decide_true, Option.isSome_some]

/-- `erase` is answered. -/
theorem answered_erase (shows : Shows hash load table entries) (key : κ) :
    Answered hash load table entries (.erase key) := by
  obtain ⟨next, count, erased, ready, -, holds, counted⟩ := shows.ready.erase_spec key
  refine answered _ (by rw [perform, erased, Option.map_some]) (shows.erase ready holds) ?_
  rcases counted with ⟨rfl, value, held⟩ | ⟨rfl, absent⟩
  · rw [Call.answer, shows.lookup_of_holds held]
    rfl
  · rw [Call.answer, shows.lookup_of_absent absent]
    rfl

/-- `clear` is answered. -/
theorem answered_clear (shows : Shows hash load table entries) :
    Answered hash load table entries .clear := by
  obtain ⟨ready, -, empty⟩ := shows.ready.clear_spec
  refine answered _ rfl ⟨ready, fun key value => ?_⟩ rfl
  exact iff_of_false (empty key value) (Option.some_ne_none value).symm

/-- A call that returns nothing and keeps the entries unless it throws. -/
theorem answered_kept (shows : Shows hash load table entries) {call : Call κ ν}
    {next : Table κ ν} {completed : Bool} (grows : call.mayGrow)
    (same : call.answer entries = (entries, .done))
    (performed : table.perform hash load call = some (doneOr (next, completed)))
    (kept : Kept hash load table next completed) : Answered hash load table entries call := by
  cases completed with
  | false => exact answered_overflow shows grows performed kept.ready kept.holds
  | true =>
      refine answered _ performed ?_ (by rw [same]; rfl)
      rw [same]
      exact shows.congr kept.ready fun key value =>
        ⟨kept.holds key value, kept.all rfl key value⟩

/-- The entries of a table with one for a key that was absent. -/
theorem insert_absent (shows : Shows hash load table entries) {next : Table κ ν} {key : κ}
    {value : ν} (absent : ∀ value, ¬ table.Holds key value) (valid : Valid hash load next)
    (holds : ∀ other content, next.Holds other content ↔
      other = key ∧ content = value ∨ table.Holds other content) :
    Shows hash load next (entries.insert key value) := by
  refine shows.insert (Or.inr valid) fun other content => (holds other content).trans ?_
  refine or_congr_right ⟨fun held => ⟨?_, held⟩, And.right⟩
  rintro rfl
  exact absent content held

/-- `emplace` is answered. -/
theorem answered_emplace (shows : Shows hash load table entries) (key : κ) (value : ν) :
    Answered hash load table entries (.emplace key value) := by
  obtain ⟨result, prepared, ends⟩ := shows.ready.prepare_spec key 256
  cases ends with
  | overflow next ready holds =>
      refine answered_overflow shows rfl ?_ ready holds
      rw [perform, emplace, insertKeyPrepareEmptySpot, prepared]
      rfl
  | found next idx old valid stored holds =>
      have there : (entries.lookup key).isSome := by
        rw [shows.lookup_of_holds ((holds key old).mp ⟨idx, stored⟩)]
        rfl
      refine answered (next, .flag false) ?_ ?_ ?_
      · rw [perform, emplace, insertKeyPrepareEmptySpot, prepared]
        rfl
      · rw [Call.answer, if_pos there]
        exact shows.congr (Or.inr valid) holds
      · rw [Call.answer, if_pos there]
  | spot next idx state either absent valid holds =>
      have fresh : ¬ (entries.lookup key).isSome := by
        rw [shows.lookup_of_absent absent]
        exact Bool.false_ne_true
      refine answered (next.place idx key value, .flag true) ?_ ?_ ?_
      · rw [perform, emplace, insertKeyPrepareEmptySpot, prepared]
        rcases either with rfl | rfl <;> rfl
      · rw [Call.answer, if_neg fresh]
        exact shows.insert_absent absent (valid value) (holds value)
      · rw [Call.answer, if_neg fresh]

/-- `insert_or_assign` is answered. -/
theorem answered_insertOrAssign (shows : Shows hash load table entries) (key : κ) (value : ν) :
    Answered hash load table entries (.insertOrAssign key value) := by
  obtain ⟨result, prepared, ends⟩ := shows.ready.prepare_spec key 256
  cases ends with
  | overflow next ready holds =>
      refine answered_overflow shows rfl ?_ ready holds
      rw [perform, insertOrAssign, insertKeyPrepareEmptySpot, prepared]
      rfl
  | found next idx old valid stored holds =>
      have inside := (valid.coded idx _ stored).1
      have same := shows.congr (Or.inr valid) holds
      refine answered (next.place idx key value, .flag false) ?_ ?_ ?_
      · rw [perform, insertOrAssign, insertKeyPrepareEmptySpot, prepared, Option.bind_some]
        dsimp only
        rw [valid.node_eq inside, stored]
        rfl
      · exact same.insert (Or.inr (valid.assign stored value)) (valid.holds_assign stored value)
      · rw [Call.answer, same.lookup_of_holds ⟨idx, stored⟩]
        rfl
  | spot next idx state either absent valid holds =>
      refine answered (next.place idx key value, .flag true) ?_
        (shows.insert_absent absent (valid value) (holds value)) ?_
      · rw [perform, insertOrAssign, insertKeyPrepareEmptySpot, prepared]
        rcases either with rfl | rfl <;> rfl
      · rw [Call.answer, shows.lookup_of_absent absent]
        rfl

/-- `operator[]` is answered. -/
theorem answered_subscript (shows : Shows hash load table entries) (key : κ) (fresh : ν) :
    Answered hash load table entries (.subscript key fresh) := by
  obtain ⟨result, prepared, ends⟩ := shows.ready.prepare_spec key 256
  cases ends with
  | overflow next ready holds =>
      refine answered_overflow shows rfl ?_ ready holds
      rw [perform, subscript, insertKeyPrepareEmptySpot, prepared]
      rfl
  | found next idx value valid stored holds =>
      have inside := (valid.coded idx _ stored).1
      have same := shows.congr (Or.inr valid) holds
      have found := same.lookup_of_holds ⟨idx, stored⟩
      refine answered (next, .value (some value)) ?_ ?_ ?_
      · rw [perform, subscript, insertKeyPrepareEmptySpot, prepared, Option.bind_some]
        dsimp only
        rw [valid.node_eq inside, stored]
        rfl
      · rw [Call.answer, found]
        refine same.insert (Or.inr valid) fun other content => ?_
        by_cases equal : other = key
        · subst equal
          refine ⟨fun held => Or.inl ⟨rfl, ?_⟩, fun either => ?_⟩
          · exact Option.some.inj ((same.lookup_of_holds held).symm.trans found)
          · rcases either with ⟨-, rfl⟩ | ⟨different, -⟩
            · exact ⟨idx, stored⟩
            · exact absurd rfl different
        · exact ⟨fun held => Or.inr ⟨equal, held⟩,
            fun either => either.elim (fun both => absurd both.1 equal) And.right⟩
      · rw [Call.answer, found]
        rfl
  | spot next idx state either absent valid holds =>
      have missing := shows.lookup_of_absent absent
      refine answered (next.place idx key fresh, .value (some fresh)) ?_ ?_ ?_
      · rw [perform, subscript, insertKeyPrepareEmptySpot, prepared]
        rcases either with rfl | rfl <;> rfl
      · rw [Call.answer, missing]
        exact shows.insert_absent absent (valid fresh) (holds fresh)
      · rw [Call.answer, missing]
        rfl

/-- `reserve` is answered, and what comes down to it. -/
theorem answered_reserve (shows : Shows hash load table entries) (small : load < 100)
    {call : Call κ ν} {count : Nat} {forceRehash : Bool} (grows : call.mayGrow)
    (same : call.answer entries = (entries, .done))
    (performs : table.perform hash load call =
      (table.reserve hash load count forceRehash).map doneOr) :
    Answered hash load table entries call := by
  obtain ⟨next, completed, reserved, kept, -⟩ :=
    shows.ready.reserve_spec small count forceRehash
  exact answered_kept shows grows same (by rw [performs, reserved, Option.map_some]) kept

/-- **Every call** on a ready table is answered. -/
theorem answered_call (shows : Shows hash load table entries) (small : load < 100)
    (call : Call κ ν) : Answered hash load table entries call := by
  cases call with
  | find key => exact shows.answered_find key
  | contains key => exact shows.answered_contains key
  | emplace key value => exact shows.answered_emplace key value
  | insertOrAssign key value => exact shows.answered_insertOrAssign key value
  | subscript key fresh => exact shows.answered_subscript key fresh
  | erase key => exact shows.answered_erase key
  | clear => exact shows.answered_clear
  | reserve count => exact shows.answered_reserve small rfl rfl rfl
  | rehash count => exact shows.answered_reserve small rfl rfl rfl
  | compact =>
      obtain ⟨next, completed, compacted, kept, -⟩ := shows.ready.compact_spec small
      exact answered_kept shows rfl rfl (by rw [perform, compacted, Option.map_some]) kept
  | size => exact answered _ rfl shows (by rw [Call.answer, shows.card_keys])

end Shows

/-- The table refines the dictionary. -/
theorem refinement (hash : κ → UInt64) (small : load < 100) :
    Component.Refinement (tableComponent (κ := κ) (ν := ν) hash load) dictionary
      (Shows hash load) where
  answers _ _ call shows := shows.answered_call small call

/-- **The dictionary.** Every sequence of calls on a new table is answered, each call as the
finite map answers it or by throwing, which at most loses entries. -/
theorem answers_of_empty (hash : κ → UInt64) {load : Nat} (small : load < 100)
    (calls : List (Call κ ν)) :
    ∃ table answers entries, (tableComponent hash load).run calls {} = some (table, answers) ∧
      dictionary.Runs ∅ calls (entries, answers) := by
  obtain ⟨⟨table, answers⟩, ⟨entries, _⟩, ran, runs, -, rfl⟩ :=
    (refinement hash small).run calls (shows_empty 0xc4ceb9fe1a85ec53)
  exact ⟨table, answers, entries, ran, runs⟩

/-- Calls with three keys, and a fourth that is not there. -/
def threeKeys : List (Call Nat Nat) :=
  [.emplace 1 10, .emplace 2 20, .emplace 3 30, .emplace 2 25, .insertOrAssign 2 21, .find 2,
    .erase 1, .find 3, .find 4, .size]

/-- Three keys that all collide are told apart. -/
theorem answers_of_empty_colliding : ∃ entries,
    dictionary.Runs ∅ threeKeys (entries, [.flag true, .flag true, .flag true, .flag false,
      .flag false, .value (some 21), .count 1, .value (some 30), .value none, .count 2]) := by
  obtain ⟨table, answers, entries, ran, runs⟩ :=
    answers_of_empty (fun _ => 0) (show 80 < 100 by omega) threeKeys
  have answered : ((tableComponent (fun _ : Nat => 0) 80).run threeKeys {}).map Prod.snd =
      some [.flag true, .flag true, .flag true, .flag false, .flag false, .value (some 21),
        .count 1, .value (some 30), .value none, .count 2] := by
    decide +kernel
  rw [ran, Option.map_some] at answered
  exact ⟨entries, Option.some.inj answered ▸ runs⟩

end Table

end FastDb.RobinHood
