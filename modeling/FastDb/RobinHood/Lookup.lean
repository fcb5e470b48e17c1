import Mathlib.Data.Finset.Card
import Mathlib.Data.Finset.Filter
import Mathlib.Data.Finset.Range
import FastDb.Foundation.RobinHood
import FastDb.RobinHood.Table

/-! # Valid tables and lookup

In a valid table every node lies between its home and the end of the node array, its info
byte is the code of its key there, and the codes are in Robin Hood order. Walks then stay
inside the arrays, at the sentinel at the latest, and `find` and the search of `erase` meet
a key exactly when the table holds it (`FastDb.RobinHood.Table.Valid.findLoop_of_located`,
`FastDb.RobinHood.Table.Valid.eraseLoop_of_located`).
-/

namespace FastDb.RobinHood

open Foundation Foundation.RobinHood

/-- A walk ends at the first position whose byte stops it. -/
theorem walk_spec {read : Nat → Option Nat} {goesOn : Nat → Nat → Bool} {infoInc : Nat}
    {infoAt byte : Nat → Nat} {fuel start last : Nat} (before : start ≤ last)
    (step : ∀ position, start ≤ position → infoAt (position + 1) = infoAt position + infoInc)
    (readable : ∀ position ≤ last, read position = some (byte position))
    (ends : goesOn (infoAt last) (byte last) = false) (enough : last < start + fuel) :
    ∃ stop, start ≤ stop ∧ stop ≤ last ∧
      walk read goesOn infoInc fuel start (infoAt start) = some (stop, infoAt stop) ∧
      (∀ position, start ≤ position → position < stop →
        goesOn (infoAt position) (byte position) = true) ∧
      goesOn (infoAt stop) (byte stop) = false := by
  induction fuel generalizing start with
  | zero => omega
  | succ fuel ih =>
      simp only [walk, readable start before, Option.bind_some]
      by_cases going : goesOn (infoAt start) (byte start) = true
      · have further : start + 1 ≤ last := by
          rcases Nat.eq_or_lt_of_le before with rfl | later
          · rw [ends] at going
            exact absurd going Bool.false_ne_true
          · exact later
        obtain ⟨stop, notBefore, bound, walked, passed, stopped⟩ :=
          ih further (fun position later => step position (Nat.le_of_succ_le later)) (by omega)
        rw [if_pos going, ← step start (Nat.le_refl _)]
        refine ⟨stop, Nat.le_of_succ_le notBefore, bound, walked, ?_, stopped⟩
        intro position from_start below
        rcases Nat.eq_or_lt_of_le from_start with rfl | later
        · exact going
        · exact passed position later below
      · rw [if_neg going]
        refine ⟨start, Nat.le_refl _, before, rfl, ?_, Bool.eq_false_of_not_eq_true going⟩
        intro position from_start below
        exact absurd from_start (Nat.not_le.mpr below)

/-- **A search** whose every turn gives the result or goes on further up, at the last
position at most, gives the result. -/
theorem search_spec {σ : Type} (loop : Nat → Nat → Option σ) {result : σ} {first last : Nat}
    (turn : ∀ fuel idx, first ≤ idx → idx ≤ last → loop (fuel + 1) idx = some result ∨
      ∃ next, idx < next ∧ next ≤ last ∧ loop (fuel + 1) idx = loop fuel next)
    {fuel idx : Nat} (behind : first ≤ idx) (before : idx ≤ last) (enough : last < idx + fuel) :
    loop fuel idx = some result := by
  induction fuel generalizing idx with
  | zero => omega
  | succ fuel ih =>
      obtain found | ⟨next, further, inside, goesOn⟩ := turn fuel idx behind before
      · exact found
      · rw [goesOn]
        exact ih (behind.trans (Nat.le_of_lt further)) inside (by omega)

namespace Table

variable {κ ν : Type} {hash : κ → UInt64} {load : Nat} {table : Table κ ν}

/-- The info byte of a key at a position. -/
def infoAt (hash : κ → UInt64) (table : Table κ ν) (key : κ) (idx : Nat) : Nat :=
  codeAt table.infoInc (table.home hash key) (table.hashBits hash key) idx

/-- The info bytes of the nodes. -/
def code (load : Nat) (table : Table κ ν) (idx : Nat) : Nat :=
  if idx < table.numNodes load then table.info idx else 0

/-- The occupied nodes. -/
def occupied (load : Nat) (table : Table κ ν) : Finset Nat :=
  (Finset.range (table.numNodes load)).filter fun idx => table.info idx ≠ 0

/-- The table holds an entry. -/
def Holds (table : Table κ ν) (key : κ) (value : ν) : Prop :=
  ∃ idx, table.keyVals idx = some (key, value)

/-- Where a key is: at one position, or nowhere. -/
def Located (table : Table κ ν) (key : κ) : Option Nat → Prop
  | some idx => ∃ value, table.keyVals idx = some (key, value)
  | none => ∀ value, ¬ table.Holds key value

/-- A table with the smallest increment is not closed to insertions. -/
def Lenient (table : Table κ ν) : Prop := table.infoInc ≤ 2 → table.maxNumElementsAllowed ≠ 0

/-- The table has no allocation yet. -/
def Unallocated (table : Table κ ν) : Prop :=
  table = { hashMultiplier := table.hashMultiplier }

/-- **Validity** of a table with an allocation. -/
structure Valid (hash : κ → UInt64) (load : Nat) (table : Table κ ν) : Prop where
  allocated : table.mask ≠ 0
  increment : table.infoInc * 2 ^ table.infoHashShift = 32
  two_le : 2 ≤ table.infoInc
  sentinel : table.info (table.numNodes load) = 1
  padding : ∀ idx, table.numNodes load < idx → table.info idx = 0
  free : ∀ idx, idx < table.numNodes load → table.keyVals idx = none → table.info idx = 0
  coded : ∀ idx entry, table.keyVals idx = some entry → idx < table.numNodes load ∧
    table.home hash entry.1 ≤ idx ∧ table.info idx = table.infoAt hash entry.1 idx
  ordered : Ordered table.infoInc (table.code load)
  unique : ∀ idx other entry otherEntry, table.keyVals idx = some entry →
    table.keyVals other = some otherEntry → entry.1 = otherEntry.1 → idx = other
  bytes : ∀ idx, table.info idx < 256
  headroom : table.maxNumElementsAllowed ≠ 0 →
    table.maxNumElementsAllowed = calcMaxNumElementsAllowed load (table.mask + 1) ∧
      ∀ idx, table.info idx + table.infoInc < 256
  count : table.numElements = (table.occupied load).card
  allowed : table.numElements ≤ calcMaxNumElementsAllowed load (table.mask + 1)

/-- A table that calls leave: valid, or without an allocation yet. -/
def Ready (hash : κ → UInt64) (load : Nat) (table : Table κ ν) : Prop :=
  table.Unallocated ∨ Valid hash load table

/-- A table without an allocation holds nothing. -/
theorem Unallocated.not_holds (unallocated : table.Unallocated) (key : κ) (value : ν) :
    ¬ table.Holds key value := by
  intro holds
  obtain ⟨idx, stored⟩ := holds
  rw [unallocated] at stored
  cases stored

/-! ## Codes and homes -/

/-- A home is inside the mask. -/
theorem home_le_mask (hash : κ → UInt64) (table : Table κ ν) (key : κ) :
    table.home hash key ≤ table.mask := Nat.and_le_right

/-- The mask is a position of a node. -/
theorem mask_lt_numNodes (load : Nat) (table : Table κ ν) : table.mask < table.numNodes load :=
  Nat.lt_of_lt_of_le (Nat.lt_succ_self _) (Nat.le_add_right _ _)

/-- A home is the position of a node. -/
theorem home_lt_numNodes (hash : κ → UInt64) (load : Nat) (table : Table κ ν) (key : κ) :
    table.home hash key < table.numNodes load :=
  Nat.lt_of_le_of_lt (home_le_mask hash table key) (mask_lt_numNodes load table)

/-- A walk begins at the home of the key, with its info byte there. -/
theorem keyToIdx_eq (key : κ) : table.keyToIdx hash key =
    (table.home hash key, table.infoAt hash key (table.home hash key)) := by
  rw [keyToIdx, infoAt, codeAt_home]

/-- One position further up the info byte is one increment more. -/
theorem infoAt_succ {key : κ} {idx : Nat} (behind : table.home hash key ≤ idx) :
    table.infoAt hash key (idx + 1) = table.infoAt hash key idx + table.infoInc :=
  codeAt_succ behind

/-- An info byte is an increment at least. -/
theorem infoInc_le_infoAt (hash : κ → UInt64) (table : Table κ ν) (key : κ) (idx : Nat) :
    table.infoInc ≤ table.infoAt hash key idx :=
  (Nat.le_add_right _ _).trans (le_codeAt _ _ _ idx)

/-- At a node the code is the info byte. -/
theorem code_of_lt {idx : Nat} (inside : idx < table.numNodes load) :
    table.code load idx = table.info idx := if_pos inside

/-- Behind the nodes the code is 0. -/
theorem code_of_le {idx : Nat} (outside : table.numNodes load ≤ idx) :
    table.code load idx = 0 := if_neg (Nat.not_lt.mpr outside)

namespace Valid

/-- The bits of the hash stay below the increment. -/
theorem hashBits_lt (valid : Valid hash load table) (key : κ) :
    table.hashBits hash key < table.infoInc := by
  rw [hashBits, Nat.shiftRight_eq_div_pow, Nat.div_lt_iff_lt_mul (Nat.two_pow_pos _),
    valid.increment, UInt64.toNat_and]
  exact Nat.lt_of_le_of_lt Nat.and_le_right (by decide)

/-- The info bytes are those of the nodes and eight more. -/
theorem numBytesInfo_eq (valid : Valid hash load table) :
    table.numBytesInfo load = table.numNodes load + 8 := by
  rw [numBytesInfo, if_neg valid.allocated, calcNumBytesInfo]

/-- An info byte inside the array can be read. -/
theorem readInfo_eq (valid : Valid hash load table) {idx : Nat}
    (inside : idx < table.numNodes load + 8) :
    table.readInfo load idx = some (table.info idx) := by
  rw [readInfo, if_pos (valid.numBytesInfo_eq ▸ inside)]

/-- A node inside the array can be used. -/
theorem node_eq (valid : Valid hash load table) {idx : Nat}
    (inside : idx < table.numNodes load) : table.node load idx = table.keyVals idx := by
  rw [node, if_pos ⟨valid.allocated, inside⟩]

/-- The sentinel and what follows it are smaller than any code. -/
theorem info_lt_infoAt (valid : Valid hash load table) {idx : Nat}
    (outside : table.numNodes load ≤ idx) (key : κ) (position : Nat) :
    table.info idx < table.infoAt hash key position := by
  have least := infoInc_le_infoAt hash table key position
  have two := valid.two_le
  rcases Nat.eq_or_lt_of_le outside with rfl | past
  · rw [valid.sentinel]
    omega
  · rw [valid.padding idx past]
    omega

/-- A node with an info byte is there. -/
theorem exists_entry (valid : Valid hash load table) {idx : Nat}
    (inside : idx < table.numNodes load) (occupied : table.info idx ≠ 0) :
    ∃ entry, table.keyVals idx = some entry := by
  cases stored : table.keyVals idx with
  | none => exact absurd (valid.free idx inside stored) occupied
  | some entry => exact ⟨entry, rfl⟩

/-- A node that is there has an info byte. -/
theorem info_ne_zero (valid : Valid hash load table) {idx : Nat} {entry : κ × ν}
    (stored : table.keyVals idx = some entry) : table.info idx ≠ 0 := by
  have least := infoInc_le_infoAt hash table entry.1 idx
  have two := valid.two_le
  rw [(valid.coded idx entry stored).2.2]
  omega

/-- **Probing** a held key: from its home up to its node no info byte is smaller than its
own there. -/
theorem infoAt_le_info (valid : Valid hash load table) {key : κ} {value : ν} {last idx : Nat}
    (stored : table.keyVals last = some (key, value)) (behind : table.home hash key ≤ idx)
    (before : idx ≤ last) : table.infoAt hash key idx ≤ table.info idx := by
  obtain ⟨inside, -, coded⟩ := valid.coded last _ stored
  have reached : table.infoAt hash key last ≤ table.code load last := by
    rw [code_of_lt inside, coded]
  have low := valid.ordered.le_code reached behind before
  rwa [code_of_lt (Nat.lt_of_le_of_lt before inside)] at low

/-- **A walk** from behind the home of a key ends where its condition first fails, if it fails
inside the info bytes. -/
theorem skip_spec (valid : Valid hash load table) (goesOn : Nat → Nat → Bool) {key : κ}
    {start last : Nat} (behind : table.home hash key ≤ start) (before : start ≤ last)
    (inside : last < table.numNodes load + 8)
    (ends : goesOn (table.infoAt hash key last) (table.info last) = false) :
    ∃ stop, start ≤ stop ∧ stop ≤ last ∧
      table.skip load goesOn start (table.infoAt hash key start) =
        some (stop, table.infoAt hash key stop) ∧
      (∀ position, start ≤ position → position < stop →
        goesOn (table.infoAt hash key position) (table.info position) = true) ∧
      goesOn (table.infoAt hash key stop) (table.info stop) = false :=
  walk_spec before (fun _ later => infoAt_succ (behind.trans later))
    (fun _ below => valid.readInfo_eq (by omega)) ends (by rw [valid.numBytesInfo_eq]; omega)

/-! ## Finding a key -/

/-- A key is nowhere else than where it is. -/
theorem eq_of_located (valid : Valid hash load table) {key : κ} {value : ν} {place : Option Nat}
    {idx : Nat} (located : table.Located key place)
    (stored : table.keyVals idx = some (key, value)) : place = some idx := by
  cases place with
  | none => exact absurd ⟨idx, stored⟩ (located value)
  | some last =>
      obtain ⟨other, there⟩ := located
      exact congrArg some (valid.unique last idx _ _ there stored rfl)

/-- The search for a key stays at or before the end of the nodes. -/
theorem getD_le (valid : Valid hash load table) {key : κ} {place : Option Nat}
    (located : table.Located key place) :
    place.getD (table.numNodes load) ≤ table.numNodes load := by
  cases place with
  | none => exact Nat.le_refl _
  | some last =>
      obtain ⟨value, stored⟩ := located
      exact Nat.le_of_lt (valid.coded last _ stored).1

/-- **A turn** that did not pass the key: it may go on only to where the key may be, and
it ends only when there is no key. -/
theorem turn_spec (valid : Valid hash load table) {key : κ} {place : Option Nat} {idx : Nat}
    (located : table.Located key place) (behind : table.home hash key ≤ idx)
    (ahead : ∀ last, place = some last → idx ≤ last) :
    if table.infoAt hash key idx ≤ table.info idx then idx ≤ place.getD (table.numNodes load)
    else place = none := by
  cases place with
  | none =>
      split
      · next reached =>
          by_contra outside
          have less := valid.info_lt_infoAt (Nat.le_of_not_le outside) key idx
          exact absurd reached (Nat.not_le.mpr less)
      · rfl
  | some last =>
      obtain ⟨value, stored⟩ := located
      have before := ahead last rfl
      rw [if_pos (valid.infoAt_le_info stored behind before)]
      exact before

section Find

variable [DecidableEq κ]

/-- The test of the key that the position holds. -/
theorem isMatch_of_stored (valid : Valid hash load table) {key : κ} {value : ν} {idx : Nat}
    (stored : table.keyVals idx = some (key, value)) :
    table.isMatch load key idx (table.infoAt hash key idx) = some true := by
  obtain ⟨inside, -, coded⟩ := valid.coded idx _ stored
  rw [isMatch, valid.readInfo_eq (Nat.lt_add_right 8 inside), Option.bind_some, coded,
    if_pos rfl, valid.node_eq inside, stored]
  exact congrArg some (decide_eq_true rfl)

/-- The test of a key that the position does not hold. -/
theorem isMatch_of_ne (valid : Valid hash load table) {key : κ} {idx : Nat}
    (inside : idx < table.numNodes load + 8)
    (different : ∀ value, table.keyVals idx ≠ some (key, value)) :
    table.isMatch load key idx (table.infoAt hash key idx) = some false := by
  rw [isMatch, valid.readInfo_eq inside, Option.bind_some]
  split
  · next same =>
      have isNode : idx < table.numNodes load := by
        by_contra outside
        exact absurd same (Nat.ne_of_gt (valid.info_lt_infoAt (Nat.le_of_not_lt outside) key idx))
      have least := infoInc_le_infoAt hash table key idx
      have two := valid.two_le
      obtain ⟨⟨other, value⟩, stored⟩ := valid.exists_entry isNode (by omega)
      rw [valid.node_eq isNode, stored]
      refine congrArg some (decide_eq_false ?_)
      rintro rfl
      exact different value stored
  · rfl

/-- **The test** of a search succeeds where the key is, and nowhere else. -/
theorem isMatch_of_located (valid : Valid hash load table) {key : κ} {place : Option Nat}
    {idx : Nat} (located : table.Located key place) (inside : idx < table.numNodes load + 8) :
    table.isMatch load key idx (table.infoAt hash key idx) = some (decide (place = some idx)) := by
  by_cases here : place = some idx
  · obtain rfl := here
    obtain ⟨value, stored⟩ := located
    rw [valid.isMatch_of_stored stored, decide_eq_true rfl]
  · rw [valid.isMatch_of_ne inside fun value stored => here (valid.eq_of_located located stored),
      decide_eq_false here]

/-- **The search of `find`** gives the position of the key, or the end. -/
theorem findLoop_of_located (valid : Valid hash load table) {key : κ} {place : Option Nat}
    (located : table.Located key place) {fuel idx : Nat} (behind : table.home hash key ≤ idx)
    (before : idx ≤ place.getD (table.numNodes load))
    (enough : table.numNodes load < idx + fuel) :
    table.findLoop load key fuel idx (table.infoAt hash key idx) =
      some (place.getD (table.endIdx load)) := by
  have bounded := valid.getD_le located
  refine search_spec (fun fuel idx => table.findLoop load key fuel idx (table.infoAt hash key idx))
    ?_ behind before (Nat.lt_of_le_of_lt bounded enough)
  intro fuel idx behind before
  simp only [findLoop]
  rw [valid.isMatch_of_located located (by omega), Option.bind_some]
  by_cases here : place = some idx
  · left
    rw [if_pos (decide_eq_true here), here]
    rfl
  rw [if_neg (by simpa using here), ← infoAt_succ behind,
    valid.isMatch_of_located located (by omega), Option.bind_some]
  by_cases second : place = some (idx + 1)
  · left
    rw [if_pos (decide_eq_true second), second]
    rfl
  rw [if_neg (by simpa using second), ← infoAt_succ (Nat.le_succ_of_le behind),
    valid.readInfo_eq (by omega), Option.bind_some]
  have ahead : ∀ last, place = some last → idx + 2 ≤ last := by
    rintro last rfl
    simp only [Option.getD_some, Option.some.injEq] at before here second
    omega
  have turn := valid.turn_spec located (by omega) ahead
  split at turn
  · next reached =>
      rw [if_pos reached]
      exact Or.inr ⟨idx + 2, by omega, turn, rfl⟩
  · next short =>
      rw [if_neg short, turn]
      exact Or.inl rfl

/-- **The search of `erase`** gives the position of the key, if there is one. -/
theorem eraseLoop_of_located (valid : Valid hash load table) {key : κ} {place : Option Nat}
    (located : table.Located key place) {fuel idx : Nat} (behind : table.home hash key ≤ idx)
    (before : idx ≤ place.getD (table.numNodes load))
    (enough : table.numNodes load < idx + fuel) :
    table.eraseLoop load key fuel idx (table.infoAt hash key idx) = some place := by
  have bounded := valid.getD_le located
  refine search_spec (fun fuel idx => table.eraseLoop load key fuel idx (table.infoAt hash key idx))
    ?_ behind before (Nat.lt_of_le_of_lt bounded enough)
  intro fuel idx behind before
  simp only [eraseLoop]
  rw [valid.isMatch_of_located located (by omega), Option.bind_some]
  by_cases here : place = some idx
  · left
    rw [if_pos (decide_eq_true here), here]
  rw [if_neg (by simpa using here), ← infoAt_succ behind, valid.readInfo_eq (by omega),
    Option.bind_some]
  have ahead : ∀ last, place = some last → idx + 1 ≤ last := by
    rintro last rfl
    simp only [Option.getD_some, Option.some.injEq] at before here
    omega
  have turn := valid.turn_spec located (by omega) ahead
  split at turn
  · next reached =>
      rw [if_pos reached]
      exact Or.inr ⟨idx + 1, by omega, turn, rfl⟩
  · next short =>
      rw [if_neg short, turn]
      exact Or.inl rfl

/-- `find` of a key from its home on. -/
theorem findIdx_of_located (valid : Valid hash load table) {key : κ} {place : Option Nat}
    (located : table.Located key place)
    (before : table.home hash key ≤ place.getD (table.numNodes load)) :
    table.findIdx hash load key = some (place.getD (table.endIdx load)) := by
  rw [findIdx, keyToIdx_eq]
  exact valid.findLoop_of_located located (Nat.le_refl _) before
    (by rw [valid.numBytesInfo_eq]; omega)

/-- `find` of a key that the table holds. -/
theorem findIdx_of_stored (valid : Valid hash load table) {key : κ} {value : ν} {idx : Nat}
    (stored : table.keyVals idx = some (key, value)) : table.findIdx hash load key = some idx :=
  valid.findIdx_of_located (show table.Located key (some idx) from ⟨value, stored⟩)
    (valid.coded idx _ stored).2.1

/-- `find` of a key that the table does not hold. -/
theorem findIdx_of_absent (valid : Valid hash load table) {key : κ}
    (absent : ∀ value, ¬ table.Holds key value) :
    table.findIdx hash load key = some (table.endIdx load) :=
  valid.findIdx_of_located (show table.Located key none from absent)
    (Nat.le_of_lt (home_lt_numNodes hash load table key))

end Find

end Valid

/-! ## Tables without an allocation -/

namespace Unallocated

/-- There is no mask. -/
theorem mask_eq (unallocated : table.Unallocated) : table.mask = 0 := by rw [unallocated]

/-- Every walk begins at the first byte. -/
theorem keyToIdx_eq (unallocated : table.Unallocated) (key : κ) :
    table.keyToIdx hash key = (0, 32 + table.hashBits hash key) := by
  rw [keyToIdx, home, unallocated.mask_eq, Nat.and_zero]
  congr 2
  rw [unallocated]

/-- The info bytes are those of `mMask`. -/
theorem numBytesInfo_eq (unallocated : table.Unallocated) : table.numBytesInfo load = 8 :=
  if_pos unallocated.mask_eq

/-- Each of them is 0. -/
theorem readInfo_eq (unallocated : table.Unallocated) {idx : Nat} (inside : idx < 8) :
    table.readInfo load idx = some 0 := by
  rw [readInfo, unallocated.numBytesInfo_eq, if_pos inside, unallocated]

variable [DecidableEq κ]

/-- No test succeeds. -/
theorem isMatch_eq (unallocated : table.Unallocated) (key : κ) {idx info : Nat}
    (inside : idx < 8) (positive : info ≠ 0) :
    table.isMatch load key idx info = some false := by
  rw [isMatch, unallocated.readInfo_eq inside, Option.bind_some, if_neg positive]

/-- `find` gives the end. -/
theorem findIdx_eq (unallocated : table.Unallocated) (key : κ) :
    table.findIdx hash load key = some (table.endIdx load) := by
  rw [findIdx, unallocated.keyToIdx_eq, unallocated.numBytesInfo_eq]
  dsimp only
  rw [findLoop, unallocated.isMatch_eq key (by omega) (by omega), Option.bind_some,
    if_neg Bool.false_ne_true, unallocated.isMatch_eq key (by omega) (by omega),
    Option.bind_some, if_neg Bool.false_ne_true, unallocated.readInfo_eq (by omega),
    Option.bind_some, if_neg (by omega)]

/-- `erase` erases nothing. -/
theorem erase_eq (unallocated : table.Unallocated) (key : κ) :
    table.erase hash load key = some (table, 0) := by
  rw [erase, unallocated.keyToIdx_eq, unallocated.numBytesInfo_eq]
  dsimp only
  rw [eraseLoop, unallocated.isMatch_eq key (by omega) (by omega), Option.bind_some,
    if_neg Bool.false_ne_true, unallocated.readInfo_eq (by omega), Option.bind_some,
    if_neg (by omega), Option.bind_some]

end Unallocated

end Table

end FastDb.RobinHood
