import Mathlib.Order.Interval.Finset.Nat
import FastDb.RobinHood.Removal

/-! # Putting a node in

`insertKeyPrepareEmptySpot` and `insert_move` open a spot in front of the first node with a
smaller info byte. There is always an empty node behind it, in front of the sentinel,
because the last node of a valid table is never used
(`FastDb.RobinHood.Table.Valid.last_free`), and once the entry is placed the table is valid
and holds it as well (`FastDb.RobinHood.Table.Valid.place`).
-/

namespace FastDb.RobinHood

open Foundation Foundation.RobinHood

/-- Where a node comes from that is at a position behind an insertion. -/
def originOf (position empty other : Nat) : Nat :=
  if position < other ∧ other ≤ empty then other - 1 else other

/-- Every position but the empty one is where some node comes from. -/
theorem exists_originOf {position empty source : Nat} (behind : position ≤ empty)
    (different : source ≠ empty) :
    ∃ other, other ≠ position ∧ originOf position empty other = source := by
  by_cases moved : position ≤ source ∧ source < empty
  · refine ⟨source + 1, by omega, ?_⟩
    rw [originOf, if_pos (by omega), Nat.add_sub_cancel]
  · refine ⟨source, by omega, ?_⟩
    rw [originOf, if_neg (by omega)]

/-- No two nodes come from one position. -/
theorem originOf_injective {position empty other another : Nat} (notNew : other ≠ position)
    (notNewEither : another ≠ position)
    (notEmpty : originOf position empty other ≠ empty)
    (same : originOf position empty other = originOf position empty another) :
    other = another := by
  simp only [originOf] at same notEmpty
  split at same <;> split at same <;> rename_i one two <;>
    simp only [one, ↓reduceIte] at notEmpty <;> omega

/-- As many entries as never fill an info byte, whatever their hashes. -/
def fewEntries : Nat := 126

namespace Table

variable {κ ν : Type} {hash : κ → UInt64} {load : Nat} {table : Table κ ν}

/-! ## The loops of `shiftUp` -/

/-- Shifting moves every node by its origin. -/
theorem shiftNodes_eq (insertionIdx count : Nat) (nodes : Nat → Option (κ × ν)) {other : Nat}
    (different : other ≠ insertionIdx) :
    shiftNodes insertionIdx count nodes other =
      nodes (originOf insertionIdx (insertionIdx + count) other) := by
  induction count generalizing nodes with
  | zero => rw [shiftNodes, originOf, if_neg (by omega)]
  | succ count ih =>
      rw [shiftNodes, ih]
      by_cases last : other = insertionIdx + count + 1
      · have here : originOf insertionIdx (insertionIdx + count) other = other :=
          if_neg (by omega)
        have there : originOf insertionIdx (insertionIdx + (count + 1)) other =
            insertionIdx + count := by
          rw [originOf, if_pos (by omega)]
          omega
        rw [here, there, last, Function.update_of_ne (by omega), Function.update_self]
      · have same : originOf insertionIdx (insertionIdx + (count + 1)) other =
            originOf insertionIdx (insertionIdx + count) other := by
          rw [originOf, originOf]
          split <;> split <;> omega
        have apart : originOf insertionIdx (insertionIdx + count) other ≠ insertionIdx + count ∧
            originOf insertionIdx (insertionIdx + count) other ≠ insertionIdx + count + 1 := by
          rw [originOf]
          split <;> omega
        rw [same, Function.update_of_ne apart.1, Function.update_of_ne apart.2]

/-- What the second loop of `shiftUp` leaves. -/
structure Shifts (table next : Table κ ν) (insertionIdx count : Nat) : Prop where
  hashMultiplier : next.hashMultiplier = table.hashMultiplier
  keyVals : next.keyVals = table.keyVals
  numElements : next.numElements = table.numElements
  mask : next.mask = table.mask
  infoInc : next.infoInc = table.infoInc
  infoHashShift : next.infoHashShift = table.infoHashShift
  info : ∀ other, next.info other =
    if insertionIdx < other ∧ other ≤ insertionIdx + count then
      (table.info (other - 1) + table.infoInc) % 256 else table.info other
  maxNumElementsAllowed : next.maxNumElementsAllowed = 0 ∧ (table.maxNumElementsAllowed = 0 ∨
      ∃ other, insertionIdx < other ∧ other ≤ insertionIdx + count ∧
        256 ≤ next.info other + table.infoInc) ∨
    next.maxNumElementsAllowed = table.maxNumElementsAllowed ∧
      ∀ other, insertionIdx < other → other ≤ insertionIdx + count →
        next.info other + table.infoInc < 256

/-- The byte is the one before and an increment. -/
theorem shiftByte_info (idx : Nat) : (table.shiftByte idx).info =
    Function.update table.info idx ((table.info (idx - 1) + table.infoInc) % 256) := rfl

/-- A byte without room closes the table. -/
theorem shiftByte_maxNumElementsAllowed (idx : Nat) :
    (table.shiftByte idx).maxNumElementsAllowed = 0 ∧
        256 ≤ (table.info (idx - 1) + table.infoInc) % 256 + table.infoInc ∨
      (table.shiftByte idx).maxNumElementsAllowed = table.maxNumElementsAllowed ∧
        (table.info (idx - 1) + table.infoInc) % 256 + table.infoInc < 256 := by
  simp only [shiftByte]
  split
  · exact Or.inl ⟨rfl, by omega⟩
  · exact Or.inr ⟨rfl, by omega⟩

/-- The loop shifts the bytes. -/
theorem shiftInfo_shifts (insertionIdx count : Nat) (table : Table κ ν) :
    Shifts table (shiftInfo insertionIdx count table) insertionIdx count := by
  induction count generalizing table with
  | zero =>
      refine ⟨rfl, rfl, rfl, rfl, rfl, rfl, fun other => ?_, Or.inr ⟨rfl, fun other _ _ => ?_⟩⟩
      · rw [if_neg (by omega)]
        rfl
      · omega
  | succ count ih =>
      rw [shiftInfo]
      have rest := ih (table.shiftByte (insertionIdx + count + 1))
      generalize shiftInfo insertionIdx count (table.shiftByte (insertionIdx + count + 1)) = next
        at rest ⊢
      have info : ∀ other, next.info other =
          if insertionIdx < other ∧ other ≤ insertionIdx + (count + 1) then
            (table.info (other - 1) + table.infoInc) % 256 else table.info other := by
        intro other
        have turn : ∀ position, position ≤ insertionIdx + count →
            (table.shiftByte (insertionIdx + count + 1)).info position = table.info position :=
          fun position below => Function.update_of_ne (by omega) _ _
        have inc : (table.shiftByte (insertionIdx + count + 1)).infoInc = table.infoInc := rfl
        rw [rest.info, inc]
        by_cases inner : insertionIdx < other ∧ other ≤ insertionIdx + count
        · rw [if_pos inner, if_pos ⟨inner.1, by omega⟩, turn (other - 1) (by omega)]
        · rw [if_neg inner, shiftByte_info]
          by_cases last : other = insertionIdx + count + 1
          · rw [last, Function.update_self, if_pos (by omega)]
          · rw [Function.update_of_ne last, if_neg (by omega)]
      refine ⟨rest.hashMultiplier, rest.keyVals, rest.numElements, rest.mask, rest.infoInc,
        rest.infoHashShift, info, ?_⟩
      have last : next.info (insertionIdx + count + 1) =
          (table.info (insertionIdx + count + 1 - 1) + table.infoInc) % 256 := by
        rw [info, if_pos (by omega)]
      have turn := table.shiftByte_maxNumElementsAllowed (insertionIdx + count + 1)
      rw [← last] at turn
      rcases rest.maxNumElementsAllowed with ⟨closed, before | later⟩ | ⟨kept, room⟩
      · refine Or.inl ⟨closed, ?_⟩
        rcases turn with ⟨-, large⟩ | ⟨same, -⟩
        · exact Or.inr ⟨_, by omega, by omega, large⟩
        · exact Or.inl (same.symm.trans before)
      · obtain ⟨other, behind, notAfter, large⟩ := later
        exact Or.inl ⟨closed, Or.inr ⟨other, behind, by omega, large⟩⟩
      · rw [kept]
        rcases turn with ⟨closed, large⟩ | ⟨same, fits⟩
        · exact Or.inl ⟨closed, Or.inr ⟨_, by omega, by omega, large⟩⟩
        · refine Or.inr ⟨same, fun other behind notAfter => ?_⟩
          rcases Nat.eq_or_lt_of_le notAfter with rfl | earlier
          · exact fits
          · exact room other behind (by omega)

/-- Nothing is shifted where the spot itself is empty. -/
theorem shiftUp_of_ne (table : Table κ ν) (startIdx insertionIdx : Nat) :
    (if startIdx ≠ insertionIdx then table.shiftUp startIdx insertionIdx else table) =
      table.shiftUp startIdx insertionIdx := by
  split
  · rfl
  · next same =>
      rw [Decidable.not_not.mp same, shiftUp, Nat.sub_self]
      rfl

section CloseFull

variable (info : Nat)

@[simp] theorem closeFull_info : (table.closeFull info).info = table.info := by
  rw [closeFull]; split <;> rfl

@[simp] theorem closeFull_keyVals : (table.closeFull info).keyVals = table.keyVals := by
  rw [closeFull]; split <;> rfl

@[simp] theorem closeFull_mask : (table.closeFull info).mask = table.mask := by
  rw [closeFull]; split <;> rfl

@[simp] theorem closeFull_infoInc : (table.closeFull info).infoInc = table.infoInc := by
  rw [closeFull]; split <;> rfl

@[simp] theorem closeFull_infoHashShift :
    (table.closeFull info).infoHashShift = table.infoHashShift := by
  rw [closeFull]; split <;> rfl

@[simp] theorem closeFull_hashMultiplier :
    (table.closeFull info).hashMultiplier = table.hashMultiplier := by
  rw [closeFull]; split <;> rfl

@[simp] theorem closeFull_numElements : (table.closeFull info).numElements = table.numElements := by
  rw [closeFull]; split <;> rfl

/-- An info without room closes the table. -/
theorem closeFull_maxNumElementsAllowed :
    (table.closeFull info).maxNumElementsAllowed = 0 ∧ 256 ≤ info + table.infoInc ∨
      (table.closeFull info).maxNumElementsAllowed = table.maxNumElementsAllowed ∧
        info + table.infoInc < 256 := by
  rw [closeFull]
  split
  · exact Or.inl ⟨rfl, by omega⟩
  · exact Or.inr ⟨rfl, by omega⟩

/-- Walks do not depend on it. -/
theorem skip_closeFull (goesOn : Nat → Nat → Bool) (idx start : Nat) :
    (table.closeFull info).skip load goesOn idx start = table.skip load goesOn idx start := by
  have size : (table.closeFull info).numBytesInfo load = table.numBytesInfo load := by
    simp only [numBytesInfo, numNodes, closeFull_mask]
  have read : (table.closeFull info).readInfo load = table.readInfo load := by
    funext position
    rw [readInfo, readInfo, size, closeFull_info]
  rw [skip, skip, size, read, closeFull_infoInc]

end CloseFull

/-! ## An opened spot -/

/-- What opening a spot at a position for an info byte leaves. -/
structure Opened (load : Nat) (table next : Table κ ν) (idx empty value : Nat) : Prop where
  behind : idx ≤ empty
  inside : empty < table.numNodes load
  free : table.info empty = 0
  full : ∀ position, idx ≤ position → position < empty → table.info position ≠ 0
  hashMultiplier : next.hashMultiplier = table.hashMultiplier
  mask : next.mask = table.mask
  infoInc : next.infoInc = table.infoInc
  infoHashShift : next.infoHashShift = table.infoHashShift
  numElements : next.numElements = table.numElements + 1
  keyVals : ∀ other, other ≠ idx → next.keyVals other = table.keyVals (originOf idx empty other)
  info : next.info = inserted table.infoInc table.info idx empty value
  headroom : next.maxNumElementsAllowed = 0 ∧ (∃ other, 256 ≤ next.info other + table.infoInc) ∨
    next.maxNumElementsAllowed = table.maxNumElementsAllowed ∧
      ∀ other, next.info other + table.infoInc < 256

namespace Valid

/-- A key is as far from its home as the entries in between at most. -/
theorem distance_lt (valid : Valid hash load table) {idx : Nat} {entry : κ × ν}
    (stored : table.keyVals idx = some entry) :
    idx - table.home hash entry.1 < table.numElements := by
  obtain ⟨inside, home, -⟩ := valid.coded _ _ stored
  have two := valid.two_le
  -- all nodes from the home of the entry on are occupied
  have run : Finset.Icc (table.home hash entry.1) idx ⊆ table.occupied load := by
    intro position member
    obtain ⟨from_home, before⟩ := Finset.mem_Icc.mp member
    rw [Table.occupied, Finset.mem_filter, Finset.mem_range]
    refine ⟨by omega, ?_⟩
    have reached := valid.infoAt_le_info stored from_home before
    have least := infoInc_le_infoAt hash table entry.1 position
    omega
  have many := Finset.card_le_card run
  rw [Nat.card_Icc, ← valid.count] at many
  omega

/-- **The last node** is never used: the entries in front of it would be too many, or its
info byte too large. -/
theorem last_free (valid : Valid hash load table) :
    table.info (table.numNodes load - 1) = 0 := by
  by_contra occupied
  have positive : 0 < table.numNodes load :=
    Nat.lt_of_le_of_lt (Nat.zero_le _) (mask_lt_numNodes load table)
  obtain ⟨entry, stored⟩ := valid.exists_entry (by omega) occupied
  obtain ⟨-, home, coded⟩ := valid.coded _ _ stored
  have low := home_le_mask hash table entry.1
  have two := valid.two_le
  have many := valid.distance_lt stored
  have few := valid.allowed
  have byte := valid.bytes (table.numNodes load - 1)
  have far : 2 * (table.numNodes load - table.home hash entry.1) ≤
      table.info (table.numNodes load - 1) := by
    rw [coded, infoAt, codeAt, show table.numNodes load - 1 - table.home hash entry.1 + 1 =
      table.numNodes load - table.home hash entry.1 by omega]
    exact (Nat.mul_le_mul_right _ two).trans (Nat.le_add_right _ _)
  have size : table.numNodes load = table.mask + 1 +
      min (calcMaxNumElementsAllowed load (table.mask + 1)) 255 := rfl
  omega

/-- Where a key that is not held may be inserted: behind its home, in front of the first
smaller info byte. -/
structure Spot (hash : κ → UInt64) (load : Nat) (table : Table κ ν) (key : κ) (idx : Nat) :
    Prop where
  behind : table.home hash key ≤ idx
  inside : idx ≤ table.numNodes load
  smaller : table.info idx < table.infoAt hash key idx
  passed : ∀ position, table.home hash key ≤ position → position < idx →
    table.infoAt hash key position ≤ table.info position

section Spot

variable {key : κ} {idx : Nat}

/-- A spot is one of the nodes but the last. -/
theorem spot_lt (valid : Valid hash load table) (spot : Spot hash load table key idx) :
    idx < table.numNodes load := by
  rcases Nat.eq_or_lt_of_le spot.inside with rfl | isNode
  · have low := home_lt_numNodes hash load table key
    have reached := spot.passed (table.numNodes load - 1) (by omega) (by omega)
    have least := infoInc_le_infoAt hash table key
      (table.numNodes load - 1)
    have two := valid.two_le
    rw [valid.last_free] at reached
    omega
  · exact isNode

/-- The code of a new key follows the one in front of it. -/
theorem spot_follows (valid : Valid hash load table) (spot : Spot hash load table key idx) :
    Follows table.infoInc (previous (table.code load) idx) (table.infoAt hash key idx) := by
  have bits := valid.hashBits_lt key
  rcases Nat.eq_or_lt_of_le spot.behind with atHome | later
  · left
    rw [infoAt, ← atHome, codeAt_home]
    omega
  · obtain ⟨front, rfl⟩ := Nat.exists_eq_succ_of_ne_zero (Nat.ne_zero_of_lt later)
    have reached := spot.passed front (by omega) (Nat.lt_succ_self _)
    have least := infoInc_le_infoAt hash table key front
    have two := valid.two_le
    right
    rw [previous, code_of_lt (Nat.lt_of_succ_lt (valid.spot_lt spot)),
      Nat.succ_eq_add_one, infoAt_succ (by omega)]
    omega

/-- The info byte of a new key fits. -/
theorem infoAt_lt (valid : Valid hash load table) (spot : Spot hash load table key idx)
    (room : table.maxNumElementsAllowed ≠ 0) : table.infoAt hash key idx < 256 := by
  have bits := valid.hashBits_lt key
  rcases valid.spot_follows spot with small | ⟨occupied, follows⟩
  · have bound : table.infoInc ≤ 32 := by
      rw [← valid.increment]
      exact Nat.le_mul_of_pos_right _ (Nat.two_pow_pos _)
    omega
  · obtain ⟨front, rfl⟩ := Nat.exists_eq_succ_of_ne_zero (n := idx) (by
      rintro rfl
      exact occupied rfl)
    rw [previous, code_of_lt (Nat.lt_of_succ_lt (valid.spot_lt spot))] at follows
    exact Nat.lt_of_le_of_lt follows ((valid.headroom room).2 front)

/-- Behind a spot there is an empty node. -/
theorem exists_empty (valid : Valid hash load table) (spot : Spot hash load table key idx) :
    ∃ empty, idx ≤ empty ∧ empty < table.numNodes load ∧ table.info empty = 0 ∧
      ∀ position, idx ≤ position → position < empty → table.info position ≠ 0 := by
  have isNode := valid.spot_lt spot
  have ends : ∃ empty, idx ≤ empty ∧ table.info empty = 0 :=
    ⟨table.numNodes load - 1, by omega, valid.last_free⟩
  have bound := Nat.find_min' ends (m := table.numNodes load - 1) ⟨by omega, valid.last_free⟩
  obtain ⟨notBefore, free⟩ := Nat.find_spec ends
  refine ⟨Nat.find ends, notBefore, by omega, free, ?_⟩
  intro position from_idx below zero
  exact Nat.find_min ends below ⟨from_idx, zero⟩

/-- The walk from a spot to the empty node. -/
theorem skip_to_empty (valid : Valid hash load table) (spot : Spot hash load table key idx)
    {empty : Nat} (behind : idx ≤ empty) (inside : empty < table.numNodes load)
    (free : table.info empty = 0)
    (full : ∀ position, idx ≤ position → position < empty → table.info position ≠ 0) :
    table.skip load (fun _ byte => byte ≠ 0) idx (table.infoAt hash key idx) =
      some (empty, table.infoAt hash key empty) := by
  obtain ⟨stop, notBefore, notAfter, walked, -, stopped⟩ :=
    valid.skip_spec (fun _ byte => byte ≠ 0) spot.behind behind (by omega) (by rw [free]; rfl)
  have zero : table.info stop = 0 := by simpa using stopped
  rcases Nat.eq_or_lt_of_le notAfter with rfl | earlier
  · exact walked
  · exact absurd zero (full stop notBefore earlier)

/-- **Opening** a spot for a key. -/
theorem openSpot_spec (valid : Valid hash load table) (spot : Spot hash load table key idx)
    (room : table.maxNumElementsAllowed ≠ 0) :
    ∃ next empty, table.openSpot load idx (table.infoAt hash key idx) = some (next, empty) ∧
      Opened load table next idx empty (table.infoAt hash key idx) := by
  obtain ⟨empty, behind, inside, free, full⟩ := valid.exists_empty spot
  have fits := valid.infoAt_lt spot room
  obtain ⟨-, headroom⟩ := valid.headroom room
  have walked := valid.skip_to_empty spot behind inside free full
  have shifts := shiftInfo_shifts idx (empty - idx)
    { table.closeFull (table.infoAt hash key idx) with
      keyVals := shiftNodes idx (empty - idx)
        (table.closeFull (table.infoAt hash key idx)).keyVals }
  rw [openSpot]
  dsimp only
  rw [skip_closeFull, walked, Option.bind_some,
    if_pos ⟨by rw [closeFull_mask]; exact valid.allocated,
      by rw [numNodes, closeFull_mask]; exact inside⟩, shiftUp_of_ne]
  refine ⟨_, empty, rfl, ?_⟩
  rw [shiftUp]
  generalize shiftInfo idx (empty - idx) _ = shifted at shifts ⊢
  have size : idx + (empty - idx) = empty := Nat.add_sub_cancel' behind
  have moved : ∀ other, shifted.info other = if idx < other ∧ other ≤ empty then
      (table.info (other - 1) + table.infoInc) % 256 else table.info other := by
    intro other
    rw [shifts.info, size, closeFull_info, closeFull_infoInc]
  have info : Function.update shifted.info idx (table.infoAt hash key idx % 256) =
      inserted table.infoInc table.info idx empty (table.infoAt hash key idx) := by
    funext other
    rw [Function.update_apply, inserted, Nat.mod_eq_of_lt fits, moved,
      Nat.mod_eq_of_lt (headroom (other - 1))]
  exact {
    behind := behind
    inside := inside
    free := free
    full := full
    hashMultiplier := shifts.hashMultiplier.trans (closeFull_hashMultiplier _)
    mask := shifts.mask.trans (closeFull_mask _)
    infoInc := shifts.infoInc.trans (closeFull_infoInc _)
    infoHashShift := shifts.infoHashShift.trans (closeFull_infoHashShift _)
    numElements := congrArg Nat.succ (shifts.numElements.trans (closeFull_numElements _))
    keyVals := by
      intro other different
      have nodes := congrFun shifts.keyVals other
      dsimp only at nodes
      rw [shiftNodes_eq _ _ _ different, closeFull_keyVals, size] at nodes
      exact nodes
    info := info
    headroom := by
      have admitted := table.closeFull_maxNumElementsAllowed (table.infoAt hash key idx)
      have here : Function.update shifted.info idx (table.infoAt hash key idx % 256) idx =
          table.infoAt hash key idx := by
        rw [Function.update_self, Nat.mod_eq_of_lt fits]
      rcases shifts.maxNumElementsAllowed with ⟨closed, before | ⟨other, behind, -, large⟩⟩ |
        ⟨kept, small⟩
      · rcases admitted with ⟨-, large⟩ | ⟨same, -⟩
        · exact Or.inl ⟨closed, idx, large.trans_eq (congrArg (· + table.infoInc) here.symm)⟩
        · exact absurd (same.symm.trans before) room
      · refine Or.inl ⟨closed, other, ?_⟩
        change 256 ≤ Function.update shifted.info idx _ other + table.infoInc
        rw [Function.update_of_ne (Nat.ne_of_gt behind)]
        rwa [closeFull_infoInc] at large
      · rcases admitted with ⟨closed, large⟩ | ⟨same, fitsMore⟩
        · exact Or.inl ⟨kept.trans closed, idx,
            large.trans_eq (congrArg (· + table.infoInc) here.symm)⟩
        · refine Or.inr ⟨kept.trans same, fun other => ?_⟩
          change Function.update shifted.info idx _ other + table.infoInc < 256
          by_cases atSpot : other = idx
          · rw [atSpot, here]
            exact fitsMore
          · rw [Function.update_of_ne atSpot]
            by_cases inner : idx < other ∧ other ≤ empty
            · have below := small other inner.1 (by omega)
              rwa [closeFull_infoInc] at below
            · rw [moved, if_neg inner]
              exact headroom other }

end Spot

section Place

variable {next : Table κ ν} {key : κ} {idx empty : Nat} {value : ν}

/-- The spot is in a table with the homes and the codes of the old one. -/
theorem infoAt_place (value : ν)
    (opened : Opened load table next idx empty (table.infoAt hash key idx)) :
    (next.place idx key value).infoAt hash = table.infoAt hash ∧
      (next.place idx key value).home hash = table.home hash ∧
      (next.place idx key value).numNodes load = table.numNodes load := by
  have home : (next.place idx key value).home hash = table.home hash := by
    funext other
    simp only [Table.place, Table.home, mixed, opened.hashMultiplier, opened.mask]
  refine ⟨?_, home, by simp only [Table.place, numNodes, opened.mask]⟩
  funext other position
  rw [infoAt, home, infoAt]
  simp only [Table.place, hashBits, mixed, opened.hashMultiplier, opened.infoInc,
    opened.infoHashShift]

/-- An entry after the insertion: the new one, or one that has moved or not and has the
info byte of its new position. -/
theorem coded_place (valid : Valid hash load table)
    (opened : Opened load table next idx empty (table.infoAt hash key idx)) {other : Nat}
    {entry : κ × ν} (stored : (next.place idx key value).keyVals other = some entry) :
    other = idx ∧ entry = (key, value) ∨
      other ≠ idx ∧ originOf idx empty other ≠ empty ∧
        table.keyVals (originOf idx empty other) = some entry ∧
        other < table.numNodes load ∧ table.home hash entry.1 ≤ other ∧
        next.info other = table.infoAt hash entry.1 other := by
  rw [Table.place] at stored
  dsimp only at stored
  by_cases here : other = idx
  · rw [here, Function.update_self] at stored
    exact Or.inl ⟨here, (Option.some.inj stored).symm⟩
  · rw [Function.update_of_ne here, opened.keyVals other here] at stored
    obtain ⟨inside, home, coded⟩ := valid.coded _ _ stored
    have notEmpty : originOf idx empty other ≠ empty := by
      intro same
      rw [same] at stored
      exact valid.info_ne_zero stored opened.free
    refine Or.inr ⟨here, notEmpty, stored, ?_⟩
    have bound := opened.inside
    rw [opened.info]
    by_cases inner : idx < other ∧ other ≤ empty
    · rw [originOf, if_pos inner] at inside home coded
      obtain ⟨front, rfl⟩ := Nat.exists_eq_succ_of_ne_zero (Nat.ne_zero_of_lt inner.1)
      rw [Nat.succ_eq_add_one, Nat.add_sub_cancel] at home coded
      refine ⟨by omega, by omega, ?_⟩
      rw [Nat.succ_eq_add_one, inserted_of_moved (by omega) (by omega), infoAt_succ home, coded]
    · rw [originOf, if_neg inner] at inside home coded
      refine ⟨inside, home, ?_⟩
      rw [inserted, if_neg here, if_neg inner, coded]

/-- The codes after an insertion. -/
theorem code_place
    (opened : Opened load table next idx empty (table.infoAt hash key idx)) :
    (next.place idx key value).code load =
      inserted table.infoInc (table.code load) idx empty (table.infoAt hash key idx) := by
  obtain ⟨-, -, sameNodes⟩ := infoAt_place value opened
  have bound := opened.inside
  funext other
  rcases Nat.lt_or_ge other (table.numNodes load) with inside | outside
  · rw [code_of_lt (by rwa [sameNodes])]
    change next.info other = _
    rw [opened.info, inserted, inserted]
    split
    · rfl
    · split
      · rw [code_of_lt (by omega)]
      · rw [code_of_lt inside]
  · rw [code_of_le (by rwa [sameNodes]), inserted_of_gt opened.behind (by omega),
      code_of_le outside]

/-- The occupied nodes after an insertion. -/
theorem occupied_place (valid : Valid hash load table)
    (opened : Opened load table next idx empty (table.infoAt hash key idx)) :
    (next.place idx key value).occupied load = insert empty (table.occupied load) := by
  obtain ⟨-, -, sameNodes⟩ := infoAt_place value opened
  have bound := opened.inside
  have behind := opened.behind
  have two := valid.two_le
  have least := infoInc_le_infoAt hash table key idx
  ext other
  rw [Finset.mem_insert, Table.occupied, Table.occupied, Finset.mem_filter, Finset.mem_filter,
    Finset.mem_range, Finset.mem_range, sameNodes]
  change other < table.numNodes load ∧ next.info other ≠ 0 ↔ _
  rw [opened.info]
  by_cases here : other = empty
  · subst here
    refine iff_of_true ⟨bound, ?_⟩ (Or.inl rfl)
    rw [inserted]
    split
    · omega
    · rw [if_pos (by omega)]
      omega
  · rw [or_iff_right here]
    refine and_congr_right fun _ => ?_
    rw [inserted]
    split
    · next same =>
        subst same
        exact iff_of_true (by omega) (opened.full other (Nat.le_refl _) (by omega))
    · split
      · next inner => exact iff_of_true (by omega) (opened.full other (by omega) (by omega))
      · rfl

/-- **Placing** an entry in the spot opened for its key keeps a table valid. -/
theorem place (valid : Valid hash load table) (spot : Spot hash load table key idx)
    (opened : Opened load table next idx empty (table.infoAt hash key idx))
    (absent : ∀ value, ¬ table.Holds key value)
    (room : table.maxNumElementsAllowed ≠ 0)
    (more : table.numElements < calcMaxNumElementsAllowed load (table.mask + 1)) (value : ν) :
    Valid hash load (next.place idx key value) := by
  obtain ⟨sameInfo, sameHome, sameNodes⟩ := infoAt_place value opened
  have fits := valid.infoAt_lt spot room
  have bound := opened.inside
  have two := valid.two_le
  have isNode := valid.spot_lt spot
  have least := infoInc_le_infoAt hash table key idx
  exact {
    allocated := by
      change next.mask ≠ 0
      rw [opened.mask]
      exact valid.allocated
    increment := by
      change next.infoInc * 2 ^ next.infoHashShift = 32
      rw [opened.infoInc, opened.infoHashShift, valid.increment]
    two_le := by
      change 2 ≤ next.infoInc
      rw [opened.infoInc]
      exact two
    sentinel := by
      rw [sameNodes]
      change next.info _ = 1
      rw [opened.info, inserted_of_gt opened.behind bound, valid.sentinel]
    padding := by
      intro other past
      rw [sameNodes] at past
      change next.info other = 0
      rw [opened.info, inserted_of_gt opened.behind (Nat.lt_trans bound past),
        valid.padding other past]
    free := by
      intro other inside missing
      rw [sameNodes] at inside
      change next.info other = 0
      rw [Table.place] at missing
      dsimp only at missing
      have notNew : other ≠ idx := by
        rintro rfl
        rw [Function.update_self] at missing
        cases missing
      rw [Function.update_of_ne notNew, opened.keyVals other notNew, originOf] at missing
      rw [opened.info, inserted, if_neg notNew]
      split
      · next inner =>
          rw [if_pos inner] at missing
          have zero := valid.free (other - 1) (by omega) missing
          exact absurd zero (opened.full (other - 1) (by omega) (by omega))
      · next outer =>
          rw [if_neg outer] at missing
          exact valid.free other inside missing
    coded := by
      intro other entry stored
      rw [sameInfo, sameHome, sameNodes]
      change _ ∧ _ ∧ next.info other = _
      rcases valid.coded_place opened stored with ⟨rfl, rfl⟩ | ⟨-, -, -, inside, home, coded⟩
      · refine ⟨isNode, spot.behind, ?_⟩
        rw [opened.info, inserted_self]
      · exact ⟨inside, home, coded⟩
    ordered := by
      change Ordered next.infoInc _
      rw [code_place opened, opened.infoInc]
      apply valid.ordered.insert (by omega)
      · rw [code_of_lt isNode]
        exact spot.smaller
      · exact least
      · exact valid.spot_follows spot
      · rw [code_of_lt bound]
        exact opened.free
      · exact opened.behind
      · intro position from_idx below
        rw [code_of_lt (by omega)]
        exact opened.full position from_idx below
    unique := by
      intro one other first second stored storedToo same
      rcases valid.coded_place opened stored with ⟨rfl, rfl⟩ | ⟨different, notEmpty, source, -⟩
      · rcases valid.coded_place opened storedToo with ⟨rfl, -⟩ | ⟨-, -, source, -⟩
        · rfl
        · obtain ⟨held, content⟩ := second
          obtain rfl : key = held := same
          exact absurd ⟨_, source⟩ (absent content)
      · rcases valid.coded_place opened storedToo with ⟨rfl, rfl⟩ | ⟨differentToo, -, sourceToo, -⟩
        · obtain ⟨held, content⟩ := first
          obtain rfl : held = key := same
          exact absurd ⟨_, source⟩ (absent content)
        · exact originOf_injective different differentToo notEmpty
            (valid.unique _ _ _ _ source sourceToo same)
    bytes := by
      intro other
      change next.info other < 256
      rw [opened.info, inserted]
      split
      · exact fits
      · split
        · exact (valid.headroom room).2 (other - 1)
        · exact valid.bytes other
    headroom := by
      intro allowed
      change next.maxNumElementsAllowed ≠ 0 at allowed
      obtain ⟨kept, small⟩ := opened.headroom.resolve_left fun closed => allowed closed.1
      change next.maxNumElementsAllowed = calcMaxNumElementsAllowed load (next.mask + 1) ∧
        ∀ other, next.info other + next.infoInc < 256
      rw [kept, opened.mask, opened.infoInc]
      exact ⟨(valid.headroom room).1, small⟩
    count := by
      change next.numElements = _
      have new : empty ∉ table.occupied load := by
        rw [Table.occupied, Finset.mem_filter]
        exact fun member => member.2 opened.free
      rw [valid.occupied_place opened, Finset.card_insert_of_notMem new, opened.numElements,
        valid.count]
    allowed := by
      change next.numElements ≤ calcMaxNumElementsAllowed load (next.mask + 1)
      rw [opened.numElements, opened.mask]
      exact more }

/-- The entries after an insertion. -/
theorem holds_place (valid : Valid hash load table)
    (opened : Opened load table next idx empty (table.infoAt hash key idx)) (value : ν)
    (other : κ) (content : ν) : (next.place idx key value).Holds other content ↔
      other = key ∧ content = value ∨ table.Holds other content := by
  constructor
  · intro holds
    obtain ⟨position, stored⟩ := holds
    rcases valid.coded_place opened stored with ⟨-, same⟩ | ⟨-, -, source, -⟩
    · exact Or.inl (Prod.mk.inj same)
    · exact Or.inr ⟨_, source⟩
  · intro either
    rcases either with ⟨rfl, rfl⟩ | ⟨source, stored⟩
    · exact ⟨idx, Function.update_self _ _ _⟩
    · have notEmpty : source ≠ empty := by
        rintro rfl
        exact valid.info_ne_zero stored opened.free
      obtain ⟨position, notNew, from_source⟩ := exists_originOf opened.behind notEmpty
      refine ⟨position, ?_⟩
      rw [Table.place]
      dsimp only
      rw [Function.update_of_ne notNew, opened.keyVals position notNew, from_source, stored]

/-! ## Few entries -/

/-- An info byte of a table with few entries has room for the smallest increment. -/
theorem info_add_lt (valid : Valid hash load table) (few : table.numElements ≤ fewEntries)
    (smallest : table.infoInc ≤ 2) (idx : Nat) : table.info idx + table.infoInc < 256 := by
  rcases Nat.lt_or_ge idx (table.numNodes load) with inside | outside
  · by_cases occupied : table.info idx = 0
    · omega
    · obtain ⟨entry, stored⟩ := valid.exists_entry inside occupied
      have near := valid.distance_lt stored
      have bits := valid.hashBits_lt entry.1
      have two : table.infoInc = 2 := Nat.le_antisymm smallest valid.two_le
      rw [two] at bits
      rw [fewEntries] at few
      rw [(valid.coded idx entry stored).2.2, infoAt, codeAt, two]
      omega
  · rcases Nat.eq_or_lt_of_le outside with rfl | past
    · rw [valid.sentinel]
      omega
    · rw [valid.padding idx past]
      omega

/-- Few entries do not close a table with the smallest increment. -/
theorem lenient_place (validNext : Valid hash load (next.place idx key value))
    (opened : Opened load table next idx empty (table.infoAt hash key idx))
    (room : table.maxNumElementsAllowed ≠ 0) (few : table.numElements < fewEntries) :
    Lenient (next.place idx key value) := by
  intro smallest closed
  rcases opened.headroom with ⟨-, other, large⟩ | ⟨kept, -⟩
  · have small := validNext.info_add_lt (opened.numElements.trans_le few) smallest other
    change next.info other + next.infoInc < 256 at small
    rw [opened.infoInc] at small
    omega
  · exact room (kept.symm.trans closed)

end Place

end Valid

end Table

end FastDb.RobinHood
