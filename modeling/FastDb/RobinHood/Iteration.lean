import FastDb.RobinHood.Dictionary

/-! # Iterators

An iterator goes from one node to the next by words of eight info bytes, over the sentinel
and the padding that ends them. It visits every entry once
(`FastDb.RobinHood.Table.entries_of_calls`), erasing at an iterator gives one that goes on
with the entries behind (`FastDb.RobinHood.Table.eraseAt_of_calls`), and two tables compare
equal when they hold the same entries (`FastDb.RobinHood.Table.equals_of_calls`).
-/

namespace FastDb.RobinHood

open Foundation

namespace Table

variable {κ ν : Type}

/-! ## The iterator -/

/-- Eight info bytes loaded at once. -/
def readWord (load : Nat) (table : Table κ ν) (idx : Nat) : Option Nat :=
  if idx + 8 ≤ table.numBytesInfo load then some (PackedBytes.packed table.info idx 8) else none

/-- The loop of `fastForward` and the bytes it skips in the last word. -/
def fastForwardLoop (load : Nat) (table : Table κ ν) : Nat → Nat → Option Nat
  | 0, _ => none
  | fuel + 1, idx =>
      (table.readWord load idx).bind fun word =>
        if word = 0 then fastForwardLoop load table fuel (idx + 8)
        else some (idx + PackedBytes.firstByte word)

/-- `fastForward`. -/
def fastForward (load : Nat) (table : Table κ ν) (idx : Nat) : Option Nat :=
  table.fastForwardLoop load (table.numBytesInfo load) idx

/-- `begin()`. -/
def beginIdx (load : Nat) (table : Table κ ν) : Option Nat :=
  if table.numElements = 0 then some (table.endIdx load) else table.fastForward load 0

/-- `operator++`. -/
def increment (load : Nat) (table : Table κ ν) (idx : Nat) : Option Nat :=
  table.fastForward load (idx + 1)

/-- The entries visited from an iterator on. -/
def visitLoop (load : Nat) (table : Table κ ν) : Nat → Nat → Option (List (κ × ν))
  | 0, _ => none
  | fuel + 1, idx =>
      if idx = table.endIdx load then some []
      else (table.node load idx).bind fun entry =>
        (table.increment load idx).bind fun next =>
          (visitLoop load table fuel next).map (entry :: ·)

/-- The entries that an iterator at a position still goes through. -/
def visit (load : Nat) (table : Table κ ν) (idx : Nat) : Option (List (κ × ν)) :=
  table.visitLoop load (table.numBytesInfo load) idx

/-- The entries that a loop over the table visits. -/
def entries (load : Nat) (table : Table κ ν) : Option (List (κ × ν)) :=
  (table.beginIdx load).bind (table.visit load)

/-- `erase` at an iterator, and the iterator it returns. -/
def eraseAt (load : Nat) (table : Table κ ν) (idx : Nat) : Option (Table κ ν × Nat) :=
  (table.shiftDown load idx).bind fun shifted =>
    let table := { shifted with numElements := shifted.numElements - 1 }
    (table.readInfo load idx).bind fun byte =>
      if byte ≠ 0 then some (table, idx)
      else (table.increment load idx).map fun next => (table, next)

section Equals

variable [DecidableEq κ] [DecidableEq ν]

/-- `has`. -/
def has (hash : κ → UInt64) (load : Nat) (table : Table κ ν) (entry : κ × ν) : Option Bool :=
  (table.find hash load entry.1).map fun found => found = some entry.2

/-- The loop of `operator==` over the entries of the other table. -/
def equalsLoop (hash : κ → UInt64) (load : Nat) (table other : Table κ ν) :
    Nat → Nat → Option Bool
  | 0, _ => none
  | fuel + 1, idx =>
      if idx = other.endIdx load then some true
      else (other.node load idx).bind fun entry =>
        (table.has hash load entry).bind fun here =>
          if here then (other.increment load idx).bind (equalsLoop hash load table other fuel)
          else some false

/-- `operator==`. -/
def equals (hash : κ → UInt64) (load : Nat) (table other : Table κ ν) : Option Bool :=
  if other.numElements ≠ table.numElements then some false
  else (other.beginIdx load).bind
    (table.equalsLoop hash load other (other.numBytesInfo load))

end Equals

variable {hash : κ → UInt64} {load : Nat} {table : Table κ ν}

/-! ## One step -/

/-- The entries of the nodes from a position on. -/
def after (load : Nat) (table : Table κ ν) (idx : Nat) : List (κ × ν) :=
  (List.range' idx (table.numNodes load - idx)).filterMap table.keyVals

/-- Behind the nodes there are no entries. -/
theorem after_of_le {idx : Nat} (outside : table.numNodes load ≤ idx) :
    table.after load idx = [] := by
  rw [after, Nat.sub_eq_zero_of_le outside]
  rfl

/-- A node is in front of those behind it. -/
theorem after_of_stored {idx : Nat} {entry : κ × ν} (inside : idx < table.numNodes load)
    (stored : table.keyVals idx = some entry) :
    table.after load idx = entry :: table.after load (idx + 1) := by
  have size : table.numNodes load - idx = table.numNodes load - (idx + 1) + 1 := by omega
  rw [after, size, List.range'_succ, List.filterMap_cons_some stored, after]

/-- An empty node adds no entry. -/
theorem after_of_none {idx : Nat} (empty : table.keyVals idx = none) :
    table.after load idx = table.after load (idx + 1) := by
  rcases Nat.lt_or_ge idx (table.numNodes load) with inside | outside
  · have size : table.numNodes load - idx = table.numNodes load - (idx + 1) + 1 := by omega
    rw [after, size, List.range'_succ, List.filterMap_cons_none empty, after]
  · rw [after_of_le outside, after_of_le (Nat.le_succ_of_le outside)]

/-- Empty nodes are not visited. -/
theorem after_of_empty {idx stop : Nat} (behind : idx ≤ stop)
    (empty : ∀ position, idx ≤ position → position < stop → table.keyVals position = none) :
    table.after load idx = table.after load stop := by
  induction stop, behind using Nat.le_induction with
  | base => rfl
  | succ stop behind ih =>
      rw [ih fun position from_idx below => empty position from_idx (Nat.lt_succ_of_lt below)]
      exact after_of_none (empty stop behind (Nat.lt_succ_self _))

namespace Valid

/-- A node with info byte 0 is empty. -/
theorem keyVals_eq_none (valid : Valid hash load table) {idx : Nat} (zero : table.info idx = 0) :
    table.keyVals idx = none := by
  cases stored : table.keyVals idx with
  | none => rfl
  | some entry => exact absurd zero (valid.info_ne_zero stored)

/-- Every word read in front of the sentinel is inside the array. -/
theorem readWord_eq (valid : Valid hash load table) {idx : Nat}
    (inside : idx ≤ table.numNodes load) :
    table.readWord load idx = some (PackedBytes.packed table.info idx 8) := by
  rw [readWord, valid.numBytesInfo_eq, if_pos (Nat.add_le_add_right inside 8)]

/-- **Going forward** ends at the next used node, or at the sentinel. -/
theorem fastForwardLoop_spec (valid : Valid hash load table) {fuel idx : Nat}
    (inside : idx ≤ table.numNodes load) (enough : table.numNodes load < idx + fuel) :
    ∃ stop, table.fastForwardLoop load fuel idx = some stop ∧ idx ≤ stop ∧
      stop ≤ table.numNodes load ∧ table.info stop ≠ 0 ∧
      ∀ position, idx ≤ position → position < stop → table.info position = 0 := by
  have sentinel : table.info (table.numNodes load) ≠ 0 := by
    rw [valid.sentinel]
    omega
  induction fuel generalizing idx with
  | zero => omega
  | succ fuel ih =>
      rw [fastForwardLoop, valid.readWord_eq inside, Option.bind_some]
      split
      · next zero =>
          have zeros : ∀ position, idx ≤ position → position < idx + 8 →
              table.info position = 0 := by
            intro position from_idx below
            have byte := PackedBytes.packed_eq_zero_iff.mp zero (position - idx) (by omega)
            rwa [Nat.add_sub_cancel' from_idx] at byte
          have further : idx + 8 ≤ table.numNodes load := by
            by_contra reached
            exact sentinel (zeros _ inside (by omega))
          obtain ⟨stop, ran, behind, bound, used, skipped⟩ := ih further (by omega)
          refine ⟨stop, ran, by omega, bound, used, fun position from_idx below => ?_⟩
          rcases Nat.lt_or_ge position (idx + 8) with near | far
          · exact zeros position from_idx near
          · exact skipped position far below
      · next nonzero =>
          obtain ⟨bound, used, skipped⟩ := PackedBytes.firstByte_spec
            (PackedBytes.packed_lt valid.bytes idx 8) nonzero
          rw [PackedBytes.byte_packed valid.bytes bound] at used
          have zeros : ∀ position, idx ≤ position →
              position < idx + PackedBytes.firstByte (PackedBytes.packed table.info idx 8) →
              table.info position = 0 := by
            intro position from_idx below
            have byte := skipped (position - idx) (by omega)
            rwa [PackedBytes.byte_packed valid.bytes (by omega),
              Nat.add_sub_cancel' from_idx] at byte
          refine ⟨_, rfl, Nat.le_add_right _ _, ?_, used, zeros⟩
          by_contra passed
          exact sentinel (zeros _ inside (Nat.lt_of_not_le passed))

/-- The entries behind an iterator that goes forward. -/
theorem fastForward_spec (valid : Valid hash load table) {idx : Nat}
    (inside : idx ≤ table.numNodes load) :
    ∃ stop, table.fastForward load idx = some stop ∧ idx ≤ stop ∧ stop ≤ table.numNodes load ∧
      table.info stop ≠ 0 ∧ table.after load idx = table.after load stop := by
  obtain ⟨stop, ran, behind, bound, used, skipped⟩ :=
    valid.fastForwardLoop_spec inside (show _ < idx + table.numBytesInfo load by
      rw [valid.numBytesInfo_eq]
      omega)
  refine ⟨stop, ran, behind, bound, used, after_of_empty behind ?_⟩
  intro position from_idx below
  exact valid.keyVals_eq_none (skipped position from_idx below)

/-- **Visiting** from an iterator on. -/
theorem visitLoop_spec (valid : Valid hash load table) {fuel idx : Nat}
    (inside : idx ≤ table.numNodes load) (used : table.info idx ≠ 0)
    (enough : table.numNodes load < idx + fuel) :
    table.visitLoop load fuel idx = some (table.after load idx) := by
  induction fuel generalizing idx with
  | zero => omega
  | succ fuel ih =>
      rw [visitLoop, endIdx, if_neg valid.allocated]
      split
      · next last => rw [after_of_le (Nat.le_of_eq last.symm)]
      · next notEnd =>
          have isNode := Nat.lt_of_le_of_ne inside notEnd
          obtain ⟨entry, stored⟩ := valid.exists_entry isNode used
          obtain ⟨next, forward, behind, bound, usedNext, rest⟩ := valid.fastForward_spec isNode
          rw [valid.node_eq isNode, stored, Option.bind_some, Table.increment, forward,
            Option.bind_some, ih bound usedNext (by omega), after_of_stored isNode stored, rest]
          rfl

/-- An iterator goes through the entries from its position on. -/
theorem visit_eq (valid : Valid hash load table) {idx : Nat}
    (inside : idx ≤ table.numNodes load) (used : table.info idx ≠ 0) :
    table.visit load idx = some (table.after load idx) :=
  valid.visitLoop_spec inside used (by rw [valid.numBytesInfo_eq]; omega)

end Valid

/-! ## Every entry once -/

/-- A list of entries with distinct keys that are those of the table. -/
structure Lists (table : Table κ ν) (list : List (κ × ν)) : Prop where
  nodup : (list.map Prod.fst).Nodup
  mem : ∀ key value, (key, value) ∈ list ↔ table.Holds key value

/-- The entries from the first position on are all of them. -/
theorem Valid.lists_after (valid : Valid hash load table) : Lists table (table.after load 0) where
  nodup := by
    rw [after, List.Nodup, List.pairwise_map, List.pairwise_filterMap]
    refine List.Pairwise.imp ?_ List.pairwise_lt_range'
    intro idx other less entry stored otherEntry there same
    exact Nat.ne_of_lt less (valid.unique idx other entry otherEntry stored there same)
  mem key value := by
    rw [after, List.mem_filterMap]
    constructor
    · intro listed
      obtain ⟨idx, -, stored⟩ := listed
      exact ⟨idx, stored⟩
    · intro held
      obtain ⟨idx, stored⟩ := held
      refine ⟨idx, ?_, stored⟩
      have inside := (valid.coded idx _ stored).1
      rw [List.mem_range'_1]
      omega

/-- Where a loop over a table with entries begins. -/
theorem Valid.beginIdx_spec (valid : Valid hash load table) (some_ : table.numElements ≠ 0) :
    ∃ idx, table.beginIdx load = some idx ∧ idx ≤ table.numNodes load ∧ table.info idx ≠ 0 ∧
      table.after load idx = table.after load 0 := by
  obtain ⟨idx, forward, -, inside, used, same⟩ := valid.fastForward_spec (Nat.zero_le _)
  refine ⟨idx, ?_, inside, used, same.symm⟩
  rw [beginIdx, if_neg some_, forward]

/-- There are info bytes. -/
theorem exists_numBytesInfo (load : Nat) (table : Table κ ν) :
    ∃ fuel, table.numBytesInfo load = fuel + 1 := by
  rw [numBytesInfo]
  split
  · exact ⟨7, rfl⟩
  · exact ⟨table.numNodes load + 7, rfl⟩

/-- The end iterator goes through nothing. -/
theorem visit_end (load : Nat) (table : Table κ ν) :
    table.visit load (table.endIdx load) = some [] := by
  obtain ⟨fuel, size⟩ := table.exists_numBytesInfo load
  rw [visit, size, visitLoop, if_pos rfl]

/-- Iterating a valid table gives its entries. -/
theorem Valid.entries_eq (valid : Valid hash load table) :
    table.entries load = some (table.after load 0) := by
  by_cases none : table.numElements = 0
  · have ready : Ready hash load table := Or.inr valid
    have empty : table.after load 0 = [] := by
      rw [after_of_empty (Nat.zero_le (table.numNodes load)), after_of_le (Nat.le_refl _)]
      intro position _ _
      cases stored : table.keyVals position with
      | none => rfl
      | some entry =>
          exact absurd ⟨position, stored⟩ (ready.empty_of_numElements none entry.1 entry.2)
    rw [Table.entries, beginIdx, if_pos none, Option.bind_some, visit_end, empty]
  · obtain ⟨idx, begins, inside, used, same⟩ := valid.beginIdx_spec none
    rw [Table.entries, begins, Option.bind_some, valid.visit_eq inside used, same]

/-- **A loop** over a ready table visits every entry once. -/
theorem Ready.entries_spec (ready : Ready hash load table) :
    ∃ list, table.entries load = some list ∧ Lists table list := by
  rcases ready with unallocated | valid
  · refine ⟨[], ?_, List.nodup_nil, fun key value => ?_⟩
    · rw [Table.entries, beginIdx, if_pos (by rw [unallocated]), Option.bind_some, visit_end]
    · exact iff_of_false List.not_mem_nil (unallocated.not_holds key value)
  · exact ⟨_, valid.entries_eq, valid.lists_after⟩

/-! ## Erasing at an iterator -/

/-- The entries of the nodes in front of a position. -/
def before (table : Table κ ν) (idx : Nat) : List (κ × ν) :=
  (List.range' 0 idx).filterMap table.keyVals

/-- The entries before a position and from it on are all of them. -/
theorem before_append_after {idx : Nat} (inside : idx ≤ table.numNodes load) :
    table.before idx ++ table.after load idx = table.after load 0 := by
  rw [before, after, after, ← List.filterMap_append]
  congr 1
  have parts := List.range'_append_1 (s := 0) (m := idx) (n := table.numNodes load - idx)
  rwa [Nat.zero_add, Nat.add_sub_cancel' inside] at parts

/-- The entries in front of a removal stay. -/
theorem before_removeAt {idx last : Nat} (behind : idx ≤ last) :
    (table.removeAt idx last).before idx = table.before idx := by
  rw [before, before]
  refine List.filterMap_congr fun other member => ?_
  have below : other < idx := by
    rw [List.mem_range'_1] at member
    omega
  change removedNodes table.keyVals idx last other = table.keyVals other
  rw [removedNodes, if_neg (by omega), if_neg (by omega)]

/-- The nodes after a removal. -/
theorem removeAt_keyVals (idx last other : Nat) :
    (table.removeAt idx last).keyVals other = removedNodes table.keyVals idx last other := rfl

/-- The entries behind a removal. -/
theorem Valid.after_removeAt (valid : Valid hash load table) {idx last : Nat}
    (removes : Removes hash load table idx last) :
    (table.removeAt idx last).after load idx = table.after load (idx + 1) := by
  have inside := removes.inside
  have two := valid.two_le
  -- by induction on the distance to the last node that moves
  have moved : ∀ distance position, position + distance = last → idx ≤ position →
      (table.removeAt idx last).after load position = table.after load (position + 1) := by
    intro distance
    induction distance with
    | zero =>
        intro position atLast behind
        rw [Nat.add_zero] at atLast
        subst atLast
        rw [after_of_none (by rw [removeAt_keyVals, removedNodes, if_pos rfl]), after, after]
        refine List.filterMap_congr fun other member => ?_
        have past : position < other := (List.mem_range'_1.mp member).1
        rw [removeAt_keyVals, removedNodes, if_neg (by omega), if_neg (by omega)]
    | succ distance ih =>
        intro position atLast behind
        have large := removes.moved (position + 1) (by omega) (by omega)
        obtain ⟨entry, stored⟩ := valid.exists_entry (show position + 1 < _ by omega) (by omega)
        have here : (table.removeAt idx last).keyVals position = some entry := by
          rw [removeAt_keyVals, removedNodes, if_neg (by omega), if_pos (by omega), stored]
        have isNode : position < (table.removeAt idx last).numNodes load :=
          show position < table.numNodes load by omega
        rw [after_of_stored isNode here,
          after_of_stored (by omega) stored, ih (position + 1) (by omega) (by omega)]
  exact moved (last - idx) idx (Nat.add_sub_cancel' removes.behind) (Nat.le_refl _)

/-- The table that erasing leaves. -/
structure Erased (hash : κ → UInt64) (load : Nat) (table next : Table κ ν) (idx : Nat)
    (entry : κ × ν) : Prop where
  valid : Valid hash load next
  numNodes : next.numNodes load = table.numNodes load
  holds : ∀ key value, next.Holds key value ↔ key ≠ entry.1 ∧ table.Holds key value
  before : next.before idx = table.before idx
  after : next.after load idx = table.after load (idx + 1)

/-- `shiftDown` takes an entry out. -/
theorem Valid.shiftDown_spec (valid : Valid hash load table) {idx : Nat} {entry : κ × ν}
    (stored : table.keyVals idx = some entry) :
    ∃ shifted, table.shiftDown load idx = some shifted ∧ Erased hash load table
      { shifted with numElements := shifted.numElements - 1 } idx entry := by
  obtain ⟨last, removes⟩ := valid.removes stored
  exact ⟨table.removeAt idx last, removes.shifted,
    valid.removeAt stored removes.behind removes.inside removes.moved removes.ends, rfl,
    valid.holds_removeAt stored removes, before_removeAt removes.behind,
    valid.after_removeAt removes⟩

/-- The entries after one was erased. -/
theorem Erased.entries_eq {next : Table κ ν} {idx : Nat} {entry : κ × ν}
    (erased : Erased hash load table next idx entry) (inside : idx < table.numNodes load) :
    next.entries load = some (table.before idx ++ table.after load (idx + 1)) := by
  have fits : idx ≤ next.numNodes load := erased.numNodes ▸ Nat.le_of_lt inside
  rw [erased.valid.entries_eq, ← before_append_after fits, erased.before, erased.after]

/-- **Erasing** at the iterator of an entry: the entry is taken out, and the iterator goes on
with the entries behind. -/
theorem Valid.eraseAt_spec (valid : Valid hash load table) {idx : Nat} {entry : κ × ν}
    (stored : table.keyVals idx = some entry) :
    ∃ next position, table.eraseAt load idx = some (next, position) ∧
      Erased hash load table next idx entry ∧
      next.visit load position = some (table.after load (idx + 1)) := by
  obtain ⟨isNode, -, -⟩ := valid.coded idx entry stored
  obtain ⟨shifted, ran, erased⟩ := valid.shiftDown_spec stored
  rw [eraseAt, ran, Option.bind_some]
  dsimp only
  generalize ({ shifted with numElements := shifted.numElements - 1 } : Table κ ν) = next
    at erased ⊢
  have nodes := erased.numNodes
  rw [erased.valid.readInfo_eq (by omega), Option.bind_some]
  split
  · next used =>
      refine ⟨next, idx, rfl, erased, ?_⟩
      rw [erased.valid.visit_eq (by omega) used, erased.after]
  · next unused =>
      obtain ⟨stop, forward, -, bound, used, same⟩ :=
        erased.valid.fastForward_spec (show idx + 1 ≤ next.numNodes load by omega)
      refine ⟨next, stop, by rw [Table.increment, forward, Option.map_some], erased, ?_⟩
      have empty := erased.valid.keyVals_eq_none (Decidable.not_not.mp unused)
      rw [erased.valid.visit_eq bound used, ← same, ← after_of_none empty, erased.after]

/-! ## Comparing tables -/

section Equals

variable [DecidableEq κ] [DecidableEq ν] {other : Table κ ν} {entries : Finmap fun _ : κ => ν}

/-- `has` looks the entry up. -/
theorem Shows.has_eq (shows : Shows hash load table entries) (entry : κ × ν) :
    table.has hash load entry = some (decide (entries.lookup entry.1 = some entry.2)) := by
  rw [has, shows.find_eq, Option.map_some]

/-- The comparison from an iterator on. -/
theorem Shows.equalsLoop_eq (shows : Shows hash load table entries)
    (valid : Valid hash load other) {fuel idx : Nat} (inside : idx ≤ other.numNodes load)
    (used : other.info idx ≠ 0) (enough : other.numNodes load < idx + fuel) :
    table.equalsLoop hash load other fuel idx = some
      ((other.after load idx).all fun entry => entries.lookup entry.1 = some entry.2) := by
  induction fuel generalizing idx with
  | zero => omega
  | succ fuel ih =>
      rw [equalsLoop, endIdx, if_neg valid.allocated]
      split
      · next last => rw [after_of_le (Nat.le_of_eq last.symm), List.all_nil]
      · next notEnd =>
          have isNode := Nat.lt_of_le_of_ne inside notEnd
          obtain ⟨entry, stored⟩ := valid.exists_entry isNode used
          obtain ⟨next, forward, behind, bound, usedNext, rest⟩ := valid.fastForward_spec isNode
          rw [valid.node_eq isNode, stored, Option.bind_some, shows.has_eq, Option.bind_some,
            after_of_stored isNode stored, List.all_cons, rest]
          split
          · next same =>
              rw [increment, forward, Option.bind_some, ih bound usedNext (by omega), same,
                Bool.true_and]
          · next different =>
              rw [Bool.not_eq_true] at different
              rw [different, Bool.false_and]

/-- The comparison from the first iterator on. -/
theorem Shows.equalsLoop_begin (shows : Shows hash load table entries)
    {otherEntries : Finmap fun _ : κ => ν} (showsOther : Shows hash load other otherEntries) :
    ∃ result : Bool, (other.beginIdx load).bind
        (table.equalsLoop hash load other (other.numBytesInfo load)) = some result ∧
      (result = true ↔ Within otherEntries entries) := by
  by_cases none : other.numElements = 0
  · obtain ⟨fuel, size⟩ := other.exists_numBytesInfo load
    refine ⟨true, ?_, iff_of_true rfl fun key value found => ?_⟩
    · rw [beginIdx, if_pos none, Option.bind_some, size, equalsLoop, if_pos rfl]
    · exact absurd ((showsOther.holds key value).mpr found)
        (showsOther.ready.empty_of_numElements none key value)
  · rcases showsOther.ready with unallocated | valid
    · exact absurd (by rw [unallocated]) none
    · obtain ⟨idx, begins, inside, used, same⟩ := valid.beginIdx_spec none
      refine ⟨(other.after load 0).all fun entry => entries.lookup entry.1 = some entry.2, ?_, ?_⟩
      · rw [begins, Option.bind_some,
          shows.equalsLoop_eq valid inside used (by rw [valid.numBytesInfo_eq]; omega), same]
      · rw [List.all_eq_true, Prod.forall, Within]
        refine forall₂_congr fun key value => ?_
        rw [valid.lists_after.mem, showsOther.holds, decide_eq_true_iff]

/-- **Comparing** two tables. -/
theorem Shows.equals_eq (shows : Shows hash load table entries)
    {otherEntries : Finmap fun _ : κ => ν} (showsOther : Shows hash load other otherEntries) :
    table.equals hash load other = some (decide (entries = otherEntries)) := by
  have card := shows.card_keys
  have otherCard := showsOther.card_keys
  rw [equals]
  split
  · next different =>
      rw [decide_eq_false]
      rintro rfl
      exact different (otherCard.symm.trans card)
  · next same =>
      have sizes : otherEntries.keys.card = entries.keys.card := by
        rw [card, otherCard]
        exact Decidable.not_not.mp same
      obtain ⟨result, looped, iff⟩ := shows.equalsLoop_begin showsOther
      have equal : entries = otherEntries ↔ Within otherEntries entries := by
        refine ⟨?_, fun within => eq_of_within within sizes⟩
        rintro rfl
        exact fun _ _ found => found
      have agree : decide (entries = otherEntries) = result := by
        rw [Bool.eq_iff_iff, decide_eq_true_iff, equal, iff]
      rw [looped, agree]

end Equals

/-! ## In every table that calls leave -/

section Calls

variable [DecidableEq κ] {calls : List (Call κ ν)} {answers : List (Answer ν)}

/-- A table that calls leave shows its entries. -/
theorem shows_of_calls (small : load < 100)
    (called : (tableComponent hash load).run calls {} = some (table, answers)) :
    ∃ entries, Shows hash load table entries := by
  obtain ⟨result, modelResult, ran, -, agree⟩ :=
    (refinement hash small).run calls (shows_empty (ν := ν) 0xc4ceb9fe1a85ec53)
  obtain rfl := Option.some.inj (called.symm.trans ran)
  exact ⟨modelResult.1, agree.states⟩

/-- **Iteration.** A loop over a table that calls leave visits every key once, with the value
that is found for it. -/
theorem entries_of_calls (small : load < 100)
    (called : (tableComponent hash load).run calls {} = some (table, answers)) :
    ∃ list, table.entries load = some list ∧ (list.map Prod.fst).Nodup ∧
      ∀ key value, (key, value) ∈ list ↔ table.find hash load key = some (some value) := by
  obtain ⟨entries, shows⟩ := shows_of_calls small called
  obtain ⟨list, visited, lists⟩ := shows.ready.entries_spec
  refine ⟨list, visited, lists.nodup, fun key value => ?_⟩
  rw [lists.mem, shows.holds, shows.find_eq, Option.some.injEq]

/-- Two keys that collide, one of which is erased again. -/
theorem entries_of_calls_colliding : ∃ table answers list,
    (tableComponent (fun _ : Nat => 0) 80).run [.emplace 1 10, .emplace 2 20, .erase 1] {} =
      some (table, answers) ∧
    table.entries 80 = some list ∧ (list.map Prod.fst).Nodup ∧
    ∀ key value, (key, value) ∈ list ↔
      table.find (fun _ : Nat => 0) 80 key = some (some value) := by
  have ran : ((tableComponent (fun _ : Nat => 0) 80).run
      [.emplace 1 10, .emplace 2 20, .erase 1] {}).isSome := by decide +kernel
  obtain ⟨⟨table, answers⟩, called⟩ := Option.isSome_iff_exists.mp ran
  obtain ⟨list, visited⟩ := entries_of_calls (show 80 < 100 by omega) called
  exact ⟨table, answers, list, called, visited⟩

/-- **Erasing while iterating.** At the iterator of an entry of a table that calls leave,
`erase` takes out that entry and no other, keeps the order of the others, and returns an
iterator from which exactly those behind are visited. -/
theorem eraseAt_of_calls (small : load < 100)
    (called : (tableComponent hash load).run calls {} = some (table, answers)) {idx : Nat}
    {entry : κ × ν} (here : table.node load idx = some entry) :
    ∃ front rest next position, table.entries load = some (front ++ entry :: rest) ∧
      table.visit load idx = some (entry :: rest) ∧
      table.eraseAt load idx = some (next, position) ∧
      next.entries load = some (front ++ rest) ∧ next.visit load position = some rest ∧
      ∀ key, next.find hash load key =
        if key = entry.1 then some none else table.find hash load key := by
  obtain ⟨entries, shows⟩ := shows_of_calls small called
  rcases shows.ready with unallocated | valid
  · rw [node, if_neg fun both => both.1 unallocated.mask_eq] at here
    cases here
  · have inside : idx < table.numNodes load := by
      by_contra outside
      rw [node, if_neg fun both => outside both.2] at here
      cases here
    have stored : table.keyVals idx = some entry := by rwa [valid.node_eq inside] at here
    obtain ⟨next, position, ran, erased, visited⟩ := valid.eraseAt_spec stored
    have showsNext := shows.erase (Or.inr erased.valid) erased.holds
    refine ⟨table.before idx, table.after load (idx + 1), next, position, ?_, ?_, ran,
      erased.entries_eq inside, visited, fun key => ?_⟩
    · rw [valid.entries_eq, ← before_append_after (Nat.le_of_lt inside),
        after_of_stored inside stored]
    · rw [valid.visit_eq (Nat.le_of_lt inside) (valid.info_ne_zero stored),
        after_of_stored inside stored]
    · rw [showsNext.find_eq, shows.find_eq]
      split
      · next same => rw [same, Finmap.lookup_erase]
      · next different => rw [Finmap.lookup_erase_ne different]

/-- The first of two keys that collide is erased. -/
theorem eraseAt_of_calls_first : ∃ table answers front rest next position,
    (tableComponent (fun _ : Nat => 0) 80).run [.emplace 1 10, .emplace 2 20] {} =
      some (table, answers) ∧
    table.entries 80 = some (front ++ (1, 10) :: rest) ∧
    table.visit 80 0 = some ((1, 10) :: rest) ∧ table.eraseAt 80 0 = some (next, position) ∧
    next.entries 80 = some (front ++ rest) ∧ next.visit 80 position = some rest ∧
    ∀ key, next.find (fun _ : Nat => 0) 80 key =
      if key = 1 then some none else table.find (fun _ : Nat => 0) 80 key := by
  have here : ((tableComponent (fun _ : Nat => 0) 80).run [.emplace 1 10, .emplace 2 20] {}).bind
      (fun result => result.1.node 80 0) = some (1, 10) := by decide +kernel
  obtain ⟨⟨table, answers⟩, called, node⟩ := Option.bind_eq_some_iff.mp here
  obtain ⟨front, rest, next, position, erased⟩ :=
    eraseAt_of_calls (show 80 < 100 by omega) called node
  exact ⟨table, answers, front, rest, next, position, called, erased⟩

/-- **Comparing** two tables that calls leave: they are equal when every key is found alike. -/
theorem equals_of_calls [DecidableEq ν] (small : load < 100)
    (called : (tableComponent hash load).run calls {} = some (table, answers))
    {otherCalls : List (Call κ ν)} {other : Table κ ν} {otherAnswers : List (Answer ν)}
    (otherCalled : (tableComponent hash load).run otherCalls {} = some (other, otherAnswers)) :
    ∃ result : Bool, table.equals hash load other = some result ∧
      (result = true ↔ ∀ key, table.find hash load key = other.find hash load key) := by
  obtain ⟨entries, shows⟩ := shows_of_calls small called
  obtain ⟨otherEntries, showsOther⟩ := shows_of_calls small otherCalled
  refine ⟨_, shows.equals_eq showsOther, ?_⟩
  rw [decide_eq_true_iff]
  constructor
  · rintro rfl key
    rw [shows.find_eq, showsOther.find_eq]
  · intro alike
    refine Finmap.ext_lookup fun key => ?_
    have same := alike key
    rw [shows.find_eq, showsOther.find_eq] at same
    exact Option.some.inj same

/-- Two tables with the same entries, put in in another order. -/
theorem equals_of_calls_reordered : ∃ table answers other otherAnswers,
    (tableComponent (fun _ : Nat => 0) 80).run [.emplace 1 10, .emplace 2 20] {} =
      some (table, answers) ∧
    (tableComponent (fun _ : Nat => 0) 80).run [.emplace 2 20, .emplace 1 10] {} =
      some (other, otherAnswers) ∧
    ∃ result : Bool, table.equals (fun _ : Nat => 0) 80 other = some result ∧
      (result = true ↔ ∀ key, table.find (fun _ : Nat => 0) 80 key =
        other.find (fun _ : Nat => 0) 80 key) := by
  have ran : ((tableComponent (fun _ : Nat => 0) 80).run
      [.emplace 1 10, .emplace 2 20] {}).isSome := by decide +kernel
  have otherRan : ((tableComponent (fun _ : Nat => 0) 80).run
      [.emplace 2 20, .emplace 1 10] {}).isSome := by decide +kernel
  obtain ⟨⟨table, answers⟩, called⟩ := Option.isSome_iff_exists.mp ran
  obtain ⟨⟨other, otherAnswers⟩, otherCalled⟩ := Option.isSome_iff_exists.mp otherRan
  exact ⟨table, answers, other, otherAnswers, called, otherCalled,
    equals_of_calls (show 80 < 100 by omega) called otherCalled⟩

end Calls

end Table

end FastDb.RobinHood
