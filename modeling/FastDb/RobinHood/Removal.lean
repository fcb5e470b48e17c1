import FastDb.RobinHood.Lookup

/-! # Taking a node out

`shiftDown` moves the nodes behind a node one back, up to the first that is empty or at its
home. A valid table stays valid and holds all its entries but one
(`FastDb.RobinHood.Table.Valid.erase_spec`).
-/

namespace FastDb.RobinHood

open Foundation Foundation.RobinHood

/-- The nodes after the one at a position is taken out and those behind it up to a last one
move one back. -/
def removedNodes {α : Type} (nodes : Nat → Option α) (position last : Nat) : Nat → Option α :=
  fun other =>
    if other = last then none
    else if position ≤ other ∧ other < last then nodes (other + 1)
    else nodes other

/-- Where a node comes from that is at a position after a removal. -/
def sourceOf (position last other : Nat) : Nat :=
  if position ≤ other ∧ other < last then other + 1 else other

/-- Every node but the last comes from its source. -/
theorem removedNodes_eq {α : Type} {nodes : Nat → Option α} {position last other : Nat}
    (different : other ≠ last) :
    removedNodes nodes position last other = nodes (sourceOf position last other) := by
  rw [removedNodes, if_neg different, sourceOf]
  split <;> rfl

/-- No two nodes come from one position. -/
theorem sourceOf_injective {position last other another : Nat} (notLast : other ≠ last)
    (notLastEither : another ≠ last)
    (same : sourceOf position last other = sourceOf position last another) : other = another := by
  simp only [sourceOf] at same
  split at same <;> split at same <;> omega

/-- No node comes from the position removed. -/
theorem sourceOf_ne {position last other : Nat} (behind : position ≤ last)
    (different : other ≠ last) : sourceOf position last other ≠ position := by
  rw [sourceOf]
  split <;> omega

/-- Every position but the one taken out is the source of one. -/
theorem exists_sourceOf {position last source : Nat} (behind : position ≤ last)
    (different : source ≠ position) :
    ∃ other, other ≠ last ∧ sourceOf position last other = source := by
  by_cases moved : position < source ∧ source ≤ last
  · refine ⟨source - 1, by omega, ?_⟩
    rw [sourceOf, if_pos (by omega)]
    omega
  · refine ⟨source, by omega, ?_⟩
    rw [sourceOf, if_neg (by omega)]

namespace Table

variable {κ ν : Type} {hash : κ → UInt64} {load : Nat} {table : Table κ ν}

/-- The table after a removal up to a last node. -/
def removeAt (table : Table κ ν) (position last : Nat) : Table κ ν := { table with
  info := removed table.infoInc table.info position last
  keyVals := removedNodes table.keyVals position last }

/-- The last turn of `shiftDown`. -/
theorem removeAt_self (table : Table κ ν) (idx : Nat) : table.removeAt idx idx = { table with
    info := Function.update table.info idx 0
    keyVals := Function.update table.keyVals idx none } := by
  have info : removed table.infoInc table.info idx idx = Function.update table.info idx 0 := by
    funext other
    rw [removed, Function.update_apply, if_neg (c := idx ≤ other ∧ other < idx) (by omega)]
  have nodes : removedNodes table.keyVals idx idx = Function.update table.keyVals idx none := by
    funext other
    rw [removedNodes, Function.update_apply, if_neg (c := idx ≤ other ∧ other < idx) (by omega)]
  rw [removeAt, info, nodes]

/-- A turn of `shiftDown` before the last. -/
theorem removeAt_step (table : Table κ ν) {idx last : Nat} (before : idx < last)
    (byte : table.info (idx + 1) < 256) :
    removeAt { table with
      info := Function.update table.info idx ((table.info (idx + 1) - table.infoInc) % 256)
      keyVals := Function.update (Function.update table.keyVals idx (table.keyVals (idx + 1)))
        (idx + 1) none } (idx + 1) last = table.removeAt idx last := by
  have info : removed table.infoInc (Function.update table.info idx
      ((table.info (idx + 1) - table.infoInc) % 256)) (idx + 1) last =
      removed table.infoInc table.info idx last := by
    funext other
    simp only [removed, Function.update_apply]
    split
    · rfl
    · by_cases here : other = idx
      · subst here
        rw [if_neg (by omega), if_pos rfl, if_pos (by omega), Nat.mod_eq_of_lt (by omega)]
      · by_cases inner : idx + 1 ≤ other ∧ other < last
        · rw [if_pos inner, if_neg (by omega), if_pos (by omega)]
        · rw [if_neg inner, if_neg here, if_neg (by omega)]
  have nodes : removedNodes (Function.update (Function.update table.keyVals idx
      (table.keyVals (idx + 1))) (idx + 1) none) (idx + 1) last =
      removedNodes table.keyVals idx last := by
    funext other
    simp only [removedNodes, Function.update_apply]
    split
    · rfl
    · by_cases here : other = idx
      · subst here
        rw [if_neg (by omega), if_neg (by omega), if_pos rfl, if_pos (by omega)]
      · by_cases inner : idx + 1 ≤ other ∧ other < last
        · rw [if_pos inner, if_neg (by omega), if_neg (by omega), if_pos (by omega)]
        · rw [if_neg inner, if_neg (by omega), if_neg here, if_neg (by omega)]
  simp only [removeAt, info, nodes]

/-- `shiftDown` goes on to the last node behind that is not at its home. -/
theorem shiftDownLoop_eq {fuel idx last : Nat} {table : Table κ ν} (before : idx ≤ last)
    (moved : ∀ position, idx < position → position ≤ last →
      2 * table.infoInc ≤ table.info position ∧ table.info position < 256 ∧
        ∃ entry, table.keyVals position = some entry)
    (inside : last < table.numNodes load) (allocated : table.mask ≠ 0)
    (ends : table.info (last + 1) < 2 * table.infoInc) (enough : last < idx + fuel) :
    shiftDownLoop load fuel idx table = some (table.removeAt idx last) := by
  have size : table.numBytesInfo load = table.numNodes load + 8 := by
    rw [numBytesInfo, if_neg allocated, calcNumBytesInfo]
  induction fuel generalizing idx table with
  | zero => omega
  | succ fuel ih =>
      have read : table.readInfo load (idx + 1) = some (table.info (idx + 1)) := by
        rw [readInfo, if_pos (by omega)]
      rw [shiftDownLoop, read, Option.bind_some]
      rcases Nat.eq_or_lt_of_le before with rfl | later
      · rw [if_neg (Nat.not_le.mpr ends), removeAt_self]
      · obtain ⟨large, byte, entry, stored⟩ := moved (idx + 1) (Nat.lt_succ_self _) later
        have there : table.node load (idx + 1) = some entry := by
          rw [node, if_pos ⟨allocated, by omega⟩, stored]
        rw [if_pos large, there, Option.bind_some, ← removeAt_step table later byte, stored]
        apply ih later
        · intro position behind notLast
          obtain ⟨large, byte, other⟩ := moved position (by omega) notLast
          have apart : position ≠ idx ∧ position ≠ idx + 1 := by omega
          simp only [Function.update_of_ne apart.1, Function.update_of_ne apart.2]
          exact ⟨large, byte, other⟩
        · exact inside
        · exact allocated
        · simp only [Function.update_of_ne (show last + 1 ≠ idx by omega)]
          exact ends
        · omega
        · exact size

namespace Valid

/-- Behind a node there is a last one that is not at its home. -/
theorem exists_last (valid : Valid hash load table) {idx : Nat}
    (inside : idx < table.numNodes load) :
    ∃ last, idx ≤ last ∧ last < table.numNodes load ∧
      (∀ position, idx < position → position ≤ last →
        2 * table.infoInc ≤ table.info position) ∧
      table.info (last + 1) < 2 * table.infoInc := by
  have ends : ∃ last, idx ≤ last ∧ table.info (last + 1) < 2 * table.infoInc := by
    refine ⟨table.numNodes load - 1, by omega, ?_⟩
    have two := valid.two_le
    rw [Nat.sub_add_cancel (by omega), valid.sentinel]
    omega
  obtain ⟨notBefore, stops⟩ := Nat.find_spec ends
  refine ⟨Nat.find ends, notBefore, ?_, ?_, stops⟩
  · have two := valid.two_le
    have bound := Nat.find_min' ends (m := table.numNodes load - 1) ⟨by omega, by
      rw [Nat.sub_add_cancel (by omega), valid.sentinel]
      omega⟩
    omega
  · intro position behind notAfter
    by_contra small
    have earlier := Nat.find_min ends (m := position - 1) (by omega)
    refine earlier ⟨by omega, ?_⟩
    rw [Nat.sub_add_cancel (by omega)]
    exact Nat.lt_of_not_le small

section Remove

variable {idx last : Nat}

/-- The codes after a removal. -/
theorem code_removeAt (inside : last < table.numNodes load) :
    (table.removeAt idx last).code load = removed table.infoInc (table.code load) idx last := by
  funext other
  rcases Nat.lt_or_ge other (table.numNodes load) with isNode | outside
  · rw [code_of_lt (show other < (table.removeAt idx last).numNodes load from isNode)]
    simp only [Table.removeAt, removed]
    split
    · rfl
    · split
      · rw [code_of_lt (by omega)]
      · rw [code_of_lt isNode]
  · rw [code_of_le (show (table.removeAt idx last).numNodes load ≤ other from outside),
      removed_of_gt (Nat.lt_of_lt_of_le inside outside), code_of_le outside]

/-- A node that has moved, or not, has the info byte of its new position. -/
theorem coded_removeAt (valid : Valid hash load table) (behind : idx ≤ last)
    (moved : ∀ position, idx < position → position ≤ last →
      2 * table.infoInc ≤ table.info position) {other : Nat} {entry : κ × ν}
    (stored : removedNodes table.keyVals idx last other = some entry) :
    other ≠ last ∧ table.keyVals (sourceOf idx last other) = some entry ∧
      table.home hash entry.1 ≤ other ∧
      removed table.infoInc table.info idx last other = table.infoAt hash entry.1 other := by
  have different : other ≠ last := by
    rintro rfl
    rw [removedNodes, if_pos rfl] at stored
    cases stored
  rw [removedNodes_eq different] at stored
  obtain ⟨inside, home, coded⟩ := valid.coded _ _ stored
  refine ⟨different, stored, ?_⟩
  by_cases inner : idx ≤ other ∧ other < last
  · rw [sourceOf, if_pos inner] at home coded
    have large := moved (other + 1) (by omega) (by omega)
    -- the node is not at its home, where its code would be less than two increments
    have notHome : table.home hash entry.1 ≠ other + 1 := by
      intro atHome
      have bits := valid.hashBits_lt entry.1
      rw [coded, infoAt, atHome, codeAt_home] at large
      omega
    have behindHome : table.home hash entry.1 ≤ other := by omega
    rw [infoAt_succ behindHome] at coded
    refine ⟨behindHome, ?_⟩
    rw [removed_of_moved inner.1 inner.2, coded, Nat.add_sub_cancel]
  · rw [sourceOf, if_neg inner] at home coded
    refine ⟨home, ?_⟩
    rw [removed, if_neg different, if_neg inner, coded]

/-- The occupied nodes after a removal. -/
theorem occupied_removeAt (valid : Valid hash load table) (behind : idx ≤ last)
    (occupied : table.info idx ≠ 0)
    (moved : ∀ position, idx < position → position ≤ last →
      2 * table.infoInc ≤ table.info position) :
    (table.removeAt idx last).occupied load = (table.occupied load).erase last := by
  have two := valid.two_le
  have full : ∀ position, idx ≤ position → position ≤ last → table.info position ≠ 0 := by
    intro position notBefore notAfter
    rcases Nat.eq_or_lt_of_le notBefore with rfl | later
    · exact occupied
    · have large := moved position later notAfter
      omega
  ext other
  rw [Finset.mem_erase, Table.occupied, Table.occupied, Finset.mem_filter, Finset.mem_filter,
    Finset.mem_range, Finset.mem_range, and_left_comm]
  change other < table.numNodes load ∧ removed table.infoInc table.info idx last other ≠ 0 ↔ _
  refine and_congr_right fun _ => ?_
  by_cases ending : other = last
  · subst ending
    simp only [removed_last, ne_eq, not_true_eq_false, false_and]
  · rw [removed, if_neg ending, and_iff_right ending]
    split
    · next inner =>
        have large := moved (other + 1) (by omega) (by omega)
        exact iff_of_true (by omega) (full other inner.1 (Nat.le_of_lt inner.2))
    · rfl

end Remove

/-- **A removal** keeps a table valid. -/
theorem removeAt (valid : Valid hash load table) {idx last : Nat} {entry : κ × ν}
    (stored : table.keyVals idx = some entry) (behind : idx ≤ last)
    (inside : last < table.numNodes load)
    (moved : ∀ position, idx < position → position ≤ last →
      2 * table.infoInc ≤ table.info position)
    (ends : table.info (last + 1) < 2 * table.infoInc) :
    Valid hash load { table.removeAt idx last with numElements := table.numElements - 1 } where
  allocated := valid.allocated
  increment := valid.increment
  two_le := valid.two_le
  sentinel := (removed_of_gt inside).trans valid.sentinel
  padding other past := (removed_of_gt (Nat.lt_trans inside past)).trans (valid.padding other past)
  free := by
    intro other isNode empty
    change removed table.infoInc table.info idx last other = 0
    change removedNodes table.keyVals idx last other = none at empty
    by_cases ending : other = last
    · rw [ending, removed_last]
    · rw [removedNodes, if_neg ending] at empty
      rw [removed, if_neg ending]
      split
      · next inner =>
          rw [if_pos inner] at empty
          rw [valid.free (other + 1) (by omega) empty, Nat.zero_sub]
      · next outer =>
          rw [if_neg outer] at empty
          exact valid.free other isNode empty
  coded := by
    intro other moving there
    obtain ⟨different, -, home, coded⟩ := valid.coded_removeAt behind moved there
    refine ⟨?_, home, coded⟩
    by_contra outside
    rw [show ({ table.removeAt idx last with numElements := table.numElements - 1 } :
      Table κ ν).keyVals other = removedNodes table.keyVals idx last other from rfl,
      removedNodes, if_neg different, if_neg (by
        have := Nat.le_of_not_lt outside
        change table.numNodes load ≤ other at this
        omega)] at there
    exact outside (valid.coded other _ there).1
  ordered := by
    have two := valid.two_le
    have codes : ({ table.removeAt idx last with numElements := table.numElements - 1 } :
        Table κ ν).code load = removed table.infoInc (table.code load) idx last :=
      code_removeAt inside
    rw [codes]
    apply valid.ordered.remove (by omega) behind
    · rw [code_of_lt (Nat.lt_of_le_of_lt behind inside)]
      exact valid.info_ne_zero stored
    · intro position after notAfter
      rw [code_of_lt (Nat.lt_of_le_of_lt notAfter inside)]
      exact moved position after notAfter
    · rcases Nat.lt_or_ge (last + 1) (table.numNodes load) with isNode | outside
      · rwa [code_of_lt isNode]
      · rw [code_of_le outside]
        omega
  unique := by
    intro one other first second there thereToo same
    obtain ⟨different, source, -⟩ := valid.coded_removeAt behind moved there
    obtain ⟨differentToo, sourceToo, -⟩ := valid.coded_removeAt behind moved thereToo
    exact sourceOf_injective different differentToo
      (valid.unique _ _ _ _ source sourceToo same)
  bytes := by
    intro other
    change removed table.infoInc table.info idx last other < 256
    rw [removed]
    split
    · omega
    · split
      · exact Nat.lt_of_le_of_lt (Nat.sub_le _ _) (valid.bytes (other + 1))
      · exact valid.bytes other
  headroom := by
    intro open_
    obtain ⟨allowed, room⟩ := valid.headroom open_
    refine ⟨allowed, fun other => ?_⟩
    change removed table.infoInc table.info idx last other + table.infoInc < 256
    have here := room other
    rw [removed]
    split
    · omega
    · split
      · have next := room (other + 1)
        omega
      · exact here
  count := by
    have there : last ∈ table.occupied load := by
      rw [Table.occupied, Finset.mem_filter, Finset.mem_range]
      refine ⟨inside, ?_⟩
      rcases Nat.eq_or_lt_of_le behind with rfl | later
      · exact valid.info_ne_zero stored
      · have large := moved last later (Nat.le_refl _)
        have two := valid.two_le
        omega
    have occupied := valid.occupied_removeAt behind (valid.info_ne_zero stored) moved
    change table.numElements - 1 = ((table.removeAt idx last).occupied load).card
    rw [occupied, Finset.card_erase_of_mem there, valid.count]
  allowed := (Nat.sub_le _ _).trans valid.allowed

/-- What `shiftDown` does at a node that is there. -/
structure Removes (hash : κ → UInt64) (load : Nat) (table : Table κ ν) (idx last : Nat) :
    Prop where
  behind : idx ≤ last
  inside : last < table.numNodes load
  moved : ∀ position, idx < position → position ≤ last →
    2 * table.infoInc ≤ table.info position
  ends : table.info (last + 1) < 2 * table.infoInc
  shifted : table.shiftDown load idx = some (table.removeAt idx last)

/-- Every node that is there can be removed. -/
theorem removes (valid : Valid hash load table) {idx : Nat} {entry : κ × ν}
    (stored : table.keyVals idx = some entry) : ∃ last, Removes hash load table idx last := by
  have isNode := (valid.coded idx entry stored).1
  have two := valid.two_le
  obtain ⟨last, behind, inside, moved, ends⟩ := valid.exists_last isNode
  refine ⟨last, behind, inside, moved, ends, ?_⟩
  rw [shiftDown, valid.node_eq isNode, stored, Option.bind_some]
  refine shiftDownLoop_eq behind ?_ inside valid.allocated ends
    (by rw [valid.numBytesInfo_eq]; omega)
  intro position later notAfter
  have large := moved position later notAfter
  exact ⟨large, valid.bytes position, valid.exists_entry (by omega) (by omega)⟩

/-- The entries after a removal are those of the other nodes. -/
theorem holds_removeAt (valid : Valid hash load table) {idx last : Nat} {entry : κ × ν}
    (stored : table.keyVals idx = some entry) (removes : Removes hash load table idx last)
    (key : κ) (value : ν) :
    (table.removeAt idx last).Holds key value ↔ key ≠ entry.1 ∧ table.Holds key value := by
  constructor
  · intro holds
    obtain ⟨other, there⟩ := holds
    obtain ⟨different, source, -⟩ := valid.coded_removeAt removes.behind removes.moved there
    refine ⟨?_, _, source⟩
    intro same
    exact sourceOf_ne removes.behind different (valid.unique _ _ _ _ source stored same)
  · intro both
    obtain ⟨different, source, there⟩ := both
    have apart : source ≠ idx := by
      rintro rfl
      rw [stored] at there
      exact different (congrArg Prod.fst (Option.some.inj there)).symm
    obtain ⟨other, notLast, from_source⟩ := exists_sourceOf removes.behind apart
    refine ⟨other, ?_⟩
    change removedNodes table.keyVals idx last other = some (key, value)
    rw [removedNodes_eq notLast, from_source, there]

variable [DecidableEq κ]

/-- **Erasing** a key takes out its entry, where there is one. -/
theorem erase_spec (valid : Valid hash load table) (key : κ) :
    ∃ next count, table.erase hash load key = some (next, count) ∧ Valid hash load next ∧
      (table.Lenient → next.Lenient) ∧
      (∀ other value, next.Holds other value ↔ other ≠ key ∧ table.Holds other value) ∧
      (count = 1 ∧ (∃ value, table.Holds key value) ∨
        count = 0 ∧ ∀ value, ¬ table.Holds key value) := by
  by_cases held : ∃ value, table.Holds key value
  · obtain ⟨value, idx, stored⟩ := held
    obtain ⟨isNode, home, -⟩ := valid.coded idx _ stored
    obtain ⟨last, removes⟩ := valid.removes stored
    refine ⟨{ table.removeAt idx last with numElements := table.numElements - 1 }, 1, ?_,
      valid.removeAt stored removes.behind removes.inside removes.moved removes.ends, id,
      valid.holds_removeAt stored removes, Or.inl ⟨rfl, value, idx, stored⟩⟩
    rw [erase, keyToIdx_eq]
    dsimp only
    rw [valid.eraseLoop_of_located (show table.Located key (some idx) from ⟨value, stored⟩)
      (Nat.le_refl _) home (by rw [valid.numBytesInfo_eq]; omega), Option.bind_some]
    simp only [removes.shifted, Option.map_some]
    rfl
  · have absent : ∀ value, ¬ table.Holds key value := fun value holds => held ⟨value, holds⟩
    have inside := home_lt_numNodes hash load table key
    refine ⟨table, 0, ?_, valid, id, ?_, Or.inr ⟨rfl, absent⟩⟩
    · rw [erase, keyToIdx_eq]
      dsimp only
      rw [valid.eraseLoop_of_located (show table.Located key none from absent)
        (Nat.le_refl _) (Nat.le_of_lt inside) (by rw [valid.numBytesInfo_eq]; omega),
        Option.bind_some]
    · intro other value
      refine ⟨fun holds => ⟨?_, holds⟩, And.right⟩
      rintro rfl
      exact absent value holds

end Valid

end Table

end FastDb.RobinHood
