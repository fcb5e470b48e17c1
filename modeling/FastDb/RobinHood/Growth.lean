import Mathlib.Tactic.IntervalCases
import FastDb.RobinHood.Insertion

/-! # Growing

A table grows by halving its info bytes, which leaves more room for distances, or by moving
its nodes into a new array. Both keep it valid with the same entries, unless moving a node
throws; then the table is valid too, with some of its entries
(`FastDb.RobinHood.Table.Valid.increaseSize_spec`).
-/

namespace FastDb.RobinHood

open Foundation Foundation.RobinHood

/-- Twice the nodes allow as many elements. -/
theorem calcMaxNumElementsAllowed_double (load maxElements : Nat) :
    calcMaxNumElementsAllowed load maxElements ≤
      calcMaxNumElementsAllowed load (maxElements * 2) := by
  rw [calcMaxNumElementsAllowed, calcMaxNumElementsAllowed]
  split
  · next small =>
      split
      · apply Nat.div_le_div_right
        exact Nat.mul_le_mul_right load (by omega)
      · next large =>
          have rounded : maxElements * load / 100 ≤ (maxElements / 100 + 1) * load := by
            apply Nat.div_le_of_le_mul
            have below : maxElements ≤ 100 * (maxElements / 100 + 1) := by omega
            exact (Nat.mul_le_mul_right load below).trans (Nat.le_of_eq (Nat.mul_assoc _ _ _))
          exact rounded.trans (Nat.mul_le_mul_right load (by omega))
  · next large =>
      rw [if_neg (by omega)]
      exact Nat.mul_le_mul_right load (by omega)

/-- One node allows no element, since the load factor is below 100. -/
theorem calcMaxNumElementsAllowed_one {load : Nat} (small : load < 100) :
    calcMaxNumElementsAllowed load 1 = 0 := by
  rw [calcMaxNumElementsAllowed, if_pos (by omega), Nat.one_mul, Nat.div_eq_of_lt small]

/-- The size found allows the count. -/
theorem fittingSize_spec {load count doublings newSize found : Nat}
    (fits : fittingSize load count doublings newSize = some found) :
    newSize ≤ found ∧ count ≤ calcMaxNumElementsAllowed load found := by
  induction doublings generalizing newSize with
  | zero => cases fits
  | succ doublings ih =>
      rw [fittingSize] at fits
      split at fits
      · obtain ⟨larger, enough⟩ := ih fits
        exact ⟨by omega, enough⟩
      · next enough =>
          obtain rfl := Option.some.inj fits
          exact ⟨Nat.le_refl _, Nat.le_of_not_lt enough⟩

/-- A size that allows as many is found if one of the sizes tried does. -/
theorem exists_fittingSize {load count doubled doublings newSize : Nat}
    (allowed : count ≤ calcMaxNumElementsAllowed load (newSize * 2 ^ doubled))
    (tried : doubled < doublings) :
    ∃ found, fittingSize load count doublings newSize = some found := by
  induction doublings generalizing doubled newSize with
  | zero => omega
  | succ doublings ih =>
      rw [fittingSize]
      split
      · next less =>
          cases doubled with
          | zero =>
              rw [Nat.pow_zero, Nat.mul_one] at allowed
              omega
          | succ doubled =>
              rw [Nat.pow_succ', ← Nat.mul_assoc] at allowed
              exact ih allowed (by omega)
      · exact ⟨newSize, rfl⟩

/-- The most entries that the largest array allows. -/
def mostAllowed (load : Nat) : Nat := calcMaxNumElementsAllowed load (2 ^ 63)

/-- From the initial size on one is found for every count that is allowed. -/
theorem exists_initial_fittingSize {load count : Nat} (allowed : count ≤ mostAllowed load) :
    ∃ found, fittingSize load count 61 initialNumElements = some found :=
  exists_fittingSize (show count ≤ calcMaxNumElementsAllowed load (8 * 2 ^ 60) from allowed)
    (by omega)

namespace Table

variable {κ ν : Type} {hash : κ → UInt64} {load : Nat} {table : Table κ ν}

/-! ## Halving the info bytes -/

/-- Halving a word halves its eight bytes. -/
theorem halveWord_eq {info : Nat → Nat} (small : ∀ idx, info idx < 256) (start idx : Nat) :
    halveWord info start idx =
      if start ≤ idx ∧ idx < start + 8 then info idx / 2 else info idx := by
  rw [halveWord]
  split
  · next inside =>
      rw [PackedBytes.byte_halved _ (by omega), PackedBytes.byte_packed small (by omega),
        Nat.add_sub_cancel' inside.1]
  · rfl

/-- Halving the first words halves their bytes. -/
theorem halveWords_eq {info : Nat → Nat} (small : ∀ idx, info idx < 256) (words idx : Nat) :
    halveWords words info idx = if idx < 8 * words then info idx / 2 else info idx := by
  induction words generalizing idx with
  | zero => rw [halveWords, if_neg (by omega)]
  | succ words ih =>
      have smaller : ∀ idx, halveWords words info idx < 256 := by
        intro idx
        have here := small idx
        rw [ih]
        split <;> omega
      rw [halveWords, halveWord_eq smaller, ih]
      split
      · next inside => rw [if_neg (by omega), if_pos (by omega)]
      · next outside =>
          by_cases before : idx < 8 * words
          · rw [if_pos before, if_pos (by omega)]
          · rw [if_neg before, if_neg (by omega)]

/-- The increment is one of five powers of two. -/
theorem Valid.even (valid : Valid hash load table) (more : ¬ table.infoInc ≤ 2) :
    table.infoInc % 2 = 0 ∧ table.infoInc ≤ 32 := by
  have increment := valid.increment
  have two := valid.two_le
  have few : table.infoHashShift < 5 := by
    by_contra many
    have large : 2 ^ 5 ≤ 2 ^ table.infoHashShift :=
      Nat.pow_le_pow_right Nat.two_pos (Nat.le_of_not_lt many)
    have product := Nat.mul_le_mul two large
    omega
  generalize table.infoHashShift = shift at few increment
  interval_cases shift <;> omega

section Halving

/-- The info bytes after they are halved. -/
theorem Valid.tryIncreaseInfo_info (valid : Valid hash load table) (more : ¬ table.infoInc ≤ 2)
    (idx : Nat) : (table.tryIncreaseInfo load).2.info idx =
      if idx = table.numNodes load then 1 else table.info idx / 2 := by
  rw [tryIncreaseInfo, if_neg more]
  dsimp only
  rw [Function.update_apply, halveWords_eq valid.bytes]
  split
  · rfl
  · next apart =>
      split
      · rfl
      · next outside => rw [valid.padding idx (by omega)]

/-- What `try_increase_info` leaves as it is, and the halved increment. -/
theorem Valid.tryIncreaseInfo_shape (valid : Valid hash load table)
    (more : ¬ table.infoInc ≤ 2) :
    (table.tryIncreaseInfo load).1 = true ∧
      (table.tryIncreaseInfo load).2.hashMultiplier = table.hashMultiplier ∧
      (table.tryIncreaseInfo load).2.keyVals = table.keyVals ∧
      (table.tryIncreaseInfo load).2.numElements = table.numElements ∧
      (table.tryIncreaseInfo load).2.mask = table.mask ∧
      (table.tryIncreaseInfo load).2.maxNumElementsAllowed =
        calcMaxNumElementsAllowed load (table.mask + 1) ∧
      (table.tryIncreaseInfo load).2.infoInc = table.infoInc / 2 ∧
      (table.tryIncreaseInfo load).2.infoHashShift = table.infoHashShift + 1 := by
  have bound := (valid.even more).2
  rw [tryIncreaseInfo, if_neg more]
  refine ⟨rfl, rfl, rfl, rfl, rfl, rfl, ?_, rfl⟩
  dsimp only
  rw [Nat.shiftRight_eq_div_pow, Nat.pow_one, Nat.mod_eq_of_lt (by omega)]

/-- The codes of the keys after the info bytes are halved. -/
theorem Valid.tryIncreaseInfo_infoAt (valid : Valid hash load table)
    (more : ¬ table.infoInc ≤ 2) (key : κ) (idx : Nat) :
    (table.tryIncreaseInfo load).2.home hash key = table.home hash key ∧
      (table.tryIncreaseInfo load).2.infoAt hash key idx = table.infoAt hash key idx / 2 := by
  obtain ⟨-, multiplier, -, -, mask, -, inc, shift⟩ := valid.tryIncreaseInfo_shape more
  have home : (table.tryIncreaseInfo load).2.home hash key = table.home hash key := by
    rw [Table.home, Table.home, mixed, mixed, multiplier, mask]
  have bits : (table.tryIncreaseInfo load).2.hashBits hash key =
      table.hashBits hash key / 2 := by
    rw [hashBits, hashBits, mixed, mixed, multiplier, shift, Nat.shiftRight_succ]
  refine ⟨home, ?_⟩
  rw [infoAt, infoAt, codeAt_half (valid.even more).1, home, bits, inc]

/-- **Halving** the info bytes keeps a table valid. -/
theorem Valid.tryIncreaseInfo (valid : Valid hash load table) (more : ¬ table.infoInc ≤ 2) :
    Valid hash load (table.tryIncreaseInfo load).2 := by
  obtain ⟨-, -, keyVals, count, mask, allowed, inc, shift⟩ := valid.tryIncreaseInfo_shape more
  have infos := valid.tryIncreaseInfo_info more
  have codes := valid.tryIncreaseInfo_infoAt more
  obtain ⟨even, bound⟩ := valid.even more
  have nodes : (table.tryIncreaseInfo load).2.numNodes load = table.numNodes load := by
    rw [numNodes, numNodes, mask]
  generalize (table.tryIncreaseInfo load).2 = next at *
  have infoOf : ∀ idx, idx < table.numNodes load → next.info idx = table.info idx / 2 := by
    intro idx inside
    rw [infos, if_neg (Nat.ne_of_lt inside)]
  have code : next.code load = fun idx => table.code load idx / 2 := by
    funext idx
    rcases Nat.lt_or_ge idx (table.numNodes load) with inside | outside
    · rw [code_of_lt (by rwa [nodes]), code_of_lt inside, infoOf idx inside]
    · rw [code_of_le (by rwa [nodes]), code_of_le outside, Nat.zero_div]
  exact {
    allocated := by
      rw [mask]
      exact valid.allocated
    increment := by
      have increment := valid.increment
      rw [inc, shift, Nat.pow_succ']
      obtain ⟨half, twice⟩ : ∃ half, table.infoInc = 2 * half := ⟨table.infoInc / 2, by omega⟩
      rw [twice] at increment ⊢
      rw [Nat.mul_div_cancel_left half Nat.two_pos, ← increment]
      ring
    two_le := by omega
    sentinel := by rw [infos, nodes, if_pos rfl]
    padding := by
      intro idx past
      rw [nodes] at past
      rw [infos, if_neg (by omega), valid.padding idx past, Nat.zero_div]
    free := by
      intro idx inside missing
      rw [nodes] at inside
      rw [keyVals] at missing
      rw [infoOf idx inside, valid.free idx inside missing, Nat.zero_div]
    coded := by
      intro idx entry stored
      rw [keyVals] at stored
      obtain ⟨inside, home, coded⟩ := valid.coded idx entry stored
      obtain ⟨sameHome, sameCode⟩ := codes entry.1 idx
      rw [nodes, sameHome, sameCode, infoOf idx inside, coded]
      exact ⟨inside, home, rfl⟩
    ordered := by
      rw [inc, code]
      exact valid.ordered.halve (by omega) even
    unique := by
      rw [keyVals]
      exact valid.unique
    bytes := by
      intro idx
      have byte := valid.bytes idx
      rw [infos]
      split <;> omega
    headroom := by
      intro _
      refine ⟨by rw [allowed, mask], fun idx => ?_⟩
      have byte := valid.bytes idx
      rw [infos, inc]
      split <;> omega
    count := by
      have occupied : next.occupied load = table.occupied load := by
        ext idx
        rw [Table.occupied, Table.occupied, Finset.mem_filter, Finset.mem_filter,
          Finset.mem_range, Finset.mem_range, nodes]
        refine and_congr_right fun inside => ?_
        rw [infoOf idx inside]
        have least := valid.ordered.least idx
        rw [code_of_lt inside] at least
        omega
      rw [count, occupied, valid.count]
    allowed := by
      rw [count, mask]
      exact valid.allowed }

end Halving

/-! ## Moving nodes into a new array -/

/-- A table with an allocation, none of whose nodes is used. -/
structure Blank (load : Nat) (table : Table κ ν) : Prop where
  allocated : table.mask ≠ 0
  infoInc : table.infoInc = 32
  infoHashShift : table.infoHashShift = 0
  keyVals : ∀ idx, table.keyVals idx = none
  info : ∀ idx, table.info idx = if idx = table.numNodes load then 1 else 0
  numElements : table.numElements = 0
  headroom : table.maxNumElementsAllowed ≠ 0 →
    table.maxNumElementsAllowed = calcMaxNumElementsAllowed load (table.mask + 1)

/-- A blank table holds no node. -/
theorem Blank.not_stored (blank : Blank load table) {idx : Nat} {entry : κ × ν} :
    table.keyVals idx ≠ some entry := by
  rw [blank.keyVals idx]
  exact Option.some_ne_none entry |>.symm

/-- A blank table is valid. -/
theorem Blank.valid (blank : Blank load table) (hash : κ → UInt64) : Valid hash load table where
  allocated := blank.allocated
  increment := by rw [blank.infoInc, blank.infoHashShift, Nat.pow_zero]
  two_le := by
    rw [blank.infoInc]
    omega
  sentinel := by rw [blank.info, if_pos rfl]
  padding idx past := by rw [blank.info, if_neg (Nat.ne_of_gt past)]
  free idx inside _ := by rw [blank.info, if_neg (Nat.ne_of_lt inside)]
  coded _ _ stored := absurd stored blank.not_stored
  ordered := by
    have code : table.code load = fun _ => 0 := by
      funext idx
      rw [Table.code, blank.info]
      split
      · next inside => rw [if_neg (Nat.ne_of_lt inside)]
      · rfl
    rw [code, blank.infoInc]
    exact ⟨fun position => Or.inl (by omega), fun position => Or.inl rfl⟩
  unique _ _ _ _ stored := absurd stored blank.not_stored
  bytes idx := by
    rw [blank.info]
    split <;> omega
  headroom room := by
    refine ⟨blank.headroom room, fun idx => ?_⟩
    rw [blank.info, blank.infoInc]
    split <;> omega
  count := by
    have none : table.occupied load = ∅ := by
      rw [Table.occupied, Finset.filter_eq_empty_iff]
      intro idx inside occupied
      rw [blank.info, if_neg (Nat.ne_of_lt (Finset.mem_range.mp inside))] at occupied
      exact occupied rfl
    rw [none, blank.numElements, Finset.card_empty]
  allowed := by
    rw [blank.numElements]
    exact Nat.zero_le _

/-- A new array is valid. -/
theorem initData_valid (hash : κ → UInt64) (load : Nat) (table : Table κ ν) {maxElements : Nat}
    (enough : 2 ≤ maxElements) : Valid hash load (table.initData load maxElements) := by
  have size : maxElements - 1 + 1 = maxElements := Nat.sub_add_cancel (by omega)
  have blank : Blank load (table.initData load maxElements) := {
    allocated := by
      change maxElements - 1 ≠ 0
      omega
    infoInc := rfl
    infoHashShift := rfl
    keyVals := fun _ => rfl
    info := fun idx => by
      rw [numNodes, initData, size]
    numElements := rfl
    headroom := fun _ => by rw [initData, size] }
  exact blank.valid hash

/-- New arrays hold nothing. -/
theorem initData_empty (maxElements : Nat) (key : κ) (value : ν) :
    ¬ (table.initData load maxElements).Holds key value := by
  intro holds
  obtain ⟨_, stored⟩ := holds
  cases stored

/-- The walk of `insert_move` ends at a spot for the key. -/
theorem Valid.skip_to_spot (valid : Valid hash load table) (key : κ) :
    ∃ idx, Spot hash load table key idx ∧
      table.skip load (fun info byte => info ≤ byte) (table.home hash key)
        (table.infoAt hash key (table.home hash key)) = some (idx, table.infoAt hash key idx) := by
  have low := home_lt_numNodes hash load table key
  obtain ⟨idx, behind, inside, walked, passed, stopped⟩ :=
    valid.skip_spec (fun info byte => info ≤ byte) (Nat.le_refl _) (Nat.le_of_lt low) (by omega)
      (decide_eq_false (Nat.not_le.mpr (valid.info_lt_infoAt (Nat.le_refl _) key _)))
  refine ⟨idx, ⟨behind, inside, ?_, ?_⟩, walked⟩
  · exact Nat.lt_of_not_le (of_decide_eq_false stopped)
  · intro position from_home below
    exact of_decide_eq_true (passed position from_home below)

/-- A table that has room: a valid one, after halving its info bytes where it must. -/
theorem Valid.insertMove_room (valid : Valid hash load table)
    (more : table.numElements < calcMaxNumElementsAllowed load (table.mask + 1)) :
    ((if table.maxNumElementsAllowed = 0 then table.tryIncreaseInfo load else (true, table)) =
        (false, table)) ∨
      ∃ next, (if table.maxNumElementsAllowed = 0 then table.tryIncreaseInfo load
          else (true, table)) = (true, next) ∧ Valid hash load next ∧
        next.keyVals = table.keyVals ∧ next.mask = table.mask ∧
        next.numElements = table.numElements ∧ next.maxNumElementsAllowed ≠ 0 := by
  split
  · by_cases full : table.infoInc ≤ 2
    · left
      rw [Table.tryIncreaseInfo, if_pos full]
    · obtain ⟨increased, -, keyVals, count, mask, allowed, -, -⟩ :=
        valid.tryIncreaseInfo_shape full
      right
      refine ⟨(table.tryIncreaseInfo load).2, Prod.ext increased rfl,
        valid.tryIncreaseInfo full, keyVals, mask, count, ?_⟩
      rw [allowed]
      omega
  · next open_ => exact Or.inr ⟨table, rfl, valid, rfl, rfl, rfl, open_⟩

/-- New arrays are open to insertions. -/
theorem initData_lenient (maxElements : Nat) : (table.initData load maxElements).Lenient := by
  intro smallest
  exact absurd smallest (show ¬ 32 ≤ 2 by omega)

/-- **Moving** one entry in; when it throws the table is as it was. -/
theorem Valid.insertMove_spec (valid : Valid hash load table) {keyval : κ × ν}
    (absent : ∀ value, ¬ table.Holds keyval.1 value)
    (more : table.numElements < calcMaxNumElementsAllowed load (table.mask + 1)) :
    table.insertMove hash load keyval = some (table, false) ∧ ¬ table.Lenient ∨
      ∃ next, table.insertMove hash load keyval = some (next, true) ∧ Valid hash load next ∧
        next.mask = table.mask ∧ next.numElements = table.numElements + 1 ∧
        (table.numElements < fewEntries → next.Lenient) ∧
        ∀ key value, next.Holds key value ↔
          key = keyval.1 ∧ value = keyval.2 ∨ table.Holds key value := by
  rcases valid.insertMove_room more with full | ⟨next, room, validNext, keyVals, mask, count, open_⟩
  · left
    refine ⟨by rw [insertMove, full]; rfl, fun lenient => ?_⟩
    split at full
    · next closed =>
        rw [Table.tryIncreaseInfo] at full
        split at full
        · next smallest => exact lenient smallest closed
        · cases full
    · cases full
  · right
    obtain ⟨idx, spot, walked⟩ := validNext.skip_to_spot keyval.1
    obtain ⟨opened, empty, opening, state⟩ := validNext.openSpot_spec spot open_
    have fits := validNext.infoAt_lt spot open_
    have same : ∀ key value, next.Holds key value ↔ table.Holds key value := by
      intro key value
      rw [Holds, Holds, keyVals]
    have placed : Valid hash load (opened.place idx keyval.1 keyval.2) := by
      apply validNext.place spot state (fun value holds => absent value ((same _ _).mp holds)) open_
      rw [count, mask]
      exact more
    refine ⟨opened.place idx keyval.1 keyval.2, ?_, placed, state.mask.trans mask,
      state.numElements.trans (congrArg Nat.succ count), fun few => ?_, fun key value => ?_⟩
    · rw [insertMove, room]
      dsimp only
      rw [if_pos rfl, keyToIdx_eq]
      dsimp only
      rw [walked, Option.bind_some, Nat.mod_eq_of_lt fits, opening, Option.map_some]
      rfl
    · exact placed.lenient_place state open_ (count.trans_lt few)
    · rw [validNext.holds_place state keyval.2 key value, same]

/-- What a call leaves that may have thrown while nodes were moved: a ready table, with
all entries unless it threw, and else with some of them. -/
structure Kept (hash : κ → UInt64) (load : Nat) (table next : Table κ ν) (completed : Bool) :
    Prop where
  ready : Ready hash load next
  holds : ∀ key value, next.Holds key value → table.Holds key value
  all : completed = true → ∀ key value, table.Holds key value → next.Holds key value

/-- What growing leaves; with few entries it does not throw. -/
structure Grown (hash : κ → UInt64) (load : Nat) (table next : Table κ ν) (completed : Bool) :
    Prop extends Kept hash load table next completed where
  count : completed = true → next.numElements = table.numElements
  lenient : table.numElements ≤ fewEntries → completed = true ∧ next.Lenient

/-- The nodes to move and the new array are disjoint, and all of them fit. -/
structure Moving (old : Table κ ν) (load : Nat) (rest : List Nat) (table : Table κ ν) : Prop where
  nodup : rest.Nodup
  inside : ∀ idx ∈ rest, idx < old.numNodes load
  fresh : ∀ idx ∈ rest, ∀ entry, old.keyVals idx = some entry →
    ∀ value, ¬ table.Holds entry.1 value
  room : table.numElements + rest.countP (fun idx => old.info idx ≠ 0) ≤
    calcMaxNumElementsAllowed load (table.mask + 1)

/-- What the loop of `rehashPowerOfTwo` leaves of nodes of an old table. -/
structure Moved (hash : κ → UInt64) (load : Nat) (old : Table κ ν) (rest : List Nat)
    (table next : Table κ ν) (completed : Bool) : Prop where
  valid : Valid hash load next
  mask : next.mask = table.mask
  only : ∀ key value, next.Holds key value →
    table.Holds key value ∨ ∃ idx ∈ rest, old.keyVals idx = some (key, value)
  all : completed = true → ∀ key value, (table.Holds key value ∨
    ∃ idx ∈ rest, old.keyVals idx = some (key, value)) → next.Holds key value
  count : completed = true →
    next.numElements = table.numElements + rest.countP fun idx => old.info idx ≠ 0
  lenient : table.Lenient →
    table.numElements + (rest.countP fun idx => old.info idx ≠ 0) ≤ fewEntries →
    completed = true ∧ next.Lenient

/-- **The loop** of `rehashPowerOfTwo` over nodes of a valid table, whose multiplier may have
changed since. -/
theorem moveNodes_spec {old changed : Table κ ν} (valid : Valid hash load old)
    (nodes : changed.keyVals = old.keyVals) (infos : changed.info = old.info)
    (masks : changed.mask = old.mask) {rest : List Nat} {table : Table κ ν}
    (validNew : Valid hash load table) (moving : Moving old load rest table) :
    ∃ next completed, moveNodes hash load changed rest table = some (next, completed) ∧
      Moved hash load old rest table next completed := by
  induction rest generalizing table with
  | nil =>
      refine ⟨table, true, rfl, validNew, rfl, fun key value holds => Or.inl holds,
        fun _ key value either => ?_, fun _ => rfl, fun lenient _ => ⟨rfl, lenient⟩⟩
      rcases either with holds | ⟨idx, member, -⟩
      · exact holds
      · exact absurd member List.not_mem_nil
  | cons idx rest ih =>
      obtain ⟨notRest, nodup⟩ := List.nodup_cons.mp moving.nodup
      have isNode := moving.inside idx List.mem_cons_self
      have room := moving.room
      rw [List.countP_cons] at room
      rw [moveNodes, infos]
      by_cases occupied : old.info idx ≠ 0
      · obtain ⟨entry, stored⟩ := valid.exists_entry isNode occupied
        have node : changed.node load idx = some entry := by
          rw [Table.node, masks, if_pos ⟨valid.allocated, by rwa [numNodes, masks]⟩, nodes, stored]
        have counted : (idx :: rest).countP (fun idx => old.info idx ≠ 0) =
            (rest.countP fun idx => old.info idx ≠ 0) + 1 :=
          List.countP_cons_of_pos (decide_eq_true occupied)
        rw [← List.countP_cons, counted] at room
        rw [if_pos occupied, node, Option.bind_some]
        rcases validNew.insertMove_spec (moving.fresh idx List.mem_cons_self entry stored)
          (by omega) with ⟨thrown, closed⟩ | ⟨next, moved, validNext, mask, count, lenient, holds⟩
        · refine ⟨table, false, ?_, validNew, rfl, fun key value held => Or.inl held, ?_, ?_, ?_⟩
          · rw [thrown]
            rfl
          · exact fun impossible => absurd impossible Bool.false_ne_true
          · exact fun impossible => absurd impossible Bool.false_ne_true
          · exact fun lenient _ => absurd lenient closed
        · have moving : Moving old load rest next := {
            nodup := nodup
            inside := fun other member => moving.inside other (List.mem_cons_of_mem _ member)
            fresh := by
              intro other member another there value held
              rcases (holds _ _).mp held with ⟨same, -⟩ | before
              · obtain rfl := valid.unique _ _ _ _ there stored same
                exact notRest member
              · exact moving.fresh other (List.mem_cons_of_mem _ member) another there value before
            room := by
              rw [count, mask]
              omega }
          obtain ⟨last, completed, ran, ended⟩ := ih validNext moving
          refine ⟨last, completed, ?_, ended.valid, ended.mask.trans mask, ?_, ?_, ?_, ?_⟩
          · rw [moved, Option.bind_some, if_pos rfl]
            exact ran
          · intro key value held
            rcases ended.only key value held with inNext | ⟨other, member, there⟩
            · rcases (holds _ _).mp inNext with ⟨rfl, rfl⟩ | before
              · exact Or.inr ⟨idx, List.mem_cons_self, stored⟩
              · exact Or.inl before
            · exact Or.inr ⟨other, List.mem_cons_of_mem _ member, there⟩
          · intro done key value either
            apply ended.all done
            rcases either with before | ⟨other, member, there⟩
            · exact Or.inl ((holds _ _).mpr (Or.inr before))
            · rcases List.mem_cons.mp member with rfl | later
              · rw [stored] at there
                obtain rfl := Option.some.inj there
                exact Or.inl ((holds _ _).mpr (Or.inl ⟨rfl, rfl⟩))
              · exact Or.inr ⟨other, later, there⟩
          · intro done
            rw [ended.count done, count, counted]
            omega
          · intro _ few
            rw [counted] at few
            exact ended.lenient (lenient (by omega)) (by omega)
      · have counted : (idx :: rest).countP (fun idx => old.info idx ≠ 0) =
            rest.countP fun idx => old.info idx ≠ 0 :=
          List.countP_cons_of_neg fun yes => occupied (of_decide_eq_true yes)
        rw [← List.countP_cons, counted] at room
        have missing : ∀ entry, old.keyVals idx ≠ some entry :=
          fun entry stored => occupied (valid.info_ne_zero stored)
        rw [if_neg occupied]
        obtain ⟨last, completed, ran, ended⟩ := ih validNew {
          nodup := nodup
          inside := fun other member => moving.inside other (List.mem_cons_of_mem _ member)
          fresh := fun other member => moving.fresh other (List.mem_cons_of_mem _ member)
          room := room }
        refine ⟨last, completed, ran, ended.valid, ended.mask, ?_, ?_, ?_, ?_⟩
        · intro key value held
          rcases ended.only key value held with before | ⟨other, member, there⟩
          · exact Or.inl before
          · exact Or.inr ⟨other, List.mem_cons_of_mem _ member, there⟩
        · intro done key value either
          apply ended.all done
          rcases either with before | ⟨other, member, there⟩
          · exact Or.inl before
          · rcases List.mem_cons.mp member with rfl | later
            · exact absurd there (missing _)
            · exact Or.inr ⟨other, later, there⟩
        · rw [counted]
          exact ended.count
        · rw [counted]
          exact ended.lenient

/-- **Rehashing** a valid table, whose multiplier may have changed since, into an array that
allows its elements. -/
theorem Valid.rehashPowerOfTwo_spec (valid : Valid hash load table) {changed : Table κ ν}
    (nodes : changed.keyVals = table.keyVals) (infos : changed.info = table.info)
    (masks : changed.mask = table.mask) {numBuckets : Nat} (enough : 2 ≤ numBuckets)
    (fits : table.numElements ≤ calcMaxNumElementsAllowed load numBuckets) :
    ∃ next completed, changed.rehashPowerOfTwo hash load numBuckets = some (next, completed) ∧
      next.mask = numBuckets - 1 ∧ Grown hash load table next completed := by
  have many : 1 < changed.numNodes load := by
    have positive := valid.allocated
    rw [numNodes, calcNumElementsWithBuffer, masks]
    omega
  have size : changed.numNodes load = table.numNodes load := by rw [numNodes, numNodes, masks]
  have count : (List.range (table.numNodes load)).countP (fun idx => table.info idx ≠ 0) =
      table.numElements := by
    rw [valid.count, List.countP_eq_length_filter]
    rfl
  have moving : Moving table load (List.range (table.numNodes load))
      (changed.initData load numBuckets) := {
    nodup := List.nodup_range
    inside := fun idx member => List.mem_range.mp member
    fresh := fun _ _ _ _ _ => initData_empty numBuckets _ _
    room := by
      rw [count]
      change 0 + _ ≤ calcMaxNumElementsAllowed load (numBuckets - 1 + 1)
      rw [Nat.zero_add, Nat.sub_add_cancel (by omega)]
      exact fits }
  obtain ⟨next, completed, ran, moved⟩ := moveNodes_spec valid nodes infos masks
    (initData_valid hash load changed enough) moving
  have start : (changed.initData load numBuckets).numElements = 0 := rfl
  have counted := moved.count
  have lenient := moved.lenient (initData_lenient numBuckets)
  rw [count, start, Nat.zero_add] at counted lenient
  refine ⟨next, completed, ?_, moved.mask, ⟨Or.inr moved.valid, ?_, ?_⟩, counted, lenient⟩
  · rw [Table.rehashPowerOfTwo, if_pos many, size]
    exact ran
  · intro key value held
    rcases moved.only key value held with fresh | ⟨idx, -, stored⟩
    · exact absurd fresh (initData_empty numBuckets key value)
    · exact ⟨idx, stored⟩
  · intro done key value held
    obtain ⟨idx, stored⟩ := held
    exact moved.all done key value
      (Or.inr ⟨idx, List.mem_range.mpr (valid.coded idx _ stored).1, stored⟩)

/-- **Increasing** the info of a valid table instead of moving its nodes. -/
theorem Valid.tryIncreaseInfo_grown (valid : Valid hash load table)
    (less : table.numElements < calcMaxNumElementsAllowed load (table.mask + 1))
    (more : ¬ table.infoInc ≤ 2) : Grown hash load table (table.tryIncreaseInfo load).2 true := by
  obtain ⟨-, -, keyVals, count, -, allowed, -, -⟩ := valid.tryIncreaseInfo_shape more
  refine ⟨⟨Or.inr (valid.tryIncreaseInfo more), fun key value held => ?_,
    fun _ key value held => ?_⟩, fun _ => count, fun _ => ⟨rfl, fun _ closed => ?_⟩⟩
  · rwa [Holds, keyVals] at held
  · rwa [Holds, keyVals]
  · rw [allowed] at closed
    omega

/-- **Increasing** the size of a valid table. -/
theorem Valid.increaseSize_spec (valid : Valid hash load table) :
    ∃ next completed, table.increaseSize hash load = some (next, completed) ∧
      Grown hash load table next completed := by
  have positive := valid.allocated
  rw [increaseSize, if_neg positive]
  dsimp only
  split
  · next halved =>
      have more : ¬ table.infoInc ≤ 2 := by
        intro full
        rw [Table.tryIncreaseInfo, if_pos full] at halved
        exact absurd halved.2 Bool.false_ne_true
      exact ⟨_, true, rfl, valid.tryIncreaseInfo_grown halved.1 more⟩
  · split
    · obtain ⟨next, completed, rehashed, -, grown⟩ :=
        valid.rehashPowerOfTwo_spec (show table.nextHashMultiplier.keyVals = _ by
          rw [nextHashMultiplier]) (by rw [nextHashMultiplier]) (by rw [nextHashMultiplier])
          (by omega) valid.allowed
      exact ⟨next, completed, rehashed, grown⟩
    · obtain ⟨next, completed, rehashed, -, grown⟩ := valid.rehashPowerOfTwo_spec rfl rfl rfl
        (by omega) (valid.allowed.trans (calcMaxNumElementsAllowed_double load _))
      exact ⟨next, completed, rehashed, grown⟩

end Table

end FastDb.RobinHood
