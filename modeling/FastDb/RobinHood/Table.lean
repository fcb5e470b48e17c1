import Mathlib.Logic.Function.Basic
import FastDb.Foundation.PackedBytes

/-! # The hash table

`robin_hood::detail::Table`: nodes and, for each, an info byte, which is 0 for an empty
node and else holds the distance of the node from its home and some bits of the hash. A
sentinel byte ends the info bytes, and a byte array of eight more is read in words. Every
access outside the arrays, and every use of a node that is not there, has no defined
behaviour and is `none` here; a call that throws `std::overflow_error` leaves the table as
it was when it threw.
-/

namespace FastDb.RobinHood

open Foundation

/-- The members of `Table`. Positions stand for addresses in the two arrays, which have
no nodes as long as `mask` is 0. -/
structure Table (κ ν : Type) where
  hashMultiplier : UInt64 := 0xc4ceb9fe1a85ec53
  keyVals : Nat → Option (κ × ν) := fun _ => none
  info : Nat → Nat := fun _ => 0
  numElements : Nat := 0
  mask : Nat := 0
  maxNumElementsAllowed : Nat := 0
  infoInc : Nat := 32
  infoHashShift : Nat := 0

/-- `InitialNumElements`. -/
def initialNumElements : Nat := 8

/-- `calcMaxNumElementsAllowed` for `MaxLoadFactor100 = load`. -/
def calcMaxNumElementsAllowed (load maxElements : Nat) : Nat :=
  if maxElements ≤ (2 ^ 64 - 1) / 100 then maxElements * load / 100
  else maxElements / 100 * load

/-- `calcNumElementsWithBuffer`. -/
def calcNumElementsWithBuffer (load numElements : Nat) : Nat :=
  numElements + min (calcMaxNumElementsAllowed load numElements) 255

/-- `calcNumBytesInfo`. -/
def calcNumBytesInfo (numElements : Nat) : Nat := numElements + 8

/-- A walk over the info bytes from a position on: `idx` and `info` go on with `next` as
long as the loop condition holds of `info` and the byte. -/
def walk (read : Nat → Option Nat) (goesOn : Nat → Nat → Bool) (infoInc : Nat) :
    Nat → Nat → Nat → Option (Nat × Nat)
  | 0, _, _ => none
  | fuel + 1, idx, info =>
      (read idx).bind fun byte =>
        if goesOn info byte then walk read goesOn infoInc fuel (idx + 1) (info + infoInc)
        else some (idx, info)

/-- The size that `reserve` and `compact` settle on: the first power of two from 8 on that
allows `count` elements, or none once doubling it gives 0 in 64 bits. -/
def fittingSize (load count : Nat) : Nat → Nat → Option Nat
  | 0, _ => none
  | doublings + 1, newSize =>
      if calcMaxNumElementsAllowed load newSize < count then
        fittingSize load count doublings (newSize * 2)
      else some newSize

/-- How `insertKeyPrepareEmptySpot` ends: `InsertionState` with the position. -/
inductive InsertionState
  | overflowError
  | keyFound (idx : Nat)
  | newNode (idx : Nat)
  | overwriteNode (idx : Nat)

namespace Table

variable {κ ν : Type}

/-! ## Reading -/

/-- `calcNumElementsWithBuffer(mMask + 1)`. -/
def numNodes (load : Nat) (table : Table κ ν) : Nat :=
  calcNumElementsWithBuffer load (table.mask + 1)

/-- The info bytes that may be read; without an allocation they are those of `mMask`. -/
def numBytesInfo (load : Nat) (table : Table κ ν) : Nat :=
  if table.mask = 0 then 8 else calcNumBytesInfo (table.numNodes load)

/-- `mInfo[idx]`, inside the array. -/
def readInfo (load : Nat) (table : Table κ ν) (idx : Nat) : Option Nat :=
  if idx < table.numBytesInfo load then some (table.info idx) else none

/-- `mKeyVals[idx]`, where there is a node. -/
def node (load : Nat) (table : Table κ ν) (idx : Nat) : Option (κ × ν) :=
  if table.mask ≠ 0 ∧ idx < table.numNodes load then table.keyVals idx else none

/-- The hash of a key, mixed by the multiplier. -/
def mixed (hash : κ → UInt64) (table : Table κ ν) (key : κ) : UInt64 :=
  let h := hash key * table.hashMultiplier
  h ^^^ (h >>> 33)

/-- The bits of the hash that go into the info byte. -/
def hashBits (hash : κ → UInt64) (table : Table κ ν) (key : κ) : Nat :=
  (table.mixed hash key &&& 31).toNat >>> table.infoHashShift

/-- The home position of a key. -/
def home (hash : κ → UInt64) (table : Table κ ν) (key : κ) : Nat :=
  (table.mixed hash key >>> 5).toNat &&& table.mask

/-- `keyToIdx`: the position and the info to begin with. -/
def keyToIdx (hash : κ → UInt64) (table : Table κ ν) (key : κ) : Nat × Nat :=
  (table.home hash key, table.infoInc + table.hashBits hash key)

/-- A walk with as many turns as there are info bytes, which no walk inside them exceeds. -/
def skip (load : Nat) (table : Table κ ν) (goesOn : Nat → Nat → Bool) (idx info : Nat) :
    Option (Nat × Nat) :=
  walk (table.readInfo load) goesOn table.infoInc (table.numBytesInfo load) idx info

section Lookup

variable [DecidableEq κ]

/-- `info == mInfo[idx] && equal(key, mKeyVals[idx].getFirst())`. -/
def isMatch (load : Nat) (table : Table κ ν) (key : κ) (idx info : Nat) : Option Bool :=
  (table.readInfo load idx).bind fun byte =>
    if info = byte then (table.node load idx).map fun entry => key = entry.1 else some false

/-- The position `end()` has. -/
def endIdx (load : Nat) (table : Table κ ν) : Nat :=
  if table.mask = 0 then 0 else table.numNodes load

/-- The loop of `findIdx`, two positions a turn. -/
def findLoop (load : Nat) (table : Table κ ν) (key : κ) : Nat → Nat → Nat → Option Nat
  | 0, _, _ => none
  | fuel + 1, idx, info =>
      (table.isMatch load key idx info).bind fun first =>
        if first then some idx
        else (table.isMatch load key (idx + 1) (info + table.infoInc)).bind fun second =>
          if second then some (idx + 1)
          else (table.readInfo load (idx + 2)).bind fun byte =>
            if info + table.infoInc + table.infoInc ≤ byte then
              findLoop load table key fuel (idx + 2) (info + table.infoInc + table.infoInc)
            else some (table.endIdx load)

/-- `findIdx`. -/
def findIdx (hash : κ → UInt64) (load : Nat) (table : Table κ ν) (key : κ) : Option Nat :=
  let (idx, info) := table.keyToIdx hash key
  table.findLoop load key (table.numBytesInfo load) idx info

/-- What `find` leads to: the value, or `none` for `end()`. -/
def find (hash : κ → UInt64) (load : Nat) (table : Table κ ν) (key : κ) : Option (Option ν) :=
  (table.findIdx hash load key).bind fun idx =>
    if idx = table.endIdx load then some none
    else (table.node load idx).map fun entry => some entry.2

/-- The loop of `erase(key)`: the position of the key. -/
def eraseLoop (load : Nat) (table : Table κ ν) (key : κ) :
    Nat → Nat → Nat → Option (Option Nat)
  | 0, _, _ => none
  | fuel + 1, idx, info =>
      (table.isMatch load key idx info).bind fun found =>
        if found then some (some idx)
        else (table.readInfo load (idx + 1)).bind fun byte =>
          if info + table.infoInc ≤ byte then
            eraseLoop load table key fuel (idx + 1) (info + table.infoInc)
          else some none

/-- The loop of `insertKeyPrepareEmptySpot` over the nodes that may be the key's: its
position, or where and with which info to go on. -/
def matchLoop (load : Nat) (table : Table κ ν) (key : κ) :
    Nat → Nat → Nat → Option (Nat ⊕ (Nat × Nat))
  | 0, _, _ => none
  | fuel + 1, idx, info =>
      (table.readInfo load idx).bind fun byte =>
        if info = byte then
          (table.node load idx).bind fun entry =>
            if key = entry.1 then some (.inl idx)
            else matchLoop load table key fuel (idx + 1) (info + table.infoInc)
        else some (.inr (idx, info))

end Lookup

/-! ## Moving nodes -/

/-- The first loop of `shiftUp`, from `insertionIdx + count` down; a node moved from holds
nothing until it is assigned. -/
def shiftNodes (insertionIdx : Nat) : Nat → (Nat → Option (κ × ν)) → Nat → Option (κ × ν)
  | 0, nodes => nodes
  | count + 1, nodes =>
      let moved := Function.update nodes (insertionIdx + count + 1) (nodes (insertionIdx + count))
      shiftNodes insertionIdx count (Function.update moved (insertionIdx + count) none)

/-- One turn of the second loop of `shiftUp`. -/
def shiftByte (table : Table κ ν) (idx : Nat) : Table κ ν :=
  let byte := (table.info (idx - 1) + table.infoInc) % 256
  { table with
    info := Function.update table.info idx byte
    maxNumElementsAllowed :=
      if 255 < byte + table.infoInc then 0 else table.maxNumElementsAllowed }

/-- The second loop of `shiftUp`, from `insertionIdx + count` down. -/
def shiftInfo (insertionIdx : Nat) : Nat → Table κ ν → Table κ ν
  | 0, table => table
  | count + 1, table => shiftInfo insertionIdx count (table.shiftByte (insertionIdx + count + 1))

/-- `shiftUp`. -/
def shiftUp (table : Table κ ν) (startIdx insertionIdx : Nat) : Table κ ν :=
  shiftInfo insertionIdx (startIdx - insertionIdx)
    { table with keyVals := shiftNodes insertionIdx (startIdx - insertionIdx) table.keyVals }

/-- The loop of `shiftDown` and the node it ends at. -/
def shiftDownLoop (load : Nat) : Nat → Nat → Table κ ν → Option (Table κ ν)
  | 0, _, _ => none
  | fuel + 1, idx, table =>
      (table.readInfo load (idx + 1)).bind fun byte =>
        if 2 * table.infoInc ≤ byte then
          (table.node load (idx + 1)).bind fun entry =>
            shiftDownLoop load fuel (idx + 1) { table with
              info := Function.update table.info idx ((byte - table.infoInc) % 256)
              keyVals :=
                Function.update (Function.update table.keyVals idx (some entry)) (idx + 1) none }
        else some { table with
          info := Function.update table.info idx 0
          keyVals := Function.update table.keyVals idx none }

/-- `shiftDown` of a node that is there. -/
def shiftDown (load : Nat) (table : Table κ ν) (idx : Nat) : Option (Table κ ν) :=
  (table.node load idx).bind fun _ => shiftDownLoop load (table.numBytesInfo load) idx table

/-- An info byte that leaves no room for another increment ends the insertions without
growing. -/
def closeFull (table : Table κ ν) (insertionInfo : Nat) : Table κ ν :=
  if 255 < insertionInfo + table.infoInc then { table with maxNumElementsAllowed := 0 } else table

/-- The part that `insertKeyPrepareEmptySpot` and `insert_move` share: nodes from the
insertion position up to the next empty one make room, and the info byte is set. The
result is the table and the position that was empty. -/
def openSpot (load : Nat) (table : Table κ ν) (insertionIdx insertionInfo : Nat) :
    Option (Table κ ν × Nat) :=
  let table := table.closeFull insertionInfo
  (table.skip load (fun _ byte => byte ≠ 0) insertionIdx insertionInfo).bind fun spot =>
    if table.mask ≠ 0 ∧ spot.1 < table.numNodes load then
      let shifted := if spot.1 ≠ insertionIdx then table.shiftUp spot.1 insertionIdx else table
      some ({ shifted with
        info := Function.update shifted.info insertionIdx (insertionInfo % 256)
        numElements := shifted.numElements + 1 }, spot.1)
    else none

/-! ## Growing

Every allocation is taken to succeed.
-/

/-- One turn of the loop of `try_increase_info`: eight info bytes as one word. -/
def halveWord (info : Nat → Nat) (start : Nat) : Nat → Nat := fun idx =>
  if start ≤ idx ∧ idx < start + 8 then
    PackedBytes.byte (PackedBytes.halved (PackedBytes.packed info start 8)) (idx - start)
  else info idx

/-- The loop over the first words. -/
def halveWords : Nat → (Nat → Nat) → Nat → Nat
  | 0, info => info
  | words + 1, info => halveWord (halveWords words info) (8 * words)

/-- `try_increase_info`. -/
def tryIncreaseInfo (load : Nat) (table : Table κ ν) : Bool × Table κ ν :=
  if table.infoInc ≤ 2 then (false, table)
  else (true, { table with
    infoInc := (table.infoInc >>> 1) % 256
    infoHashShift := table.infoHashShift + 1
    info := Function.update (halveWords ((table.numNodes load + 7) / 8) table.info)
      (table.numNodes load) 1
    maxNumElementsAllowed := calcMaxNumElementsAllowed load (table.mask + 1) })

/-- `insert_move`; `false` when it throws. -/
def insertMove (hash : κ → UInt64) (load : Nat) (table : Table κ ν) (keyval : κ × ν) :
    Option (Table κ ν × Bool) :=
  let (increased, table) :=
    if table.maxNumElementsAllowed = 0 then table.tryIncreaseInfo load else (true, table)
  if increased then
    let (idx, info) := table.keyToIdx hash keyval.1
    (table.skip load (fun info byte => info ≤ byte) idx info).bind fun place =>
      (table.openSpot load place.1 (place.2 % 256)).map fun opened =>
        ({ opened.1 with keyVals := Function.update opened.1.keyVals place.1 (some keyval) }, true)
  else some (table, false)

/-- `initData`, whose allocation is taken to succeed: the source throws `std::bad_alloc` after
`mMask` and `mNumElements` have changed, and does not check `calcNumBytesTotal` for overflow. -/
def initData (load : Nat) (table : Table κ ν) (maxElements : Nat) : Table κ ν where
  hashMultiplier := table.hashMultiplier
  keyVals _ := none
  info idx := if idx = calcNumElementsWithBuffer load maxElements then 1 else 0
  numElements := 0
  mask := maxElements - 1
  maxNumElementsAllowed := calcMaxNumElementsAllowed load maxElements
  infoInc := 32
  infoHashShift := 0

/-- The loop of `rehashPowerOfTwo` over nodes of the old table; `false` when it throws. -/
def moveNodes (hash : κ → UInt64) (load : Nat) (old : Table κ ν) :
    List Nat → Table κ ν → Option (Table κ ν × Bool)
  | [], table => some (table, true)
  | idx :: rest, table =>
      if old.info idx ≠ 0 then
        (old.node load idx).bind fun keyval =>
          (table.insertMove hash load keyval).bind fun moved =>
            if moved.2 then moveNodes hash load old rest moved.1 else some (moved.1, false)
      else moveNodes hash load old rest table

/-- `rehashPowerOfTwo`; `false` when it throws. -/
def rehashPowerOfTwo (hash : κ → UInt64) (load : Nat) (table : Table κ ν) (numBuckets : Nat) :
    Option (Table κ ν × Bool) :=
  if 1 < table.numNodes load then
    moveNodes hash load table (List.range (table.numNodes load)) (table.initData load numBuckets)
  else some (table.initData load numBuckets, true)

/-- `nextHashMultiplier`. -/
def nextHashMultiplier (table : Table κ ν) : Table κ ν :=
  { table with hashMultiplier := table.hashMultiplier + 0xc4ceb9fe1a85ec54 }

/-- `increase_size`; `false` when it throws. -/
def increaseSize (hash : κ → UInt64) (load : Nat) (table : Table κ ν) :
    Option (Table κ ν × Bool) :=
  if table.mask = 0 then some (table.initData load initialNumElements, true)
  else
    let allowed := calcMaxNumElementsAllowed load (table.mask + 1)
    if table.numElements < allowed ∧ (table.tryIncreaseInfo load).1 then
      some ((table.tryIncreaseInfo load).2, true)
    else if table.numElements * 2 < allowed then
      table.nextHashMultiplier.rehashPowerOfTwo hash load (table.mask + 1)
    else table.rehashPowerOfTwo hash load ((table.mask + 1) * 2)

/-- `reserve`; `false` when it throws. -/
def reserve (hash : κ → UInt64) (load : Nat) (table : Table κ ν) (count : Nat)
    (forceRehash : Bool) : Option (Table κ ν × Bool) :=
  match fittingSize load (max count table.numElements) 61 initialNumElements with
  | none => some (table, false)
  | some newSize =>
      if forceRehash ∨ table.mask + 1 < newSize then table.rehashPowerOfTwo hash load newSize
      else some (table, true)

/-- `compact`; `false` when it throws. -/
def compact (hash : κ → UInt64) (load : Nat) (table : Table κ ν) : Option (Table κ ν × Bool) :=
  match fittingSize load table.numElements 61 initialNumElements with
  | none => some (table, false)
  | some newSize =>
      if newSize < table.mask + 1 then table.rehashPowerOfTwo hash load newSize
      else some (table, true)

/-! ## Inserting and erasing -/

section Insertion

variable [DecidableEq κ]

/-- The loop of `insertKeyPrepareEmptySpot` with as many attempts left. -/
def prepare (hash : κ → UInt64) (load : Nat) (key : κ) :
    Nat → Table κ ν → Option (Table κ ν × InsertionState)
  | 0, table => some (table, .overflowError)
  | attempts + 1, table =>
      let (idx, info) := table.keyToIdx hash key
      (table.skip load (fun info byte => info < byte) idx info).bind fun place =>
        (table.matchLoop load key (table.numBytesInfo load) place.1 place.2).bind fun
          | .inl found => some (table, .keyFound found)
          | .inr (idx, info) =>
              if table.maxNumElementsAllowed ≤ table.numElements then
                (table.increaseSize hash load).bind fun grown =>
                  if grown.2 then prepare hash load key attempts grown.1
                  else some (grown.1, .overflowError)
              else (table.openSpot load idx info).map fun opened =>
                (opened.1, if opened.2 = idx then .newNode idx else .overwriteNode idx)

/-- `insertKeyPrepareEmptySpot`. -/
def insertKeyPrepareEmptySpot (hash : κ → UInt64) (load : Nat) (table : Table κ ν) (key : κ) :
    Option (Table κ ν × InsertionState) :=
  prepare hash load key 256 table

/-- Puts an entry at a position. -/
def place (table : Table κ ν) (idx : Nat) (key : κ) (value : ν) : Table κ ν :=
  { table with keyVals := Function.update table.keyVals idx (some (key, value)) }

/-- `emplace`, `insert` and `try_emplace`: whether the key was new; `none` inside when
`std::overflow_error` is thrown. -/
def emplace (hash : κ → UInt64) (load : Nat) (table : Table κ ν) (key : κ) (value : ν) :
    Option (Table κ ν × Option Bool) :=
  (table.insertKeyPrepareEmptySpot hash load key).map fun
    | (table, .keyFound _) => (table, some false)
    | (table, .newNode idx) => (table.place idx key value, some true)
    | (table, .overwriteNode idx) => (table.place idx key value, some true)
    | (table, .overflowError) => (table, none)

/-- `insert_or_assign`. -/
def insertOrAssign (hash : κ → UInt64) (load : Nat) (table : Table κ ν) (key : κ) (value : ν) :
    Option (Table κ ν × Option Bool) :=
  (table.insertKeyPrepareEmptySpot hash load key).bind fun
    | (table, .keyFound idx) =>
        (table.node load idx).map fun entry => (table.place idx entry.1 value, some false)
    | (table, .newNode idx) => some (table.place idx key value, some true)
    | (table, .overwriteNode idx) => some (table.place idx key value, some true)
    | (table, .overflowError) => some (table, none)

/-- `operator[]`: the value that the reference is to. -/
def subscript (hash : κ → UInt64) (load : Nat) (table : Table κ ν) (key : κ) (fresh : ν) :
    Option (Table κ ν × Option ν) :=
  (table.insertKeyPrepareEmptySpot hash load key).bind fun
    | (table, .keyFound idx) => (table.node load idx).map fun entry => (table, some entry.2)
    | (table, .newNode idx) => some (table.place idx key fresh, some fresh)
    | (table, .overwriteNode idx) => some (table.place idx key fresh, some fresh)
    | (table, .overflowError) => some (table, none)

/-- `erase(key)`: the number of entries erased. -/
def erase (hash : κ → UInt64) (load : Nat) (table : Table κ ν) (key : κ) :
    Option (Table κ ν × Nat) :=
  let (idx, info) := table.keyToIdx hash key
  (table.eraseLoop load key (table.numBytesInfo load) idx info).bind fun
    | some idx => (table.shiftDown load idx).map fun shifted =>
        ({ shifted with numElements := shifted.numElements - 1 }, 1)
    | none => some (table, 0)

end Insertion

/-- `clear`, which leaves `mMaxNumElementsAllowed` as it is. -/
def clear (load : Nat) (table : Table κ ν) : Table κ ν :=
  if table.numElements = 0 then table
  else { table with
    numElements := 0
    keyVals := fun _ => none
    info := fun idx => if idx = table.numNodes load then 1 else 0
    infoInc := 32
    infoHashShift := 0 }

end Table

end FastDb.RobinHood
