import FastDb.Foundation.Integers
import FastDb.Foundation.Lists

/-! # Blocks of a loop

`detach_loop` of `common/thread_pool/BS_thread_pool.hpp` and the class `blocks`, which divides a
range of indices into blocks that are run as tasks. The tasks run every index once and in
order, in at most as many blocks as wanted and of sizes that differ by one
(`FastDb.BS.detachLoop_indices`), if the size of the range is a value of the type that the
indices are subtracted in; otherwise the subtraction overflows.
-/

namespace FastDb.BS

open Foundation

/-- `common_index_type`. -/
def commonIndexType (left right : IntegerType) : IntegerType :=
  if left.signed = right.signed then if right.size ≤ left.size then left else right
  else
    let larger := if left.size < right.size then right.width else left.width
    let signed := if left.signed then left else right
    let unsigned := if left.signed then right else left
    match larger with
    | .w8 => ⟨.w16, true⟩
    | .w16 =>
        if signed.width = .w16 ∧ unsigned.width = .w8 then ⟨.w16, true⟩ else ⟨.w32, true⟩
    | .w32 =>
        if signed.width = .w32 ∧ unsigned.width ≠ .w32 then ⟨.w32, true⟩ else ⟨.w64, true⟩
    | .w64 => if unsigned.width = .w64 then ⟨.w64, false⟩ else ⟨.w64, true⟩

/-- `std::size_t`. -/
def sizeT : IntegerType := ⟨.w64, false⟩

/-- `blocks<T>`. -/
structure Blocks where
  blockSize : Nat := 0
  firstIndex : Int
  indexAfterLast : Int
  numBlocks : Nat := 0
  remainder : Nat := 0

namespace Blocks

/-- The constructor; it is not defined to subtract across the bounds of the type or to divide
by no blocks. -/
def new (type : IntegerType) (firstIndex indexAfterLast : Int) (numBlocks : Nat) : Option Blocks :=
  if indexAfterLast > firstIndex then
    (type.evaluate (indexAfterLast - firstIndex)).bind fun difference =>
      let totalSize := (sizeT.wrap difference).toNat
      let numBlocks := min numBlocks totalSize
      if numBlocks = 0 then none
      else
        let blockSize := totalSize / numBlocks
        let remainder := totalSize % numBlocks
        if blockSize = 0 then
          some { blockSize := 1, firstIndex, indexAfterLast, remainder
                 numBlocks := if totalSize > 1 then totalSize else 1 }
        else some { blockSize, firstIndex, indexAfterLast, numBlocks, remainder }
  else some { firstIndex, indexAfterLast }

/-- `start`. -/
def start (type : IntegerType) (blocks : Blocks) (block : Nat) : Option Int :=
  (type.evaluate (blocks.firstIndex +
      type.wrap (sizeT.wrap ((block : Int) * blocks.blockSize)))).bind fun sum =>
    (type.evaluate (sum +
        type.wrap (if block < blocks.remainder then block else blocks.remainder : Nat))).map
      type.wrap

/-- `end`. -/
def finish (type : IntegerType) (blocks : Blocks) (block : Nat) : Option Int :=
  if block = blocks.numBlocks - 1 then some blocks.indexAfterLast
  else blocks.start type (block + 1)

end Blocks

/-- `detach_loop`: the bounds of the loops that its tasks run, which are detached in this
order. -/
def detachLoop (left right : IntegerType) (threadCount : Nat) (firstIndex indexAfterLast : Int)
    (numBlocks : Nat) : Option (List (Int × Int)) :=
  let type := commonIndexType left right
  if type.wrap indexAfterLast > type.wrap firstIndex then
    (Blocks.new type (type.wrap firstIndex) (type.wrap indexAfterLast)
        (if numBlocks ≠ 0 then numBlocks else threadCount)).bind fun blks =>
      (List.range blks.numBlocks).mapM fun blk =>
        (blks.start type blk).bind fun first =>
          (blks.finish type blk).map fun last => (first, last)
  else some []

open IntegerType

/-- The common type has the values of both types, but for a negative one beside
`std::uint64_t`. -/
theorem commonIndexType_contains {left right : IntegerType} {value : Int}
    (contains : left.Contains value ∨ right.Contains value)
    (natural : commonIndexType left right = sizeT → 0 ≤ value) :
    (commonIndexType left right).Contains value := by
  obtain ⟨leftWidth, leftSigned⟩ := left
  obtain ⟨rightWidth, rightSigned⟩ := right
  cases leftWidth <;> cases rightWidth <;> cases leftSigned <;> cases rightSigned <;>
    simp [commonIndexType, sizeT, Contains, low, size] at *
  all_goals omega

/-- Two natural numbers are added to the first index without leaving the range. -/
theorem evaluate_start {type : IntegerType} {first last : Int} (x y : Nat)
    (lower : type.Contains first) (upper : type.Contains last)
    (within : first + x + y ≤ last) (fits : type.promoted.Contains (last - first)) :
    ((type.evaluate (first + type.wrap (x : Int))).bind fun sum =>
      (type.evaluate (sum + type.wrap (y : Int))).map type.wrap) = some (first + x + y) := by
  have least := lower.1
  have most := upper.2
  have left : type.Contains (first + x) := ⟨by omega, by omega⟩
  have right : type.Contains (first + y) := ⟨by omega, by omega⟩
  have all : type.Contains (first + x + y) := ⟨by omega, by omega⟩
  by_cases wide : type.promoted = type
  · have part : ∀ z : Nat, first + z ≤ last → type.wrap (z : Int) = z := fun z bound => by
      rw [wide] at fits
      exact wrap_of_contains ⟨by have := type.low_nonpos; omega, by have := fits.2; omega⟩
    rw [part x (by omega), part y (by omega), evaluate_of_contains (wide.symm ▸ left),
      Option.bind_some, evaluate_of_contains (wide.symm ▸ all), Option.map_some,
      wrap_of_contains all]
  · obtain ⟨two, three⟩ :=
      promoted_contains wide lower (type.contains_wrap x) (type.contains_wrap y)
    rw [evaluate_of_contains two, Option.bind_some, evaluate_of_contains three, Option.map_some,
      wrap_add_wrap, Int.add_right_comm, wrap_contained (by rwa [Int.add_right_comm]),
      Int.add_right_comm]

namespace Blocks

section Range

variable {type : IntegerType} {first last : Int} {count : Nat}

/-- The blocks that a range of so many indices is divided into. -/
def divided (first last : Int) (count : Nat) : Blocks where
  blockSize := (last - first).toNat / min count (last - first).toNat
  firstIndex := first
  indexAfterLast := last
  numBlocks := min count (last - first).toNat
  remainder := (last - first).toNat % min count (last - first).toNat

/-- The first index of a block. -/
def bound (first last : Int) (count block : Nat) : Int :=
  first + (block * (divided first last count).blockSize : Nat) +
    (min block (divided first last count).remainder : Nat)

/-- An integer of `size_t` stays as it is. -/
theorem sizeT_wrap {value : Int} (natural : 0 ≤ value) (small : value < sizeT.size) :
    sizeT.wrap value = value :=
  wrap_of_contains ⟨natural, by simpa [sizeT, low] using small⟩

/-- The size of a range of a type is less than the number of its values. -/
theorem sub_lt_size (lower : type.Contains first) (upper : type.Contains last) :
    last - first < sizeT.size := by
  have fewer : type.size ≤ sizeT.size := by
    obtain ⟨width, signed⟩ := type
    cases width <;> simp [size, sizeT]
  have := lower.1
  have := upper.2
  omega

/-- The constructor divides a range whose size does not overflow. -/
theorem new_eq (lower : type.Contains first) (upper : type.Contains last) (ordered : first < last)
    (some : count ≠ 0) : new type first last count =
      if type.promoted.Contains (last - first) then .some (divided first last count)
      else none := by
  have positive : 0 < min count (last - first).toNat := by omega
  have small := sub_lt_size lower upper
  rw [new, if_pos ordered]
  cases evaluated : type.evaluate (last - first) with
  | none =>
      rw [if_neg fun contains => by simp [evaluate_of_contains contains] at evaluated]
      rfl
  | some difference =>
      obtain ⟨rfl, contains⟩ := evaluate_sub lower upper (Int.le_of_lt ordered) evaluated
      have size_pos : 0 < (last - first).toNat / min count (last - first).toNat :=
        Nat.div_pos (Nat.min_le_right _ _) positive
      rw [if_pos contains, Option.bind_some, sizeT_wrap (by omega) small]
      dsimp only
      rw [if_neg (Nat.ne_of_gt positive), if_neg (Nat.ne_of_gt size_pos)]
      rfl

variable (first last count) in
theorem bound_total (some : count ≠ 0) (ordered : first < last) :
    bound first last count (divided first last count).numBlocks = last := by
  have positive : 0 < min count (last - first).toNat := by omega
  have remainder := Nat.mod_lt (last - first).toNat positive
  have division := Nat.div_add_mod (last - first).toNat (min count (last - first).toNat)
  simp only [bound, divided, Nat.min_eq_right (Nat.le_of_lt remainder)]
  omega

variable (first last count) in
theorem bound_succ (block : Nat) : bound first last count (block + 1) =
    bound first last count block + (divided first last count).blockSize +
      if block < (divided first last count).remainder then 1 else 0 := by
  simp only [bound, Nat.add_mul, Nat.one_mul]
  split <;> omega

variable (first last count) in
theorem bound_mono {block other : Nat} (ordered : block ≤ other) :
    bound first last count block ≤ bound first last count other := by
  have product := Nat.mul_le_mul_right (divided first last count).blockSize ordered
  simp only [bound]
  omega

/-- `start` computes the bound in front of a block. -/
theorem start_eq (lower : type.Contains first) (upper : type.Contains last)
    (ordered : first < last) (some : count ≠ 0) (fits : type.promoted.Contains (last - first))
    {block : Nat} (within : block ≤ (divided first last count).numBlocks) :
    (divided first last count).start type block = .some (bound first last count block) := by
  have inside := bound_mono first last count within
  rw [bound_total first last count some ordered] at inside
  have small := sub_lt_size lower upper
  have product : sizeT.wrap ((block : Int) * (divided first last count).blockSize) =
      (block * (divided first last count).blockSize : Nat) := by
    rw [← Int.natCast_mul]
    refine sizeT_wrap (Int.natCast_nonneg _) ?_
    simp only [bound] at inside
    omega
  have least (remainder : Nat) : (if block < remainder then block else remainder) =
      min block remainder := by
    split <;> omega
  rw [start, product, least]
  exact evaluate_start _ _ lower upper inside fits

/-- `end` computes the bound behind it. -/
theorem finish_eq (lower : type.Contains first) (upper : type.Contains last)
    (ordered : first < last) (some : count ≠ 0) (fits : type.promoted.Contains (last - first))
    {block : Nat} (within : block < (divided first last count).numBlocks) :
    (divided first last count).finish type block = .some (bound first last count (block + 1)) := by
  unfold finish
  split
  · next final =>
      rw [show block + 1 = (divided first last count).numBlocks by omega,
        bound_total first last count some ordered]
      rfl
  · exact start_eq lower upper ordered some fits within

theorem bound_zero : bound first last count 0 = first := by
  simp [bound]

end Range

end Blocks

open Blocks

/-- The tasks are those of the blocks, unless the size of the range overflows. -/
theorem detachLoop_eq {left right : IntegerType} {threadCount numBlocks : Nat} {first last : Int}
    (lower : (commonIndexType left right).Contains first)
    (upper : (commonIndexType left right).Contains last) (ordered : first < last)
    (some : (if numBlocks ≠ 0 then numBlocks else threadCount) ≠ 0) :
    detachLoop left right threadCount first last numBlocks =
      let count := if numBlocks ≠ 0 then numBlocks else threadCount
      if (commonIndexType left right).promoted.Contains (last - first) then
        .some ((List.range (divided first last count).numBlocks).map fun block =>
          (bound first last count block, bound first last count (block + 1)))
      else none := by
  unfold detachLoop
  dsimp only
  rw [wrap_of_contains lower, wrap_of_contains upper, if_pos ordered,
    new_eq lower upper ordered some]
  split
  · next fits =>
      rw [Option.bind_some]
      refine mapM_eq_some fun block within => ?_
      have within := List.mem_range.mp within
      rw [start_eq lower upper ordered some fits (Nat.le_of_lt within),
        finish_eq lower upper ordered some fits within]
      rfl
  · rfl

/-- **The blocks of a loop:** the tasks run every index of the loop once and in order, in as
many blocks as wanted unless there are fewer indices, none of which is empty or longer by more
than one than another; but the subtraction of the first index overflows if the promoted common
type does not have the size of the range. Where the common type is `uint64_t` no index may be
negative (`natural`). -/
theorem detachLoop_indices {left right : IntegerType} {first last : Int} {threadCount : Nat}
    (lower : left.Contains first) (upper : right.Contains last)
    (natural : commonIndexType left right = sizeT → 0 ≤ first ∧ 0 ≤ last)
    (positive : threadCount ≠ 0) (numBlocks : Nat) :
    (detachLoop left right threadCount first last numBlocks = none ↔
      first < last ∧ ¬(commonIndexType left right).promoted.Contains (last - first)) ∧
    ∀ tasks, detachLoop left right threadCount first last numBlocks = some tasks →
      tasks.flatMap (fun task => interval task.1 task.2) = interval first last ∧
      tasks.length =
        min (if numBlocks ≠ 0 then numBlocks else threadCount) (last - first).toNat ∧
      ∃ size : Nat, 1 ≤ size ∧ ∀ task ∈ tasks,
        size ≤ task.2 - task.1 ∧ task.2 - task.1 ≤ size + 1 := by
  have lower := commonIndexType_contains (.inl lower) fun same => (natural same).1
  have upper := commonIndexType_contains (.inr upper) fun same => (natural same).2
  by_cases ordered : first < last
  · have some : (if numBlocks ≠ 0 then numBlocks else threadCount) ≠ 0 := by
      split <;> assumption
    rw [detachLoop_eq lower upper ordered some]
    generalize (if numBlocks ≠ 0 then numBlocks else threadCount) = count at some
    dsimp only
    split
    · next fits =>
        refine ⟨by simp [fits], ?_⟩
        rintro _ ⟨⟩
        refine ⟨?_, by rw [List.length_map, List.length_range]; rfl,
          (divided first last count).blockSize, Nat.div_pos (Nat.min_le_right _ _) (by omega), ?_⟩
        · rw [List.flatMap_map, flatMap_interval fun block =>
            bound_mono first last count (Nat.le_succ block), bound_zero,
            bound_total first last count some ordered]
        · intro task mem
          obtain ⟨block, -, rfl⟩ := List.mem_map.mp mem
          dsimp only
          rw [bound_succ]
          split <;> omega
    · next overflow => exact ⟨by simp [ordered, overflow], by rintro _ ⟨⟩⟩
  · unfold detachLoop
    dsimp only
    rw [wrap_of_contains lower, wrap_of_contains upper, if_neg ordered]
    refine ⟨by simp [ordered], ?_⟩
    rintro _ ⟨⟩
    have none : (last - first).toNat = 0 := by omega
    exact ⟨by simp [interval, none], by simp [none], 1, Nat.le_refl 1, by simp⟩

/-- A loop over `short` from `-3` to `unsigned char` 250, and one over all of `int`. -/
theorem detachLoop_indices_mixed :
    (∀ tasks, detachLoop ⟨.w16, true⟩ ⟨.w8, false⟩ 4 (-3) 250 0 = some tasks →
      tasks.flatMap (fun task => interval task.1 task.2) = interval (-3) 250 ∧
        tasks.length = 4) ∧
    detachLoop ⟨.w32, true⟩ ⟨.w32, true⟩ 4 (-2147483648) 2147483647 7 = none := by
  refine ⟨fun tasks same => ?_, ?_⟩
  · obtain ⟨indices, length, -⟩ := (@detachLoop_indices ⟨.w16, true⟩ ⟨.w8, false⟩ (-3) 250 4
      (by decide) (by decide) (by decide) (by decide) 0).2 tasks same
    exact ⟨indices, length⟩
  · exact (detachLoop_indices (by decide) (by decide) (by decide) (by decide) 7).1.mpr (by decide)

end FastDb.BS
