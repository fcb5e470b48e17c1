import FastDb.Foundation.ChainTables
import FastDb.Collect.ExpiringMap

/-! # What an expiring map holds

A map represents a list of cells when the chain of every bucket lists, in that order,
exactly the cells whose key hashes to the bucket, the heap has no other node, and the
counter is their number (`Represents`). Every operation succeeds on a map that
represents its cells: `link` puts its entry before all others, `remove` takes the
first entry of its key, a sweep keeps the entries that have not expired, and
`resize`, which pushes the nodes of every chain one by one before the heads of the
new chains, reverses the list (`Represents.resize`).
-/

namespace FastDb.Collect.Expiration

open Foundation

/-- An entry with the address of its node. -/
abbrev Cell (K V : Type) := Ref × Entry K V

variable {K V : Type}

/-- The bucket of a cell in a table of a given size. -/
def Cell.bucket (hasher : K → Nat) (size : Nat) (cell : Cell K V) : Nat :=
  hasher cell.2.key % size

namespace NodeHeap

/-- A node as a link of a chain. -/
def read (heap : NodeHeap K V) (ref : Ref) : Option (Entry K V × Option Ref) :=
  (heap ref).map fun node => (node.toEntry, node.next)

theorem read_eq_some {heap : NodeHeap K V} {ref : Ref} {entry : Entry K V} {next : Option Ref} :
    heap.read ref = some (entry, next) ↔ heap ref = some ⟨entry, next⟩ := by
  unfold read
  cases heap ref with
  | none => simp only [Option.map_none, reduceCtorEq]
  | some node =>
      obtain ⟨nodeEntry, nodeNext⟩ := node
      simp only [Option.map_some, Option.some.injEq, Prod.mk.injEq, Node.mk.injEq]

theorem read_update_self (heap : NodeHeap K V) (ref : Ref) (entry : Entry K V)
    (next : Option Ref) : read (Function.update heap ref (some ⟨entry, next⟩)) ref =
      some (entry, next) := by
  rw [read_eq_some, Function.update_self]

@[simp] theorem read_update_none (heap : NodeHeap K V) (ref : Ref) :
    read (Function.update heap ref none) ref = none := by
  unfold read
  rw [Function.update_self, Option.map_none]

theorem read_update_of_ne {heap : NodeHeap K V} {ref other : Ref} (different : other ≠ ref)
    (node : Option (Node K V)) : read (Function.update heap ref node) other = heap.read other := by
  unfold read
  rw [Function.update_of_ne different]

/-- Assigning `next` redirects one node and no other. -/
theorem setNext_of_read {heap : NodeHeap K V} {ref : Ref} {entry : Entry K V}
    {next : Option Ref} (found : heap.read ref = some (entry, next)) (target : Option Ref) :
    ∃ after, heap.setNext ref target = some after ∧ after.read ref = some (entry, target) ∧
      ∀ other, other ≠ ref → after.read other = heap.read other := by
  rw [read_eq_some] at found
  refine ⟨Function.update heap ref (some ⟨entry, target⟩), ?_, read_update_self heap ref entry _,
    fun other different => read_update_of_ne different _⟩
  unfold setNext
  rw [found, Option.map_some]

end NodeHeap

namespace Link

/-- The cell that links to what follows a node, or to the first node. -/
def ofPrev : Option Ref → Link
  | none => .head
  | some ref => .next ref

/-- Storing a link behind a node bypasses what followed it. -/
theorem store_ofPrev (heap : NodeHeap K V) (bucket : Bucket) (prev next : Option Ref) :
    (ofPrev prev).store heap bucket next = heap.bypass bucket prev next := by
  cases prev <;> rfl

variable {heap : NodeHeap K V} {bucket : Bucket} {visited pending : List (Cell K V)}

/-- Loading behind the visited cells. -/
theorem load_spec {middle : Option Ref} (chain : Segment heap.read bucket.head visited middle) :
    (ofPrev (visited.map Prod.fst).getLast?).load heap bucket = some middle := by
  rcases List.eq_nil_or_concat' visited with rfl | ⟨front, ⟨last, entry⟩, rfl⟩
  · exact congrArg some (Segment.nil_iff.mp chain)
  · rw [List.map_append, List.map_singleton, List.getLast?_concat]
    simp only [ofPrev, load, NodeHeap.read_eq_some.mp chain.read_last, Option.map_some]

/-- **Unlinking.** Storing the successor of a node behind the visited cells takes the
node out of the chain. -/
theorem store_spec {ref : Ref} {entry : Entry K V} {next : Option Ref}
    (chain : Segment heap.read bucket.head (visited ++ (ref, entry) :: pending) none)
    (distinct : ((visited ++ (ref, entry) :: pending).map Prod.fst).Nodup)
    (found : heap.read ref = some (entry, next)) :
    ∃ after unlinked, (ofPrev (visited.map Prod.fst).getLast?).store heap bucket next =
        some (after, unlinked) ∧
      Segment after.read unlinked.head (visited ++ pending) none ∧
      ∀ other, other ∉ visited.map Prod.fst → after.read other = heap.read other := by
  rcases List.eq_nil_or_concat' visited with rfl | ⟨front, ⟨last, lastEntry⟩, rfl⟩
  · obtain ⟨starts, actual, read, onward⟩ := chain
    obtain rfl : actual = next := congrArg Prod.snd (Option.some.inj (read.symm.trans found))
    exact ⟨heap, ⟨actual⟩, rfl, onward, fun _ _ => rfl⟩
  · have lastMember : last ∈ (front ++ [(last, lastEntry)]).map Prod.fst :=
      List.mem_map_of_mem (List.mem_append_right _ (List.mem_singleton_self _))
    rw [List.append_assoc, List.singleton_append] at chain distinct
    obtain ⟨lastNext, lastFound⟩ := chain.read_of_mem (List.mem_append_right front
      List.mem_cons_self)
    obtain ⟨after, assigned, redirected, unchanged⟩ := NodeHeap.setNext_of_read lastFound next
    refine ⟨after, bucket, ?_, ?_, ?_⟩
    · rw [List.map_append, List.map_singleton, List.getLast?_concat]
      simp only [ofPrev, store, assigned, Option.map_some]
    · rw [List.append_assoc, List.singleton_append]
      exact chain.bypass distinct found unchanged redirected
    · intro other outside
      apply unchanged other
      intro same
      exact outside (same ▸ lastMember)

end Link

namespace LockFreeMapExprise

variable (hasher : K → Nat)

/-- The chains of a table of a given size list the cells. -/
abbrev Chained (heap : NodeHeap K V) (table : List Bucket) (cells : List (Cell K V)) : Prop :=
  ChainTable Bucket.head (Cell.bucket hasher table.length) heap.read table cells

/-- **Representation.** A well-formed map and the cells it holds, in the order in
which a search meets those of one key. -/
structure Represents (map : LockFreeMapExprise K V) (cells : List (Cell K V)) : Prop where
  buckets : 0 < map.table.length
  distinct : (cells.map Prod.fst).Nodup
  allocated : ∀ cell ∈ cells, cell.1 < map.fresh
  owned : ∀ ref, ref ∉ cells.map Prod.fst → map.heap.read ref = none
  chained : Chained hasher map.heap map.table cells
  counted : map.numElements = cells.length

variable {hasher} {map : LockFreeMapExprise K V} {cells : List (Cell K V)}

/-- Empty buckets chain nothing. -/
theorem chained_replicate (heap : NodeHeap K V) (size : Nat) :
    Chained hasher heap (List.replicate size Bucket.empty) [] :=
  ChainTable.of_heads_none fun _ member => (List.eq_of_mem_replicate member) ▸ rfl

theorem represents_new {numBuckets : Nat} (nonempty : 0 < numBuckets) :
    Represents (V := V) hasher (new numBuckets) [] where
  buckets := nonempty.trans_eq List.length_replicate.symm
  distinct := List.nodup_nil
  allocated _ member := nomatch member
  owned _ _ := rfl
  chained := chained_replicate _ _
  counted := rfl

/-- The cells of a bucket are no more than the nodes ever allocated. -/
theorem Represents.chain_length (represents : Represents hasher map cells)
    (number : Cell K V → Nat) (index : Nat) :
    (classOf number cells index).length ≤ map.fresh :=
  ChainTable.class_length_le represents.distinct represents.allocated index

/-- The bucket of a cell is in the table. -/
theorem Represents.bucket_lt (represents : Represents hasher map cells) (cell : Cell K V) :
    Cell.bucket hasher map.table.length cell < map.table.length :=
  Nat.mod_lt _ represents.buckets

/-- Locking the mutex of a bucket. -/
theorem lockGuard_of_bucket {index : Nat} {bucket : Bucket}
    (indexed : map.table[index]? = some bucket) : map.lockGuard index = some ⟨map.swaps⟩ := by
  rw [lockGuard, indexed, Option.map_some]

/-- A guard is released when no table was swapped out in its scope, and only then. -/
theorem unlock_of_swaps {swaps : Nat} (same : map.swaps = swaps) :
    map.unlock ⟨swaps⟩ = some map :=
  if_pos same.symm

/-- The mutex of a table that was swapped out is gone. -/
theorem unlock_of_swapped {swaps : Nat} (swapped : swaps < map.swaps) :
    map.unlock ⟨swaps⟩ = none :=
  if_neg swapped.ne

/-- The bucket of a key and the chain that holds its cells. -/
theorem Represents.bucket_of_key (represents : Represents hasher map cells) (key : K) :
    ∃ bucket, map.table[map.getBucketIndex hasher key]? = some bucket ∧
      Segment map.heap.read bucket.head (classOf (Cell.bucket hasher map.table.length) cells
        (map.getBucketIndex hasher key)) none := by
  have inside : map.getBucketIndex hasher key < map.table.length :=
    Nat.mod_lt _ represents.buckets
  exact ⟨_, List.getElem?_eq_getElem inside,
    represents.chained _ _ (List.getElem?_eq_getElem inside)⟩

/-- **Link** succeeds and puts its entry before all others, at a new address. -/
theorem Represents.link (represents : Represents hasher map cells) (now : Time) (key : K)
    (value : V) :
    ∃ after, map.link hasher now key value = some after ∧
      after.table.length = map.table.length ∧ after.swaps = map.swaps ∧
      Represents hasher after ((map.fresh, ⟨key, value, now⟩) :: cells) := by
  obtain ⟨bucket, indexed, chain⟩ := represents.bucket_of_key key
  have isNew := ChainTable.fresh_not_mem represents.allocated
  have distinct : (((map.fresh, (⟨key, value, now⟩ : Entry K V)) :: cells).map Prod.fst).Nodup :=
    List.nodup_cons.mpr ⟨isNew, represents.distinct⟩
  refine ⟨⟨Function.update map.heap map.fresh (some ⟨⟨key, value, now⟩, bucket.head⟩),
    map.fresh + 1, map.table.set (map.getBucketIndex hasher key) ⟨some map.fresh⟩, map.swaps,
    map.numElements + 1⟩, ?_, List.length_set, rfl, ⟨?_, distinct, ?_, ?_, ?_, ?_⟩⟩
  · simp only [LockFreeMapExprise.link, indexed, Option.bind_eq_bind, Option.bind_some]
  · exact List.length_set.symm ▸ represents.buckets
  · intro cell member
    rcases List.mem_cons.mp member with rfl | old
    · exact Nat.lt_succ_self _
    · exact Nat.lt_succ_of_lt (represents.allocated cell old)
  · intro ref outside
    rw [List.map_cons, List.mem_cons, not_or] at outside
    rw [NodeHeap.read_update_of_ne outside.1, represents.owned ref outside.2]
  · unfold Chained
    rw [List.length_set]
    have at_index : map.table[Cell.bucket hasher map.table.length
        ((map.fresh, ⟨key, value, now⟩) : Cell K V)]? = some bucket := indexed
    refine represents.chained.push _ at_index distinct (fun ref member => ?_)
      (NodeHeap.read_update_self _ _ _ _) rfl
    apply NodeHeap.read_update_of_ne
    intro same
    exact isNew (same ▸ member)
  · rw [represents.counted, List.length_cons]
    exact (Int.natCast_succ _).symm

/-- One chain of the old table, its nodes pushed one by one into the new one. -/
theorem relink_spec {fuel : Nat} {current : Option Ref} {heap : NodeHeap K V}
    {newTable : List Bucket} {moved rest : List (Cell K V)} (nonempty : 0 < newTable.length)
    (chain : Segment heap.read current rest none) (enough : rest.length ≤ fuel)
    (chained : Chained hasher heap newTable moved)
    (distinct : ((rest.reverse ++ moved).map Prod.fst).Nodup) :
    ∃ after table, relink hasher fuel current (heap, newTable) = some (after, table) ∧
      table.length = newTable.length ∧ Chained hasher after table (rest.reverse ++ moved) ∧
      ∀ ref, ref ∉ (rest.reverse ++ moved).map Prod.fst → after.read ref = heap.read ref := by
  induction rest generalizing fuel current heap newTable moved with
  | nil =>
      obtain rfl := Segment.nil_iff.mp chain
      refine ⟨heap, newTable, ?_, rfl, chained, fun _ _ => rfl⟩
      cases fuel <;> rfl
  | cons cell rest ih =>
      obtain ⟨ref, entry⟩ := cell
      obtain ⟨rfl, next, found, onward⟩ := chain
      rw [List.reverse_cons, List.append_assoc, List.singleton_append] at distinct ⊢
      rw [List.map_append, List.nodup_append] at distinct
      obtain ⟨restDistinct, movedDistinct, apart⟩ := distinct
      have refOutside : ref ∉ moved.map Prod.fst := (List.nodup_cons.mp movedDistinct).1
      have inside : hasher entry.key % newTable.length < newTable.length := Nat.mod_lt _ nonempty
      have indexed : newTable[Cell.bucket hasher newTable.length (ref, entry)]? =
          some newTable[hasher entry.key % newTable.length] := List.getElem?_eq_getElem inside
      obtain ⟨linked, assigned, redirected, unchanged⟩ := NodeHeap.setNext_of_read found
        newTable[hasher entry.key % newTable.length].head
      have relinked : Chained hasher linked
          (newTable.set (hasher entry.key % newTable.length) ⟨some ref⟩)
          ((ref, entry) :: moved) := by
        unfold Chained
        rw [List.length_set]
        exact chained.push ⟨some ref⟩ indexed movedDistinct (fun other member =>
          unchanged other fun same => refOutside (same ▸ member)) redirected rfl
      have onwardLinked : Segment linked.read next rest none :=
        onward.congr fun other member => unchanged other fun same => by
          refine apart other ?_ ref List.mem_cons_self same
          rw [List.map_reverse, List.mem_reverse]
          exact member
      cases fuel with
      | zero => exact absurd enough (Nat.not_succ_le_zero _)
      | succ fuel =>
          obtain ⟨after, table, finished, sized, complete, frame⟩ := ih (by rwa [List.length_set])
            onwardLinked (Nat.le_of_succ_le_succ enough) relinked
            (List.map_append ▸ List.nodup_append.mpr ⟨restDistinct, movedDistinct, apart⟩)
          refine ⟨after, table, ?_, by rw [sized, List.length_set], complete, ?_⟩
          · have bucketFound : newTable[hasher entry.key % newTable.length]? =
                some newTable[hasher entry.key % newTable.length] := indexed
            simp only [relink, NodeHeap.read_eq_some.mp found, bucketFound, assigned,
              Option.bind_eq_bind, Option.bind_some]
            exact finished
          · intro other outside
            rw [frame other outside, unchanged other]
            rintro rfl
            exact outside (List.mem_map_of_mem (List.mem_append_right _ List.mem_cons_self))

/-- **Resize.** Doubling the table reverses the order in which the map holds its
cells. -/
theorem Represents.resize (represents : Represents hasher map cells) :
    ∃ grown, map.resize hasher = some grown ∧ grown.table.length = map.table.length * 2 ∧
      grown.swaps = map.swaps + 1 ∧ Represents hasher grown cells.reverse := by
  obtain ⟨buckets, distinct, allocated, owned, chained, counted⟩ := represents
  let number := Cell.bucket (V := V) hasher map.table.length
  let moved := fun size => ((List.range size).flatMap (classOf number cells)).reverse
  have extended : ∀ index,
      moved (index + 1) = (classOf number cells index).reverse ++ moved index := by
    intro index
    simp only [moved, List.range_succ, List.flatMap_append, List.flatMap_singleton,
      List.reverse_append]
  obtain ⟨⟨heap, table⟩, finished, sized, complete, frame⟩ := foldlM_invariant
    (fun state bucket => relink hasher map.fresh bucket.head state) map.table
    (map.heap, List.replicate (map.table.length * 2) Bucket.empty)
    (fun index state => state.2.length = map.table.length * 2 ∧
      Chained hasher state.1 state.2 (moved index) ∧
      ∀ ref, ref ∉ (moved index).map Prod.fst → state.1.read ref = map.heap.read ref)
    ⟨List.length_replicate, chained_replicate _ _, fun _ _ => rfl⟩ (by
      rintro index bucket ⟨heap, table⟩ found ⟨sized, done, frame⟩
      have movedDistinct : ((moved (index + 1)).map Prod.fst).Nodup := by
        rw [List.map_reverse, List.nodup_reverse]
        exact nodup_map_flatMap_classOf distinct (index + 1)
      rw [extended] at movedDistinct
      have pending : Segment heap.read bucket.head (classOf number cells index) none :=
        (chained index bucket found).congr fun ref member => frame ref fun earlier => by
          rw [List.map_append, List.map_reverse] at movedDistinct
          exact (List.nodup_append.mp movedDistinct).2.2 ref (List.mem_reverse.mpr member) ref
            earlier rfl
      obtain ⟨after, relinked, ran, sameSize, grown, unchanged⟩ := relink_spec
        (by rw [sized]; omega) pending
        (Represents.chain_length ⟨buckets, distinct, allocated, owned, chained, counted⟩ number
          index) done movedDistinct
      refine ⟨(after, relinked), ran, sameSize.trans sized, extended index ▸ grown, ?_⟩
      intro ref outside
      rw [extended, List.map_append, List.mem_append, not_or] at outside
      rw [unchanged ref (by rw [List.map_append, List.mem_append, not_or]; exact outside)]
      exact frame ref outside.2)
  have finalSize : table.length = map.table.length * 2 := sized
  refine ⟨{ map with heap, table, swaps := map.swaps + 1 }, ?_, finalSize, rfl, ?_, ?_, ?_, ?_, ?_,
    ?_⟩
  · rw [LockFreeMapExprise.resize, finished]
    rfl
  · exact finalSize ▸ (by omega)
  · rwa [List.map_reverse, List.nodup_reverse]
  · exact fun cell member => allocated cell (List.mem_reverse.mp member)
  · intro ref outside
    rw [List.map_reverse, List.mem_reverse] at outside
    refine (frame ref fun member => outside ?_).trans (owned ref outside)
    rw [List.map_reverse, List.mem_reverse] at member
    obtain ⟨cell, regrouped, rfl⟩ := List.mem_map.mp member
    obtain ⟨_, _, inClass⟩ := List.mem_flatMap.mp regrouped
    exact List.mem_map_of_mem (mem_classOf.mp inClass).1
  · refine ChainTable.congr_classes complete fun index inside => ?_
    -- a bucket of the doubled table draws from one bucket of the old one
    have sameClass : classOf (Cell.bucket hasher table.length)
        ((List.range map.table.length).flatMap (classOf number cells)) index =
          classOf (Cell.bucket hasher table.length) cells index := by
      refine classOf_flatMap_classOf _ cells index (Nat.mod_lt index buckets)
        fun cell _ carries => ?_
      rw [← carries, Cell.bucket, finalSize, Nat.mod_mul_right_mod]
      rfl
    rw [classOf, List.filter_reverse, ← classOf, ← sameClass, classOf, ← List.filter_reverse]
    rfl
  · rw [List.length_reverse]
    exact counted

section Keys

variable [DecidableEq K]

/-- Whether a cell has a key. -/
def Cell.hasKey (key : K) (cell : Cell K V) : Bool := cell.2.key = key

/-- The bucket of a key is that of the cells that have it. -/
theorem bucket_of_hasKey {key : K} (cell : Cell K V) (found : Cell.hasKey key cell = true) :
    Cell.bucket hasher map.table.length cell = map.getBucketIndex hasher key := by
  unfold Cell.bucket getBucketIndex
  rw [of_decide_eq_true found]

/-- The walk of `find` gives the first entry of the key. -/
theorem findFrom_spec {heap : NodeHeap K V} {key : K} {fuel : Nat} {current : Option Ref}
    (chain : Segment heap.read current cells none) (enough : cells.length ≤ fuel) :
    findFrom heap key fuel current =
      some ((cells.find? (Cell.hasKey key)).map fun cell => cell.2.value) := by
  refine chain.walk_find (fun fuel => by cases fuel <;> rfl) ?_ enough
  intro fuel ref entry next found
  simp only [findFrom, NodeHeap.read_eq_some.mp found, Option.bind_eq_bind, Option.bind_some,
    Cell.hasKey, decide_eq_true_eq]

/-- **Find** succeeds and reads the first entry of its key. -/
theorem Represents.find (represents : Represents hasher map cells) (key : K) :
    map.find hasher key =
      some ((cells.find? (Cell.hasKey key)).map fun cell => cell.2.value) := by
  obtain ⟨bucket, indexed, chain⟩ := represents.bucket_of_key key
  simp only [LockFreeMapExprise.find, indexed, lockGuard_of_bucket indexed, Option.bind_eq_bind,
    Option.bind_some, findFrom_spec chain (represents.chain_length _ _), unlock_of_swaps rfl,
    Option.map_some, find?_classOf bucket_of_hasKey]

/-- Deleting the first node of a key from its chain. -/
theorem Represents.unlink (represents : Represents hasher map cells) {bucket : Bucket}
    {visited pending : List (Cell K V)} {ref : Ref} {entry : Entry K V} {next : Option Ref}
    (indexed : map.table[map.getBucketIndex hasher entry.key]? = some bucket)
    (split : classOf (Cell.bucket hasher map.table.length) cells
      (map.getBucketIndex hasher entry.key) = visited ++ (ref, entry) :: pending)
    (missed : ∀ cell ∈ visited, Cell.hasKey entry.key cell = false)
    (found : map.heap.read ref = some (entry, next)) :
    ∃ heap linked,
      map.heap.bypass bucket (visited.map Prod.fst).getLast? next = some (heap, linked) ∧
      Represents hasher { map with
        heap := Function.update heap ref none
        table := map.table.set (map.getBucketIndex hasher entry.key) linked
        numElements := map.numElements - 1 } (cells.eraseP (Cell.hasKey entry.key)) := by
  have chain := represents.chained _ bucket indexed
  have classDistinct : ((classOf (Cell.bucket hasher map.table.length) cells
      (map.getBucketIndex hasher entry.key)).map Prod.fst).Nodup :=
    represents.distinct.sublist (List.filter_sublist.map Prod.fst)
  have inClass : (ref, entry) ∈ visited ++ (ref, entry) :: pending :=
    List.mem_append_right _ List.mem_cons_self
  have present : (ref, entry) ∈ cells := (mem_classOf.mp (split ▸ inClass)).1
  have hasKey : Cell.hasKey entry.key (ref, entry) = true := decide_eq_true rfl
  have notVisited : ∀ cell ∈ visited, ¬Cell.hasKey entry.key cell = true := fun cell member =>
    Bool.eq_false_iff.mp (missed cell member)
  have remaining : classOf (Cell.bucket hasher map.table.length)
      (cells.eraseP (Cell.hasKey entry.key)) (map.getBucketIndex hasher entry.key) =
        visited ++ pending := by
    rw [classOf, filter_eraseP_of_imp (fun cell isKey =>
      decide_eq_true (bucket_of_hasKey cell isKey)), ← classOf, split,
      List.eraseP_append_right _ notVisited, List.eraseP_cons_of_pos hasKey]
  have first : cells.find? (Cell.hasKey entry.key) = some (ref, entry) := by
    have searched : (classOf (Cell.bucket hasher map.table.length) cells
        (map.getBucketIndex hasher entry.key)).find? (Cell.hasKey entry.key) =
          cells.find? (Cell.hasKey entry.key) := find?_classOf bucket_of_hasKey cells
    rw [split, List.find?_append, List.find?_eq_none.mpr notVisited, Option.none_or,
      List.find?_cons_of_pos hasKey] at searched
    exact searched.symm
  rw [split] at chain classDistinct
  obtain ⟨heap, linked, stored, joined, frame⟩ := Link.store_spec chain classDistinct found
  have refOutside : ref ∉ (visited ++ pending).map Prod.fst := by
    rw [List.map_append, List.map_cons, List.nodup_middle, ← List.map_append] at classDistinct
    exact (List.nodup_cons.mp classDistinct).1
  have visitedOutside : ∀ other, other ∉ (visited ++ (ref, entry) :: pending).map Prod.fst →
      NodeHeap.read (Function.update heap ref none) other = map.heap.read other := by
    intro other outside
    rw [List.map_append, List.map_cons, List.mem_append, List.mem_cons, not_or, not_or] at outside
    rw [NodeHeap.read_update_of_ne outside.2.1, frame other outside.1]
  refine ⟨heap, linked, Link.store_ofPrev .. ▸ stored, ⟨?_, ?_, ?_, ?_, ?_, ?_⟩⟩
  · exact List.length_set.symm ▸ represents.buckets
  · exact represents.distinct.sublist (List.eraseP_sublist.map _)
  · exact fun cell member => represents.allocated cell (List.eraseP_subset member)
  · intro other outside
    by_cases same : other = ref
    · rw [same, NodeHeap.read_update_none]
    · -- the erased cell is the deleted node, so the others stay cells
      have elsewhere : other ∉ cells.map Prod.fst := by
        intro member
        obtain ⟨cell, kept, rfl⟩ := List.mem_map.mp member
        refine outside (List.mem_map_of_mem (mem_eraseP_of_find?_ne kept ?_))
        rw [first]
        rintro ⟨⟩
        exact same rfl
      rw [visitedOutside other fun member => elsewhere (ChainTable.ref_mem (split ▸ member)),
        represents.owned other elsewhere]
  · unfold Chained
    rw [List.length_set]
    refine represents.chained.rebuild represents.distinct (fun other different => ?_)
      (fun other _ outside => visitedOutside other (split ▸ outside)) ?_
    · refine filter_eraseP_of_not (fun cell isKey => ?_) cells
      rw [bucket_of_hasKey cell isKey, decide_eq_true_eq]
      exact Ne.symm different
    · rw [remaining]
      refine joined.congr fun other member => NodeHeap.read_update_of_ne ?_ _
      intro same
      exact refOutside (same ▸ member)
  · have shorter := List.length_eraseP_of_mem present hasKey
    have positive : 0 < cells.length := List.length_pos_of_mem present
    simp only [represents.counted]
    omega

/-- The loop of `remove`, over the chain of the bucket. -/
theorem removeFrom_spec (represents : Represents hasher map cells) {key : K} {bucket : Bucket}
    (indexed : map.table[map.getBucketIndex hasher key]? = some bucket) :
    ∃ after, map.removeFrom (map.getBucketIndex hasher key) bucket key map.fresh none bucket.head =
        some (cells.any (Cell.hasKey key), after) ∧
      after.table.length = map.table.length ∧ after.swaps = map.swaps ∧
      Represents hasher after (cells.eraseP (Cell.hasKey key)) := by
  refine ChainTable.walk_remove (Cell.hasKey key)
    (fun after => after.table.length = map.table.length ∧ after.swaps = map.swaps ∧
      Represents hasher after (cells.eraseP (Cell.hasKey key)))
    (map.removeFrom (map.getBucketIndex hasher key) bucket key)
    (represents.chained _ _ indexed) (represents.chain_length _ _) bucket_of_hasKey
    ?passes ?ends ?meets
  case passes =>
    intro fuel prev ref entry next found other
    have different : entry.key ≠ key := fun same => other (decide_eq_true same)
    simp only [removeFrom, NodeHeap.read_eq_some.mp found, Option.bind_eq_bind, Option.bind_some,
      if_neg different]
  case ends =>
    intro absent
    refine ⟨map, ⟨rfl, rfl, ?_⟩, fun fuel _ => by cases fuel <;> rfl⟩
    rwa [List.eraseP_of_forall_not absent]
  case meets =>
    intro front ref entry next back split missed here found
    obtain rfl : entry.key = key := of_decide_eq_true here
    obtain ⟨heap, linked, bypassed, removed⟩ := represents.unlink indexed split
      (fun cell member => Bool.eq_false_iff.mpr (missed cell member)) found
    refine ⟨{ map with
      heap := Function.update heap ref none
      table := map.table.set (map.getBucketIndex hasher entry.key) linked
      numElements := map.numElements - 1 }, ⟨List.length_set, rfl, removed⟩, fun fuel => ?_⟩
    simp only [removeFrom, NodeHeap.read_eq_some.mp found, Option.bind_eq_bind, Option.bind_some,
      bypassed, if_true]

/-- **Remove** succeeds, deletes the first entry of its key, and reports whether
there was one. -/
theorem Represents.remove (represents : Represents hasher map cells) (key : K) :
    ∃ after, map.remove hasher key = some (cells.any (Cell.hasKey key), after) ∧
      after.table.length = map.table.length ∧
      Represents hasher after (cells.eraseP (Cell.hasKey key)) := by
  obtain ⟨bucket, indexed, -⟩ := represents.bucket_of_key key
  obtain ⟨after, removed, sized, unswapped, kept⟩ := removeFrom_spec represents indexed
  refine ⟨after, ?_, sized, kept⟩
  simp only [LockFreeMapExprise.remove, indexed, lockGuard_of_bucket indexed, Option.bind_eq_bind,
    Option.bind_some, removed, unlock_of_swaps unswapped, Option.map_some]

end Keys

/-- Deleting a chain frees its nodes and nothing else. -/
theorem deleteFrom_spec {fuel : Nat} {current : Option Ref} {heap : NodeHeap K V}
    (chain : Segment heap.read current cells none) (distinct : (cells.map Prod.fst).Nodup)
    (enough : cells.length ≤ fuel) :
    ∃ after, deleteFrom fuel current heap = some after ∧
      (∀ ref ∈ cells.map Prod.fst, after.read ref = none) ∧
      ∀ ref, ref ∉ cells.map Prod.fst → after.read ref = heap.read ref := by
  refine Segment.walk_delete NodeHeap.read (fun heap ref => Function.update heap ref none)
    deleteFrom (fun fuel heap => by cases fuel <;> rfl) ?_ NodeHeap.read_update_none
    (fun heap ref other different => NodeHeap.read_update_of_ne different none) chain distinct
    enough
  intro fuel ref entry next heap found
  simp only [deleteFrom, NodeHeap.read_eq_some.mp found, Option.bind_eq_bind, Option.bind_some]

/-- **Clear** succeeds and leaves no cells. -/
theorem Represents.clear (represents : Represents hasher map cells) :
    ∃ after, map.clear = some after ∧ after.table.length = map.table.length ∧
      Represents hasher after [] := by
  obtain ⟨heap, finished, gone, frame⟩ := ChainTable.delete_all
    (fun heap bucket => deleteFrom map.fresh bucket.head heap) represents.chained
    represents.distinct (fun cell _ => represents.bucket_lt cell)
    (fun heap bucket index chain distinct =>
      deleteFrom_spec chain distinct (represents.chain_length _ index))
  refine ⟨{ map with heap, table := map.table.map fun _ => Bucket.empty, numElements := 0 }, ?_,
    List.length_map .., ?_, List.nodup_nil, (fun _ member => nomatch member), ?_, ?_, rfl⟩
  · rw [LockFreeMapExprise.clear, finished]
    rfl
  · exact lt_of_lt_of_eq represents.buckets (List.length_map ..).symm
  · intro ref _
    by_cases member : ref ∈ cells.map Prod.fst
    · exact gone ref member
    · exact (frame ref member).trans (represents.owned ref member)
  · rw [List.map_const']
    exact chained_replicate heap _

/-- Visiting a chain gives its entries in order. -/
theorem visitFrom_spec {fuel : Nat} {current : Option Ref} {heap : NodeHeap K V}
    (chain : Segment heap.read current cells none) (enough : cells.length ≤ fuel) :
    visitFrom heap fuel current = some (cells.map fun cell => (cell.2.key, cell.2.value)) := by
  refine chain.walk enough (fun fuel => by cases fuel <;> rfl) ?_
  intro fuel ref entry next cells found behind
  simp only [visitFrom, NodeHeap.read_eq_some.mp found, Option.bind_eq_bind, Option.bind_some,
    behind, List.map_cons]

/-- **Traverse** succeeds and visits every entry as often as it is held. -/
theorem Represents.traverse (represents : Represents hasher map cells) :
    ∃ visited, map.traverse = some visited ∧
      visited.Perm (cells.map fun cell => (cell.2.key, cell.2.value)) :=
  foldlM_classOf (fun cell _ => represents.bucket_lt cell)
    fun index bucket found => visitFrom_spec (represents.chained index bucket found)
      (represents.chain_length _ index)

/-- Whether a sweep deletes a cell. -/
def Cell.expired (now : Time) (cell : Cell K V) : Bool :=
  expirationCheckInterval < now - cell.2.timestamp

/-- **The sweep of one chain**, behind the cells it has passed. -/
theorem sweepFrom_spec {now : Time} {fuel : Nat} {heap : NodeHeap K V} {bucket : Bucket}
    {numElements : Int} {visited pending : List (Cell K V)}
    (chain : Segment heap.read bucket.head (visited ++ pending) none)
    (distinct : ((visited ++ pending).map Prod.fst).Nodup) (enough : pending.length < fuel) :
    ∃ after swept, sweepFrom now fuel (Link.ofPrev (visited.map Prod.fst).getLast?)
        (heap, bucket, numElements) =
          some (after, swept, numElements - pending.countP (Cell.expired now)) ∧
      Segment after.read swept.head
        (visited ++ pending.filter fun cell => !Cell.expired now cell) none ∧
      (∀ ref ∈ (pending.filter (Cell.expired now)).map Prod.fst, after.read ref = none) ∧
      ∀ ref, ref ∉ (visited ++ pending).map Prod.fst → after.read ref = heap.read ref := by
  induction pending generalizing visited fuel heap bucket numElements with
  | nil =>
      cases fuel with
      | zero => exact absurd enough (Nat.not_lt_zero _)
      | succ fuel =>
          rw [List.append_nil] at chain
          refine ⟨heap, bucket, ?_, by rwa [List.filter_nil, List.append_nil],
            fun _ member => absurd member List.not_mem_nil, fun _ _ => rfl⟩
          simp only [sweepFrom, Link.load_spec chain, Option.bind_eq_bind, Option.bind_some,
            List.countP_nil, Int.natCast_zero, Int.sub_zero]
  | cons cell pending ih =>
      obtain ⟨ref, entry⟩ := cell
      cases fuel with
      | zero => exact absurd enough (Nat.not_lt_zero _)
      | succ fuel =>
          obtain ⟨middle, before, rfl, next, found, onward⟩ := Segment.append_iff.mp chain
          simp only [sweepFrom, Link.load_spec before, NodeHeap.read_eq_some.mp found,
            Option.bind_eq_bind, Option.bind_some]
          by_cases old : expirationCheckInterval < now - entry.timestamp
          · have expired : Cell.expired now (ref, entry) = true := decide_eq_true old
            obtain ⟨stored, unlinked, assigned, joined, frame⟩ :=
              Link.store_spec chain distinct found
            rw [List.map_append, List.map_cons, List.nodup_middle, ← List.map_append,
              List.nodup_cons] at distinct
            obtain ⟨refOutside, restDistinct⟩ := distinct
            have deleted : Segment (NodeHeap.read (Function.update stored ref none)) unlinked.head
                (visited ++ pending) none :=
              joined.congr fun other member => NodeHeap.read_update_of_ne (by
                rintro rfl
                exact refOutside member) _
            obtain ⟨after, swept, ran, chained, gone, unchanged⟩ :=
              @ih fuel _ _ (numElements - 1) _ deleted restDistinct (Nat.lt_of_succ_lt_succ enough)
            rw [if_pos old, assigned]
            refine ⟨after, swept, ?_, ?_, ?_, ?_⟩
            · simp only [Option.bind_some, ran, List.countP_cons_of_pos expired, Int.natCast_succ]
              congr 3
              omega
            · rwa [List.filter_cons_of_neg (by rw [expired]; decide)]
            · intro other member
              rw [List.filter_cons_of_pos expired, List.map_cons, List.mem_cons] at member
              rcases member with rfl | later
              · rw [unchanged _ refOutside, NodeHeap.read_update_none]
              · exact gone other later
            · intro other outside
              rw [List.map_append, List.map_cons, List.mem_append, List.mem_cons, not_or,
                not_or] at outside
              rw [unchanged other (by
                rw [List.map_append, List.mem_append, not_or]
                exact ⟨outside.1, outside.2.2⟩), NodeHeap.read_update_of_ne outside.2.1,
                frame other outside.1]
          · have kept : ¬ Cell.expired now (ref, entry) = true := by
              rw [Cell.expired, decide_eq_true_eq]
              exact old
            rw [List.append_cons] at chain distinct ⊢
            have advanced := @ih fuel _ _ numElements _ chain distinct
              (Nat.lt_of_succ_lt_succ enough)
            rw [List.map_append, List.map_singleton, List.getLast?_concat] at advanced
            rw [if_neg old, List.countP_cons_of_neg kept, List.filter_cons_of_neg kept,
              List.filter_cons_of_pos (by simpa using kept), List.append_cons]
            exact advanced

/-- Sweeping one bucket deletes the expired cells of its class. -/
theorem Represents.sweepBucket (represents : Represents hasher map cells) (now : Time)
    {index : Nat} {bucket : Bucket} (indexed : map.table[index]? = some bucket) :
    ∃ after, map.sweepBucket now index = some after ∧
      after.table.length = map.table.length ∧
      Represents hasher after
        (cells.filter fun cell => !(decide (Cell.bucket hasher map.table.length cell = index) &&
          Cell.expired now cell)) := by
  let number := Cell.bucket (V := V) hasher map.table.length
  have classDistinct : ((classOf number cells index).map Prod.fst).Nodup :=
    represents.distinct.sublist (List.filter_sublist.map Prod.fst)
  obtain ⟨heap, swept, ran, chain, gone, frame⟩ := @sweepFrom_spec _ _ now (map.fresh + 1) map.heap
    bucket map.numElements [] (classOf number cells index) (represents.chained index bucket indexed)
    classDistinct (Nat.lt_succ_of_le (represents.chain_length number index))
  have fromHead : sweepFrom now (map.fresh + 1) .head (map.heap, bucket, map.numElements) =
      some (heap, swept, map.numElements -
        (classOf number cells index).countP (Cell.expired now)) := ran
  refine ⟨⟨heap, map.fresh, map.table.set index swept, map.swaps, map.numElements -
    (classOf number cells index).countP (Cell.expired now)⟩, ?_, List.length_set,
    ⟨?_, ?_, ?_, ?_, ?_, ?_⟩⟩
  · simp only [LockFreeMapExprise.sweepBucket, indexed, lockGuard_of_bucket indexed, fromHead,
      Option.bind_eq_bind, Option.bind_some]
    exact unlock_of_swaps rfl
  · exact List.length_set.symm ▸ represents.buckets
  · exact represents.distinct.sublist (List.filter_sublist.map Prod.fst)
  · exact fun cell member => represents.allocated cell (List.mem_filter.mp member).1
  · intro ref outside
    by_cases member : ref ∈ cells.map Prod.fst
    · obtain ⟨cell, present, rfl⟩ := List.mem_map.mp member
      apply gone
      have deleted : ¬ (!(decide (number cell = index) && Cell.expired now cell)) = true :=
        fun kept => outside (List.mem_map_of_mem (List.mem_filter.mpr ⟨present, kept⟩))
      simp only [Bool.not_eq_true', Bool.not_eq_false, Bool.and_eq_true, decide_eq_true_eq]
        at deleted
      exact List.mem_map_of_mem (List.mem_filter.mpr
        ⟨mem_classOf.mpr ⟨present, deleted.1⟩, deleted.2⟩)
    · rw [frame ref fun inClass => member (ChainTable.ref_mem inClass), represents.owned ref member]
  · unfold Chained
    rw [List.length_set]
    refine represents.chained.rebuild represents.distinct (fun other different => ?_)
      (fun other _ outside => frame other outside) ?_
    · rw [classOf_filter, List.filter_eq_self]
      intro cell inClass
      have elsewhere : number cell ≠ index := fun same =>
        different ((mem_classOf.mp inClass).2.symm.trans same)
      rw [decide_eq_false elsewhere, Bool.false_and]
      rfl
    · rw [classOf_filter]
      have sameChain : (classOf number cells index).filter (fun cell =>
          !(decide (number cell = index) && Cell.expired now cell)) =
            (classOf number cells index).filter fun cell => !Cell.expired now cell := by
        apply List.filter_congr
        intro cell inClass
        rw [decide_eq_true (mem_classOf.mp inClass).2, Bool.true_and]
      rw [sameChain]
      exact chain
  · have split := List.length_eq_countP_add_countP (l := cells)
      (fun cell => decide (number cell = index) && Cell.expired now cell)
    have inClass : (classOf number cells index).countP (Cell.expired now) =
        cells.countP fun cell => decide (number cell = index) && Cell.expired now cell := by
      rw [classOf, List.countP_filter]
      congr 1
      funext cell
      exact Bool.and_comm _ _
    have kept : (cells.filter fun cell =>
        !(decide (number cell = index) && Cell.expired now cell)).length =
          cells.countP fun cell => ¬ (decide (number cell = index) && Cell.expired now cell) := by
      rw [List.countP_eq_length_filter]
      congr 1
      apply List.filter_congr
      intro cell _
      simp only [decide_not, Bool.decide_eq_true]
    change map.numElements - ((classOf number cells index).countP (Cell.expired now) : Int) =
      ((cells.filter fun cell => !(decide (number cell = index) && Cell.expired now cell)).length :
        Int)
    rw [inClass, represents.counted, kept]
    omega

/-- **Sweep** succeeds and keeps the cells that have not expired, in their order. -/
theorem Represents.sweep (represents : Represents hasher map cells) (now : Time) :
    ∃ after, map.sweep now = some after ∧ after.table.length = map.table.length ∧
      Represents hasher after (cells.filter fun cell => !Cell.expired now cell) := by
  let number := Cell.bucket (V := V) hasher map.table.length
  let survivors := fun index => cells.filter fun cell =>
    !(decide (number cell < index) && Cell.expired now cell)
  obtain ⟨after, finished, sized, kept⟩ := foldlM_invariant
    (fun map index => LockFreeMapExprise.sweepBucket map now index)
    (List.range map.table.length) map
    (fun index state => state.table.length = map.table.length ∧
      Represents hasher state (survivors index))
    ⟨rfl, by
      have all : survivors 0 = cells := List.filter_eq_self.mpr fun cell _ => by
        simp only [Nat.not_lt_zero, decide_false, Bool.false_and, Bool.not_false]
      rwa [all]⟩
    (by
      rintro index item state found ⟨sized, represents⟩
      obtain ⟨inside, rfl⟩ := List.getElem?_eq_some_iff.mp found
      rw [List.length_range] at inside
      rw [List.getElem_range]
      have indexed := List.getElem?_eq_getElem (sized.symm ▸ inside)
      obtain ⟨after, ran, sameSize, kept⟩ := represents.sweepBucket now indexed
      refine ⟨after, ran, sameSize.trans sized, ?_⟩
      have extended : survivors (index + 1) = (survivors index).filter fun cell =>
          !(decide (number cell = index) && Cell.expired now cell) := by
        rw [List.filter_filter]
        apply List.filter_congr
        intro cell _
        cases Cell.expired now cell with
        | false => simp only [Bool.and_false, Bool.not_false, Bool.and_true]
        | true =>
            simp only [Bool.and_true, ← Bool.not_or, Nat.lt_succ_iff_lt_or_eq, Bool.decide_or,
              Bool.or_comm]
      rw [extended]
      rwa [sized] at kept)
  have all : survivors map.table.length = cells.filter fun cell => !Cell.expired now cell := by
    apply List.filter_congr
    intro cell _
    have inside : number cell < map.table.length := Nat.mod_lt _ represents.buckets
    rw [decide_eq_true inside, Bool.true_and]
  rw [List.length_range, all] at kept
  exact ⟨after, finished, sized, kept⟩

end LockFreeMapExprise

end FastDb.Collect.Expiration
