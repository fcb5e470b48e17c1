import FastDb.Collect.Represents

/-! # The pointers of the bucketed map

What holds of the nodes and the pointers of a table between two operations, whatever
was inserted, removed, cleared or resized before
(`FastDb.Collect.LockFreeMap.writes_wellLinked`): every chain ends, no node is in two
places, the tails point at the last nodes, every node is in the bucket of its key, and
the counter is the number of nodes and stays within the load the table grows at. The
table is read off its cells: the chain of a bucket is the class of cells that the
bucket holds (`FastDb.Collect.LockFreeMap.Sparse.wellLinked`).
-/

namespace FastDb.Collect

open Foundation

/-- The operations that write pointers. -/
inductive MapWrite (K V : Type) where
  | insert (key : K) (value : V)
  | remove (key : K)
  | clear
  | resize

variable {K V : Type}

namespace LockFreeMap

variable (hasher : K → Nat)

/-- A bucket whose chain, from the head through `next`, visits the cells. -/
structure BucketLinked (map : LockFreeMap K V) (index : Nat) (bucket : Bucket)
    (cells : List (Cell K V)) : Prop where
  ends : Segment map.heap.read bucket.head cells none
  acyclic : (cells.map Prod.fst).Nodup
  tail : bucket.tail = (cells.map Prod.fst).getLast?
  bothNull : bucket.head = none ↔ bucket.tail = none
  tailNext : ∀ ref ∈ bucket.tail, ∃ node, map.heap ref = some node ∧ node.next = none
  placed : ∀ cell ∈ cells, map.getBucketIndex hasher cell.2.1 = index

/-- **The pointer invariant** of a table, with the cells each bucket links. -/
structure WellLinked (map : LockFreeMap K V) (chains : Nat → List (Cell K V)) : Prop where
  linked : ∀ index bucket, map.table[index]? = some bucket →
    BucketLinked hasher map index bucket (chains index)
  apart : ∀ index other, index ≠ other →
    List.Disjoint ((chains index).map Prod.fst) ((chains other).map Prod.fst)
  counted : map.numElements = ((List.range map.table.length).flatMap chains).length
  loaded : map.numElements ≤ 4 * map.table.length

/-- A map that represents its cells, with no more of them than it grows at. -/
structure Sparse (map : LockFreeMap K V) (cells : List (Cell K V)) : Prop where
  represents : Represents hasher map cells
  loaded : cells.length ≤ growThreshold * map.table.length

section Keys

variable [DecidableEq K]

/-- One operation. -/
def write (map : LockFreeMap K V) : MapWrite K V → Option (LockFreeMap K V)
  | .insert key value => map.insert hasher key value
  | .remove key => (map.remove hasher key).map Prod.snd
  | .clear => map.clear
  | .resize => map.resize hasher

/-- One operation after another. -/
def writes (map : LockFreeMap K V) (operations : List (MapWrite K V)) :
    Option (LockFreeMap K V) :=
  operations.foldlM (write hasher) map

end Keys

variable {hasher} {map after : LockFreeMap K V} {cells : List (Cell K V)}

/-! ## The size of the table -/

theorem append_length {index : Nat} {key : K} {value : V}
    (appended : map.append index key value = some after) :
    after.table.length = map.table.length := by
  simp only [append, Option.bind_eq_bind, Option.bind_eq_some_iff] at appended
  obtain ⟨bucket, -, ⟨heap, linked⟩, -, same⟩ := appended
  obtain rfl := Option.some.inj same
  exact List.length_set

section Keys

variable [DecidableEq K]

theorem removeFrom_length {index fuel : Nat} {bucket : Bucket} {key : K}
    {prev current : Option Ref} {existed : Bool}
    (removed : map.removeFrom index bucket key fuel prev current = some (existed, after)) :
    after.table.length = map.table.length := by
  induction fuel generalizing prev current with
  | zero =>
      cases current with
      | none =>
          obtain ⟨-, rfl⟩ := Prod.mk.inj (Option.some.inj removed)
          rfl
      | some ref => cases removed
  | succ fuel ih =>
      cases current with
      | none =>
          obtain ⟨-, rfl⟩ := Prod.mk.inj (Option.some.inj removed)
          rfl
      | some ref =>
          simp only [removeFrom, Option.bind_eq_bind, Option.bind_eq_some_iff] at removed
          obtain ⟨node, -, removed⟩ := removed
          split at removed
          · obtain ⟨⟨heap, linked⟩, -, same⟩ := Option.bind_eq_some_iff.mp removed
            obtain ⟨-, rfl⟩ := Prod.mk.inj (Option.some.inj same)
            exact List.length_set
          · exact ih removed

theorem remove_length {key : K} {existed : Bool}
    (removed : map.remove hasher key = some (existed, after)) :
    after.table.length = map.table.length := by
  simp only [remove, Option.bind_eq_bind, Option.bind_eq_some_iff] at removed
  obtain ⟨bucket, -, removed⟩ := removed
  exact removeFrom_length removed

end Keys

/-! ## Sparse maps -/

namespace Sparse

theorem new {numBuckets : Nat} (nonempty : 0 < numBuckets) :
    Sparse (V := V) hasher (LockFreeMap.new numBuckets) [] where
  represents := represents_new nonempty
  loaded := Nat.zero_le _

/-- The load check leaves room for one more entry. -/
theorem grow (sparse : Sparse hasher map cells) :
    ∃ grown, map.grow hasher = some grown ∧ Represents hasher grown cells ∧
      cells.length < growThreshold * grown.table.length := by
  obtain ⟨represents, loaded⟩ := sparse
  rw [LockFreeMap.grow]
  split
  · obtain ⟨grown, resized, kept, doubled⟩ := represents.resize
    refine ⟨grown, resized, kept, ?_⟩
    have nonempty := represents.buckets
    rw [growThreshold] at loaded ⊢
    omega
  · next room =>
      rw [represents.counted, not_le] at room
      exact ⟨map, rfl, represents, room⟩

theorem insert (sparse : Sparse hasher map cells) (key : K) (value : V) :
    ∃ after ref, map.insert hasher key value = some after ∧
      Sparse hasher after (cells ++ [(ref, key, value)]) := by
  obtain ⟨loaded, grown, ready, room⟩ := sparse.grow
  obtain ⟨after, appended, complete⟩ := ready.append key value
  refine ⟨after, loaded.fresh, ?_, complete, ?_⟩
  · rw [insert_eq_append, grown, Option.bind_some, appended]
  · rw [append_length appended, List.length_append, List.length_singleton]
    exact room

theorem remove [DecidableEq K] (sparse : Sparse hasher map cells) (key : K) :
    ∃ existed after, map.remove hasher key = some (existed, after) ∧
      Sparse hasher after (cells.eraseP (Cell.hasKey key)) := by
  obtain ⟨after, removed, kept⟩ := sparse.represents.remove key
  refine ⟨_, after, removed, kept, ?_⟩
  rw [remove_length removed]
  exact List.length_eraseP_le.trans sparse.loaded

theorem clear (sparse : Sparse hasher map cells) :
    ∃ after, map.clear = some after ∧ Sparse hasher after [] := by
  obtain ⟨after, cleared, kept⟩ := sparse.represents.clear
  exact ⟨after, cleared, kept, Nat.zero_le _⟩

theorem resize (sparse : Sparse hasher map cells) :
    ∃ after, map.resize hasher = some after ∧ Sparse hasher after cells := by
  obtain ⟨after, resized, kept, doubled⟩ := sparse.represents.resize
  refine ⟨after, resized, kept, ?_⟩
  have loaded := sparse.loaded
  rw [growThreshold] at loaded ⊢
  omega

/-- **One operation** succeeds and leaves a sparse map. -/
theorem write [DecidableEq K] (sparse : Sparse hasher map cells) (operation : MapWrite K V) :
    ∃ after others, map.write hasher operation = some after ∧ Sparse hasher after others := by
  cases operation with
  | insert key value =>
      obtain ⟨after, ref, inserted, kept⟩ := sparse.insert key value
      exact ⟨after, _, inserted, kept⟩
  | remove key =>
      obtain ⟨existed, after, removed, kept⟩ := sparse.remove key
      refine ⟨after, _, ?_, kept⟩
      rw [LockFreeMap.write, removed, Option.map_some]
  | clear =>
      obtain ⟨after, cleared, kept⟩ := sparse.clear
      exact ⟨after, [], cleared, kept⟩
  | resize =>
      obtain ⟨after, resized, kept⟩ := sparse.resize
      exact ⟨after, cells, resized, kept⟩

/-- The cells of a bucket, linked from its head to its tail. -/
theorem bucketLinked (sparse : Sparse hasher map cells) {index : Nat} {bucket : Bucket}
    (found : map.table[index]? = some bucket) : BucketLinked hasher map index bucket
      (classOf (Cell.bucket hasher map.table.length) cells index) := by
  obtain ⟨chain, tail⟩ := sparse.represents.chained index bucket found
  refine ⟨chain, ?_, tail, ?_, ?_, fun cell member => (mem_classOf.mp member).2⟩
  · exact sparse.represents.distinct.sublist (List.filter_sublist.map _)
  · rw [chain.start_eq_none_iff, tail, List.getLast?_eq_none_iff, List.map_eq_nil_iff]
  · intro ref isTail
    rcases List.eq_nil_or_concat' (classOf (Cell.bucket hasher map.table.length) cells index) with
      empty | ⟨front, ⟨last, key, value⟩, split⟩
    · rw [tail, empty] at isTail
      cases isTail
    · rw [split] at chain tail
      rw [tail, List.map_append, List.map_singleton, List.getLast?_concat] at isTail
      obtain rfl := Option.some.inj isTail
      exact ⟨⟨key, value, none⟩, NodeHeap.read_eq_some.mp chain.read_last, rfl⟩

/-- **Sparse maps are well linked**, each bucket with the cells of its class. -/
theorem wellLinked (sparse : Sparse hasher map cells) :
    WellLinked hasher map (classOf (Cell.bucket hasher map.table.length) cells) where
  linked _ _ := sparse.bucketLinked
  apart index other different := by
    apply List.disjoint_left.mpr
    intro ref member otherMember
    exact different (classOf_unique sparse.represents.distinct member otherMember)
  counted := by
    have regrouped : ((List.range map.table.length).flatMap
        (classOf (Cell.bucket hasher map.table.length) cells)).Perm cells :=
      perm_flatMap_classOf fun cell _ => Cell.bucket_lt sparse.represents.buckets cell
    rw [sparse.represents.counted, regrouped.length_eq]
  loaded := sparse.represents.counted ▸ sparse.loaded

end Sparse

section Keys

variable [DecidableEq K]

/-- Every sequence of writes keeps the table sparse. -/
theorem writes_of_sparse (sparse : Sparse hasher map cells) (operations : List (MapWrite K V)) :
    ∃ after others, map.writes hasher operations = some after ∧ Sparse hasher after others := by
  obtain ⟨after, wrote, others, kept⟩ := foldlM_invariant (write hasher) operations map
    (fun _ map => ∃ cells, Sparse hasher map cells) ⟨cells, sparse⟩ (by
      intro index operation map _ holds
      obtain ⟨cells, sparse⟩ := holds
      obtain ⟨after, others, wrote, kept⟩ := sparse.write operation
      exact ⟨after, wrote, others, kept⟩)
  exact ⟨after, others, wrote, kept⟩

/-- **Pointers.** From an empty table with at least one bucket, every sequence of insertions,
removals, clearings and resizings succeeds and leaves a table in which the chain of each
bucket ends and has no cycle, no node is in two chains, the tail is the last node of the
chain, every node is in the bucket of its key, and the counter is the number of nodes, at
most four for each bucket. -/
theorem writes_wellLinked (hasher : K → Nat) {numBuckets : Nat} (nonempty : 0 < numBuckets)
    (operations : List (MapWrite K V)) :
    ∃ map chains, (LockFreeMap.new numBuckets).writes hasher operations = some map ∧
      WellLinked hasher map chains := by
  have empty : Sparse hasher (LockFreeMap.new numBuckets : LockFreeMap K V) [] :=
    Sparse.new nonempty
  obtain ⟨map, cells, wrote, sparse⟩ := writes_of_sparse empty operations
  exact ⟨map, _, wrote, sparse.wellLinked⟩

end Keys

/-- A table of one bucket that the fifth insertion resizes, and that is resized again. -/
theorem writes_wellLinked_resized :
    ∃ map chains, (LockFreeMap.new 1 : LockFreeMap Nat String).writes id
        [.insert 1 "a", .insert 2 "b", .insert 3 "c", .insert 1 "d", .insert 4 "e", .remove 1,
          .resize, .insert 5 "f"] = some map ∧
      map.table.length = 4 ∧ map.numElements = 5 ∧ WellLinked id map chains := by
  have ran : ((LockFreeMap.new 1 : LockFreeMap Nat String).writes id
      [.insert 1 "a", .insert 2 "b", .insert 3 "c", .insert 1 "d", .insert 4 "e", .remove 1,
        .resize, .insert 5 "f"]).map (fun map => (map.table.length, map.numElements)) =
          some (4, 5) := rfl
  obtain ⟨map, chains, wrote, linked⟩ := writes_wellLinked id Nat.one_pos
    [.insert 1 "a", .insert 2 "b", .insert 3 "c", .insert 1 "d", .insert 4 "e", .remove 1,
      .resize, .insert 5 "f"]
  rw [wrote] at ran
  obtain ⟨length, counted⟩ := Prod.mk.inj (Option.some.inj ran)
  exact ⟨map, chains, wrote, length, counted, linked⟩

end LockFreeMap

end FastDb.Collect
