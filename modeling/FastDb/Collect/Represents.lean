import FastDb.Foundation.ChainTables
import FastDb.Collect.LockFreeMap

/-! # What a bucketed map holds

A map represents a list of cells, the entries in the order of their insertion
with the addresses of their nodes, when the chain of every bucket lists, in that
order, exactly the cells whose key hashes to the bucket
(`FastDb.Collect.LockFreeMap.Represents`). Every operation succeeds on a map
that represents its cells and yields a map that represents the cells the
operation leaves. The order of the whole list is what survives a resize: a
bucket of the doubled table draws from one bucket of the old one, so relinking
chain by chain regroups the list without disturbing the order within a bucket.
-/

namespace FastDb.Collect

open Foundation

/-- An entry with the address of its node. -/
abbrev Cell (K V : Type) := Ref × K × V

variable {K V : Type}

/-- The bucket of a cell in a table of a given size. -/
def Cell.bucket (hasher : K → Nat) (size : Nat) (cell : Cell K V) : Nat :=
  hasher cell.2.1 % size

namespace NodeHeap

/-- A node as a link of a chain. -/
def read (heap : NodeHeap K V) (ref : Ref) : Option ((K × V) × Option Ref) :=
  (heap ref).map fun node => ((node.key, node.value), node.next)

theorem read_eq_some {heap : NodeHeap K V} {ref : Ref} {key : K} {value : V}
    {next : Option Ref} :
    heap.read ref = some ((key, value), next) ↔ heap ref = some ⟨key, value, next⟩ := by
  rw [read]
  cases heap ref with
  | none => simp only [Option.map_none, reduceCtorEq]
  | some node =>
      obtain ⟨nodeKey, nodeValue, nodeNext⟩ := node
      simp only [Option.map_some, Option.some.injEq, Prod.mk.injEq, Node.mk.injEq, and_assoc]

theorem read_update_self (heap : NodeHeap K V) (ref : Ref) (key : K) (value : V)
    (next : Option Ref) :
    read (Function.update heap ref (some ⟨key, value, next⟩)) ref = some ((key, value), next) := by
  rw [read_eq_some, Function.update_self]

theorem read_update_of_ne {heap : NodeHeap K V} {ref other : Ref} (different : other ≠ ref)
    (node : Option (Node K V)) : read (Function.update heap ref node) other = heap.read other := by
  rw [read, Function.update_of_ne different, read]

theorem read_update_none (heap : NodeHeap K V) (ref : Ref) :
    read (Function.update heap ref none) ref = none := by
  rw [read, Function.update_self, Option.map_none]

/-- Assigning `next` redirects one node and no other. -/
theorem setNext_of_read {heap : NodeHeap K V} {ref : Ref} {content : K × V}
    {next : Option Ref} (found : heap.read ref = some (content, next)) (target : Option Ref) :
    ∃ after, heap.setNext ref target = some after ∧
      after.read ref = some (content, target) ∧
      ∀ other, other ≠ ref → after.read other = heap.read other := by
  obtain ⟨key, value⟩ := content
  rw [read_eq_some] at found
  refine ⟨Function.update heap ref (some ⟨key, value, target⟩), ?_, ?_, ?_⟩
  · rw [setNext, found, Option.map_some]
  · exact read_update_self heap ref key value target
  · exact fun other different => read_update_of_ne different _

/-- Linking a node after the tail of a bucket extends its chain by the node. -/
theorem linkTail_spec {heap : NodeHeap K V} {bucket : Bucket} {cells : List (Cell K V)}
    {ref : Ref} {content : K × V} {next : Option Ref}
    (chain : Segment heap.read bucket.head cells none)
    (tail : bucket.tail = (cells.map Prod.fst).getLast?)
    (distinct : (cells.map Prod.fst).Nodup) (isNew : ref ∉ cells.map Prod.fst)
    (found : heap.read ref = some (content, next)) :
    ∃ after linked, heap.linkTail bucket ref = some (after, linked) ∧ linked.tail = some ref ∧
      Segment after.read linked.head (cells ++ [(ref, content)]) next ∧
      after.read ref = some (content, next) ∧
      ∀ other, other ∉ cells.map Prod.fst → after.read other = heap.read other := by
  rcases List.eq_nil_or_concat' cells with rfl | ⟨front, last, rfl⟩
  · have noTail : bucket.tail = none := tail
    refine ⟨heap, { head := some ref, tail := some ref }, ?_, rfl, ?_, found, fun _ _ => rfl⟩
    · rw [linkTail, noTail]
    · exact ⟨rfl, next, found, rfl⟩
  · obtain ⟨lastRef, lastContent⟩ := last
    have lastTail : bucket.tail = some lastRef := by
      rw [tail, List.map_append, List.map_singleton, List.getLast?_concat]
    obtain ⟨lastNext, lastFound⟩ := chain.read_of_mem (List.mem_append_right front
      (List.mem_singleton_self _))
    obtain ⟨after, assigned, redirected, unchanged⟩ := setNext_of_read lastFound (some ref)
    have isNotLast : ref ≠ lastRef := by
      rintro rfl
      exact isNew (List.mem_map_of_mem (List.mem_append_right _ (List.mem_singleton_self _)))
    have kept : after.read ref = some (content, next) := by rw [unchanged ref isNotLast, found]
    refine ⟨after, { bucket with tail := some ref }, ?_, rfl, ?_, kept, ?_⟩
    · rw [linkTail, lastTail]
      simp only [assigned, Option.map_some]
    · refine Segment.append_iff.mpr ⟨some ref, ?_, rfl, next, kept, rfl⟩
      refine chain.relink (fun ref member => unchanged ref ?_) redirected
      rintro rfl
      rw [List.map_append, List.nodup_append] at distinct
      exact distinct.2.2 ref member ref (List.mem_singleton_self _) rfl
    · intro other outside
      apply unchanged other
      rintro rfl
      exact outside (List.mem_map_of_mem (List.mem_append_right _ (List.mem_singleton_self _)))

/-- Bypassing a node joins the chains before and after it. -/
theorem bypass_spec {heap : NodeHeap K V} {bucket : Bucket} {front back : List (Cell K V)}
    {ref : Ref} {content : K × V}
    (chain : Segment heap.read bucket.head (front ++ (ref, content) :: back) none)
    (distinct : ((front ++ (ref, content) :: back).map Prod.fst).Nodup)
    {next : Option Ref} (found : heap.read ref = some (content, next)) :
    ∃ after linked, heap.bypass bucket (front.map Prod.fst).getLast? next = some (after, linked) ∧
      linked.tail = bucket.tail ∧ Segment after.read linked.head (front ++ back) none ∧
      ∀ other, other ∉ front.map Prod.fst → after.read other = heap.read other := by
  rcases List.eq_nil_or_concat' front with rfl | ⟨initial, last, rfl⟩
  · obtain ⟨starts, actual, read, onward⟩ := chain
    obtain rfl : actual = next := congrArg Prod.snd (Option.some.inj (read.symm.trans found))
    exact ⟨heap, { bucket with head := actual }, rfl, rfl, onward, fun _ _ => rfl⟩
  · obtain ⟨lastRef, lastContent⟩ := last
    have lastMember : lastRef ∈ (initial ++ [(lastRef, lastContent)]).map Prod.fst :=
      List.mem_map_of_mem (List.mem_append_right _ (List.mem_singleton_self _))
    rw [List.append_assoc, List.singleton_append] at chain distinct
    obtain ⟨lastNext, lastFound⟩ := chain.read_of_mem (List.mem_append_right initial
      List.mem_cons_self)
    obtain ⟨after, assigned, redirected, unchanged⟩ := setNext_of_read lastFound next
    refine ⟨after, bucket, ?_, rfl, ?_, ?_⟩
    · rw [List.map_append, List.map_singleton, List.getLast?_concat, bypass]
      simp only [assigned, Option.map_some]
    · rw [List.append_assoc, List.singleton_append]
      exact chain.bypass distinct found unchanged redirected
    · intro other outside
      apply unchanged other
      rintro rfl
      exact outside lastMember

end NodeHeap

namespace LockFreeMap

variable (hasher : K → Nat)

/-- The chain of every bucket lists the cells of its class, and its tail is the
last of them. -/
def Chained (heap : NodeHeap K V) (table : List Bucket) (cells : List (Cell K V)) : Prop :=
  ∀ index bucket, table[index]? = some bucket →
    Segment heap.read bucket.head (classOf (Cell.bucket hasher table.length) cells index) none ∧
    bucket.tail =
      ((classOf (Cell.bucket hasher table.length) cells index).map Prod.fst).getLast?

/-- **Representation.** A well-formed map and the cells it holds, in the order of
their insertion. -/
structure Represents (map : LockFreeMap K V) (cells : List (Cell K V)) : Prop where
  buckets : 0 < map.table.length
  distinct : (cells.map Prod.fst).Nodup
  allocated : ∀ cell ∈ cells, cell.1 < map.fresh
  chained : Chained hasher map.heap map.table cells
  counted : map.numElements = cells.length

variable {hasher}

/-- The bucket of a cell is in the table. -/
theorem Cell.bucket_lt {size : Nat} (nonempty : 0 < size) (cell : Cell K V) :
    Cell.bucket hasher size cell < size := Nat.mod_lt _ nonempty

/-- The cells of a bucket are no more than the nodes ever allocated. -/
theorem Represents.chain_length {map : LockFreeMap K V} {cells : List (Cell K V)}
    (represents : Represents hasher map cells) (number : Cell K V → Nat) (index : Nat) :
    (classOf number cells index).length ≤ map.fresh :=
  ChainTable.class_length_le represents.distinct represents.allocated index

/-- The chains alone, without the tails. -/
theorem Chained.table {heap : NodeHeap K V} {table : List Bucket} {cells : List (Cell K V)}
    (chained : Chained hasher heap table cells) :
    ChainTable Bucket.head (Cell.bucket hasher table.length) heap.read table cells :=
  fun index bucket found => (chained index bucket found).1

/-- A table without chains represents no cells. -/
theorem chained_replicate (heap : NodeHeap K V) (size : Nat) :
    Chained hasher heap (List.replicate size Bucket.empty) [] := by
  intro index bucket found
  obtain rfl := List.eq_of_mem_replicate (List.mem_of_getElem? found)
  exact ⟨rfl, rfl⟩

/-- Rebuilding one bucket: the other chains stand when their classes and the
nodes outside the bucket are unchanged. -/
theorem Chained.rebuild {heap after : NodeHeap K V} {table : List Bucket}
    {cells others : List (Cell K V)} {index : Nat} {bucket : Bucket}
    (chained : Chained hasher heap table cells) (distinct : (cells.map Prod.fst).Nodup)
    (elsewhere : ∀ other, other ≠ index →
      classOf (Cell.bucket hasher table.length) others other =
        classOf (Cell.bucket hasher table.length) cells other)
    (frame : ∀ ref ∈ cells.map Prod.fst,
      ref ∉ (classOf (Cell.bucket hasher table.length) cells index).map Prod.fst →
      after.read ref = heap.read ref)
    (chain : Segment after.read bucket.head
      (classOf (Cell.bucket hasher table.length) others index) none)
    (tail : bucket.tail =
      ((classOf (Cell.bucket hasher table.length) others index).map Prod.fst).getLast?) :
    Chained hasher after (table.set index bucket) others := by
  intro other found at_other
  rw [List.length_set]
  by_cases same : index = other
  · subst same
    rw [List.getElem?_set_self'] at at_other
    obtain ⟨_, _, rfl⟩ := Option.map_eq_some_iff.mp at_other
    exact ⟨chain, tail⟩
  · rw [List.getElem?_set_ne same] at at_other
    rw [elsewhere other (Ne.symm same)]
    obtain ⟨old, oldTail⟩ := chained other found at_other
    refine ⟨old.congr fun ref member => ?_, oldTail⟩
    apply frame ref ((List.filter_sublist.map Prod.fst).subset member)
    intro inside
    exact same (classOf_unique distinct inside member)

/-- Linking a new cell into its bucket, once the `next` of the node is null. -/
theorem Chained.link {heap : NodeHeap K V} {table : List Bucket} {cells : List (Cell K V)}
    {ref : Ref} {content : K × V} {next : Option Ref} (nonempty : 0 < table.length)
    (chained : Chained hasher heap table cells)
    (distinct : ((cells ++ [(ref, content)]).map Prod.fst).Nodup)
    (found : heap.read ref = some (content, next)) :
    ∃ bucket after linked,
      table[hasher content.1 % table.length]? = some bucket ∧
      heap.linkTail bucket ref = some (after, linked) ∧
      after.read ref = some (content, next) ∧
      ∀ final : NodeHeap K V, final.read ref = some (content, none) →
        (∀ other, other ≠ ref → final.read other = after.read other) →
        Chained hasher final (table.set (hasher content.1 % table.length) linked)
          (cells ++ [(ref, content)]) ∧
        ∀ other, other ∉ (cells ++ [(ref, content)]).map Prod.fst →
          final.read other = heap.read other := by
  generalize place : hasher content.1 % table.length = index
  have inside : index < table.length := place ▸ Nat.mod_lt _ nonempty
  obtain ⟨chain, tail⟩ := chained index _ (List.getElem?_eq_getElem inside)
  rw [List.map_append, List.map_singleton, List.nodup_append] at distinct
  obtain ⟨cellsDistinct, -, apart⟩ := distinct
  have isNew : ref ∉ cells.map Prod.fst := fun member =>
    apart ref member ref (List.mem_singleton_self _) rfl
  have inClass : ∀ other ∈ (classOf (Cell.bucket hasher table.length) cells index).map Prod.fst,
      other ∈ cells.map Prod.fst :=
    fun other member => (List.filter_sublist.map Prod.fst).subset member
  obtain ⟨after, linked, linking, linkedTail, extended, kept, frame⟩ := NodeHeap.linkTail_spec
    chain tail (cellsDistinct.sublist (List.filter_sublist.map _))
    (fun member => isNew (inClass ref member)) found
  refine ⟨_, after, linked, List.getElem?_eq_getElem inside, linking, kept, ?_⟩
  intro final settled settledFrame
  have finalFrame : ∀ other, other ≠ ref →
      other ∉ (classOf (Cell.bucket hasher table.length) cells index).map Prod.fst →
      final.read other = heap.read other :=
    fun other different outside => (settledFrame other different).trans (frame other outside)
  have carries : Cell.bucket hasher table.length (ref, content) = index := place
  have own : classOf (Cell.bucket hasher table.length) (cells ++ [(ref, content)]) index =
      classOf (Cell.bucket hasher table.length) cells index ++ [(ref, content)] :=
    classOf_concat_of_eq carries cells
  constructor
  · refine chained.rebuild cellsDistinct (fun other different => ?_)
      (fun other member outside => ?_) ?_ ?_
    · exact classOf_concat_of_ne (carries ▸ Ne.symm different) cells
    · refine finalFrame other ?_ outside
      rintro rfl
      exact isNew member
    · rw [own]
      refine extended.relink (fun other member => settledFrame other ?_) settled
      rintro rfl
      exact isNew (inClass _ member)
    · rw [own, List.map_append, List.map_singleton, List.getLast?_concat, linkedTail]
  · intro other outside
    rw [List.map_append, List.map_singleton, List.mem_append, not_or,
      List.mem_singleton] at outside
    exact finalFrame other outside.2 fun member => outside.1 (inClass other member)

/-- One chain of the old table, relinked node by node into the new one. -/
theorem relink_spec {fuel : Nat} {current : Option Ref} {heap : NodeHeap K V}
    {newTable : List Bucket} {linked rest : List (Cell K V)} (nonempty : 0 < newTable.length)
    (chain : Segment heap.read current rest none) (enough : rest.length ≤ fuel)
    (chained : Chained hasher heap newTable linked)
    (distinct : ((linked ++ rest).map Prod.fst).Nodup) :
    ∃ after table, relink hasher fuel current (heap, newTable) = some (after, table) ∧
      table.length = newTable.length ∧ Chained hasher after table (linked ++ rest) ∧
      ∀ ref, ref ∉ (linked ++ rest).map Prod.fst → after.read ref = heap.read ref := by
  induction rest generalizing fuel current heap newTable linked with
  | nil =>
      obtain rfl := Segment.nil_iff.mp chain
      refine ⟨heap, newTable, ?_, rfl, ?_, fun _ _ => rfl⟩
      · cases fuel <;> rfl
      · rwa [List.append_nil]
  | cons cell rest ih =>
      obtain ⟨ref, key, value⟩ := cell
      obtain ⟨rfl, next, found, onward⟩ := chain
      rw [List.append_cons] at distinct ⊢
      have linkedDistinct : ((linked ++ [(ref, key, value)]).map Prod.fst).Nodup :=
        distinct.sublist ((List.sublist_append_left _ _).map _)
      have apart : ∀ other ∈ rest.map Prod.fst,
          other ∉ (linked ++ [(ref, key, value)]).map Prod.fst := by
        intro other later earlier
        rw [List.map_append] at distinct
        exact (List.nodup_append.mp distinct).2.2 other earlier other later rfl
      obtain ⟨bucket, after, grown, indexed, linking, kept, settle⟩ :=
        chained.link nonempty linkedDistinct found
      obtain ⟨final, assigned, settled, settledFrame⟩ := NodeHeap.setNext_of_read kept none
      obtain ⟨relinked, frame⟩ := settle final settled settledFrame
      cases fuel with
      | zero => exact absurd enough (Nat.not_succ_le_zero _)
      | succ fuel =>
          obtain ⟨last, table, finished, sized, complete, unchanged⟩ := ih
            (by rwa [List.length_set]) (onward.congr fun other member =>
              frame other (apart other member)) (Nat.le_of_succ_le_succ enough) relinked distinct
          refine ⟨last, table, ?_, by rw [sized, List.length_set], complete, ?_⟩
          · simp only [relink, NodeHeap.read_eq_some.mp found, indexed, linking, assigned,
              Option.bind_eq_bind, Option.bind_some, finished]
          · intro other outside
            rw [unchanged other outside]
            refine frame other fun member => outside ?_
            exact (List.sublist_append_left _ _).map Prod.fst |>.subset member

/-- **Resize.** Doubling the table keeps what the map holds. -/
theorem Represents.resize {map : LockFreeMap K V} {cells : List (Cell K V)}
    (represents : Represents hasher map cells) :
    ∃ grown, map.resize hasher = some grown ∧ Represents hasher grown cells ∧
      grown.table.length = map.table.length * 2 := by
  obtain ⟨buckets, distinct, allocated, chained, counted⟩ := represents
  let number := Cell.bucket (V := V) hasher map.table.length
  let regrouped := fun size => (List.range size).flatMap (classOf number cells)
  have doubled : 0 < map.table.length * 2 := by omega
  obtain ⟨⟨heap, table⟩, finished, sized, complete, -⟩ := foldlM_invariant
    (fun state bucket => relink hasher map.fresh bucket.head state) map.table
    (map.heap, List.replicate (map.table.length * 2) Bucket.empty)
    (fun index state => state.2.length = map.table.length * 2 ∧
      Chained hasher state.1 state.2 (regrouped index) ∧
      ∀ ref, ref ∉ (regrouped index).map Prod.fst → state.1.read ref = map.heap.read ref)
    ⟨List.length_replicate, chained_replicate _ _, fun _ _ => rfl⟩ (by
      rintro index bucket ⟨heap, table⟩ found ⟨sized, done, frame⟩
      have extended : regrouped (index + 1) = regrouped index ++ classOf number cells index := by
        simp only [regrouped, List.range_succ, List.flatMap_append, List.flatMap_singleton]
      have regroupedDistinct : ((regrouped (index + 1)).map Prod.fst).Nodup :=
        nodup_map_flatMap_classOf distinct (index + 1)
      rw [extended] at regroupedDistinct
      have pending : Segment heap.read bucket.head (classOf number cells index) none :=
        (chained index bucket found).1.congr fun ref member => frame ref fun earlier => by
          rw [List.map_append] at regroupedDistinct
          exact (List.nodup_append.mp regroupedDistinct).2.2 ref earlier ref member rfl
      obtain ⟨after, relinked, ran, sameSize, grown, unchanged⟩ := relink_spec
        (by rw [sized]; exact doubled) pending
        (Represents.chain_length ⟨buckets, distinct, allocated, chained, counted⟩ number index)
        done regroupedDistinct
      refine ⟨(after, relinked), ran, sameSize.trans sized, extended ▸ grown, ?_⟩
      intro ref outside
      rw [extended] at outside
      rw [unchanged ref outside]
      refine frame ref fun member => outside ?_
      exact (List.sublist_append_left _ _).map Prod.fst |>.subset member)
  have finalSize : table.length = map.table.length * 2 := sized
  refine ⟨{ map with heap, table }, ?_, ⟨?_, distinct, allocated, ?_, counted⟩, finalSize⟩
  · rw [LockFreeMap.resize, finished]
    rfl
  · exact finalSize ▸ doubled
  · intro index bucket found
    have inside : index < table.length := (List.getElem?_eq_some_iff.mp found).1
    obtain ⟨chain, tail⟩ := complete index bucket found
    -- a bucket of the doubled table draws from one bucket of the old one
    have sameClass : classOf (Cell.bucket hasher table.length) (regrouped map.table.length) index =
        classOf (Cell.bucket hasher table.length) cells index := by
      refine classOf_flatMap_classOf _ cells index (Nat.mod_lt index buckets)
        fun cell _ carries => ?_
      rw [← carries, Cell.bucket, finalSize, Nat.mod_mul_right_mod]
      rfl
    rw [sameClass] at chain tail
    exact ⟨chain, tail⟩

/-- Growing keeps the entries. -/
theorem Represents.grow {map : LockFreeMap K V} {cells : List (Cell K V)}
    (represents : Represents hasher map cells) :
    ∃ grown, map.grow hasher = some grown ∧ Represents hasher grown cells := by
  rw [LockFreeMap.grow]
  split
  · obtain ⟨grown, resized, kept, -⟩ := represents.resize
    exact ⟨grown, resized, kept⟩
  · exact ⟨map, rfl, represents⟩

theorem represents_new {numBuckets : Nat} (nonempty : 0 < numBuckets) :
    Represents (V := V) hasher (LockFreeMap.new numBuckets) [] where
  buckets := by rwa [LockFreeMap.new, List.length_replicate]
  distinct := List.nodup_nil
  allocated _ member := nomatch member
  chained := chained_replicate _ _
  counted := rfl

/-- A node at a new address disturbs no chain. -/
theorem Represents.allocate {map : LockFreeMap K V} {cells : List (Cell K V)}
    (represents : Represents hasher map cells) (node : Node K V) :
    map.fresh ∉ cells.map Prod.fst ∧
      Chained hasher (Function.update map.heap map.fresh (some node)) map.table cells := by
  have isNew : map.fresh ∉ cells.map Prod.fst := ChainTable.fresh_not_mem represents.allocated
  refine ⟨isNew, fun index bucket at_index => ?_⟩
  obtain ⟨chain, tail⟩ := represents.chained index bucket at_index
  refine ⟨chain.congr fun ref member => NodeHeap.read_update_of_ne ?_ _, tail⟩
  rintro rfl
  exact isNew ((List.filter_sublist.map Prod.fst).subset member)

/-- An entry appended to the bucket of its key comes after all others, at a new
address. -/
theorem Represents.append {map : LockFreeMap K V} {cells : List (Cell K V)}
    (represents : Represents hasher map cells) (key : K) (value : V) :
    ∃ after, map.append (map.getBucketIndex hasher key) key value = some after ∧
      Represents hasher after (cells ++ [(map.fresh, key, value)]) := by
  obtain ⟨isNew, kept⟩ := represents.allocate ⟨key, value, none⟩
  obtain ⟨buckets, distinct, allocated, -, counted⟩ := represents
  have extendedDistinct : ((cells ++ [(map.fresh, key, value)]).map Prod.fst).Nodup := by
    rw [List.map_append, List.map_singleton]
    refine List.nodup_append.mpr ⟨distinct, List.nodup_singleton _, ?_⟩
    rintro ref member other single rfl
    obtain rfl := List.mem_singleton.mp single
    exact isNew member
  obtain ⟨bucket, after, linked, indexed, linking, linkedRead, settle⟩ :=
    kept.link buckets extendedDistinct (NodeHeap.read_update_self _ _ key value none)
  obtain ⟨complete, -⟩ := settle after linkedRead fun _ _ => rfl
  refine ⟨⟨after, map.fresh + 1, map.table.set (hasher key % map.table.length) linked,
    map.numElements + 1⟩, ?_, ⟨?_, extendedDistinct, ?_, complete, ?_⟩⟩
  · simp only [LockFreeMap.append, getBucketIndex, Option.bind_eq_bind, Option.bind_some,
      indexed]
    rw [linking]
    rfl
  · exact List.length_set.symm ▸ buckets
  · intro cell member
    rcases List.mem_append.mp member with old | new
    · exact Nat.lt_succ_of_lt (allocated cell old)
    · exact (List.mem_singleton.mp new) ▸ Nat.lt_succ_self _
  · rw [counted, List.length_append, List.length_singleton]

/-- **Insert** succeeds and adds its entry after all others, at a new address. -/
theorem Represents.insert {map : LockFreeMap K V} {cells : List (Cell K V)}
    (represents : Represents hasher map cells) (key : K) (value : V) :
    ∃ after ref, map.insert hasher key value = some after ∧
      Represents hasher after (cells ++ [(ref, key, value)]) := by
  obtain ⟨loaded, grown, ready⟩ := represents.grow
  obtain ⟨after, appended, complete⟩ := ready.append key value
  refine ⟨after, loaded.fresh, ?_, complete⟩
  rw [insert_eq_append, grown, Option.bind_some, appended]

/-- The bucket of a key and the chain that holds its cells. -/
theorem Represents.bucket_of_key {map : LockFreeMap K V} {cells : List (Cell K V)}
    (represents : Represents hasher map cells) (key : K) :
    ∃ bucket, map.table[map.getBucketIndex hasher key]? = some bucket ∧
      Segment map.heap.read bucket.head (classOf (Cell.bucket hasher map.table.length) cells
        (map.getBucketIndex hasher key)) none ∧
      bucket.tail = ((classOf (Cell.bucket hasher map.table.length) cells
        (map.getBucketIndex hasher key)).map Prod.fst).getLast? := by
  have inside : map.getBucketIndex hasher key < map.table.length :=
    Nat.mod_lt _ represents.buckets
  obtain ⟨chain, tail⟩ := represents.chained _ _ (List.getElem?_eq_getElem inside)
  exact ⟨_, List.getElem?_eq_getElem inside, chain, tail⟩

section Keys

variable [DecidableEq K]

/-- Whether a cell has a key. -/
def Cell.hasKey (key : K) (cell : Cell K V) : Bool := cell.2.1 = key

/-- The walk of `find` gives the first entry of the key. -/
theorem findFrom_spec {heap : NodeHeap K V} {key : K} {fuel : Nat} {current : Option Ref}
    {cells : List (Cell K V)} (chain : Segment heap.read current cells none)
    (enough : cells.length ≤ fuel) :
    findFrom heap key fuel current =
      some ((cells.find? (Cell.hasKey key)).map fun cell => cell.2.2) := by
  refine chain.walk_find (fun fuel => by cases fuel <;> rfl) ?_ enough
  intro fuel ref content next found
  obtain ⟨cellKey, value⟩ := content
  simp only [findFrom, NodeHeap.read_eq_some.mp found, Option.bind_eq_bind, Option.bind_some,
    Cell.hasKey, decide_eq_true_eq]

/-- The bucket of a key is that of the cells that have it. -/
theorem bucket_of_hasKey {map : LockFreeMap K V} {key : K} (cell : Cell K V)
    (found : Cell.hasKey key cell = true) :
    Cell.bucket hasher map.table.length cell = map.getBucketIndex hasher key := by
  rw [Cell.bucket, of_decide_eq_true found, getBucketIndex]

/-- Deleting the first node of a key from its chain. -/
theorem Represents.unlink {map : LockFreeMap K V} {cells : List (Cell K V)}
    (represents : Represents hasher map cells) {key : K} {value : V} {bucket : Bucket}
    (indexed : map.table[map.getBucketIndex hasher key]? = some bucket)
    {visited pending : List (Cell K V)} {ref : Ref} {next : Option Ref}
    (split : classOf (Cell.bucket hasher map.table.length) cells
      (map.getBucketIndex hasher key) = visited ++ (ref, key, value) :: pending)
    (missed : ∀ cell ∈ visited, Cell.hasKey key cell = false)
    (found : map.heap.read ref = some ((key, value), next)) :
    ∃ heap linked,
      map.heap.bypass bucket (visited.map Prod.fst).getLast? next = some (heap, linked) ∧
      Represents hasher { map with
        heap := Function.update heap ref none
        table := map.table.set (map.getBucketIndex hasher key)
          (if some ref = linked.tail then { linked with tail := (visited.map Prod.fst).getLast? }
            else linked)
        numElements := map.numElements - 1 } (cells.eraseP (Cell.hasKey key)) := by
  obtain ⟨chain, tail⟩ := represents.chained _ bucket indexed
  have classDistinct := represents.distinct.sublist ((List.filter_sublist
    (p := fun cell : Cell K V => Cell.bucket hasher map.table.length cell =
      map.getBucketIndex hasher key)).map Prod.fst)
  change ((classOf (Cell.bucket hasher map.table.length) cells
    (map.getBucketIndex hasher key)).map Prod.fst).Nodup at classDistinct
  have present : (ref, key, value) ∈ cells := by
    have inClass : (ref, key, value) ∈ visited ++ (ref, key, value) :: pending :=
      List.mem_append_right _ List.mem_cons_self
    exact (mem_classOf.mp (split ▸ inClass)).1
  have hasKey : Cell.hasKey key (ref, key, value) = true := decide_eq_true rfl
  have notVisited : ∀ cell ∈ visited, ¬Cell.hasKey key cell = true := fun cell member =>
    Bool.eq_false_iff.mp (missed cell member)
  have remaining : classOf (Cell.bucket hasher map.table.length) (cells.eraseP (Cell.hasKey key))
      (map.getBucketIndex hasher key) = visited ++ pending := by
    rw [classOf, filter_eraseP_of_imp (fun cell isKey =>
      decide_eq_true (bucket_of_hasKey cell isKey)), ← classOf, split,
      List.eraseP_append_right _ notVisited, List.eraseP_cons_of_pos hasKey]
  rw [split] at chain tail classDistinct
  obtain ⟨heap, linked, bypassed, sameTail, joined, frame⟩ :=
    NodeHeap.bypass_spec chain classDistinct found
  have refOutside : ref ∉ (visited ++ pending).map Prod.fst := by
    rw [List.map_append, List.map_cons, List.nodup_middle, ← List.map_append] at classDistinct
    exact (List.nodup_cons.mp classDistinct).1
  refine ⟨heap, linked, bypassed, ⟨?_, ?_, ?_, ?_, ?_⟩⟩
  · exact List.length_set.symm ▸ represents.buckets
  · exact represents.distinct.sublist (List.eraseP_sublist.map _)
  · exact fun cell member => represents.allocated cell (List.eraseP_subset member)
  · refine represents.chained.rebuild represents.distinct (fun other different => ?_)
      (fun other _ outside => ?_) ?_ ?_
    · refine filter_eraseP_of_not (fun cell isKey => ?_) cells
      rw [bucket_of_hasKey cell isKey, decide_eq_true_eq]
      exact Ne.symm different
    · rw [split, List.map_append, List.map_cons] at outside
      rw [NodeHeap.read_update_of_ne, frame]
      · exact fun member => outside (List.mem_append_left _ member)
      · rintro rfl
        exact outside (List.mem_append_right _ List.mem_cons_self)
    · rw [remaining]
      have sameHead : ∀ tail, (if some ref = linked.tail then { linked with tail } else
          linked).head = linked.head := fun tail => by split <;> rfl
      rw [sameHead]
      refine joined.congr fun other member => NodeHeap.read_update_of_ne ?_ _
      rintro rfl
      exact refOutside member
    · rw [remaining, sameTail, tail, List.map_append, List.map_cons]
      rcases List.eq_nil_or_concat' pending with rfl | ⟨front, last, rfl⟩
      · rw [List.map_nil, List.getLast?_concat, if_pos rfl, List.append_nil]
      · -- the removed node is not the tail, which stays
        have different : ref ≠ last.1 := by
          rintro rfl
          exact refOutside (List.mem_map_of_mem (List.mem_append_right _
            (List.mem_append_right _ (List.mem_singleton_self _))))
        simp only [List.map_append, List.map_cons, List.map_nil, ← List.cons_append,
          ← List.append_assoc, List.getLast?_concat, Option.some.injEq, different, ↓reduceIte,
          sameTail, tail]
  · rw [List.length_eraseP_of_mem present hasKey, represents.counted]

/-- The loop of `remove`, over the chain of the bucket. -/
theorem removeFrom_spec {map : LockFreeMap K V} {cells : List (Cell K V)}
    (represents : Represents hasher map cells) {key : K} {bucket : Bucket}
    (indexed : map.table[map.getBucketIndex hasher key]? = some bucket) :
    ∃ after, map.removeFrom (map.getBucketIndex hasher key) bucket key map.fresh none bucket.head =
        some (cells.any (Cell.hasKey key), after) ∧
      Represents hasher after (cells.eraseP (Cell.hasKey key)) := by
  refine ChainTable.walk_remove (Cell.hasKey key)
    (fun after => Represents hasher after (cells.eraseP (Cell.hasKey key)))
    (map.removeFrom (map.getBucketIndex hasher key) bucket key)
    (represents.chained _ bucket indexed).1 (represents.chain_length _ _) bucket_of_hasKey
    ?passes ?ends ?meets
  case passes =>
    intro fuel prev ref content next found other
    obtain ⟨cellKey, value⟩ := content
    have different : cellKey ≠ key := fun same => other (decide_eq_true same)
    simp only [removeFrom, NodeHeap.read_eq_some.mp found, Option.bind_eq_bind, Option.bind_some,
      if_neg different]
  case ends =>
    intro absent
    refine ⟨map, ?_, fun fuel _ => by cases fuel <;> rfl⟩
    rwa [List.eraseP_of_forall_not absent]
  case meets =>
    intro front ref content next back split missed here found
    obtain ⟨cellKey, value⟩ := content
    obtain rfl : cellKey = key := of_decide_eq_true here
    obtain ⟨heap, linked, bypassed, removed⟩ := represents.unlink indexed split
      (fun cell member => Bool.eq_false_iff.mpr (missed cell member)) found
    refine ⟨_, removed, fun fuel => ?_⟩
    simp only [removeFrom, NodeHeap.read_eq_some.mp found, Option.bind_eq_bind, Option.bind_some,
      bypassed, if_true]

/-- **Find** succeeds and reads the oldest entry of its key. -/
theorem Represents.find {map : LockFreeMap K V} {cells : List (Cell K V)}
    (represents : Represents hasher map cells) (key : K) :
    map.find hasher key =
      some ((cells.find? (Cell.hasKey key)).map fun cell => cell.2.2) := by
  obtain ⟨bucket, indexed, chain, -⟩ := represents.bucket_of_key key
  simp only [LockFreeMap.find, indexed, Option.bind_eq_bind, Option.bind_some]
  rw [findFrom_spec chain (represents.chain_length _ _), find?_classOf bucket_of_hasKey]

/-- **Remove** succeeds, deletes the oldest entry of its key, and reports whether
there was one. -/
theorem Represents.remove {map : LockFreeMap K V} {cells : List (Cell K V)}
    (represents : Represents hasher map cells) (key : K) :
    ∃ after, map.remove hasher key = some (cells.any (Cell.hasKey key), after) ∧
      Represents hasher after (cells.eraseP (Cell.hasKey key)) := by
  obtain ⟨bucket, indexed, -, -⟩ := represents.bucket_of_key key
  obtain ⟨after, removed, kept⟩ := removeFrom_spec represents indexed
  refine ⟨after, ?_, kept⟩
  simp only [LockFreeMap.remove, indexed, Option.bind_eq_bind, Option.bind_some]
  exact removed

end Keys

/-- Deleting a chain frees its nodes and nothing else. -/
theorem deleteFrom_spec {fuel : Nat} {current : Option Ref} {heap : NodeHeap K V}
    {cells : List (Cell K V)} (chain : Segment heap.read current cells none)
    (distinct : (cells.map Prod.fst).Nodup) (enough : cells.length ≤ fuel) :
    ∃ after, deleteFrom fuel current heap = some after ∧
      (∀ ref ∈ cells.map Prod.fst, after.read ref = none) ∧
      ∀ ref, ref ∉ cells.map Prod.fst → after.read ref = heap.read ref := by
  refine Segment.walk_delete NodeHeap.read (fun heap ref => Function.update heap ref none)
    deleteFrom (fun fuel heap => by cases fuel <;> rfl) ?_ NodeHeap.read_update_none
    (fun heap ref other different => NodeHeap.read_update_of_ne different none) chain distinct
    enough
  intro fuel ref content next heap found
  simp only [deleteFrom, NodeHeap.read_eq_some.mp found, Option.bind_eq_bind, Option.bind_some]

/-- **Clear** succeeds and leaves no cells. -/
theorem Represents.clear {map : LockFreeMap K V} {cells : List (Cell K V)}
    (represents : Represents hasher map cells) :
    ∃ after, map.clear = some after ∧ Represents hasher after [] := by
  obtain ⟨heap, deleted, -, -⟩ := ChainTable.delete_all
    (fun heap bucket => deleteFrom map.fresh bucket.head heap) represents.chained.table
    represents.distinct (fun cell _ => Cell.bucket_lt represents.buckets cell)
    (fun heap bucket index chain distinct =>
      deleteFrom_spec chain distinct (represents.chain_length _ index))
  refine ⟨{ map with heap, table := map.table.map fun _ => Bucket.empty, numElements := 0 }, ?_,
    ?_, List.nodup_nil, (fun _ member => nomatch member), ?_, rfl⟩
  · rw [LockFreeMap.clear, deleted]
    rfl
  · exact lt_of_lt_of_eq represents.buckets (List.length_map ..).symm
  · rw [List.map_const']
    exact chained_replicate heap _

/-- Visiting a chain gives its entries in order. -/
theorem visitFrom_spec {fuel : Nat} {current : Option Ref} {heap : NodeHeap K V}
    {cells : List (Cell K V)} (chain : Segment heap.read current cells none)
    (enough : cells.length ≤ fuel) : visitFrom heap fuel current = some (cells.map Prod.snd) := by
  refine chain.walk enough (fun fuel => by cases fuel <;> rfl) ?_
  intro fuel ref content next cells found behind
  simp only [visitFrom, NodeHeap.read_eq_some.mp found, Option.bind_eq_bind, Option.bind_some,
    behind, List.map_cons]

/-- **Traverse** succeeds and visits every entry as often as it is held. -/
theorem Represents.traverse {map : LockFreeMap K V} {cells : List (Cell K V)}
    (represents : Represents hasher map cells) :
    ∃ visited, map.traverse = some visited ∧ visited.Perm (cells.map Prod.snd) :=
  foldlM_classOf (fun cell _ => Cell.bucket_lt represents.buckets cell)
    fun index bucket found => visitFrom_spec (represents.chained index bucket found).1
      (represents.chain_length _ index)

/-- The map holds these entries, at some addresses. -/
def Holds (hasher : K → Nat) (map : LockFreeMap K V) (entries : List (K × V)) : Prop :=
  ∃ cells, Represents hasher map cells ∧ cells.map Prod.snd = entries

theorem holds_new {numBuckets : Nat} (nonempty : 0 < numBuckets) :
    Holds hasher (LockFreeMap.new numBuckets : LockFreeMap K V) [] :=
  ⟨[], represents_new nonempty, rfl⟩

end LockFreeMap

end FastDb.Collect
