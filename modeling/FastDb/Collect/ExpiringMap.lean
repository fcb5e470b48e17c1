import Mathlib.Logic.Function.Basic
import FastDb.Foundation.Machine

/-! # The expiring map

`LockFreeMapExprise` of `common/collect_expiration_utils.cppm`, its operations
executed one at a time. A table of buckets holds the heads of singly linked chains;
`insert` links a new node before the head of its bucket and doubles the table once
it is loaded, `resize` moves the nodes one by one before the heads of the new
buckets, and an iteration of `expiration_task` deletes nodes through a pointer to
the cell that links to them. Dereferencing an address without a node, an index
outside the table, a walk of more nodes than were ever allocated, and unlocking a
mutex that is no more are the outcome `none`.

`insert` calls `resize` in the scope of the guard on the mutex of its bucket. The
table that `resize` swaps out is destroyed with its buckets, so that the guard, when
its scope ends, unlocks a mutex that was destroyed while it was locked.
-/

namespace FastDb.Collect.Expiration

open Foundation

/-- The address of a node. -/
abbrev Ref := Nat

/-- A reading of the system clock, in nanoseconds. -/
abbrev Time := Int

/-- The contents of a node. -/
structure Entry (K V : Type) where
  key : K
  value : V
  timestamp : Time
deriving DecidableEq

/-- `Node<K, V>`. -/
structure Node (K V : Type) extends Entry K V where
  next : Option Ref

/-- `Bucket<K, V>`; a null pointer is `none`. -/
structure Bucket where
  head : Option Ref

/-- `Bucket()`. -/
def Bucket.empty : Bucket := ⟨none⟩

/-- The nodes by their addresses. -/
abbrev NodeHeap (K V : Type) := Ref → Option (Node K V)

/-- `LockFreeMapExprise<K, V, Hash>`, with the heap its nodes live in. Addresses are
handed out in order; no live pointer is left to a deleted node, so its address is
not handed out again. `swaps` counts the tables that were swapped out and destroyed,
which tells the buckets of this table from theirs. -/
structure LockFreeMapExprise (K V : Type) where
  heap : NodeHeap K V
  fresh : Ref
  table : List Bucket
  swaps : Nat
  numElements : Int

/-- A `std::lock_guard` on the mutex of a bucket: how many tables were swapped out before the
one that the bucket is in. -/
structure LockGuard where
  swaps : Nat

/-- `GROW_THRESHOLD`. -/
def growThreshold : Int := 4

/-- `EXPIRATION_CHECK_INTERVAL`, one second. -/
def expirationCheckInterval : Time := 1000000000

namespace NodeHeap

variable {K V : Type}

/-- `ref->next = next`. -/
def setNext (heap : NodeHeap K V) (ref : Ref) (next : Option Ref) : Option (NodeHeap K V) :=
  (heap ref).map fun node => Function.update heap ref (some { node with next })

/-- Redirects what points at a removed node, its predecessor or the head. -/
def bypass (heap : NodeHeap K V) (bucket : Bucket) (prev next : Option Ref) :
    Option (NodeHeap K V × Bucket) :=
  match prev with
  | none => some (heap, ⟨next⟩)
  | some prev => (heap.setNext prev next).map fun heap => (heap, bucket)

end NodeHeap

/-- The value of `Node<K, V> **current`: the address of the head of the bucket, or
of the `next` member of a node. -/
inductive Link
  | head
  | next (ref : Ref)

namespace Link

variable {K V : Type}

/-- `*current`. -/
def load (heap : NodeHeap K V) (bucket : Bucket) : Link → Option (Option Ref)
  | .head => some bucket.head
  | .next ref => (heap ref).map Node.next

/-- `*current = target`. -/
def store (heap : NodeHeap K V) (bucket : Bucket) (target : Option Ref) :
    Link → Option (NodeHeap K V × Bucket)
  | .head => some (heap, ⟨target⟩)
  | .next ref => (heap.setNext ref target).map fun heap => (heap, bucket)

end Link

namespace LockFreeMapExprise

variable {K V : Type} (hasher : K → Nat)

/-- `LockFreeMapExprise(num_buckets)`. -/
def new (numBuckets : Nat) : LockFreeMapExprise K V where
  heap _ := none
  fresh := 0
  table := List.replicate numBuckets Bucket.empty
  swaps := 0
  numElements := 0

/-- `lock_guard lock(bucket.bucket_mutex)`, at the bucket with an index. -/
def lockGuard (map : LockFreeMapExprise K V) (index : Nat) : Option LockGuard :=
  map.table[index]?.map fun _ => ⟨map.swaps⟩

/-- `~lock_guard`: unlocks the mutex, which must still be there. -/
def unlock (map : LockFreeMapExprise K V) (lock : LockGuard) : Option (LockFreeMapExprise K V) :=
  if lock.swaps = map.swaps then some map else none

/-- `get_bucket_index`. -/
def getBucketIndex (map : LockFreeMapExprise K V) (key : K) : Nat :=
  hasher key % map.table.length

/-- The loop of `resize` over one chain of the old table. -/
def relink : Nat → Option Ref → NodeHeap K V × List Bucket → Option (NodeHeap K V × List Bucket)
  | _, none, state => some state
  | 0, some _, _ => none
  | fuel + 1, some current, (heap, newTable) => do
      let node ← heap current
      let newIndex := hasher node.key % newTable.length
      let bucket ← newTable[newIndex]?
      let heap ← heap.setNext current bucket.head
      relink fuel node.next (heap, newTable.set newIndex ⟨some current⟩)

/-- `resize`; the old table is destroyed with the mutexes of its buckets. -/
def resize (map : LockFreeMapExprise K V) : Option (LockFreeMapExprise K V) := do
  let newTable := List.replicate (map.table.length * 2) Bucket.empty
  let (heap, newTable) ← map.table.foldlM
    (fun state bucket => relink hasher map.fresh bucket.head state) (map.heap, newTable)
  some { map with heap, table := newTable, swaps := map.swaps + 1 }

/-- `insert` up to its load check: links the new node before the head. -/
def link (map : LockFreeMapExprise K V) (now : Time) (key : K) (value : V) :
    Option (LockFreeMapExprise K V) := do
  let index := map.getBucketIndex hasher key
  let newNode := map.fresh
  let bucket ← map.table[index]?
  let node : Node K V := { key, value, timestamp := now, next := bucket.head }
  some { map with
    heap := Function.update map.heap newNode (some node)
    fresh := newNode + 1
    table := map.table.set index ⟨some newNode⟩
    numElements := map.numElements + 1 }

/-- The load check of `insert`. -/
def Loaded (map : LockFreeMapExprise K V) : Prop :=
  growThreshold * map.table.length ≤ map.numElements

instance (map : LockFreeMapExprise K V) : Decidable map.Loaded :=
  inferInstanceAs (Decidable (_ ≤ _))

/-- `insert`: the guard is of the bucket found first, also where the table grows under it. -/
def insert (map : LockFreeMapExprise K V) (now : Time) (key : K) (value : V) :
    Option (LockFreeMapExprise K V) := do
  let lock ← map.lockGuard (map.getBucketIndex hasher key)
  let map ← map.link hasher now key value
  let map ← if map.Loaded then map.resize hasher else some map
  map.unlock lock

section Keys

variable [DecidableEq K]

/-- The loop of `find`: the value of the first node with the key. -/
def findFrom (heap : NodeHeap K V) (key : K) : Nat → Option Ref → Option (Option V)
  | _, none => some none
  | 0, some _ => none
  | fuel + 1, some current => do
      let node ← heap current
      if node.key = key then some (some node.value) else findFrom heap key fuel node.next

/-- `find`; `none` inside is the result `false`, which leaves the out-parameter alone. -/
def find (map : LockFreeMapExprise K V) (key : K) : Option (Option V) := do
  let index := map.getBucketIndex hasher key
  let bucket ← map.table[index]?
  let lock ← map.lockGuard index
  let found ← findFrom map.heap key map.fresh bucket.head
  (map.unlock lock).map fun _ => found

/-- The loop of `remove`. -/
def removeFrom (map : LockFreeMapExprise K V) (index : Nat) (bucket : Bucket) (key : K) :
    Nat → Option Ref → Option Ref → Option (Bool × LockFreeMapExprise K V)
  | _, _, none => some (false, map)
  | 0, _, some _ => none
  | fuel + 1, prev, some current => do
      let node ← map.heap current
      if node.key = key then
        let (heap, bucket) ← map.heap.bypass bucket prev node.next
        some (true, { map with
          heap := Function.update heap current none
          table := map.table.set index bucket
          numElements := map.numElements - 1 })
      else removeFrom map index bucket key fuel (some current) node.next

/-- `remove`: whether the key was there. -/
def remove (map : LockFreeMapExprise K V) (key : K) : Option (Bool × LockFreeMapExprise K V) := do
  let index := map.getBucketIndex hasher key
  let bucket ← map.table[index]?
  let lock ← map.lockGuard index
  let (found, map) ← map.removeFrom index bucket key map.fresh none bucket.head
  (map.unlock lock).map fun map => (found, map)

end Keys

/-- The loop of `clear` over one chain. -/
def deleteFrom : Nat → Option Ref → NodeHeap K V → Option (NodeHeap K V)
  | _, none, heap => some heap
  | 0, some _, _ => none
  | fuel + 1, some current, heap => do
      let node ← heap current
      deleteFrom fuel node.next (Function.update heap current none)

/-- `clear`. -/
def clear (map : LockFreeMapExprise K V) : Option (LockFreeMapExprise K V) := do
  let heap ← map.table.foldlM
    (fun heap bucket => deleteFrom map.fresh bucket.head heap) map.heap
  some { map with heap, table := map.table.map fun _ => Bucket.empty, numElements := 0 }

/-- `size`. -/
def size (map : LockFreeMapExprise K V) : Int := map.numElements

/-- The loop of `traverse` over one chain: the arguments of the calls of `func`. -/
def visitFrom (heap : NodeHeap K V) : Nat → Option Ref → Option (List (K × V))
  | _, none => some []
  | 0, some _ => none
  | fuel + 1, some current => do
      let node ← heap current
      let visited ← visitFrom heap fuel node.next
      some ((node.key, node.value) :: visited)

/-- `traverse`: the arguments of the calls of `func`, in order. -/
def traverse (map : LockFreeMapExprise K V) : Option (List (K × V)) :=
  map.table.foldlM (fun calls bucket => do
    let visited ← visitFrom map.heap map.fresh bucket.head
    some (calls ++ visited)) []

/-- The loop of `expiration_task` over one chain; the fuel bounds the tests of
`*current`. -/
def sweepFrom (now : Time) :
    Nat → Link → NodeHeap K V × Bucket × Int → Option (NodeHeap K V × Bucket × Int)
  | 0, _, _ => none
  | fuel + 1, current, (heap, bucket, numElements) => do
      match ← current.load heap bucket with
      | none => some (heap, bucket, numElements)
      | some expiredNode => do
          let node ← heap expiredNode
          if expirationCheckInterval < now - node.timestamp then
            let (heap, bucket) ← current.store heap bucket node.next
            sweepFrom now fuel current
              (Function.update heap expiredNode none, bucket, numElements - 1)
          else sweepFrom now fuel (.next expiredNode) (heap, bucket, numElements)

/-- The body of the loop of `expiration_task` over the buckets. -/
def sweepBucket (map : LockFreeMapExprise K V) (now : Time) (index : Nat) :
    Option (LockFreeMapExprise K V) := do
  let bucket ← map.table[index]?
  let lock ← map.lockGuard index
  let (heap, bucket, numElements) ←
    sweepFrom now (map.fresh + 1) .head (map.heap, bucket, map.numElements)
  let map := { map with heap, table := map.table.set index bucket, numElements }
  map.unlock lock

/-- One iteration of `expiration_task`, at the clock reading `now`. -/
def sweep (map : LockFreeMapExprise K V) (now : Time) : Option (LockFreeMapExprise K V) :=
  (List.range map.table.length).foldlM (fun map index => map.sweepBucket now index) map

/-- The calls on a map, and the iterations of its expiration task. -/
inductive Call (K V : Type)
  | insert (now : Time) (key : K) (value : V)
  | find (key : K)
  | remove (key : K)
  | clear
  | sweep (now : Time)

/-- Calls executed one at a time; there is no step past a failed access. -/
def machine [DecidableEq K] : Machine (LockFreeMapExprise K V) (Call K V) where
  step map
    | .insert now key value => map.insert hasher now key value
    | .find key => (map.find hasher key).map fun _ => map
    | .remove key => (map.remove hasher key).map Prod.snd
    | .clear => map.clear
    | .sweep now => map.sweep now

end LockFreeMapExprise

end FastDb.Collect.Expiration
