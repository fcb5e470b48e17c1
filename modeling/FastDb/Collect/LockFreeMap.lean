import Mathlib.Logic.Function.Basic
import FastDb.Foundation.Chains

/-! # The bucketed map

`LockFreeMap` of `common/collect_utils.cppm`, used by one thread. A table of
buckets holds the heads and the tails of singly linked chains; `insert` links a
new node after the tail of its bucket and doubles the table first when it is
loaded, `resize` relinks the nodes themselves, and `find` and `remove` walk a
chain from its head. Nodes live in a heap. Dereferencing an address without a
node, an index outside the table, and a walk of more nodes than were ever
allocated are the outcome `none`.
-/

namespace FastDb.Collect

open Foundation

/-- The address of a node. -/
abbrev Ref := Nat

/-- `Node<K, V>`. -/
structure Node (K V : Type) where
  key : K
  value : V
  next : Option Ref

/-- `Bucket<K, V>`; a null pointer is `none`. -/
structure Bucket where
  head : Option Ref
  tail : Option Ref
deriving DecidableEq

/-- `Bucket()`. -/
def Bucket.empty : Bucket := ⟨none, none⟩

/-- The nodes by their addresses. -/
abbrev NodeHeap (K V : Type) := Ref → Option (Node K V)

/-- `LockFreeMap<K, V, Hash>`, with the heap its nodes live in. Addresses are
handed out in order; no live pointer is left to a deleted node, so its address
is not handed out again. -/
structure LockFreeMap (K V : Type) where
  heap : NodeHeap K V
  fresh : Ref
  table : List Bucket
  numElements : Nat

/-- `GROW_THRESHOLD`. -/
def growThreshold : Nat := 4

namespace NodeHeap

variable {K V : Type}

/-- `ref->next = next`. -/
def setNext (heap : NodeHeap K V) (ref : Ref) (next : Option Ref) : Option (NodeHeap K V) :=
  (heap ref).map fun node => Function.update heap ref (some { node with next })

/-- Links a node after the tail of a bucket, or as its head when it has none. -/
def linkTail (heap : NodeHeap K V) (bucket : Bucket) (ref : Ref) :
    Option (NodeHeap K V × Bucket) :=
  match bucket.tail with
  | some tail => (heap.setNext tail (some ref)).map fun heap =>
      (heap, { bucket with tail := some ref })
  | none => some (heap, { head := some ref, tail := some ref })

/-- Redirects what points at a removed node, its predecessor or the head. -/
def bypass (heap : NodeHeap K V) (bucket : Bucket) (prev next : Option Ref) :
    Option (NodeHeap K V × Bucket) :=
  match prev with
  | none => some (heap, { bucket with head := next })
  | some prev => (heap.setNext prev next).map fun heap => (heap, bucket)

end NodeHeap

namespace LockFreeMap

variable {K V : Type} (hasher : K → Nat)

/-- `LockFreeMap(num_buckets)`. -/
def new (numBuckets : Nat) : LockFreeMap K V where
  heap _ := none
  fresh := 0
  table := List.replicate numBuckets Bucket.empty
  numElements := 0

/-- `get_bucket_index`. -/
def getBucketIndex (map : LockFreeMap K V) (key : K) : Nat := hasher key % map.table.length

/-- The loop of `resize` over one chain of the old table. -/
def relink : Nat → Option Ref → NodeHeap K V × List Bucket → Option (NodeHeap K V × List Bucket)
  | _, none, state => some state
  | 0, some _, _ => none
  | fuel + 1, some current, (heap, newTable) => do
      let node ← heap current
      let index := hasher node.key % newTable.length
      let bucket ← newTable[index]?
      let (heap, bucket) ← heap.linkTail bucket current
      let heap ← heap.setNext current none
      relink fuel node.next (heap, newTable.set index bucket)

/-- `resize`. -/
def resize (map : LockFreeMap K V) : Option (LockFreeMap K V) := do
  let newTable := List.replicate (map.table.length * 2) Bucket.empty
  let (heap, newTable) ← map.table.foldlM
    (fun state bucket => relink hasher map.fresh bucket.head state) (map.heap, newTable)
  some { map with heap, table := newTable }

/-- The load check at the start of `insert`. -/
def grow (map : LockFreeMap K V) : Option (LockFreeMap K V) :=
  if growThreshold * map.table.length ≤ map.numElements then map.resize hasher else some map

/-- `insert`. -/
def insert (map : LockFreeMap K V) (key : K) (value : V) : Option (LockFreeMap K V) := do
  let map ← map.grow hasher
  let index := map.getBucketIndex hasher key
  let newNode := map.fresh
  let heap := Function.update map.heap newNode (some { key, value, next := none })
  let bucket ← map.table[index]?
  let (heap, bucket) ← NodeHeap.linkTail heap bucket newNode
  some { heap, fresh := newNode + 1, table := map.table.set index bucket,
         numElements := map.numElements + 1 }

/-- The part of `insert` under the mutex of the bucket. -/
def append (map : LockFreeMap K V) (index : Nat) (key : K) (value : V) :
    Option (LockFreeMap K V) := do
  let newNode := map.fresh
  let heap := Function.update map.heap newNode (some { key, value, next := none })
  let bucket ← map.table[index]?
  let (heap, bucket) ← NodeHeap.linkTail heap bucket newNode
  some { heap, fresh := newNode + 1, table := map.table.set index bucket,
         numElements := map.numElements + 1 }

/-- `insert` grows the table, then appends. -/
theorem insert_eq_append (map : LockFreeMap K V) (key : K) (value : V) :
    map.insert hasher key value =
      (map.grow hasher).bind fun map => map.append (map.getBucketIndex hasher key) key value :=
  rfl

section Keys

variable [DecidableEq K]

/-- The loop of `find`: the value of the first node with the key. -/
def findFrom (heap : NodeHeap K V) (key : K) : Nat → Option Ref → Option (Option V)
  | _, none => some none
  | 0, some _ => none
  | fuel + 1, some current => do
      let node ← heap current
      if node.key = key then some (some node.value) else findFrom heap key fuel node.next

/-- `find`; `none` inside is the result `false`, which leaves the out-parameter alone. -/
def find (map : LockFreeMap K V) (key : K) : Option (Option V) := do
  let bucket ← map.table[map.getBucketIndex hasher key]?
  findFrom map.heap key map.fresh bucket.head

/-- The loop of `remove`. -/
def removeFrom (map : LockFreeMap K V) (index : Nat) (bucket : Bucket) (key : K) :
    Nat → Option Ref → Option Ref → Option (Bool × LockFreeMap K V)
  | _, _, none => some (false, map)
  | 0, _, some _ => none
  | fuel + 1, prev, some current => do
      let node ← map.heap current
      if node.key = key then
        let (heap, bucket) ← map.heap.bypass bucket prev node.next
        let bucket := if some current = bucket.tail then { bucket with tail := prev } else bucket
        some (true, { map with
          heap := Function.update heap current none
          table := map.table.set index bucket
          numElements := map.numElements - 1 })
      else removeFrom map index bucket key fuel (some current) node.next

/-- `remove`: whether the key was there. -/
def remove (map : LockFreeMap K V) (key : K) : Option (Bool × LockFreeMap K V) := do
  let index := map.getBucketIndex hasher key
  let bucket ← map.table[index]?
  map.removeFrom index bucket key map.fresh none bucket.head

end Keys

/-- The loop of `clear` over one chain. -/
def deleteFrom : Nat → Option Ref → NodeHeap K V → Option (NodeHeap K V)
  | _, none, heap => some heap
  | 0, some _, _ => none
  | fuel + 1, some current, heap => do
      let node ← heap current
      deleteFrom fuel node.next (Function.update heap current none)

/-- `clear`. -/
def clear (map : LockFreeMap K V) : Option (LockFreeMap K V) := do
  let heap ← map.table.foldlM
    (fun heap bucket => deleteFrom map.fresh bucket.head heap) map.heap
  some { map with heap, table := map.table.map fun _ => Bucket.empty, numElements := 0 }

/-- `size`. -/
def size (map : LockFreeMap K V) : Nat := map.numElements

/-- The loop of `traverse` over one chain: the arguments of the calls of `func`. -/
def visitFrom (heap : NodeHeap K V) : Nat → Option Ref → Option (List (K × V))
  | _, none => some []
  | 0, some _ => none
  | fuel + 1, some current => do
      let node ← heap current
      let visited ← visitFrom heap fuel node.next
      some ((node.key, node.value) :: visited)

/-- `traverse`: the arguments of the calls of `func`, in order. -/
def traverse (map : LockFreeMap K V) : Option (List (K × V)) :=
  map.table.foldlM (fun calls bucket => do
    let visited ← visitFrom map.heap map.fresh bucket.head
    some (calls ++ visited)) []

end LockFreeMap

end FastDb.Collect
