import Mathlib.Algebra.BigOperators.Group.Multiset.Basic
import FastDb.Collect.Represents
import FastDb.Foundation.Threads

/-! # Concurrent inserts

Threads that insert into one `LockFreeMap`. A call takes four atomic steps: the
threshold check, the resize under `resize_mutex`, the computation of the bucket
index, and the append under the mutex of the bucket. The steps of a call do not
share a lock, so the table can be doubled between the index and the append. In the
runs in which every append meets the table its index was computed for, or one in
which the index is the same, no insert is lost
(`FastDb.Collect.ConcurrentInserts.inserts_found`).
-/

namespace FastDb.Collect

open Foundation

namespace LockFreeMap

variable {K V : Type} {hasher : K → Nat} [DecidableEq K]

/-- An entry appended to a bucket that is not the one of its key does not change what
is found for the key. -/
theorem Represents.append_elsewhere {map after : LockFreeMap K V} {cells : List (Cell K V)}
    (represents : Represents hasher map cells) {index : Nat} {key : K} {value : V}
    (elsewhere : index ≠ map.getBucketIndex hasher key)
    (appended : map.append index key value = some after) :
    after.find hasher key = map.find hasher key := by
  obtain ⟨isNew, kept⟩ := represents.allocate ⟨key, value, none⟩
  have distinct := represents.distinct
  obtain ⟨bucket, indexed, appended⟩ := Option.bind_eq_some_iff.mp appended
  obtain ⟨⟨heap, linked⟩, linking, appended⟩ := Option.bind_eq_some_iff.mp appended
  cases appended
  obtain ⟨chain, tail⟩ := kept index bucket indexed
  have inClass (number : Nat) : ∀ ref ∈ (classOf (Cell.bucket hasher map.table.length) cells
      number).map Prod.fst, ref ∈ cells.map Prod.fst :=
    fun ref member => (List.filter_sublist.map Prod.fst).subset member
  obtain ⟨spec, other, ran, -, -, -, frame⟩ := NodeHeap.linkTail_spec chain tail
    (distinct.sublist (List.filter_sublist.map _)) (fun member => isNew (inClass index _ member))
    (NodeHeap.read_update_self map.heap map.fresh key value none)
  obtain ⟨rfl, rfl⟩ := Prod.mk.inj (Option.some.inj (linking.symm.trans ran))
  -- the bucket of the key and its chain are untouched
  obtain ⟨own, located, -, -⟩ := represents.bucket_of_key key
  obtain ⟨ownChain, -⟩ := kept _ own located
  have untouched : Segment heap.read own.head (classOf (Cell.bucket hasher map.table.length) cells
      (map.getBucketIndex hasher key)) none := by
    refine ownChain.congr fun ref member => frame ref fun inside => elsewhere ?_
    exact classOf_unique distinct inside member
  have short := represents.chain_length (Cell.bucket hasher map.table.length)
    (map.getBucketIndex hasher key)
  obtain ⟨_, before, oldChain, -⟩ := represents.bucket_of_key key
  obtain rfl := Option.some.inj (located.symm.trans before)
  have relocated : (map.table.set index linked)[map.getBucketIndex hasher key]? = some own := by
    rw [List.getElem?_set_ne elsewhere, located]
  simp only [LockFreeMap.find, getBucketIndex, List.length_set] at relocated located ⊢
  simp only [relocated, located, Option.bind_eq_bind, Option.bind_some]
  rw [findFrom_spec untouched (Nat.le_succ_of_le short), findFrom_spec oldChain short]

end LockFreeMap

namespace ConcurrentInserts

open LockFreeMap

variable {K V τ : Type} (hasher : K → Nat)

/-- Where a call of `insert` is, named by its next step. -/
inductive Stage (K V : Type)
  | idle
  /-- `resize()`, which the threshold check asked for. -/
  | resizing (key : K) (value : V)
  /-- `get_bucket_index(key)`. -/
  | indexing (key : K) (value : V)
  /-- The append to `table[index]`. -/
  | appending (key : K) (value : V) (index : Nat)
  deriving DecidableEq

/-- The map, and the inserts called so far. -/
structure Shared (K V : Type) where
  map : LockFreeMap K V
  calls : List (K × V)

/-- The threshold check that begins an insert, or the next step of a call. -/
inductive Event (K V : Type)
  | insert (key : K) (value : V)
  | proceed

/-- The atomic steps of a thread. -/
def atomic (_ : τ) : Shared K V × Stage K V → Event K V → Option (Shared K V × Stage K V)
  | (shared, .idle), .insert key value =>
      let shared := { shared with calls := (key, value) :: shared.calls }
      if growThreshold * shared.map.table.length ≤ shared.map.numElements then
        some (shared, .resizing key value)
      else some (shared, .indexing key value)
  | (shared, .resizing key value), .proceed =>
      (shared.map.resize hasher).map fun map => ({ shared with map }, .indexing key value)
  | (shared, .indexing key value), .proceed =>
      some (shared, .appending key value (shared.map.getBucketIndex hasher key))
  | (shared, .appending key value index), .proceed =>
      (shared.map.append index key value).map fun map => ({ shared with map }, .idle)
  | _, _ => none

/-- The map with the threads that insert. -/
abbrev State (K V τ : Type) := Threads (Shared K V) τ (Stage K V)

/-- The interleavings of the inserts. -/
def machine [DecidableEq τ] : Machine (State K V τ) (τ × Event K V) :=
  Threads.interleave (atomic hasher)

/-- A new map, and no thread in a call. -/
def initial (numBuckets : Nat) : State K V τ where
  shared := ⟨LockFreeMap.new numBuckets, []⟩
  threads _ := .idle

/-- The insert that a thread has called and that has not returned. -/
def pending : Stage K V → Multiset (K × V)
  | .idle => 0
  | .resizing key value | .indexing key value | .appending key value _ => {(key, value)}

/-- The index of an append is that of its key. -/
def Fits (map : LockFreeMap K V) : Stage K V → Prop
  | .appending key _ index => index = map.getBucketIndex hasher key
  | _ => True

instance (map : LockFreeMap K V) : ∀ stage, Decidable (Fits hasher map stage)
  | .appending _ _ _ => inferInstanceAs (Decidable (_ = _))
  | .idle | .resizing _ _ | .indexing _ _ => inferInstanceAs (Decidable True)

/-- The thread does not append at an index that is out of date. -/
def Current (state : State K V τ) (event : τ × Event K V) : Prop :=
  Fits hasher state.shared.map (state.threads event.1)

instance (state : State K V τ) (event : τ × Event K V) :
    Decidable (Current hasher state event) :=
  inferInstanceAs (Decidable (Fits ..))

/-- The map holds the inserts that have returned, each in the bucket of its key. -/
def Kept [Fintype τ] (state : State K V τ) : Prop :=
  ∃ cells, Represents hasher state.shared.map cells ∧
    (state.shared.calls : Multiset (K × V)) =
      (cells.map Prod.snd : List (K × V)) + ∑ thread, pending (state.threads thread)

variable {hasher} [DecidableEq τ] [Fintype τ] {state : State K V τ}

/-- **One step** keeps the account. -/
theorem Kept.step {shared after : Shared K V} {threads : τ → Stage K V} {thread : τ}
    {event : Event K V} {stage : Stage K V} (kept : Kept hasher ⟨shared, threads⟩)
    (current : Current hasher ⟨shared, threads⟩ (thread, event))
    (ran : atomic hasher thread (shared, threads thread) event = some (after, stage)) :
    Kept hasher ⟨after, Function.update threads thread stage⟩ := by
  obtain ⟨cells, represents, account⟩ := kept
  dsimp only [Current] at account current represents
  cases spelled : threads thread with
  | idle =>
      rw [spelled] at ran
      cases event with
      | insert key value =>
          have called : after = { shared with calls := (key, value) :: shared.calls } ∧
              pending stage = {(key, value)} := by
            dsimp only [atomic] at ran
            split at ran
            all_goals
              cases ran
              exact ⟨rfl, rfl⟩
          obtain ⟨rfl, carried⟩ := called
          refine ⟨cells, represents, Threads.account_update account ?_⟩
          rw [spelled, carried, ← Multiset.cons_coe, ← Multiset.singleton_add, pending]
          ac_rfl
      | proceed => cases ran
  | resizing key value =>
      rw [spelled] at ran
      cases event with
      | insert => cases ran
      | proceed =>
          obtain ⟨grown, resized, kept, -⟩ := represents.resize
          obtain ⟨map, also, ran⟩ := Option.map_eq_some_iff.mp ran
          obtain rfl := Option.some.inj (resized.symm.trans also)
          cases ran
          refine ⟨cells, kept, Threads.account_update account ?_⟩
          rw [spelled, pending, pending]
  | indexing key value =>
      rw [spelled] at ran
      cases event with
      | insert => cases ran
      | proceed =>
          cases ran
          refine ⟨cells, represents, Threads.account_update account ?_⟩
          rw [spelled, pending, pending]
  | appending key value index =>
      rw [spelled] at ran current
      cases event with
      | insert => cases ran
      | proceed =>
          obtain ⟨grown, appended, kept⟩ := represents.append key value
          obtain ⟨map, also, ran⟩ := Option.map_eq_some_iff.mp ran
          rw [Fits] at current
          rw [current] at also
          obtain rfl := Option.some.inj (appended.symm.trans also)
          cases ran
          refine ⟨cells ++ [(shared.map.fresh, key, value)], kept,
            Threads.account_update account ?_⟩
          rw [spelled, pending, pending, List.map_append, ← Multiset.coe_add, add_zero, add_assoc,
            List.map_singleton, Multiset.coe_singleton, add_comm (G := Multiset (K × V)) {_}]

theorem kept_of_reaches {numBuckets : Nat} (nonempty : 0 < numBuckets)
    (reached : (machine hasher).Reaches (Current hasher) (initial numBuckets) state) :
    Kept hasher state := by
  refine Threads.reaches_invariant reached (Kept hasher) ⟨[], represents_new nonempty, ?_⟩ ?_
  · simp [initial, pending]
  · intro shared threads thread event after stage kept current ran
    exact kept.step current ran

/-- A call goes on, unless its index is out of date. -/
theorem Kept.proceeds (kept : Kept hasher state) {thread : τ}
    (busy : state.threads thread ≠ .idle) (current : Current hasher state (thread, .proceed)) :
    ∃ next, (machine hasher).step state (thread, .proceed) = some next := by
  obtain ⟨cells, represents, -⟩ := kept
  suffices ran : ∃ after, atomic hasher thread (state.shared, state.threads thread) .proceed =
      some after by
    obtain ⟨after, ran⟩ := ran
    exact ⟨_, congrArg (Option.map _) ran⟩
  unfold Current at current
  cases spelled : state.threads thread with
  | idle => exact absurd spelled busy
  | resizing key value =>
      obtain ⟨grown, resized, -⟩ := represents.resize
      exact ⟨_, congrArg (Option.map _) resized⟩
  | indexing key value => exact ⟨_, rfl⟩
  | appending key value index =>
      obtain ⟨grown, appended, -⟩ := represents.append key value
      rw [spelled, Fits] at current
      rw [← current] at appended
      exact ⟨_, congrArg (Option.map _) appended⟩

omit [DecidableEq τ] in
/-- When all inserts have returned, the map holds them. -/
theorem Kept.perm_of_idle (kept : Kept hasher state)
    (idle : ∀ thread, state.threads thread = .idle) :
    ∃ cells, Represents hasher state.shared.map cells ∧
      state.shared.calls.Perm (cells.map Prod.snd) := by
  obtain ⟨cells, represents, account⟩ := kept
  refine ⟨cells, represents, Multiset.coe_eq_coe.mp ?_⟩
  rw [account, Finset.sum_eq_zero (fun thread _ => by rw [idle thread, pending]), add_zero]

/-- **No lost insert.** In every interleaving of the atomic steps in which each append finds
its key in the bucket of its index, once all inserts have returned every inserted key
is found and the size is the number of the inserts. Until then the call of every
thread can go on, unless its index is out of date: then an append, the first of the
run, leaves what is found for its key as it was. -/
theorem inserts_found [DecidableEq K] {numBuckets : Nat} (nonempty : 0 < numBuckets)
    (reached : (machine hasher).Reaches (Current hasher) (initial numBuckets) state) :
    ((∀ thread, state.threads thread = .idle) →
      (∀ call ∈ state.shared.calls, ∃ value, (call.1, value) ∈ state.shared.calls ∧
        state.shared.map.find hasher call.1 = some (some value)) ∧
      state.shared.map.size = state.shared.calls.length) ∧
    (∀ thread, state.threads thread ≠ .idle → Current hasher state (thread, .proceed) →
      ∃ next, (machine hasher).step state (thread, .proceed) = some next) ∧
    ∀ thread key value index next, state.threads thread = .appending key value index →
      ¬ Current hasher state (thread, .proceed) →
      (machine hasher).step state (thread, .proceed) = some next →
      next.shared.map.find hasher key = state.shared.map.find hasher key := by
  have kept := kept_of_reaches nonempty reached
  refine ⟨fun idle => ?_, fun thread => kept.proceeds, ?_⟩
  · obtain ⟨cells, represents, called⟩ := kept.perm_of_idle idle
    refine ⟨fun call member => ?_, ?_⟩
    · obtain ⟨cell, present, same⟩ := List.mem_map.mp (called.mem_iff.mp member)
      have held : Cell.hasKey call.1 cell = true := by
        rw [Cell.hasKey, decide_eq_true_eq, same]
      have searched := List.find?_isSome.mpr ⟨cell, present, held⟩
      obtain ⟨first, located⟩ := Option.isSome_iff_exists.mp searched
      have hasKey := List.find?_some located
      rw [Cell.hasKey, decide_eq_true_eq] at hasKey
      refine ⟨first.2.2, called.mem_iff.mpr (List.mem_map.mpr
        ⟨first, List.mem_of_find?_eq_some located, ?_⟩), ?_⟩
      · rw [← hasKey]
      · rw [represents.find, located, Option.map_some]
    · rw [LockFreeMap.size, represents.counted, called.length_eq, List.length_map]
  · intro thread key value index next spelled stale stepped
    obtain ⟨cells, represents, -⟩ := kept
    obtain ⟨shared, stage, ran, rfl⟩ := Threads.interleave_step stepped
    rw [Current, spelled, Fits] at stale
    rw [spelled] at ran
    obtain ⟨map, appended, ran⟩ := Option.map_eq_some_iff.mp ran
    cases ran
    exact represents.append_elsewhere stale appended

/-- Two threads insert in turn, and the table is doubled between. -/
theorem inserts_found_resized :
    ∃ state : State Nat Nat (Fin 2),
      (machine fun key => key).execute (Current fun key => key)
        [(0, .insert 1 10), (1, .insert 2 20), (1, .proceed), (0, .proceed), (1, .proceed),
          (0, .proceed), (0, .insert 3 30), (0, .proceed), (0, .proceed), (0, .insert 4 40),
          (0, .proceed), (0, .proceed), (1, .insert 5 50), (1, .proceed), (1, .proceed),
          (1, .proceed)] (initial 1) = some state ∧
      state.shared.map.table.length = 2 ∧ state.shared.map.size = state.shared.calls.length ∧
      ∃ value, (5, value) ∈ state.shared.calls ∧
        state.shared.map.find (fun key => key) 5 = some (some value) := by
  have ran : ((machine fun key => key).execute (Current fun key => key)
      [(0, .insert 1 10), (1, .insert 2 20), (1, .proceed), (0, .proceed), (1, .proceed),
        (0, .proceed), (0, .insert 3 30), (0, .proceed), (0, .proceed), (0, .insert 4 40),
        (0, .proceed), (0, .proceed), (1, .insert 5 50), (1, .proceed), (1, .proceed),
        (1, .proceed)] (initial 1 : State Nat Nat (Fin 2))).map (fun state =>
          decide (state.shared.map.table.length = 2 ∧ (5, 50) ∈ state.shared.calls ∧
            ∀ thread, state.threads thread = .idle)) = some true := by
    decide +kernel
  obtain ⟨state, executed, checked⟩ := Option.map_eq_some_iff.mp ran
  obtain ⟨doubled, called, idle⟩ := of_decide_eq_true checked
  obtain ⟨found, sized⟩ := (inserts_found Nat.one_pos (Machine.reaches_of_execute executed)).1 idle
  exact ⟨state, executed, doubled, sized, found (5, 50) called⟩

/-- The table is doubled between the index and the append of key 1, which is not found
once all inserts have returned. -/
theorem insert_lost :
    ∃ state : State Nat Nat (Fin 3),
      (machine fun key => key).execute Machine.anyStep
        [(1, .insert 0 10), (1, .proceed), (1, .proceed), (1, .insert 2 20), (1, .proceed),
          (1, .proceed), (1, .insert 4 30), (1, .proceed), (1, .proceed),
          (0, .insert 1 40), (0, .proceed), (1, .insert 6 50), (1, .proceed), (1, .proceed),
          (2, .insert 8 60), (2, .proceed), (0, .proceed), (2, .proceed), (2, .proceed)]
        (initial 1) = some state ∧
      (∀ thread, state.threads thread = .idle) ∧ (1, 40) ∈ state.shared.calls ∧
      state.shared.map.find (fun key => key) 1 = some none := by
  have ran : ((machine fun key => key).execute Machine.anyStep
      [(1, .insert 0 10), (1, .proceed), (1, .proceed), (1, .insert 2 20), (1, .proceed),
        (1, .proceed), (1, .insert 4 30), (1, .proceed), (1, .proceed),
        (0, .insert 1 40), (0, .proceed), (1, .insert 6 50), (1, .proceed), (1, .proceed),
        (2, .insert 8 60), (2, .proceed), (0, .proceed), (2, .proceed), (2, .proceed)]
      (initial 1 : State Nat Nat (Fin 3))).map (fun state => decide
        ((∀ thread, state.threads thread = .idle) ∧ (1, 40) ∈ state.shared.calls ∧
          state.shared.map.find (fun key => key) 1 = some none)) = some true := by
    decide +kernel
  obtain ⟨state, executed, checked⟩ := Option.map_eq_some_iff.mp ran
  exact ⟨state, executed, of_decide_eq_true checked⟩

end ConcurrentInserts

end FastDb.Collect
