import Mathlib.Algebra.BigOperators.Group.Finset.Basic
import FastDb.Collect.Represents

/-! # The bucketed map as an association list

The purpose of the map, stated without nodes or buckets: a list of entries in the
order of their insertion, in which a key may occur any number of times
(`FastDb.Collect.AssociationList`). A run of operations on the map answers as the
same run on the list does, up to the order in which `traverse` visits the entries
(`FastDb.Collect.LockFreeMap.run_refines`).

`insert` never looks for its key. The entries of one key form a queue that
`remove` consumes from the front, and the map is a map only on runs that never
insert a key that is present
(`FastDb.Collect.LockFreeMap.queues_and_map_of_noReinsert`).
-/

namespace FastDb.Collect

open Foundation

/-- A call of one of the operations. -/
inductive MapCall (K V : Type) where
  | insert (key : K) (value : V)
  | find (key : K)
  | remove (key : K)
  | clear
  | size
  | traverse

/-- What an operation returns. -/
inductive MapReply (K V : Type) where
  | done
  | found (value : Option V)
  | removed (existed : Bool)
  | counted (size : Nat)
  | visited (calls : List (K × V))

variable {K V : Type} [DecidableEq K]

/-- Replies that differ at most in the order of the visits of `traverse`. -/
def MapReply.Agrees : MapReply K V → MapReply K V → Prop
  | .visited left, .visited right => left.Perm right
  | left, right => left = right

namespace AssociationList

/-- One operation on a list of entries. -/
def call (entries : List (K × V)) : MapCall K V → MapReply K V × List (K × V)
  | .insert key value => (.done, entries ++ [(key, value)])
  | .find key => (.found ((entries.find? fun entry => entry.1 = key).map Prod.snd), entries)
  | .remove key => (.removed (entries.any fun entry => entry.1 = key),
      entries.eraseP fun entry => entry.1 = key)
  | .clear => (.done, [])
  | .size => (.counted entries.length, entries)
  | .traverse => (.visited entries, entries)

/-- The replies to a sequence of calls, and the entries after it. -/
def run (entries : List (K × V)) : List (MapCall K V) → List (MapReply K V) × List (K × V)
  | [] => ([], entries)
  | first :: calls =>
      let (reply, entries) := call entries first
      let (replies, entries) := run entries calls
      (reply :: replies, entries)

end AssociationList

namespace LockFreeMap

variable (hasher : K → Nat)

/-- One operation of the map. -/
def call (map : LockFreeMap K V) : MapCall K V → Option (MapReply K V × LockFreeMap K V)
  | .insert key value => (map.insert hasher key value).map fun map => (.done, map)
  | .find key => (map.find hasher key).map fun value => (.found value, map)
  | .remove key => (map.remove hasher key).map fun (existed, map) => (.removed existed, map)
  | .clear => map.clear.map fun map => (.done, map)
  | .size => some (.counted map.size, map)
  | .traverse => map.traverse.map fun calls => (.visited calls, map)

/-- The replies of the map to a sequence of calls, and the map after it. -/
def run (map : LockFreeMap K V) : List (MapCall K V) →
    Option (List (MapReply K V) × LockFreeMap K V)
  | [] => some ([], map)
  | first :: calls => do
      let (reply, map) ← map.call hasher first
      let (replies, map) ← map.run calls
      some (reply :: replies, map)

variable {hasher}

/-- **One operation** succeeds, answers as the list does, and holds what the list
then holds. -/
theorem call_refines {map : LockFreeMap K V} {entries : List (K × V)}
    (holds : Holds hasher map entries) (operation : MapCall K V) :
    ∃ reply after, map.call hasher operation = some (reply, after) ∧
      reply.Agrees (AssociationList.call entries operation).1 ∧
      Holds hasher after (AssociationList.call entries operation).2 := by
  obtain ⟨cells, represents, rfl⟩ := holds
  cases operation with
  | insert key value =>
      obtain ⟨after, ref, inserted, kept⟩ := represents.insert key value
      refine ⟨.done, after, by rw [call, inserted, Option.map_some], rfl, _, kept, ?_⟩
      rw [List.map_append, List.map_singleton]
      rfl
  | find key =>
      refine ⟨_, map, by rw [call, represents.find, Option.map_some], ?_, cells, represents, rfl⟩
      rw [AssociationList.call, List.find?_map, Option.map_map]
      rfl
  | remove key =>
      obtain ⟨after, removed, kept⟩ := represents.remove key
      refine ⟨_, after, by rw [call, removed, Option.map_some], ?_, _, kept, ?_⟩
      · rw [AssociationList.call, List.any_map]
        rfl
      · rw [AssociationList.call, List.eraseP_map]
        rfl
  | clear =>
      obtain ⟨after, cleared, kept⟩ := represents.clear
      exact ⟨.done, after, by rw [call, cleared, Option.map_some], rfl, [], kept, rfl⟩
  | size =>
      refine ⟨_, map, rfl, ?_, cells, represents, rfl⟩
      rw [AssociationList.call, size, represents.counted, List.length_map]
      rfl
  | traverse =>
      obtain ⟨visited, visits, agrees⟩ := represents.traverse
      exact ⟨.visited visited, map, by rw [call, visits, Option.map_some], agrees, cells,
        represents, rfl⟩

/-- The map answers a sequence of calls as the association list does. -/
theorem run_of_holds {map : LockFreeMap K V} {entries : List (K × V)}
    (holds : Holds hasher map entries) (calls : List (MapCall K V)) :
    ∃ replies after, map.run hasher calls = some (replies, after) ∧
      List.Forall₂ MapReply.Agrees replies (AssociationList.run entries calls).1 ∧
      Holds hasher after (AssociationList.run entries calls).2 := by
  induction calls generalizing map entries with
  | nil => exact ⟨[], map, rfl, .nil, holds⟩
  | cons first calls ih =>
      obtain ⟨reply, middle, called, agrees, kept⟩ := call_refines holds first
      obtain ⟨replies, after, ran, follows, last⟩ := ih kept
      refine ⟨reply :: replies, after, ?_, .cons agrees follows, last⟩
      simp only [run, called, ran, Option.bind_eq_bind, Option.bind_some]

/-- **Refinement.** From an empty table with at least one bucket and under any
hash function, every run of operations succeeds, whatever resizes it triggers,
and answers as the list of surviving insertions does. -/
theorem run_refines (hasher : K → Nat) {numBuckets : Nat} (nonempty : 0 < numBuckets)
    (calls : List (MapCall K V)) :
    ∃ replies after, (LockFreeMap.new numBuckets).run hasher calls = some (replies, after) ∧
      List.Forall₂ MapReply.Agrees replies (AssociationList.run [] calls).1 := by
  obtain ⟨replies, after, ran, agrees, -⟩ := run_of_holds (holds_new nonempty) calls
  exact ⟨replies, after, ran, agrees⟩

/-- A table of one bucket that the last insertion resizes. -/
theorem run_refines_resized :
    ∃ replies after, (LockFreeMap.new 1 : LockFreeMap Nat String).run id
        [.insert 1 "a", .insert 2 "b", .insert 1 "c", .remove 1, .insert 3 "d", .insert 4 "e",
          .insert 5 "f", .find 1, .size, .traverse] = some (replies, after) ∧
      List.Forall₂ MapReply.Agrees replies
        [.done, .done, .done, .removed true, .done, .done, .done, .found (some "c"), .counted 5,
          .visited [(2, "b"), (1, "c"), (3, "d"), (4, "e"), (5, "f")]] :=
  run_refines id (by decide) _

end LockFreeMap

/-! ## Repeated keys -/

/-- The operations that change the map. -/
inductive MapUpdate (K V : Type) where
  | insert (key : K) (value : V)
  | remove (key : K)
  | clear

/-- What one update does to the most recent insertion of a key. -/
def MapUpdate.latest (key : K) (value : Option V) : MapUpdate K V → Option V
  | .insert other inserted => if other = key then some inserted else value
  | .remove other => if other = key then none else value
  | .clear => none

/-- The value of the most recent insertion of a key that no removal of the key and
no clearing follows. -/
def latest (updates : List (MapUpdate K V)) (key : K) : Option V :=
  updates.foldl (MapUpdate.latest key) none

/-- What one update does to the set of keys of a map. -/
def MapUpdate.keys (keys : Finset K) : MapUpdate K V → Finset K
  | .insert key _ => Insert.insert key keys
  | .remove key => keys.erase key
  | .clear => ∅

/-- The keys a map holds after the updates. -/
def presentKeys (updates : List (MapUpdate K V)) : Finset K := updates.foldl MapUpdate.keys ∅

/-- What one update does to the queue of a key. -/
def MapUpdate.queue (key : K) (waiting : List V) : MapUpdate K V → List V
  | .insert other value => if other = key then waiting ++ [value] else waiting
  | .remove other => if other = key then waiting.tail else waiting
  | .clear => []

/-- The insertions of a key that no later removal of the key has consumed and no
clearing follows, oldest first. -/
def queue (updates : List (MapUpdate K V)) (key : K) : List V :=
  updates.foldl (MapUpdate.queue key) []

/-- The keys that were ever inserted. -/
def insertedKeys (updates : List (MapUpdate K V)) : Finset K :=
  (updates.filterMap fun
    | .insert key _ => some key
    | _ => none).toFinset

/-- No key is inserted while it is present. -/
def NoReinsert (updates : List (MapUpdate K V)) : Prop :=
  ∀ front key value back, updates = front ++ .insert key value :: back → latest front key = none

/-- The call of the operation. -/
def MapUpdate.toCall : MapUpdate K V → MapCall K V
  | .insert key value => .insert key value
  | .remove key => .remove key
  | .clear => .clear

theorem latest_concat (updates : List (MapUpdate K V)) (last : MapUpdate K V) (key : K) :
    latest (updates ++ [last]) key = last.latest key (latest updates key) :=
  List.foldl_concat ..

theorem presentKeys_concat (updates : List (MapUpdate K V)) (last : MapUpdate K V) :
    presentKeys (updates ++ [last]) = last.keys (presentKeys updates) :=
  List.foldl_concat ..

theorem queue_concat (updates : List (MapUpdate K V)) (last : MapUpdate K V) (key : K) :
    queue (updates ++ [last]) key = last.queue key (queue updates key) :=
  List.foldl_concat ..

namespace AssociationList

/-- The list the updates leave. -/
def entriesAfter (updates : List (MapUpdate K V)) : List (K × V) :=
  (run [] (updates.map MapUpdate.toCall)).2

/-- Two sequences of calls one after the other. -/
theorem run_append (entries : List (K × V)) (front back : List (MapCall K V)) :
    (run entries (front ++ back)).2 = (run (run entries front).2 back).2 := by
  induction front generalizing entries with
  | nil => rfl
  | cons first front ih => exact ih _

theorem entriesAfter_concat (updates : List (MapUpdate K V)) (last : MapUpdate K V) :
    entriesAfter (updates ++ [last]) = (call (entriesAfter updates) last.toCall).2 := by
  rw [entriesAfter, List.map_append, run_append]
  rfl

/-- The entries of a key are the queue of its insertions. -/
theorem queue_eq (updates : List (MapUpdate K V)) (key : K) :
    queue updates key =
      ((entriesAfter updates).filter fun entry => entry.1 = key).map Prod.snd := by
  induction updates using List.reverseRecOn with
  | nil => rfl
  | append_singleton updates last ih =>
      rw [entriesAfter_concat, queue_concat, ih]
      cases last with
      | insert other value =>
          simp only [MapUpdate.toCall, call, MapUpdate.queue, List.filter_append, List.map_append]
          by_cases same : other = key <;> simp [same]
      | remove other =>
          simp only [MapUpdate.toCall, call, MapUpdate.queue]
          by_cases same : other = key
          · subst same
            rw [if_pos rfl, filter_eraseP_of_imp fun _ => id, ← List.map_tail]
            -- every entry of the selection has the key, so the first one goes
            rcases selected : (entriesAfter updates).filter fun entry => entry.1 = other with
              _ | ⟨entry, rest⟩
            · rw [selected]
              rfl
            · have isKey := (List.mem_filter.mp (selected ▸ List.mem_cons_self)).2
              rw [selected, List.tail_cons, List.eraseP_cons, isKey, cond_true]
          · rw [if_neg same, filter_eraseP_of_not]
            intro entry isOther isKey
            exact same ((of_decide_eq_true isOther).symm.trans (of_decide_eq_true isKey))
      | clear => rfl

/-- The oldest entry of a key is the front of its queue. -/
theorem find_eq_head_queue (updates : List (MapUpdate K V)) (key : K) :
    ((entriesAfter updates).find? fun entry => entry.1 = key).map Prod.snd =
      (queue updates key).head? := by
  rw [queue_eq, List.head?_map, List.head?_filter]

/-- Entries are of inserted keys. -/
theorem keys_subset_insertedKeys (updates : List (MapUpdate K V)) :
    ∀ entry ∈ entriesAfter updates, entry.1 ∈ insertedKeys updates := by
  induction updates using List.reverseRecOn with
  | nil => exact fun _ member => nomatch member
  | append_singleton updates last ih =>
      intro entry member
      rw [insertedKeys, List.filterMap_append, List.toFinset_append, ← insertedKeys,
        Finset.mem_union]
      rw [entriesAfter_concat] at member
      cases last with
      | insert key value =>
          rcases List.mem_append.mp member with old | new
          · exact Or.inl (ih entry old)
          · right
            rw [List.mem_singleton.mp new, List.mem_toFinset]
            exact List.mem_singleton_self _
      | remove key => exact Or.inl (ih entry (List.eraseP_subset member))
      | clear => cases member

/-- The entries are those of the queues of the inserted keys. -/
theorem length_eq_sum_queue (updates : List (MapUpdate K V)) :
    (entriesAfter updates).length =
      ∑ key ∈ insertedKeys updates, (queue updates key).length := by
  have counted : ∀ key, (queue updates key).length =
      Multiset.count key ((entriesAfter updates).map Prod.fst : Multiset K) := by
    intro key
    rw [queue_eq, List.length_map, Multiset.coe_count, List.count_eq_length_filter,
      List.filter_map, List.length_map]
    rfl
  simp only [counted]
  rw [Multiset.sum_count_eq_card, Multiset.coe_card, List.length_map]
  intro key member
  obtain ⟨entry, present, rfl⟩ := List.mem_map.mp (Multiset.mem_coe.mp member)
  exact keys_subset_insertedKeys updates entry present

/-- **Maps.** While no present key is inserted, every key has at most one entry,
the most recent insertion of the key. -/
theorem map_of_noReinsert {updates : List (MapUpdate K V)} (fresh : NoReinsert updates) :
    ((entriesAfter updates).map Prod.fst).Nodup ∧
      (∀ key, latest updates key = (queue updates key).head?) ∧
      presentKeys updates = ((entriesAfter updates).map Prod.fst).toFinset := by
  induction updates using List.reverseRecOn with
  | nil => exact ⟨List.nodup_nil, fun _ => rfl, rfl⟩
  | append_singleton updates last ih =>
      have earlier : NoReinsert updates := by
        rintro front key value back rfl
        exact fresh front key value (back ++ [last]) (by simp only [List.append_assoc,
          List.cons_append])
      obtain ⟨distinct, latestEq, presentEq⟩ := ih earlier
      rw [entriesAfter_concat, presentKeys_concat, presentEq]
      simp only [latest_concat, queue_concat, latestEq]
      cases last with
      | insert key value =>
          have absent : queue updates key = [] := by
            rw [← List.head?_eq_none_iff, ← latestEq, fresh updates key value [] rfl]
          have outside : key ∉ (entriesAfter updates).map Prod.fst := by
            intro member
            obtain ⟨entry, present, isKey⟩ := List.mem_map.mp member
            rw [queue_eq, List.map_eq_nil_iff, List.filter_eq_nil_iff] at absent
            exact absent entry present (decide_eq_true isKey)
          refine ⟨?_, fun other => ?_, ?_⟩
          · rw [MapUpdate.toCall, call, List.map_append, List.map_singleton]
            refine List.nodup_append.mpr ⟨distinct, List.nodup_singleton _, ?_⟩
            rintro old member new single rfl
            obtain rfl : old = key := List.mem_singleton.mp single
            exact outside member
          · by_cases same : key = other
            · subst same
              simp only [MapUpdate.latest, MapUpdate.queue, ↓reduceIte, absent, List.nil_append,
                List.head?_cons]
            · simp only [MapUpdate.latest, MapUpdate.queue, same, ↓reduceIte]
          · rw [MapUpdate.keys, MapUpdate.toCall, call, List.map_append, List.toFinset_append,
              List.map_singleton, List.toFinset_cons, List.toFinset_nil, Finset.union_comm]
            rfl
      | remove key =>
          have erased : ((entriesAfter updates).eraseP fun entry => entry.1 = key).map Prod.fst =
              ((entriesAfter updates).map Prod.fst).erase key := by
            rw [List.erase_eq_eraseP, List.eraseP_map]
            congr 2
            funext entry
            exact decide_eq_decide.mpr eq_comm
          have single : (queue updates key).tail = [] := by
            have few := List.nodup_iff_count_le_one.mp distinct key
            rw [← List.length_eq_zero_iff, List.length_tail, queue_eq, List.length_map]
            rw [List.count_eq_length_filter, List.filter_map, List.length_map] at few
            exact Nat.sub_eq_zero_of_le few
          refine ⟨?_, fun other => ?_, ?_⟩
          · exact distinct.sublist (List.eraseP_sublist.map _)
          · by_cases same : key = other
            · subst same
              simp only [MapUpdate.latest, MapUpdate.queue, ↓reduceIte, single, List.head?_nil]
            · simp only [MapUpdate.latest, MapUpdate.queue, same, ↓reduceIte]
          · rw [MapUpdate.keys, MapUpdate.toCall, call, erased]
            ext other
            rw [Finset.mem_erase, List.mem_toFinset, List.mem_toFinset, distinct.mem_erase_iff]
      | clear => exact ⟨List.nodup_nil, fun _ => rfl, rfl⟩

end AssociationList

namespace LockFreeMap

variable {hasher : K → Nat}

/-- The map answers as a map would after the updates. -/
def ActsAsMap (hasher : K → Nat) (map : LockFreeMap K V) (updates : List (MapUpdate K V)) :
    Prop :=
  (∀ key, map.find hasher key = some (latest updates key)) ∧
    map.size = (presentKeys updates).card

/-- **Queues, and a map without repeated insertions.** After any updates the
entries of each key are a queue: `find` reads the oldest insertion that no
removal has consumed, which right after a removal is the next one, and `size`
counts what the queues hold. The map acts as a map when no update inserts a key
that is present. -/
theorem queues_and_map_of_noReinsert (hasher : K → Nat) {numBuckets : Nat}
    (nonempty : 0 < numBuckets) (updates : List (MapUpdate K V)) :
    ∃ replies map, (LockFreeMap.new numBuckets).run hasher (updates.map MapUpdate.toCall) =
        some (replies, map) ∧
      (∀ key, map.find hasher key = some (queue updates key).head?) ∧
      map.size = ∑ key ∈ insertedKeys updates, (queue updates key).length ∧
      (∀ earlier key, updates = earlier ++ [.remove key] →
        map.find hasher key = some (queue earlier key).tail.head?) ∧
      (NoReinsert updates → ActsAsMap hasher map updates) := by
  obtain ⟨replies, map, ran, -, cells, represents, holds⟩ :=
    run_of_holds (holds_new nonempty : Holds hasher (LockFreeMap.new numBuckets) [])
      (updates.map MapUpdate.toCall)
  change cells.map Prod.snd = AssociationList.entriesAfter updates at holds
  have finds : ∀ key, map.find hasher key = some (queue updates key).head? := by
    intro key
    rw [represents.find, ← AssociationList.find_eq_head_queue, ← holds, List.find?_map,
      Option.map_map]
    rfl
  have sized : map.size = (AssociationList.entriesAfter updates).length := by
    rw [size, represents.counted, ← holds, List.length_map]
  refine ⟨replies, map, ran, finds, ?_, ?_, ?_⟩
  · rw [sized, AssociationList.length_eq_sum_queue]
  · rintro earlier key rfl
    rw [finds, queue_concat, MapUpdate.queue, if_pos rfl]
  · intro fresh
    obtain ⟨distinct, latestEq, presentEq⟩ := AssociationList.map_of_noReinsert fresh
    refine ⟨fun key => by rw [finds, latestEq], ?_⟩
    rw [sized, presentEq, List.toFinset_card_of_nodup distinct, List.length_map]

/-- A key inserted again after its removal. -/
theorem queues_and_map_of_noReinsert_removed :
    ∃ replies map, (LockFreeMap.new 10 : LockFreeMap Nat String).run id
        [.insert 1 "One", .remove 1, .insert 1 "Uno"] = some (replies, map) ∧
      ActsAsMap id map [.insert 1 "One", .remove 1, .insert 1 "Uno"] := by
  have positive : 0 < 10 := by decide
  obtain ⟨replies, map, ran, -, -, -, acts⟩ := queues_and_map_of_noReinsert id positive
    [MapUpdate.insert 1 "One", .remove 1, .insert 1 "Uno"]
  refine ⟨replies, map, ran, acts ?_⟩
  rintro (_ | ⟨first, _ | ⟨second, _ | ⟨third, front⟩⟩⟩) key value back split
  · rfl
  · simp at split
  · simp only [List.cons_append, List.nil_append, List.cons.injEq] at split
    rw [← split.1, ← split.2.1]
    by_cases same : 1 = key <;> simp [latest, MapUpdate.latest, same]
  · simp at split

/-- The second insertion of a key is not found, is counted again, and comes to
light when the key is removed. -/
theorem insert_twice_not_map :
    ((LockFreeMap.new 10).run id [.insert 1 "One", .insert 1 "Uno", .find 1, .size, .remove 1,
        .find 1]).map Prod.fst =
      some [.done, .done, .found (some "One"), .counted 2, .removed true, .found (some "Uno")] ∧
    latest [.insert 1 "One", .insert 1 "Uno"] 1 = some "Uno" ∧
    (presentKeys [MapUpdate.insert 1 "One", .insert 1 "Uno"]).card = 1 ∧
    latest [MapUpdate.insert 1 "One", .insert 1 "Uno", .remove 1] 1 = none := by
  refine ⟨?_, ?_, ?_, ?_⟩
  · rfl
  · rfl
  · rfl
  · rfl

end LockFreeMap

end FastDb.Collect
