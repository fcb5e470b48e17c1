import FastDb.Collect.ExpiringEntries

/-! # Runs of an expiring map

An insertion that reaches the growth threshold has no step: it unlocks a mutex that was
destroyed with the table that `resize` swapped out. In the runs before the first of them the
counter is the number of entries and stays below the threshold, a sweep deletes exactly the
expired entries of each bucket (`FastDb.Collect.Expiration.expiring_accounting`), and a search
is answered with the newest entry of its key; what `resize` makes of the table answers with the
oldest (`FastDb.Collect.Expiration.newest_until_resize`).
-/

namespace FastDb.Collect.Expiration

open Foundation LockFreeMapExprise

variable {K V : Type} {hasher : K → Nat} {map : LockFreeMapExprise K V} {cells : List (Cell K V)}

/-- A call that leaves the table in place: any but an insertion that reaches the growth
threshold. -/
def KeepsTable (map : LockFreeMapExprise K V) : Call K V → Prop
  | .insert .. => map.numElements + 1 < growThreshold * map.table.length
  | _ => True

instance (map : LockFreeMapExprise K V) : ∀ call, Decidable (KeepsTable map call)
  | .insert .. => inferInstanceAs (Decidable (_ < _))
  | .find _ | .remove _ | .clear | .sweep _ => inferInstanceAs (Decidable True)

namespace LockFreeMapExprise

/-- What the load check of an insertion says of the map before it. -/
theorem loaded_iff_of_link (represents : Represents hasher map cells)
    {linked : LockFreeMapExprise K V} {cell : Cell K V}
    (sized : linked.table.length = map.table.length)
    (kept : Represents hasher linked (cell :: cells)) :
    linked.Loaded ↔ growThreshold * map.table.length ≤ map.numElements + 1 := by
  unfold Loaded
  rw [sized, kept.counted, List.length_cons, represents.counted, Int.natCast_succ]

/-- **Insert** puts its entry before all others, below the growth threshold. -/
theorem Represents.insert (represents : Represents hasher map cells) (now : Time) (key : K)
    (value : V) (below : KeepsTable map (.insert now key value)) :
    ∃ after, map.insert hasher now key value = some after ∧
      after.table.length = map.table.length ∧
      Represents hasher after ((map.fresh, ⟨key, value, now⟩) :: cells) := by
  obtain ⟨bucket, indexed, -⟩ := represents.bucket_of_key key
  obtain ⟨linked, ran, sized, unswapped, kept⟩ := represents.link now key value
  have light : ¬linked.Loaded := by
    rw [loaded_iff_of_link represents sized kept]
    exact Int.not_le.mpr below
  refine ⟨linked, ?_, sized, kept⟩
  simp only [LockFreeMapExprise.insert, lockGuard_of_bucket indexed, ran, light, ↓reduceIte,
    Option.bind_eq_bind, Option.bind_some, unlock_of_swaps unswapped]

/-- **Insert at the threshold** links its entry and resizes, and then unlocks a mutex that the
resize has destroyed. -/
theorem Represents.insert_loaded (represents : Represents hasher map cells) (now : Time) (key : K)
    (value : V) (full : ¬KeepsTable map (.insert now key value)) :
    ∃ linked resized, map.link hasher now key value = some linked ∧
      Represents hasher linked ((map.fresh, ⟨key, value, now⟩) :: cells) ∧
      linked.resize hasher = some resized ∧
      Represents hasher resized ((map.fresh, ⟨key, value, now⟩) :: cells).reverse ∧
      map.insert hasher now key value = none := by
  obtain ⟨bucket, indexed, -⟩ := represents.bucket_of_key key
  obtain ⟨linked, ran, sized, unswapped, kept⟩ := represents.link now key value
  obtain ⟨resized, moved, -, swapped, reversed⟩ := kept.resize
  have loaded : linked.Loaded := by
    rw [loaded_iff_of_link represents sized kept]
    exact Int.not_lt.mp full
  have destroyed : map.swaps < resized.swaps := by
    rw [swapped, unswapped]
    exact Nat.lt_succ_self _
  refine ⟨linked, resized, ran, kept, moved, reversed, ?_⟩
  simp only [LockFreeMapExprise.insert, lockGuard_of_bucket indexed, ran, loaded, ↓reduceIte, moved,
    Option.bind_eq_bind, Option.bind_some, unlock_of_swapped destroyed]

end LockFreeMapExprise

/-- The cells are met newest first. -/
def NewestFirst (cells : List (Cell K V)) : Prop :=
  cells.Pairwise fun first second => second.1 < first.1

/-- A map that represents some cells, newest first, and is not loaded. -/
def Accounted (hasher : K → Nat) (map : LockFreeMapExprise K V) : Prop :=
  (∃ cells, Represents hasher map cells ∧ NewestFirst cells) ∧
    map.numElements < growThreshold * map.table.length

/-- **A call that leaves the table in place** succeeds and keeps the account. -/
theorem Accounted.step [DecidableEq K] (accounted : Accounted hasher map) {call : Call K V}
    (keeps : KeepsTable map call) :
    ∃ after, (machine hasher).step map call = some after ∧ Accounted hasher after := by
  obtain ⟨⟨cells, represents, newest⟩, light⟩ := accounted
  have counted := represents.counted
  cases call with
  | insert now key value =>
      obtain ⟨after, ran, sized, kept⟩ := represents.insert now key value keeps
      refine ⟨after, ran, ⟨_, kept, List.pairwise_cons.mpr ⟨represents.allocated, newest⟩⟩, ?_⟩
      rw [kept.counted, sized, List.length_cons, Int.natCast_succ, ← counted]
      exact keeps
  | find key =>
      exact ⟨map, by simp only [machine, represents.find, Option.map_some],
        ⟨cells, represents, newest⟩, light⟩
  | remove key =>
      obtain ⟨after, ran, sized, kept⟩ := represents.remove key
      refine ⟨after, by simp only [machine, ran, Option.map_some],
        ⟨_, kept, newest.sublist List.eraseP_sublist⟩, ?_⟩
      have shorter := (List.eraseP_sublist (p := Cell.hasKey key) (l := cells)).length_le
      rw [kept.counted, sized]
      omega
  | clear =>
      obtain ⟨after, ran, sized, kept⟩ := represents.clear
      refine ⟨after, ran, ⟨_, kept, List.Pairwise.nil⟩, ?_⟩
      rw [kept.counted, sized, List.length_nil]
      omega
  | sweep now =>
      obtain ⟨after, ran, sized, kept⟩ := represents.sweep now
      refine ⟨after, ran, ⟨_, kept, newest.sublist List.filter_sublist⟩, ?_⟩
      have shorter := List.length_filter_le (fun cell => !Cell.expired now cell) cells
      rw [kept.counted, sized]
      omega

/-- **Only the calls that leave the table in place** have a step. -/
theorem Accounted.step_eq_none_iff [DecidableEq K] (accounted : Accounted hasher map)
    (call : Call K V) : (machine hasher).step map call = none ↔ ¬KeepsTable map call := by
  constructor
  · intro undefined keeps
    obtain ⟨after, ran, -⟩ := accounted.step keeps
    rw [undefined] at ran
    cases ran
  · intro full
    obtain ⟨⟨cells, represents, -⟩, -⟩ := accounted
    cases call with
    | insert now key value =>
        obtain ⟨-, -, -, -, -, -, undefined⟩ := represents.insert_loaded now key value full
        exact undefined
    | find | remove | clear | sweep => exact absurd trivial full

theorem accounted_new {numBuckets : Nat} (nonempty : 0 < numBuckets) :
    Accounted (V := V) hasher (new numBuckets) := by
  refine ⟨⟨[], represents_new nonempty, List.Pairwise.nil⟩, ?_⟩
  have sized : (new numBuckets : LockFreeMapExprise K V).table.length = numBuckets :=
    List.length_replicate
  have counted : (new numBuckets : LockFreeMapExprise K V).numElements = 0 := rfl
  rw [sized, counted]
  unfold growThreshold
  omega

theorem accounted_of_reaches [DecidableEq K] {numBuckets : Nat} (nonempty : 0 < numBuckets)
    (reached : (machine hasher).Reaches KeepsTable (new numBuckets) map) :
    Accounted hasher map := by
  refine reached.invariant (Accounted hasher) (accounted_new nonempty) ?_
  intro before call after accounted keeps stepped
  obtain ⟨next, ran, kept⟩ := accounted.step keeps
  exact Option.some.inj (ran.symm.trans stepped) ▸ kept

/-- The entries of a chain, in order. -/
def entriesFrom (heap : NodeHeap K V) : Nat → Option Ref → Option (List (Entry K V))
  | _, none => some []
  | 0, some _ => none
  | fuel + 1, some current => do
      let node ← heap current
      let entries ← entriesFrom heap fuel node.next
      some (node.toEntry :: entries)

/-- The entries of a bucket, in order. -/
def bucketEntries (map : LockFreeMapExprise K V) (index : Nat) : Option (List (Entry K V)) := do
  let bucket ← map.table[index]?
  entriesFrom map.heap map.fresh bucket.head

/-- The entries of a chain in order. -/
theorem entriesFrom_spec {fuel : Nat} {current : Option Ref} {heap : NodeHeap K V}
    (chain : Segment heap.read current cells none) (enough : cells.length ≤ fuel) :
    entriesFrom heap fuel current = some (cells.map Prod.snd) := by
  refine chain.walk enough (fun fuel => by cases fuel <;> rfl) ?_
  intro fuel ref entry next cells found behind
  simp only [entriesFrom, NodeHeap.read_eq_some.mp found, Option.bind_eq_bind, Option.bind_some,
    behind, List.map_cons]

/-- The entries of a bucket are the cells of its class. -/
theorem bucketEntries_spec (represents : Represents hasher map cells) {index : Nat}
    (inside : index < map.table.length) :
    bucketEntries map index =
      some ((classOf (Cell.bucket hasher map.table.length) cells index).map Prod.snd) := by
  have indexed := List.getElem?_eq_getElem inside
  simp only [bucketEntries, indexed, Option.bind_eq_bind, Option.bind_some]
  exact entriesFrom_spec (represents.chained index _ indexed) (represents.chain_length _ _)

/-- A sweep filters every bucket. -/
theorem bucketEntries_sweep (represents : Represents hasher map cells) (now : Time) :
    ∃ swept, map.sweep now = some swept ∧ swept.table.length = map.table.length ∧
      ∀ index, index < map.table.length → ∃ entries, bucketEntries map index = some entries ∧
        bucketEntries swept index = some (entries.filter fun entry =>
          now - entry.timestamp ≤ expirationCheckInterval) := by
  obtain ⟨swept, ran, sized, kept⟩ := represents.sweep now
  refine ⟨swept, ran, sized, fun index inside => ⟨_, bucketEntries_spec represents inside, ?_⟩⟩
  rw [bucketEntries_spec kept (sized.symm ▸ inside), sized, classOf_filter, List.filter_map]
  congr 2
  apply List.filter_congr
  intro cell _
  simp only [Cell.expired, Function.comp_apply, ← decide_not, Int.not_lt]

/-- **Accounting.** In every run whose calls leave the table in place the size is the number of
entries a traversal visits, the counter is not negative and below the growth threshold, and a
sweep deletes from each bucket exactly the entries older than the interval. The next call has
no step exactly when it does not leave the table in place. -/
theorem expiring_accounting [DecidableEq K] (hasher : K → Nat) {numBuckets : Nat}
    (nonempty : 0 < numBuckets) {map : LockFreeMapExprise K V}
    (reached : (machine hasher).Reaches KeepsTable (new numBuckets) map) :
    (∃ visited, map.traverse = some visited ∧ map.size = visited.length) ∧
      0 ≤ map.numElements ∧ map.numElements < growThreshold * map.table.length ∧
      (∀ call, (machine hasher).step map call = none ↔ ¬KeepsTable map call) ∧
      ∀ now, ∃ swept, map.sweep now = some swept ∧ swept.table.length = map.table.length ∧
        ∀ index, index < map.table.length → ∃ entries, bucketEntries map index = some entries ∧
          bucketEntries swept index = some (entries.filter fun entry =>
            now - entry.timestamp ≤ expirationCheckInterval) := by
  have accounted := accounted_of_reaches nonempty reached
  obtain ⟨⟨cells, represents, -⟩, light⟩ := id accounted
  have counted := represents.counted
  refine ⟨?_, ?_, light, accounted.step_eq_none_iff, bucketEntries_sweep represents⟩
  · obtain ⟨visited, ran, same⟩ := represents.traverse
    refine ⟨visited, ran, ?_⟩
    rw [same.length_eq, List.length_map]
    exact counted
  · omega

/-- Three insertions into one bucket and a sweep, and a fourth one that can still follow. -/
theorem expiring_accounting_swept :
    ∃ map, (machine fun key => key).execute KeepsTable
        [.insert 0 1 10, .insert 5 1 20, .insert 0 2 30, .sweep 1000000001]
        (new 1 : LockFreeMapExprise Nat Nat) = some map ∧
      map.traverse = some [(1, 20)] ∧
      (∃ visited, map.traverse = some visited ∧ map.size = visited.length) ∧
      (machine fun key => key).step map (.insert 0 3 40) ≠ none := by
  have ran : ((machine fun key => key).execute KeepsTable
      [.insert 0 1 10, .insert 5 1 20, .insert 0 2 30, .sweep 1000000001]
      (new 1 : LockFreeMapExprise Nat Nat)).map (fun map => decide
        (map.traverse = some [(1, 20)] ∧ KeepsTable map (.insert 0 3 40))) = some true := by
    decide +kernel
  obtain ⟨map, executed, checked⟩ := Option.map_eq_some_iff.mp ran
  obtain ⟨traversed, keeps⟩ := of_decide_eq_true checked
  have account := expiring_accounting (fun key => key) Nat.one_pos
    (Machine.reaches_of_execute executed)
  exact ⟨map, executed, traversed, account.1, fun undefined =>
    (account.2.2.2.1 (.insert 0 3 40)).mp undefined keeps⟩

/-- The fourth insertion into one bucket links its entry, resizes, and unlocks a mutex that is
no more. -/
theorem fourth_insert_undefined :
    ∃ map linked, (machine fun key => key).execute Machine.anyStep
        [.insert 0 1 10, .insert 0 2 20, .insert 0 3 30]
        (new 1 : LockFreeMapExprise Nat Nat) = some map ∧
      map.link (fun key => key) 0 4 40 = some linked ∧ linked.Loaded ∧
      (linked.resize fun key => key).isSome ∧
      (machine fun key => key).step map (.insert 0 4 40) = none := by
  have ran : ((machine fun key => key).execute Machine.anyStep
      [.insert 0 1 10, .insert 0 2 20, .insert 0 3 30]
      (new 1 : LockFreeMapExprise Nat Nat)).bind (fun map =>
        (map.link (fun key => key) 0 4 40).map fun linked => decide (linked.Loaded ∧
          (linked.resize fun key => key).isSome ∧
          ((machine fun key => key).step map (.insert 0 4 40)).isNone)) = some true := by
    decide +kernel
  obtain ⟨map, executed, ran⟩ := Option.bind_eq_some_iff.mp ran
  obtain ⟨linked, linking, checked⟩ := Option.map_eq_some_iff.mp ran
  obtain ⟨loaded, resizes, undefined⟩ := of_decide_eq_true checked
  exact ⟨map, linked, executed, linking, loaded, resizes, Option.isNone_iff_eq_none.mp undefined⟩

/-- The node of a key that was inserted last of those that survive. -/
def Newest (map : LockFreeMapExprise K V) (key : K) (ref : Ref) (node : Node K V) : Prop :=
  map.heap ref = some node ∧ node.key = key ∧
    ∀ other twin, map.heap other = some twin → twin.key = key → other ≤ ref

/-- The node of a key that was inserted first of those that survive. -/
def Oldest (map : LockFreeMapExprise K V) (key : K) (ref : Ref) (node : Node K V) : Prop :=
  map.heap ref = some node ∧ node.key = key ∧
    ∀ other twin, map.heap other = some twin → twin.key = key → ref ≤ other

/-- Every cell has a node in the heap. -/
theorem node_of_cell (represents : Represents hasher map cells) {cell : Cell K V}
    (member : cell ∈ cells) : ∃ next, map.heap cell.1 = some ⟨cell.2, next⟩ := by
  have inside : Cell.bucket hasher map.table.length cell < map.table.length :=
    Nat.mod_lt _ represents.buckets
  obtain ⟨next, found⟩ := (represents.chained _ _ (List.getElem?_eq_getElem inside)).read_of_mem
    (mem_classOf.mpr ⟨member, rfl⟩)
  exact ⟨next, NodeHeap.read_eq_some.mp found⟩

/-- Every node in the heap is that of a cell. -/
theorem cell_of_node (represents : Represents hasher map cells) {ref : Ref} {node : Node K V}
    (found : map.heap ref = some node) : (ref, node.toEntry) ∈ cells := by
  have owned : ref ∈ cells.map Prod.fst := by
    by_contra outside
    have absent := represents.owned ref outside
    rw [NodeHeap.read, found, Option.map_some] at absent
    cases absent
  obtain ⟨⟨_, entry⟩, member, rfl⟩ := List.mem_map.mp owned
  obtain ⟨next, spelled⟩ := node_of_cell represents member
  obtain rfl := Option.some.inj (found.symm.trans spelled)
  exact member

section Searches

variable [DecidableEq K]

/-- A search of every key is answered with the value of the chosen node of the key, and finds
nothing when there is no node of it. -/
def Answers (hasher : K → Nat) (map : LockFreeMapExprise K V)
    (chosen : LockFreeMapExprise K V → K → Ref → Node K V → Prop) : Prop :=
  ∀ key, (∀ ref node, chosen map key ref node → map.find hasher key = some (some node.value)) ∧
    ((∀ ref node, map.heap ref = some node → node.key ≠ key) → map.find hasher key = some none)

/-- A search returns the value of the node of its key that no other precedes. -/
theorem find_first (represents : Represents hasher map cells) (precedes : Ref → Ref → Prop)
    (ordered : cells.Pairwise fun first second => precedes first.1 second.1) {key : K} {ref : Ref}
    {node : Node K V} (found : map.heap ref = some node) (keyed : node.key = key)
    (first : ∀ other twin, map.heap other = some twin → twin.key = key → ¬precedes other ref) :
    map.find hasher key = some (some node.value) := by
  have member := cell_of_node represents found
  have hasKey : Cell.hasKey key (ref, node.toEntry) = true := decide_eq_true keyed
  rw [represents.find]
  cases search : cells.find? (Cell.hasKey key) with
  | none => exact absurd hasKey (List.find?_eq_none.mp search _ member)
  | some met =>
      obtain ⟨metKeyed, front, back, split, missed⟩ := List.find?_eq_some_iff_append.mp search
      have metMember : met ∈ cells := List.mem_of_find?_eq_some search
      rw [Option.map_some]
      rw [split] at member
      rcases List.mem_append.mp member with earlier | later
      · have absent := missed _ earlier
        rw [hasKey] at absent
        cases absent
      · rcases List.mem_cons.mp later with rfl | behind
        · rfl
        · rw [split] at ordered
          have before := (List.pairwise_cons.mp (List.pairwise_append.mp ordered).2.1).1 _ behind
          obtain ⟨next, metFound⟩ := node_of_cell represents metMember
          exact absurd before (first _ _ metFound (of_decide_eq_true metKeyed))

/-- A search of a key without nodes finds nothing. -/
theorem find_absent (represents : Represents hasher map cells) {key : K}
    (absent : ∀ ref node, map.heap ref = some node → node.key ≠ key) :
    map.find hasher key = some none := by
  rw [represents.find, List.find?_eq_none.mpr, Option.map_none]
  intro cell member keyed
  obtain ⟨next, found⟩ := node_of_cell represents member
  exact absent _ _ found (of_decide_eq_true keyed)

/-- A map with the newest cells first answers with the newest value. -/
theorem answers_newest (represents : Represents hasher map cells) (newest : NewestFirst cells) :
    Answers hasher map Newest := by
  refine fun key => ⟨fun ref node last => ?_, find_absent represents⟩
  obtain ⟨found, keyed, latest⟩ := last
  exact find_first represents (fun first second => second < first) newest found keyed
    fun other twin present isKey => Nat.not_lt.mpr (latest other twin present isKey)

/-- In the reverse order the oldest node of a key is met. -/
theorem answers_oldest (represents : Represents hasher map cells.reverse)
    (newest : NewestFirst cells) : Answers hasher map Oldest := by
  refine fun key => ⟨fun ref node first => ?_, find_absent represents⟩
  obtain ⟨found, keyed, earliest⟩ := first
  exact find_first represents (fun first second => first < second)
    (List.pairwise_reverse.mpr newest) found keyed
    fun other twin present isKey => Nat.not_lt.mpr (earliest other twin present isKey)

/-- **Newest until a resize.** In every run whose calls leave the table in place, every search is
answered with the newest surviving entry of its key. An insertion that does not leave it in
place, and only such a call, has no step; the table that it has resized answers with the oldest
entries, where the one before the resize answers with the newest. -/
theorem newest_until_resize (hasher : K → Nat) {numBuckets : Nat} (nonempty : 0 < numBuckets)
    {map : LockFreeMapExprise K V}
    (reached : (machine hasher).Reaches KeepsTable (new numBuckets) map) :
    Answers hasher map Newest ∧
      (∀ call, (machine hasher).step map call = none ↔ ¬KeepsTable map call) ∧
      ∀ now key value, ¬KeepsTable map (.insert now key value) →
        ∃ linked resized, map.link hasher now key value = some linked ∧
          linked.resize hasher = some resized ∧
          Answers hasher linked Newest ∧ Answers hasher resized Oldest := by
  have accounted := accounted_of_reaches nonempty reached
  obtain ⟨⟨cells, represents, newest⟩, light⟩ := id accounted
  refine ⟨answers_newest represents newest, accounted.step_eq_none_iff,
    fun now key value full => ?_⟩
  obtain ⟨linked, resized, linking, kept, moved, reversed, -⟩ :=
    represents.insert_loaded now key value full
  have linkedNewest : NewestFirst ((map.fresh, ⟨key, value, now⟩) :: cells : List (Cell K V)) :=
    List.pairwise_cons.mpr ⟨represents.allocated, newest⟩
  exact ⟨linked, resized, linking, moved, answers_newest kept linkedNewest,
    answers_oldest reversed linkedNewest⟩

end Searches

/-- The fourth insertion resizes: before it the newer of two entries of one key is found, after
it the older. -/
theorem newest_until_resize_fourth :
    ∃ map linked resized, (machine fun key => key).execute KeepsTable
        [.insert 0 1 10, .insert 0 2 20, .insert 0 3 30]
        (new 1 : LockFreeMapExprise Nat Nat) = some map ∧
      map.link (fun key => key) 0 1 40 = some linked ∧
      linked.resize (fun key => key) = some resized ∧
      linked.find (fun key => key) 1 = some (some 40) ∧
      resized.find (fun key => key) 1 = some (some 10) := by
  have ran : ((machine fun key => key).execute KeepsTable
      [.insert 0 1 10, .insert 0 2 20, .insert 0 3 30]
      (new 1 : LockFreeMapExprise Nat Nat)).bind (fun map =>
        (map.link (fun key => key) 0 1 40).bind fun linked =>
          (linked.resize fun key => key).map fun resized => decide (
            ¬KeepsTable map (.insert 0 1 40) ∧ map.fresh = 3 ∧
            (linked.heap 3).map (fun node => (node.key, node.value)) = some (1, 40) ∧
            (resized.heap 0).map (fun node => (node.key, node.value)) = some (1, 10))) =
      some true := by
    decide +kernel
  obtain ⟨map, executed, ran⟩ := Option.bind_eq_some_iff.mp ran
  obtain ⟨linked, linking, ran⟩ := Option.bind_eq_some_iff.mp ran
  obtain ⟨resized, resizing, checked⟩ := Option.map_eq_some_iff.mp ran
  obtain ⟨full, fresh, last, first⟩ := of_decide_eq_true checked
  have reached := Machine.reaches_of_execute executed
  obtain ⟨node, found, spelled⟩ := Option.map_eq_some_iff.mp last
  obtain ⟨oldNode, oldFound, oldSpelled⟩ := Option.map_eq_some_iff.mp first
  obtain ⟨-, -, resizes⟩ := newest_until_resize (fun key => key) Nat.one_pos reached
  obtain ⟨next, moved, linkedNext, movedNext, newest, oldest⟩ := resizes 0 1 40 full
  obtain rfl := Option.some.inj (linking.symm.trans linkedNext)
  obtain rfl := Option.some.inj (resizing.symm.trans movedNext)
  refine ⟨map, linked, resized, executed, linking, resizing, ?_, ?_⟩
  · have value : node.value = 40 := congrArg Prod.snd spelled
    refine value ▸ (newest 1).1 3 node
      ⟨found, congrArg Prod.fst spelled, fun other twin present _ => ?_⟩
    obtain ⟨⟨cells, represents, -⟩, -⟩ := accounted_of_reaches Nat.one_pos reached
    obtain ⟨after, ran, -, -, kept⟩ := represents.link 0 1 40
    obtain rfl := Option.some.inj (linking.symm.trans ran)
    rcases List.mem_cons.mp (cell_of_node kept present) with isNew | old
    · have place : other = map.fresh := congrArg Prod.fst isNew
      exact (place.trans fresh).le
    · have bound := represents.allocated _ old
      rw [fresh] at bound
      exact Nat.le_of_lt bound
  · have value : oldNode.value = 10 := congrArg Prod.snd oldSpelled
    exact value ▸ (oldest 1).1 0 oldNode
      ⟨oldFound, congrArg Prod.fst oldSpelled, fun other _ _ _ => Nat.zero_le other⟩

/-- The fourth insertion resizes, what is found under key `1` changes from the newer value to the
older one, and the mutex of the bucket is destroyed. -/
theorem resize_reverses :
    ∃ map linked resized, (machine fun key => key).execute Machine.anyStep
        [.insert 0 1 10, .insert 0 1 20, .insert 0 2 30]
        (new 1 : LockFreeMapExprise Nat Nat) = some map ∧
      map.link (fun key => key) 0 3 40 = some linked ∧ linked.Loaded ∧
      linked.resize (fun key => key) = some resized ∧
      linked.find (fun key => key) 1 = some (some 20) ∧
      resized.find (fun key => key) 1 = some (some 10) ∧
      (machine fun key => key).step map (.insert 0 3 40) = none := by
  have ran : ((machine fun key => key).execute Machine.anyStep
      [.insert 0 1 10, .insert 0 1 20, .insert 0 2 30]
      (new 1 : LockFreeMapExprise Nat Nat)).bind (fun map =>
        (map.link (fun key => key) 0 3 40).bind fun linked =>
          (linked.resize fun key => key).map fun resized => decide (linked.Loaded ∧
            linked.find (fun key => key) 1 = some (some 20) ∧
            resized.find (fun key => key) 1 = some (some 10) ∧
            ((machine fun key => key).step map (.insert 0 3 40)).isNone)) = some true := by
    decide +kernel
  obtain ⟨map, executed, ran⟩ := Option.bind_eq_some_iff.mp ran
  obtain ⟨linked, linking, ran⟩ := Option.bind_eq_some_iff.mp ran
  obtain ⟨resized, resizing, checked⟩ := Option.map_eq_some_iff.mp ran
  obtain ⟨loaded, before, after, undefined⟩ := of_decide_eq_true checked
  exact ⟨map, linked, resized, executed, linking, loaded, resizing, before, after,
    Option.isNone_iff_eq_none.mp undefined⟩

end FastDb.Collect.Expiration
