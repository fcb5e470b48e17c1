import FastDb.Collect.LockFreeList
import FastDb.Foundation.Noninterference

/-! # Concurrent inserts into the lock-free list

Any number of threads that only insert. A run shows the calls, the compare-exchanges that
publish a node, and the increments of the size. At every state of every interleaving the
nodes in the list are the published ones, newest first, those of one thread in the reverse
order of its calls, and the size is the number of increments
(`FastDb.Collect.LockFreeList.inserts_linearize`).
-/

namespace FastDb.Collect

open Foundation

namespace LockFreeList

variable {T τ : Type}

/-- What a run shows of the inserts: a call, the compare-exchange that publishes a node, and
the `fetch_add`. -/
inductive Access (T τ : Type)
  | called (thread : τ) (val : T)
  | published (thread : τ) (newNode : Ref) (val : T)
  | counted (thread : τ)

/-- What is shown of one access of a thread. -/
def shows (thread : τ) : Shared T × Stage T → Event T → Option (Access T τ)
  | (_, .idle), .insert val _ => some (.called thread val)
  | (shared, .publishing val newNode expected), .proceed =>
      if shared.list.head = expected then some (.published thread newNode val) else none
  | (_, .counting), .proceed => some (.counted thread)
  | _, _ => none

/-- What a run shows: the accesses of the inserts. -/
def observer : Machine.Observer (State T τ) (τ × Event T) (Access T τ) Unit where
  issue state event := shows event.1 (state.shared, state.threads event.1) event.2
  result _ := ()

/-- The event does not begin a `remove`. -/
def Inserts (_ : State T τ) (event : τ × Event T) : Prop := ∀ val, event.2 ≠ .remove val

instance (state : State T τ) : ∀ event, Decidable (Inserts state event)
  | (_, .remove val) => .isFalse fun only => only val rfl
  | (_, .insert _ _) | (_, .proceed) | (_, .spurious) => .isTrue fun _ same => nomatch same

/-- The nodes published, newest first, each with the thread that published it. -/
def chain (past : List (Access T τ)) : List (τ × Ref × T) :=
  (past.filterMap fun access =>
    match access with
    | .published thread newNode val => some (thread, newNode, val)
    | _ => none).reverse

@[simp] theorem chain_called (past : List (Access T τ)) (thread : τ) (val : T) :
    chain (past ++ [.called thread val]) = chain past := by
  simp [chain]

@[simp] theorem chain_published (past : List (Access T τ)) (thread : τ) (newNode : Ref) (val : T) :
    chain (past ++ [.published thread newNode val]) = (thread, newNode, val) :: chain past := by
  simp [chain]

@[simp] theorem chain_counted (past : List (Access T τ)) (thread : τ) :
    chain (past ++ [.counted thread]) = chain past := by
  simp [chain]

/-- The threads that increased the size. -/
def counters (past : List (Access T τ)) : List τ :=
  past.filterMap fun access =>
    match access with
    | .counted thread => some thread
    | _ => none

section Threads

variable [DecidableEq τ]

/-- The values of the inserts a thread has called, in order. -/
def calls (thread : τ) (past : List (Access T τ)) : List T :=
  past.filterMap fun access =>
    match access with
    | .called other val => if other = thread then some val else none
    | _ => none

/-- The values that a thread has published, in the order of the list. -/
def published (thread : τ) (nodes : List (τ × Ref × T)) : List T :=
  (nodes.filter fun node => node.1 = thread).map fun node => node.2.2

end Threads

/-- The value of the insert that has not published its node. -/
def underWay : Stage T → List T
  | .expecting val _ | .linking val _ _ | .publishing val _ _ => [val]
  | _ => []

/-- One for a published node that is not counted yet. -/
def uncounted : Stage T → Nat
  | .counting => 1
  | _ => 0

/-- The stages of `insert`. -/
def Inserting : Stage T → Prop
  | .idle | .expecting _ _ | .linking _ _ _ | .publishing _ _ _ | .counting => True
  | _ => False

/-- What one access of an insert does, and what it shows. -/
inductive InsertMoves (thread : τ) :
    Shared T × Stage T → Option (Access T τ) → Shared T × Stage T → Prop
  | call {list : LockFreeList T} {inserted removed : List T} {val : T} {newNode : Ref}
      (free : list.heap newNode = none) :
      InsertMoves thread (⟨list, inserted, removed⟩, .idle) (some (.called thread val))
        (⟨{ list with heap := Function.update list.heap newNode (some ⟨val, none⟩) },
          val :: inserted, removed⟩, .expecting val newNode)
  | expect {shared : Shared T} {val : T} {newNode : Ref} :
      InsertMoves thread (shared, .expecting val newNode) none
        (shared, .linking val newNode shared.list.head)
  | link {shared : Shared T} {val : T} {newNode : Ref} {expected : Option Ref}
      {list : LockFreeList T} (stored : shared.list.setNext newNode expected = some list) :
      InsertMoves thread (shared, .linking val newNode expected) none
        ({ shared with list }, .publishing val newNode expected)
  | publish {shared : Shared T} {val : T} {newNode : Ref} {expected : Option Ref}
      (same : shared.list.head = expected) :
      InsertMoves thread (shared, .publishing val newNode expected)
        (some (.published thread newNode val))
        ({ shared with list := { shared.list with head := some newNode } }, .counting)
  | retry {shared : Shared T} {val : T} {newNode : Ref} {expected : Option Ref} :
      InsertMoves thread (shared, .publishing val newNode expected) none
        (shared, .linking val newNode shared.list.head)
  | count {shared : Shared T} :
      InsertMoves thread (shared, .counting) (some (.counted thread))
        ({ shared with list := { shared.list with listSize := shared.list.listSize + 1 } }, .idle)

/-- Every atomic step of an insert is one of the cases. -/
theorem insertMoves_of_atomic [DecidableEq T] {thread : τ} {shared after : Shared T}
    {stage locals : Stage T} {event : Event T} (inserting : Inserting stage)
    (only : ∀ val, event ≠ .remove val)
    (ran : atomic thread (shared, stage) event = some (after, locals)) :
    InsertMoves thread (shared, stage) (shows thread (shared, stage) event) (after, locals) := by
  cases stage with
  | idle =>
      cases event with
      | insert val newNode =>
          simp only [atomic] at ran
          split at ran
          · next free =>
              cases ran
              exact .call free
          · cases ran
      | remove val => exact absurd rfl (only val)
      | proceed => cases ran
      | spurious => cases ran
  | expecting val newNode =>
      cases event <;> cases ran
      exact .expect
  | linking val newNode expected =>
      cases event with
      | proceed =>
          obtain ⟨list, stored, ran⟩ := Option.map_eq_some_iff.mp ran
          cases ran
          exact .link stored
      | _ => cases ran
  | publishing val newNode expected =>
      cases event with
      | proceed =>
          simp only [atomic] at ran
          split at ran
          · next same =>
              cases ran
              rw [shows, if_pos same]
              exact .publish same
          · next different =>
              cases ran
              rw [shows, if_neg different]
              exact .retry
      | spurious =>
          cases ran
          exact .retry
      | _ => cases ran
  | counting =>
      cases event <;> cases ran
      exact .count
  | _ => cases inserting

/-- The size follows what is shown. -/
theorem sized_step {past : List (Access T τ)} {shared after : Shared T} {thread : τ}
    {stage locals : Stage T} (prepared : Prepared shared.list stage)
    (sized : shared.list.listSize = UInt64.ofNat (counters past).length)
    {label : Option (Access T τ)}
    (moves : InsertMoves thread (shared, stage) label (after, locals)) :
    after.list.listSize = UInt64.ofNat (counters (past ++ label.toList)).length := by
  cases moves with
  | call absent => simpa [counters] using sized
  | link stored =>
      obtain ⟨old, found⟩ := prepared
      obtain ⟨-, counted, -⟩ := setNext_spec stored found
      rw [Option.toList_none, List.append_nil]
      exact counted.trans sized
  | publish same => simpa [counters] using sized
  | count =>
      have more : (counters (past ++ [Access.counted thread])).length =
          (counters past).length + 1 := by simp [counters]
      rw [Option.toList_some, more, UInt64.ofNat_add, ← sized]
      rfl
  | _ =>
      rw [Option.toList_none, List.append_nil]
      exact sized

section History

variable [DecidableEq τ] {past : List (Access T τ)}

/-- What one thread has shown, where it is in its call, and what of it is in the list. -/
structure OwnHistory (past : List (Access T τ)) (thread : τ) (stage : Stage T) : Prop where
  inserting : Inserting stage
  ordered : calls thread past = (published thread (chain past)).reverse ++ underWay stage
  counted : (published thread (chain past)).length =
    (counters past).count thread + uncounted stage

/-- The list, the threads, and what has been shown so far. -/
structure History (state : State T τ) (past : List (Access T τ)) : Prop where
  linked : Linked state.shared.list state.threads ((chain past).map Prod.snd)
  own : ∀ thread, OwnHistory past thread (state.threads thread)
  sized : state.shared.list.listSize = UInt64.ofNat (counters past).length

/-- What another thread shows is nothing to a thread. -/
theorem OwnHistory.other {thread other : τ} (different : other ≠ thread) {stage : Stage T}
    (own : OwnHistory past other stage) {before after : Shared T × Stage T}
    {label : Option (Access T τ)} (moves : InsertMoves thread before label after) :
    OwnHistory (past ++ label.toList) other stage := by
  obtain ⟨inserting, ordered, counted⟩ := own
  have apart : thread ≠ other := Ne.symm different
  cases moves with
  | call free =>
      refine ⟨inserting, ?_, ?_⟩
      · simpa [calls, apart] using ordered
      · simpa [counters] using counted
  | publish same =>
      refine ⟨inserting, ?_, ?_⟩
      · simpa [calls, published, apart] using ordered
      · simpa [counters, published, apart] using counted
  | count =>
      refine ⟨inserting, ?_, ?_⟩
      · simpa [calls] using ordered
      · simpa [counters, apart] using counted
  | _ =>
      rw [Option.toList_none, List.append_nil]
      exact ⟨inserting, ordered, counted⟩

/-- What a thread shows is where it is in its call. -/
theorem OwnHistory.step {thread : τ} {stage locals : Stage T} (own : OwnHistory past thread stage)
    {shared after : Shared T} {label : Option (Access T τ)}
    (moves : InsertMoves thread (shared, stage) label (after, locals)) :
    OwnHistory (past ++ label.toList) thread locals := by
  obtain ⟨-, ordered, counted⟩ := own
  cases moves with
  | call free =>
      refine ⟨trivial, ?_, ?_⟩
      · simpa [calls, underWay] using ordered
      · simpa [counters, uncounted] using counted
  | publish same =>
      refine ⟨trivial, ?_, ?_⟩
      · simpa [calls, published, underWay] using ordered
      · simpa [counters, published, uncounted] using counted
  | count =>
      refine ⟨trivial, ?_, ?_⟩
      · simpa [calls, underWay] using ordered
      · simpa [counters, uncounted] using counted
  | _ =>
      rw [Option.toList_none, List.append_nil]
      exact ⟨trivial, ordered, counted⟩

/-- The list follows what is shown. -/
theorem linked_step {shared after : Shared T} {threads : τ → Stage T}
    (linked : Linked shared.list threads ((chain past).map Prod.snd)) {thread : τ}
    {stage locals : Stage T} (spelled : threads thread = stage) {label : Option (Access T τ)}
    (moves : InsertMoves thread (shared, stage) label (after, locals)) :
    Linked after.list (Function.update threads thread locals)
      ((chain (past ++ label.toList)).map Prod.snd) := by
  have prepared := linked.prepared thread
  rw [spelled] at prepared
  cases moves with
  | call absent =>
      obtain ⟨unlinked, unowned⟩ := linked.unused absent
      rw [Option.toList_some, chain_called]
      refine linked.write unlinked (fun other _ => unowned other) rfl
        (fun other different => read_update_of_ne different _) ⟨none, ?_⟩ ?_
      · simp only [read_eq_some, Function.update_self]
      · intro ref owned
        cases owned
        rfl
  | expect =>
      rw [Option.toList_none, List.append_nil]
      exact linked.stay rfl rfl prepared fun ref owned => spelled ▸ owned
  | @link _ _ newNode _ _ stored =>
      obtain ⟨old, found⟩ := prepared
      obtain ⟨head, -, redirected, unchanged⟩ := setNext_spec stored found
      have own : owns (threads thread) = some newNode := by rw [spelled, owns]
      rw [Option.toList_none, List.append_nil]
      refine linked.write (linked.outside thread newNode own) ?_ head unchanged redirected ?_
      · intro other different also
        exact different (linked.apart other thread newNode also own)
      · intro ref owned
        cases owned
        rfl
  | publish same =>
      subst same
      rw [Option.toList_some, chain_published]
      exact linked.publish spelled
  | retry =>
      rw [Option.toList_none, List.append_nil]
      exact linked.stay rfl rfl ⟨_, prepared⟩ fun ref owned => spelled ▸ owned
  | count =>
      rw [Option.toList_some, chain_counted]
      refine linked.stay rfl rfl trivial ?_
      intro ref owned
      cases owned

/-- **One step** keeps the history. -/
theorem History.step {shared after : Shared T} {threads : τ → Stage T}
    (history : History ⟨shared, threads⟩ past) {thread : τ} {stage locals : Stage T}
    (spelled : threads thread = stage) {label : Option (Access T τ)}
    (moves : InsertMoves thread (shared, stage) label (after, locals)) :
    History ⟨after, Function.update threads thread locals⟩ (past ++ label.toList) := by
  obtain ⟨linked, own, sized⟩ := history
  dsimp only at linked own sized
  refine ⟨linked_step linked spelled moves, ?_, ?_⟩
  · intro other
    dsimp only
    by_cases same : other = thread
    · subst same
      rw [Function.update_self]
      exact (spelled ▸ own other).step moves
    · rw [Function.update_of_ne same]
      exact (own other).other same moves
  · exact sized_step (spelled ▸ linked.prepared thread) sized moves

/-- The increments do not outnumber the nodes. -/
theorem counters_length_le {state : State T τ}
    (history : History state past) :
    (counters past).length ≤ (chain past).length := by
  have fewer : (counters past).Subperm ((chain past).map Prod.fst) := by
    refine List.subperm_ext_iff.mpr fun thread _ => ?_
    have counted := (history.own thread).counted
    have nodes : ((chain past).map Prod.fst).count thread =
        (published thread (chain past)).length := by
      rw [published, List.length_map, ← List.countP_eq_length_filter, List.count, List.countP_map]
      rfl
    omega
  rw [← List.length_map (f := Prod.fst)]
  exact fewer.length_le

end History

section Runs

variable [DecidableEq T] [DecidableEq τ] {state : State T τ} {log : List (Access T τ × Unit)}

/-- Every run of inserts has its history. -/
theorem history_of_logged (run : machine.Logged Inserts observer initial log state) :
    History state (log.map Prod.fst) := by
  refine run.invariant (History · ·) ⟨⟨rfl, List.nodup_nil, ?_, ?_, ?_⟩, ?_, rfl⟩ ?_
  · intro thread ref owned
    cases owned
  · intro one other ref owned
    cases owned
  · intro thread
    trivial
  · intro thread
    exact ⟨trivial, rfl, rfl⟩
  · rintro ⟨shared, threads⟩ ⟨thread, event⟩ after past history only stepped
    obtain ⟨next, locals, ran, rfl⟩ := Threads.interleave_step stepped
    exact history.step rfl
      (insertMoves_of_atomic (history.own thread).inserting only ran)

/-- **Concurrent inserts are linearizable.** In every state of every run of inserts, the list
consists of the published nodes, newest first, without a cycle; the values a thread has
called are those it has published, which the list holds in reverse order, and the one it has
not published yet; and the size is the number of increments, at most that of the nodes. -/
theorem inserts_linearize (run : machine.Logged Inserts observer initial log state) :
    Segment state.shared.list.read state.shared.list.head
        ((chain (log.map Prod.fst)).map Prod.snd) none ∧
      (((chain (log.map Prod.fst)).map Prod.snd).map Prod.fst).Nodup ∧
      (∀ thread, calls thread (log.map Prod.fst) =
        (published thread (chain (log.map Prod.fst))).reverse ++
          underWay (state.threads thread)) ∧
      state.shared.list.size = UInt64.ofNat (counters (log.map Prod.fst)).length ∧
      (counters (log.map Prod.fst)).length ≤ (chain (log.map Prod.fst)).length ∧
      state.shared.list.size.toNat ≤ (chain (log.map Prod.fst)).length := by
  have history := history_of_logged run
  have fewer := counters_length_le history
  refine ⟨history.linked.segment, history.linked.distinct, fun thread =>
    (history.own thread).ordered, history.sized, fewer, ?_⟩
  rw [size, history.sized, UInt64.toNat_ofNat']
  exact Nat.le_trans (Nat.mod_le _ _) fewer

/-- Two inserts race for the head: the compare-exchange of the second thread fails once
without a reason and once because that of the first succeeded, which has not counted its
node yet. -/
theorem inserts_linearize_raced :
    ∃ (state : State Nat (Fin 2)) (log : List (Access Nat (Fin 2) × Unit)),
      machine.Logged Inserts observer initial log state ∧
      state.shared.list.head = some 1 ∧ state.threads 0 = .counting ∧
      state.shared.list.size = 1 ∧
      Segment state.shared.list.read state.shared.list.head
        ((chain (log.map Prod.fst)).map Prod.snd) none ∧
      calls 0 (log.map Prod.fst) = (published 0 (chain (log.map Prod.fst))).reverse ∧
      state.shared.list.size.toNat ≤ (chain (log.map Prod.fst)).length := by
  have ran : (machine.execute Inserts
      [(0, .insert 1 0), (1, .insert 2 1), (0, .proceed), (1, .proceed), (0, .proceed),
        (1, .proceed), (1, .spurious), (1, .proceed), (0, .proceed), (1, .proceed),
        (1, .proceed), (1, .proceed), (1, .proceed)] (initial : State Nat (Fin 2))).map
          (fun state => decide (state.shared.list.head = some 1 ∧
            state.threads 0 = .counting ∧ state.shared.list.size = 1)) = some true := by
    decide +kernel
  obtain ⟨state, executed, checked⟩ := Option.map_eq_some_iff.mp ran
  obtain ⟨head, counting, sized⟩ := of_decide_eq_true checked
  obtain ⟨log, run⟩ := (Machine.reaches_of_execute executed).exists_logged observer
  obtain ⟨segment, -, ordered, -, -, fewer⟩ := inserts_linearize run
  refine ⟨state, log, run, head, counting, sized, segment, ?_, fewer⟩
  rw [ordered, counting]
  exact List.append_nil _

end Runs

end LockFreeList

end FastDb.Collect
