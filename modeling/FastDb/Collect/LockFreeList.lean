import Mathlib.Algebra.BigOperators.Group.Multiset.Basic
import Mathlib.Data.UInt
import Mathlib.Tactic.Abel
import FastDb.Collect.LockFreeMap
import FastDb.Foundation.Threads

/-! # The lock-free list

`LockFreeList` of `common/collect_utils.cppm`, its calls cut into their atomic loads,
stores and compare-exchanges. `insert` publishes its node by a compare-exchange of the
head; `remove` takes a node out by a plain store, computed from earlier loads, into the
head or into the predecessor it has met. Dereferencing an address without a node is
no step, and the address of a deleted node can be handed out again. In the runs in
which every such store still takes out the node it was computed for, and nothing else,
no insert is lost (`FastDb.Collect.LockFreeList.list_keeps_inserts`).
-/

namespace FastDb.Collect

open Foundation

/-- `LockFreeList<T>::Node`. -/
structure ListNode (T : Type) where
  data : T
  next : Option Ref
  deriving DecidableEq

/-- `LockFreeList<T>`, with the heap its nodes live in. -/
structure LockFreeList (T : Type) where
  heap : Ref → Option (ListNode T)
  head : Option Ref
  listSize : UInt64

namespace LockFreeList

variable {T τ : Type}

/-- `LockFreeList()`. -/
def new : LockFreeList T where
  heap _ := none
  head := none
  listSize := 0

/-- `size()`. -/
def size (list : LockFreeList T) : UInt64 := list.listSize

/-- `ref->next = next`. -/
def setNext (list : LockFreeList T) (ref : Ref) (next : Option Ref) : Option (LockFreeList T) :=
  (list.heap ref).map fun node =>
    { list with heap := Function.update list.heap ref (some { node with next }) }

/-- The store of `remove`: `prev->next = next`, or `head = next` without a `prev`. -/
def redirect (list : LockFreeList T) (prev next : Option Ref) : Option (LockFreeList T) :=
  match prev with
  | none => some { list with head := next }
  | some prev => list.setNext prev next

/-- Where a call is, named by its next access. -/
inductive Stage (T : Type)
  | idle
  /-- `insert`: `expected = head.load()`. -/
  | expecting (val : T) (newNode : Ref)
  /-- `insert`: `newNode->next = expected`. -/
  | linking (val : T) (newNode : Ref) (expected : Option Ref)
  /-- `insert`: `head.compare_exchange_weak(expected, newNode)`. -/
  | publishing (val : T) (newNode : Ref) (expected : Option Ref)
  /-- `insert`: `listSize.fetch_add(1)`. -/
  | counting
  /-- `remove`: `curr = head.load()`. -/
  | starting (val : T)
  /-- `remove`: `while (curr != nullptr)` and `if (curr->data == val)`. -/
  | searching (val : T) (prev curr : Option Ref)
  /-- `remove`: `prev = curr` and `curr = curr->next.load()`. -/
  | advancing (val : T) (curr : Ref)
  /-- `remove`: the load of the node after the one found. -/
  | bypassing (val : T) (prev : Option Ref) (curr : Ref)
  /-- `remove`: the store that takes the node out. -/
  | unlinking (val : T) (prev : Option Ref) (curr : Ref) (next : Option Ref)
  /-- `remove`: `delete curr`. -/
  | deleting (val : T) (curr : Ref)
  /-- `remove`: `listSize.fetch_sub(1)`. -/
  | uncounting (val : T)
  deriving DecidableEq

/-- The list, the values of the inserts called, and the values of the removes that
returned true. -/
structure Shared (T : Type) where
  list : LockFreeList T
  inserted : List T
  removed : List T

/-- The beginning of a call, with the address that `new` hands out, the next access of
the call under way, or a compare-exchange that fails without a reason. -/
inductive Event (T : Type)
  | insert (val : T) (newNode : Ref)
  | remove (val : T)
  | proceed
  | spurious

/-- One access of a thread. -/
def atomic [DecidableEq T] (_ : τ) : Shared T × Stage T → Event T → Option (Shared T × Stage T)
  | (⟨list, inserted, removed⟩, .idle), .insert val newNode =>
      if list.heap newNode = none then
        let heap := Function.update list.heap newNode (some ⟨val, none⟩)
        some (⟨{ list with heap }, val :: inserted, removed⟩, .expecting val newNode)
      else none
  | (shared, .expecting val newNode), .proceed =>
      some (shared, .linking val newNode shared.list.head)
  | (shared, .linking val newNode expected), .proceed =>
      (shared.list.setNext newNode expected).map fun list =>
        ({ shared with list }, .publishing val newNode expected)
  | (shared, .publishing val newNode expected), .proceed =>
      if shared.list.head = expected then
        some ({ shared with list := { shared.list with head := some newNode } }, .counting)
      else some (shared, .linking val newNode shared.list.head)
  | (shared, .publishing val newNode _), .spurious =>
      some (shared, .linking val newNode shared.list.head)
  | (shared, .counting), .proceed =>
      some ({ shared with list := { shared.list with listSize := shared.list.listSize + 1 } },
        .idle)
  | (shared, .idle), .remove val => some (shared, .starting val)
  | (shared, .starting val), .proceed => some (shared, .searching val none shared.list.head)
  | (shared, .searching _ _ none), .proceed => some (shared, .idle)
  | (shared, .searching val prev (some curr)), .proceed =>
      (shared.list.heap curr).map fun node =>
        (shared, if node.data = val then .bypassing val prev curr else .advancing val curr)
  | (shared, .advancing val curr), .proceed =>
      (shared.list.heap curr).map fun node => (shared, .searching val (some curr) node.next)
  | (shared, .bypassing val prev curr), .proceed =>
      (shared.list.heap curr).map fun node => (shared, .unlinking val prev curr node.next)
  | (shared, .unlinking val prev curr next), .proceed =>
      (shared.list.redirect prev next).map fun list => ({ shared with list }, .deleting val curr)
  | (shared, .deleting val curr), .proceed =>
      (shared.list.heap curr).map fun _ =>
        ({ shared with list :=
            { shared.list with heap := Function.update shared.list.heap curr none } },
          .uncounting val)
  | (⟨list, inserted, removed⟩, .uncounting val), .proceed =>
      some (⟨{ list with listSize := list.listSize - 1 }, inserted, val :: removed⟩, .idle)
  | _, _ => none

/-- The list with the threads that work on it. -/
abbrev State (T τ : Type) := Threads (Shared T) τ (Stage T)

/-- The interleavings of inserts and removals. -/
def machine [DecidableEq T] [DecidableEq τ] : Machine (State T τ) (τ × Event T) :=
  Threads.interleave atomic

/-- An empty list, and no thread in a call. -/
def initial : State T τ where
  shared := ⟨new, [], []⟩
  threads _ := .idle

/-- A node as a link of a chain. -/
def read (list : LockFreeList T) (ref : Ref) : Option (T × Option Ref) :=
  (list.heap ref).map fun node => (node.data, node.next)

/-- Following `next` from the head meets the node. -/
def Reachable (list : LockFreeList T) (ref : Ref) : Prop :=
  ∃ cells, Segment list.read list.head cells (some ref)

/-- Where the store of `remove` goes: the head, or the `next` of a node. -/
def target (list : LockFreeList T) : Option Ref → Option Ref
  | none => list.head
  | some prev => (list.heap prev).bind ListNode.next

/-- The store takes the node, with its value, and nothing else out of the list: its
target is in the list and still points at the node, and the node at its successor. -/
structure TakesOut (list : LockFreeList T) (val : T) (prev : Option Ref) (curr : Ref)
    (next : Option Ref) : Prop where
  pointed : list.target prev = some curr
  found : list.heap curr = some ⟨val, next⟩
  inList : ∀ ref, prev = some ref → list.Reachable ref

/-- The thread does not store what is out of date. -/
def Current (state : State T τ) (event : τ × Event T) : Prop :=
  ∀ val prev curr next, state.threads event.1 = .unlinking val prev curr next →
    TakesOut state.shared.list val prev curr next

/-- The thread is between calls, or a `remove` that only reads. -/
def Looks : Stage T → Prop
  | .idle | .starting _ | .searching _ _ _ | .advancing _ _ | .bypassing _ _ _
  | .unlinking _ _ _ _ => True
  | _ => False

/-- What one access does. -/
inductive Moves : Shared T × Stage T → Shared T × Stage T → Prop
  | insert {list : LockFreeList T} {inserted removed : List T} {val : T} {newNode : Ref}
      (free : list.heap newNode = none) :
      Moves (⟨list, inserted, removed⟩, .idle)
        (⟨{ list with heap := Function.update list.heap newNode (some ⟨val, none⟩) },
          val :: inserted, removed⟩, .expecting val newNode)
  | expect {shared : Shared T} {val : T} {newNode : Ref} :
      Moves (shared, .expecting val newNode) (shared, .linking val newNode shared.list.head)
  | link {shared : Shared T} {val : T} {newNode : Ref} {expected : Option Ref}
      {list : LockFreeList T} (stored : shared.list.setNext newNode expected = some list) :
      Moves (shared, .linking val newNode expected)
        ({ shared with list }, .publishing val newNode expected)
  | publish {shared : Shared T} {val : T} {newNode : Ref} {expected : Option Ref}
      (same : shared.list.head = expected) :
      Moves (shared, .publishing val newNode expected)
        ({ shared with list := { shared.list with head := some newNode } }, .counting)
  | retry {shared : Shared T} {val : T} {newNode : Ref} {expected : Option Ref} :
      Moves (shared, .publishing val newNode expected)
        (shared, .linking val newNode shared.list.head)
  | count {shared : Shared T} :
      Moves (shared, .counting)
        ({ shared with list := { shared.list with listSize := shared.list.listSize + 1 } }, .idle)
  | look {shared : Shared T} {stage after : Stage T} (before : Looks stage) (looks : Looks after) :
      Moves (shared, stage) (shared, after)
  | unlink {shared : Shared T} {val : T} {prev : Option Ref} {curr : Ref} {next : Option Ref}
      {list : LockFreeList T} (stored : shared.list.redirect prev next = some list) :
      Moves (shared, .unlinking val prev curr next) ({ shared with list }, .deleting val curr)
  | delete {shared : Shared T} {val : T} {curr : Ref} :
      Moves (shared, .deleting val curr)
        ({ shared with list :=
            { shared.list with heap := Function.update shared.list.heap curr none } },
          .uncounting val)
  | uncount {list : LockFreeList T} {inserted removed : List T} {val : T} :
      Moves (⟨list, inserted, removed⟩, .uncounting val)
        (⟨{ list with listSize := list.listSize - 1 }, inserted, val :: removed⟩, .idle)

/-- Every atomic step is one of the cases. -/
theorem atomic_moves [DecidableEq T] {thread : τ} {shared after : Shared T}
    {stage locals : Stage T} {event : Event T}
    (ran : atomic thread (shared, stage) event = some (after, locals)) :
    Moves (shared, stage) (after, locals) := by
  unfold atomic at ran
  split at ran
  all_goals rename_i same
  all_goals try obtain ⟨rfl, rfl⟩ := Prod.mk.inj same
  · split at ran
    · next free =>
        cases ran
        exact .insert free
    · cases ran
  · cases ran
    exact .expect
  · obtain ⟨list, stored, ran⟩ := Option.map_eq_some_iff.mp ran
    cases ran
    exact .link stored
  · split at ran
    · next unchanged =>
        cases ran
        exact .publish unchanged
    · cases ran
      exact .retry
  · cases ran
    exact .retry
  · cases ran
    exact .count
  · cases ran
    exact .look trivial trivial
  · cases ran
    exact .look trivial trivial
  · cases ran
    exact .look trivial trivial
  · obtain ⟨node, -, ran⟩ := Option.map_eq_some_iff.mp ran
    cases ran
    exact .look trivial (by split <;> trivial)
  · obtain ⟨node, -, ran⟩ := Option.map_eq_some_iff.mp ran
    cases ran
    exact .look trivial trivial
  · obtain ⟨node, -, ran⟩ := Option.map_eq_some_iff.mp ran
    cases ran
    exact .look trivial trivial
  · obtain ⟨list, stored, ran⟩ := Option.map_eq_some_iff.mp ran
    cases ran
    exact .unlink stored
  · obtain ⟨node, -, ran⟩ := Option.map_eq_some_iff.mp ran
    cases ran
    exact .delete
  · cases ran
    exact .uncount
  · cases ran

theorem read_eq_some {list : LockFreeList T} {ref : Ref} {val : T} {next : Option Ref} :
    list.read ref = some (val, next) ↔ list.heap ref = some ⟨val, next⟩ := by
  rw [read]
  cases list.heap ref with
  | none => simp
  | some node =>
      obtain ⟨data, onward⟩ := node
      simp

theorem read_update_of_ne {list : LockFreeList T} {ref other : Ref} (different : other ≠ ref)
    (node : Option (ListNode T)) :
    read { list with heap := Function.update list.heap ref node } other = list.read other := by
  simp only [read, Function.update_of_ne different]

/-- Assigning `next` redirects one node and no other. -/
theorem setNext_spec {list after : LockFreeList T} {ref : Ref} {next : Option Ref}
    (stored : list.setNext ref next = some after) {val : T} {old : Option Ref}
    (found : list.read ref = some (val, old)) :
    after.head = list.head ∧ after.listSize = list.listSize ∧
      after.read ref = some (val, next) ∧
      ∀ other, other ≠ ref → after.read other = list.read other := by
  rw [setNext, read_eq_some.mp found] at stored
  cases stored
  refine ⟨rfl, rfl, ?_, fun other different => read_update_of_ne different _⟩
  simp only [read_eq_some, Function.update_self]

/-- The store of an up-to-date `remove` takes its node out of the chain. -/
theorem TakesOut.chain {list after : LockFreeList T} {val : T} {prev next : Option Ref} {curr : Ref}
    {cells : List (Ref × T)} (takesOut : TakesOut list val prev curr next)
    (segment : Segment list.read list.head cells none) (distinct : (cells.map Prod.fst).Nodup)
    (stored : list.redirect prev next = some after) :
    ∃ front back, cells = front ++ (curr, val) :: back ∧
      Segment after.read after.head (front ++ back) none ∧ after.listSize = list.listSize ∧
      ∀ ref, ref ∉ front.map Prod.fst → after.read ref = list.read ref := by
  obtain ⟨pointed, found, inList⟩ := takesOut
  have present : list.read curr = some (val, next) := read_eq_some.mpr found
  cases prev with
  | none =>
      cases stored
      have first : Segment list.read list.head [(curr, val)] next :=
        ⟨pointed, next, present, rfl⟩
      obtain ⟨back, rfl, rest⟩ := segment.through first
      exact ⟨[], back, rfl, rest, rfl, fun _ _ => rfl⟩
  | some prev =>
      obtain ⟨front, reached⟩ := inList prev rfl
      obtain ⟨⟨data, onward⟩, before, rfl : onward = some curr⟩ :=
        Option.bind_eq_some_iff.mp pointed
      have onPrev : list.read prev = some (data, some curr) := read_eq_some.mpr before
      have extended : Segment list.read list.head
          (front ++ [(prev, data), (curr, val)]) next :=
        Segment.append_iff.mpr ⟨some prev, reached, rfl, some curr, onPrev, rfl, next, present, rfl⟩
      obtain ⟨back, rfl, rest⟩ := segment.through extended
      obtain ⟨head, sized, redirected, unchanged⟩ := setNext_spec stored onPrev
      rw [List.append_assoc] at segment distinct
      refine ⟨front ++ [(prev, data)], back, by simp, ?_, sized, fun ref outside =>
        unchanged ref ?_⟩
      · rw [head, List.append_assoc]
        exact segment.bypass distinct present unchanged redirected
      · rintro rfl
        exact outside (by simp)

/-- The node outside of the list that a thread holds: one that is not published yet, or
one that is taken out and not deleted yet. -/
def owns : Stage T → Option Ref
  | .expecting _ ref | .linking _ ref _ | .publishing _ ref _ | .deleting _ ref => some ref
  | _ => none

/-- What a thread knows of its node. -/
def Prepared (list : LockFreeList T) : Stage T → Prop
  | .expecting val ref | .linking val ref _ => ∃ next, list.read ref = some (val, next)
  | .publishing val ref expected => list.read ref = some (val, expected)
  | .deleting _ ref => ∃ content, list.read ref = some content
  | _ => True

/-- Who looks on owns no node. -/
theorem Looks.owns {stage : Stage T} (looks : Looks stage) : owns stage = none := by
  cases stage <;> first | rfl | cases looks

/-- Who looks on has no node to know of. -/
theorem Looks.prepared {stage : Stage T} (looks : Looks stage) (list : LockFreeList T) :
    Prepared list stage := by
  cases stage <;> trivial

/-- A thread depends on its own node alone. -/
theorem Prepared.congr {list after : LockFreeList T} {stage : Stage T}
    (prepared : Prepared list stage)
    (unchanged : ∀ ref, owns stage = some ref → after.read ref = list.read ref) :
    Prepared after stage := by
  cases stage with
  | expecting val ref | linking val ref expected | publishing val ref expected
  | deleting val ref =>
      rw [Prepared, unchanged ref rfl]
      exact prepared
  | _ => trivial

/-- A node that a thread owns is there. -/
theorem Prepared.read_of_owns {list : LockFreeList T} {stage : Stage T} {ref : Ref}
    (prepared : Prepared list stage) (own : owns stage = some ref) :
    ∃ content, list.read ref = some content := by
  cases stage <;> cases own
  · exact ⟨_, prepared.choose_spec⟩
  · exact ⟨_, prepared.choose_spec⟩
  · exact ⟨_, prepared⟩
  · exact prepared

/-- The chain of the list, and the nodes outside of it, each with its own thread. -/
structure Linked (list : LockFreeList T) (threads : τ → Stage T) (cells : List (Ref × T)) :
    Prop where
  segment : Segment list.read list.head cells none
  distinct : (cells.map Prod.fst).Nodup
  outside : ∀ thread ref, owns (threads thread) = some ref → ref ∉ cells.map Prod.fst
  apart : ∀ one other ref, owns (threads one) = some ref → owns (threads other) = some ref →
    one = other
  prepared : ∀ thread, Prepared list (threads thread)

/-- What a step has to show of its own thread, and what it leaves to the others. -/
theorem Linked.update [DecidableEq τ] {list after : LockFreeList T} {threads : τ → Stage T}
    {cells others : List (Ref × T)} {thread : τ} {stage : Stage T}
    (linked : Linked list threads cells) (segment : Segment after.read after.head others none)
    (distinct : (others.map Prod.fst).Nodup) (prepared : Prepared after stage)
    (own : ∀ ref, owns stage = some ref → ref ∉ others.map Prod.fst ∧
      ∀ other, other ≠ thread → owns (threads other) ≠ some ref)
    (frame : ∀ other ref, other ≠ thread → owns (threads other) = some ref →
      ref ∉ others.map Prod.fst ∧ after.read ref = list.read ref) :
    Linked after (Function.update threads thread stage) others := by
  refine ⟨segment, distinct, fun one ref owned => ?_, fun one two ref left right => ?_, ?_⟩
  · by_cases same : one = thread
    · subst same
      rw [Function.update_self] at owned
      exact (own ref owned).1
    · rw [Function.update_of_ne same] at owned
      exact (frame one ref same owned).1
  · by_cases first : one = thread <;> by_cases second : two = thread
    · rw [first, second]
    · subst first
      rw [Function.update_self] at left
      rw [Function.update_of_ne second] at right
      exact absurd right ((own ref left).2 two second)
    · subst second
      rw [Function.update_self] at right
      rw [Function.update_of_ne first] at left
      exact absurd left ((own ref right).2 one first)
    · rw [Function.update_of_ne first] at left
      rw [Function.update_of_ne second] at right
      exact linked.apart one two ref left right
  · intro one
    by_cases same : one = thread
    · subst same
      rwa [Function.update_self]
    · rw [Function.update_of_ne same]
      exact (linked.prepared one).congr fun ref owned => (frame one ref same owned).2

/-- A step that changes no node and not the head. -/
theorem Linked.stay [DecidableEq τ] {list after : LockFreeList T} {threads : τ → Stage T}
    {cells : List (Ref × T)} {thread : τ} {stage : Stage T} (linked : Linked list threads cells)
    (reads : after.read = list.read) (head : after.head = list.head)
    (prepared : Prepared list stage)
    (own : ∀ ref, owns stage = some ref → owns (threads thread) = some ref) :
    Linked after (Function.update threads thread stage) cells := by
  refine linked.update ?_ linked.distinct (prepared.congr fun ref _ => by rw [reads])
    (fun ref owned => ⟨linked.outside thread ref (own ref owned), fun other different also =>
      different (linked.apart other thread ref also (own ref owned))⟩)
    fun other ref _ owned => ⟨linked.outside other ref owned, by rw [reads]⟩
  rw [reads, head]
  exact linked.segment

/-- A node that is not in memory is neither in the chain nor held by a thread. -/
theorem Linked.unused {list : LockFreeList T} {threads : τ → Stage T} {cells : List (Ref × T)}
    (linked : Linked list threads cells) {ref : Ref} (absent : list.heap ref = none) :
    ref ∉ cells.map Prod.fst ∧ ∀ thread, owns (threads thread) ≠ some ref := by
  have unread : list.read ref = none := congrArg (Option.map _) absent
  constructor
  · intro member
    obtain ⟨cell, present, rfl⟩ := List.mem_map.mp member
    obtain ⟨next, found⟩ := linked.segment.read_of_mem present
    rw [unread] at found
    cases found
  · intro thread owned
    obtain ⟨content, found⟩ := (linked.prepared thread).read_of_owns owned
    rw [unread] at found
    cases found

/-- A step that changes one node outside of the chain, of its own thread or of none. -/
theorem Linked.write [DecidableEq τ] {list after : LockFreeList T} {threads : τ → Stage T}
    {cells : List (Ref × T)} {thread : τ} {stage : Stage T} (linked : Linked list threads cells)
    {ref : Ref} (free : ref ∉ cells.map Prod.fst)
    (others : ∀ other, other ≠ thread → owns (threads other) ≠ some ref)
    (head : after.head = list.head)
    (unchanged : ∀ other, other ≠ ref → after.read other = list.read other)
    (prepared : Prepared after stage) (own : ∀ owned, owns stage = some owned → owned = ref) :
    Linked after (Function.update threads thread stage) cells := by
  refine linked.update ?_ linked.distinct prepared ?_ ?_
  · rw [head]
    refine linked.segment.congr fun kept member => unchanged kept ?_
    intro same
    exact free (same ▸ member)
  · intro owned owns
    obtain rfl := own owned owns
    exact ⟨free, others⟩
  · intro other kept different owned
    refine ⟨linked.outside other kept owned, unchanged kept ?_⟩
    intro same
    exact others other different (same ▸ owned)

/-- A published node comes first in the chain. -/
theorem Linked.publish [DecidableEq τ] {list : LockFreeList T} {threads : τ → Stage T}
    {cells : List (Ref × T)} {thread : τ} {val : T} {newNode : Ref}
    (linked : Linked list threads cells)
    (spelled : threads thread = .publishing val newNode list.head) :
    Linked { list with head := some newNode } (Function.update threads thread .counting)
      ((newNode, val) :: cells) := by
  have prepared := linked.prepared thread
  rw [spelled] at prepared
  have free := linked.outside thread newNode (by rw [spelled, owns])
  refine linked.update ⟨rfl, list.head, prepared, linked.segment⟩
    (List.nodup_cons.mpr ⟨free, linked.distinct⟩) trivial ?_ ?_
  · intro ref owned
    cases owned
  · intro other ref different owned
    refine ⟨fun member => ?_, rfl⟩
    rcases List.mem_cons.mp member with rfl | member
    · exact different (linked.apart other thread ref owned (by rw [spelled, owns]))
    · exact linked.outside other ref owned member

/-- A node that is taken out leaves the chain for its thread. -/
theorem Linked.unlink [DecidableEq τ] {list after : LockFreeList T} {threads : τ → Stage T}
    {front back : List (Ref × T)} {thread : τ} {val : T} {curr : Ref}
    (linked : Linked list threads (front ++ (curr, val) :: back))
    (segment : Segment after.read after.head (front ++ back) none)
    (unchanged : ∀ ref, ref ∉ front.map Prod.fst → after.read ref = list.read ref) :
    Linked after (Function.update threads thread (.deleting val curr)) (front ++ back) := by
  have distinct := linked.distinct
  rw [List.map_append, List.map_cons, List.nodup_middle, List.nodup_cons,
    ← List.map_append] at distinct
  obtain ⟨gone, distinct⟩ := distinct
  have fewer : ((front ++ back).map Prod.fst).Sublist
      ((front ++ (curr, val) :: back).map Prod.fst) :=
    ((List.sublist_cons_self _ _).append_left front).map _
  have before {ref : Ref} (member : ref ∈ front.map Prod.fst) :
      ref ∈ (front ++ back).map Prod.fst := by
    rw [List.map_append]
    exact List.mem_append_left _ member
  obtain ⟨successor, found⟩ := linked.segment.read_of_mem
    (List.mem_append_right front List.mem_cons_self)
  refine linked.update segment distinct ⟨(val, successor), ?_⟩ ?_ ?_
  · rw [unchanged curr fun member => gone (before member), found]
  · intro ref owned
    cases owned
    exact ⟨gone, fun other _ owned => linked.outside other curr owned (by simp)⟩
  · intro other ref _ owned
    have outside := linked.outside other ref owned
    exact ⟨fun member => outside (fewer.subset member), unchanged ref fun member =>
      outside (fewer.subset (before member))⟩

/-- The values of the inserts under way, and of the removes that have taken a node out
and not returned. -/
def carried : Stage T → Multiset T
  | .expecting val _ | .linking val _ _ | .publishing val _ _ | .deleting val _
  | .uncounting val => {val}
  | _ => 0

/-- How far the size is ahead of the list on account of a thread. -/
def drift : Stage T → UInt64
  | .counting => -1
  | .deleting _ _ | .uncounting _ => 1
  | _ => 0

/-- Who looks on carries nothing. -/
theorem Looks.carried {stage : Stage T} (looks : Looks stage) : carried stage = 0 := by
  cases stage <;> first | rfl | cases looks

/-- Who looks on has nothing to count. -/
theorem Looks.drift {stage : Stage T} (looks : Looks stage) : drift stage = 0 := by
  cases stage <;> first | rfl | cases looks

/-- The list holds what was inserted and not removed. -/
structure Holds [Fintype τ] (state : State T τ) (cells : List (Ref × T)) : Prop where
  linked : Linked state.shared.list state.threads cells
  values : (state.shared.inserted : Multiset T) =
    ((cells.map Prod.snd : List T) + state.shared.removed : Multiset T) +
      ∑ thread, carried (state.threads thread)
  sized : state.shared.list.listSize = UInt64.ofNat cells.length +
    ∑ thread, drift (state.threads thread)

section Runs

variable [DecidableEq τ] [Fintype τ]

/-- **One step** keeps what the list holds. -/
theorem Holds.step {shared after : Shared T} {threads : τ → Stage T} {cells : List (Ref × T)}
    (holds : Holds ⟨shared, threads⟩ cells) {thread : τ} {stage locals : Stage T}
    (spelled : threads thread = stage)
    (current : ∀ val prev curr next, stage = .unlinking val prev curr next →
      TakesOut shared.list val prev curr next)
    (moves : Moves (shared, stage) (after, locals)) :
    ∃ others, Holds ⟨after, Function.update threads thread locals⟩ others := by
  obtain ⟨linked, values, sized⟩ := holds
  dsimp only at linked values sized
  have prepared := linked.prepared thread
  rw [spelled] at prepared
  have free (ref) (owned : owns stage = some ref) : ref ∉ cells.map Prod.fst :=
    linked.outside thread ref (by rw [spelled, owned])
  have others (ref) (owned : owns stage = some ref) (other) (different : other ≠ thread) :
      owns (threads other) ≠ some ref := fun also =>
    different (linked.apart other thread ref also (by rw [spelled, owned]))
  cases moves with
  | insert absent =>
      obtain ⟨unlinked, unowned⟩ := linked.unused absent
      refine ⟨cells, linked.write unlinked (fun other _ => unowned other) rfl
        (fun other different => read_update_of_ne different _) ⟨none, ?_⟩ ?_,
        Threads.account_update values ?_, Threads.account_update sized ?_⟩
      · simp only [read_eq_some, Function.update_self]
      · intro ref owned
        cases owned
        rfl
      · rw [spelled, ← Multiset.cons_coe, ← Multiset.singleton_add]
        simp only [carried]
        ac_rfl
      · rw [spelled]
        rfl
  | expect =>
      refine ⟨cells, linked.stay rfl rfl prepared fun ref owned => spelled ▸ owned,
        Threads.account_update values ?_, Threads.account_update sized ?_⟩
      · rw [spelled]
        rfl
      · rw [spelled]
        rfl
  | link stored =>
      obtain ⟨old, found⟩ := prepared
      obtain ⟨head, counted, redirected, unchanged⟩ := setNext_spec stored found
      refine ⟨cells, linked.write (free _ rfl) (others _ rfl) head unchanged redirected ?_,
        Threads.account_update values ?_, Threads.account_update sized ?_⟩
      · intro ref owned
        cases owned
        rfl
      · rw [spelled]
        rfl
      · rw [spelled, counted]
        rfl
  | publish same =>
      subst same
      refine ⟨_ :: cells, linked.publish spelled,
        Threads.account_update values ?_, Threads.account_update sized ?_⟩
      · rw [spelled, List.map_cons, ← Multiset.cons_coe, ← Multiset.singleton_add]
        simp only [carried]
        abel
      · rw [spelled, List.length_cons, UInt64.ofNat_add]
        simp only [drift]
        abel
  | retry =>
      refine ⟨cells, linked.stay rfl rfl ⟨_, prepared⟩ fun ref owned => spelled ▸ owned,
        Threads.account_update values ?_, Threads.account_update sized ?_⟩
      · rw [spelled]
        rfl
      · rw [spelled]
        rfl
  | count =>
      refine ⟨cells, linked.stay rfl rfl ?_ ?_,
        Threads.account_update values ?_, Threads.account_update sized ?_⟩
      · trivial
      · intro ref owned
        cases owned
      · rw [spelled]
        rfl
      · rw [spelled]
        simp only [drift]
        abel
  | look before looks =>
      refine ⟨cells, linked.stay rfl rfl (looks.prepared _) fun ref owned => ?_,
        Threads.account_update values ?_, Threads.account_update sized ?_⟩
      · rw [looks.owns] at owned
        cases owned
      · rw [spelled, before.carried, looks.carried]
      · rw [spelled, before.drift, looks.drift]
  | @unlink _ val prev curr next list stored =>
      obtain ⟨front, back, rfl, segment, counted, unchanged⟩ :=
        (current val prev curr next rfl).chain linked.segment linked.distinct stored
      refine ⟨front ++ back, linked.unlink segment unchanged,
        Threads.account_update values ?_, Threads.account_update sized ?_⟩
      · rw [spelled, List.map_append, List.map_append, List.map_cons, ← Multiset.coe_add,
          ← Multiset.coe_add, ← Multiset.cons_coe, ← Multiset.singleton_add]
        simp only [carried]
        abel
      · rw [spelled, counted, List.length_append, List.length_append, List.length_cons,
          ← Nat.add_assoc, UInt64.ofNat_add (front.length + back.length) 1]
        simp only [drift]
        abel
  | delete =>
      refine ⟨cells, linked.write (free _ rfl) (others _ rfl) rfl
        (fun other different => read_update_of_ne different _) trivial ?_,
        Threads.account_update values ?_, Threads.account_update sized ?_⟩
      · intro ref owned
        cases owned
      · rw [spelled]
        rfl
      · rw [spelled]
        rfl
  | uncount =>
      refine ⟨cells, linked.stay rfl rfl ?_ ?_,
        Threads.account_update values ?_, Threads.account_update sized ?_⟩
      · trivial
      · intro ref owned
        cases owned
      · rw [spelled, ← Multiset.cons_coe, ← Multiset.singleton_add]
        simp only [carried]
        abel
      · rw [spelled]
        simp only [drift]
        abel

variable [DecidableEq T] {state : State T τ}

theorem holds_of_reaches (reached : machine.Reaches Current initial state) :
    ∃ cells, Holds state cells := by
  refine Threads.reaches_invariant reached (fun state => ∃ cells, Holds state cells)
    ⟨[], ⟨rfl, List.nodup_nil, ?_, ?_, ?_⟩, ?_, ?_⟩ ?_
  · intro thread ref owned
    cases owned
  · intro one other ref owned
    cases owned
  · intro thread
    trivial
  · simp [initial, carried]
  · simp [initial, new, drift]
  · intro shared threads thread event after stage holds current ran
    obtain ⟨cells, holds⟩ := holds
    exact holds.step rfl current (atomic_moves ran)

/-- **No lost insert.** In every interleaving in which each store of a `remove` takes out
its node and nothing else, once all calls have returned, the values reachable from the
head and those whose remove returned true are the inserted values, and the size is the
number of the values reachable. -/
theorem list_keeps_inserts (reached : machine.Reaches Current initial state)
    (idle : ∀ thread, state.threads thread = .idle) :
    ∃ cells, Segment state.shared.list.read state.shared.list.head cells none ∧
      ((cells.map Prod.snd : List T) + state.shared.removed : Multiset T) =
        state.shared.inserted ∧
      state.shared.list.size = UInt64.ofNat cells.length := by
  obtain ⟨cells, linked, values, sized⟩ := holds_of_reaches reached
  refine ⟨cells, linked.segment, ?_, ?_⟩
  · rw [values, Finset.sum_eq_zero (fun thread _ => congrArg carried (idle thread)), add_zero]
  · rw [size, sized, Finset.sum_eq_zero (fun thread _ => congrArg drift (idle thread)), add_zero]

/-- A store of `remove` that is up to date and goes to the head or to the first node. -/
def NearHead (list : LockFreeList T) : Stage T → Prop
  | .unlinking val prev curr next => list.target prev = some curr ∧
      list.heap curr = some ⟨val, next⟩ ∧ (prev = none ∨ prev = list.head)
  | _ => True

instance (list : LockFreeList T) : ∀ stage, Decidable (NearHead list stage)
  | .unlinking _ _ _ _ => inferInstanceAs (Decidable (_ ∧ _ ∧ (_ ∨ _)))
  | .idle | .expecting _ _ | .linking _ _ _ | .publishing _ _ _ | .counting | .starting _
  | .searching _ _ _ | .advancing _ _ | .bypassing _ _ _ | .deleting _ _ | .uncounting _ =>
      inferInstanceAs (Decidable True)

omit [DecidableEq τ] [Fintype τ] [DecidableEq T] in
/-- Removals near the head are current. -/
theorem current_of_nearHead {event : τ × Event T}
    (near : NearHead state.shared.list (state.threads event.1)) : Current state event := by
  intro val prev curr next spelled
  rw [spelled] at near
  obtain ⟨pointed, found, first⟩ := near
  refine ⟨pointed, found, fun ref present => ?_⟩
  rcases first with none | head
  · cases none.symm.trans present
  · exact ⟨[], head.symm.trans present⟩

/-- Two inserts race for the head, and a remove takes out the last node while a third
insert is under way. -/
theorem list_keeps_inserts_raced :
    ∃ state : State Nat (Fin 2), machine.execute
        (fun state event => NearHead state.shared.list (state.threads event.1))
        [(0, .insert 1 0), (1, .insert 2 1), (0, .proceed), (1, .proceed), (0, .proceed),
          (1, .proceed), (0, .proceed), (1, .proceed), (1, .proceed), (1, .spurious),
          (1, .proceed), (1, .proceed), (0, .proceed), (1, .proceed), (1, .remove 1),
          (1, .proceed), (1, .proceed), (1, .proceed), (1, .proceed), (0, .insert 3 2),
          (0, .proceed), (1, .proceed), (1, .proceed), (0, .proceed), (0, .proceed),
          (1, .proceed), (1, .proceed), (0, .proceed)] initial = some state ∧
      state.shared.inserted = [3, 2, 1] ∧ state.shared.removed = [1] ∧
      ∃ cells, Segment state.shared.list.read state.shared.list.head cells none ∧
        ((cells.map Prod.snd : List Nat) + state.shared.removed : Multiset Nat) =
          state.shared.inserted := by
  have ran : (machine.execute
      (fun state event => NearHead state.shared.list (state.threads event.1))
      [(0, .insert 1 0), (1, .insert 2 1), (0, .proceed), (1, .proceed), (0, .proceed),
        (1, .proceed), (0, .proceed), (1, .proceed), (1, .proceed), (1, .spurious),
        (1, .proceed), (1, .proceed), (0, .proceed), (1, .proceed), (1, .remove 1),
        (1, .proceed), (1, .proceed), (1, .proceed), (1, .proceed), (0, .insert 3 2),
        (0, .proceed), (1, .proceed), (1, .proceed), (0, .proceed), (0, .proceed),
        (1, .proceed), (1, .proceed), (0, .proceed)] (initial : State Nat (Fin 2))).map
          (fun state => decide (state.shared.inserted = [3, 2, 1] ∧
            state.shared.removed = [1] ∧ ∀ thread, state.threads thread = .idle)) =
      some true := by
    decide +kernel
  obtain ⟨state, executed, checked⟩ := Option.map_eq_some_iff.mp ran
  obtain ⟨inserted, removed, idle⟩ := of_decide_eq_true checked
  obtain ⟨cells, segment, values, -⟩ := list_keeps_inserts
    ((Machine.reaches_of_execute executed).mono fun _ _ => current_of_nearHead) idle
  exact ⟨state, executed, inserted, removed, cells, segment, values⟩

/-- A remove loads the successor of the only node, an insert publishes a node before it,
and the store of the remove loses that node. -/
theorem list_insert_lost :
    ∃ state : State Nat (Fin 2), machine.execute Machine.anyStep
        [(0, .insert 1 0), (0, .proceed), (0, .proceed), (0, .proceed), (0, .proceed),
          (0, .remove 1), (0, .proceed), (0, .proceed), (0, .proceed), (1, .insert 2 1),
          (1, .proceed), (1, .proceed), (1, .proceed), (1, .proceed), (0, .proceed),
          (0, .proceed), (0, .proceed)] initial = some state ∧
      (∀ thread, state.threads thread = .idle) ∧ state.shared.inserted = [2, 1] ∧
      state.shared.removed = [1] ∧ state.shared.list.head = none ∧
      state.shared.list.size = 1 := by
  have ran : (machine.execute Machine.anyStep
      [(0, .insert 1 0), (0, .proceed), (0, .proceed), (0, .proceed), (0, .proceed),
        (0, .remove 1), (0, .proceed), (0, .proceed), (0, .proceed), (1, .insert 2 1),
        (1, .proceed), (1, .proceed), (1, .proceed), (1, .proceed), (0, .proceed),
        (0, .proceed), (0, .proceed)] (initial : State Nat (Fin 2))).map (fun state =>
          decide ((∀ thread, state.threads thread = .idle) ∧ state.shared.inserted = [2, 1] ∧
            state.shared.removed = [1] ∧ state.shared.list.head = none ∧
            state.shared.list.size = 1)) = some true := by
    decide +kernel
  obtain ⟨state, executed, checked⟩ := Option.map_eq_some_iff.mp ran
  exact ⟨state, executed, of_decide_eq_true checked⟩

end Runs

end LockFreeList

end FastDb.Collect
