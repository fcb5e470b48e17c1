import Mathlib.Data.Finset.Erase
import Mathlib.Data.Finset.Insert
import Mathlib.Data.List.Nodup
import FastDb.Foundation.Machine

/-! # The object factory

`raft::objfactory` of `test/raft/objfactory.h`, the servers it creates and the handles
to them. `Get` and `RemoveObj` hold the mutex of the factory for their whole body, so
each is one step. The release of the last handle lets the weak pointer expire at once
and calls the deleter of the object, which takes its step later; any number of
deleters can be waiting, several of them for one id. The registry is right in every
interleaving (`FastDb.Raft.ObjFactory.registry`).
-/

namespace FastDb.Raft

open Foundation

/-- `objfactory<server>`, with the objects in memory and the use counts of their
handles. Objects are numbered in the order of their creation, and a handle counter
outlives its object. The lists are the calls of `RemoveObj` that wait for the mutex,
and the objects deleted so far. -/
structure ObjFactory where
  mMap : Int → Option Nat
  mSet : Finset Int
  /-- `key()` of the objects in memory. -/
  objects : Nat → Option Int
  useCount : Nat → Nat
  created : Nat
  removing : List Nat
  deleted : List Nat

namespace ObjFactory

/-- `objfactory()`. -/
def new : ObjFactory where
  mMap _ := none
  mSet := ∅
  objects _ := none
  useCount _ := 0
  created := 0
  removing := []
  deleted := []

/-- Another handle to an object, a copy or one from `weak_ptr::lock`. -/
def share (factory : ObjFactory) (ptr : Nat) : ObjFactory :=
  { factory with useCount := Function.update factory.useCount ptr (factory.useCount ptr + 1) }

/-- The creation of an object in `Get`. -/
def create (factory : ObjFactory) (id : Int) : ObjFactory :=
  { factory with
    mMap := Function.update factory.mMap id (some factory.created)
    mSet := insert id factory.mSet
    objects := Function.update factory.objects factory.created (some id)
    useCount := Function.update factory.useCount factory.created 1
    created := factory.created + 1 }

/-- `Get(id)`: the handle it returns, and the factory after it. -/
def get (factory : ObjFactory) (id : Int) : Nat × ObjFactory :=
  match factory.mMap id with
  | some ptr =>
      if factory.useCount ptr = 0 then (factory.created, factory.create id)
      else (ptr, factory.share ptr)
  | none => (factory.created, factory.create id)

/-- The release of a handle; the last one calls the deleter. -/
def release (factory : ObjFactory) (ptr : Nat) : ObjFactory :=
  { factory with
    useCount := Function.update factory.useCount ptr (factory.useCount ptr - 1)
    removing :=
      if factory.useCount ptr = 1 then ptr :: factory.removing else factory.removing }

/-- The entry of a key is erased from the map and from the set, if it has expired. -/
def eraseExpired (factory : ObjFactory) (key : Int) : ObjFactory :=
  match factory.mMap key with
  | some entry =>
      if factory.useCount entry = 0 then
        { factory with
          mMap := Function.update factory.mMap key none
          mSet := factory.mSet.erase key }
      else factory
  | none => factory

/-- `RemoveObj(ptr)`; the key of an object that is not in memory cannot be read. -/
def removeObj (factory : ObjFactory) (ptr : Nat) : Option ObjFactory :=
  (factory.objects ptr).map fun key =>
    let factory := factory.eraseExpired key
    { factory with
      objects := Function.update factory.objects ptr none
      deleted := ptr :: factory.deleted }

/-- A call of `Get`, the copy or the release of a handle, or the turn of a deleter. -/
inductive Event
  | get (id : Int)
  | copy (ptr : Nat)
  | release (ptr : Nat)
  | removeObj (ptr : Nat)

/-- The factory with those that hold its objects. -/
def machine : Machine ObjFactory Event where
  step factory
    | .get id => some (factory.get id).2
    | .copy ptr => if 0 < factory.useCount ptr then some (factory.share ptr) else none
    | .release ptr => if 0 < factory.useCount ptr then some (factory.release ptr) else none
    | .removeObj ptr =>
        if ptr ∈ factory.removing then
          removeObj { factory with removing := factory.removing.erase ptr } ptr
        else none

/-- An object in memory to which there is a handle. -/
def Live (factory : ObjFactory) (ptr : Nat) (id : Int) : Prop :=
  factory.objects ptr = some id ∧ 0 < factory.useCount ptr

/-- What holds between the steps. -/
structure Registered (factory : ObjFactory) : Prop where
  /-- The entry of an id is its live object, whatever deleters are waiting. -/
  live : ∀ ptr id, factory.Live ptr id → factory.mMap id = some ptr
  /-- Who has a handle has an object in memory. -/
  inMemory : ∀ ptr, 0 < factory.useCount ptr → ∃ id, factory.objects ptr = some id
  named : ∀ ptr id key, factory.mMap id = some ptr → factory.objects ptr = some key → key = id
  keys : ∀ id, id ∈ factory.mSet ↔ (factory.mMap id).isSome
  /-- A waiting deleter is the only one of its object, which is in memory. -/
  waiting : ∀ ptr ∈ factory.removing, factory.useCount ptr = 0 ∧ (factory.objects ptr).isSome
  once : factory.removing.Nodup
  gone : ∀ ptr ∈ factory.deleted, factory.objects ptr = none
  distinct : factory.deleted.Nodup
  unused : ∀ ptr, factory.created ≤ ptr → factory.objects ptr = none ∧
    factory.useCount ptr = 0 ∧ ptr ∉ factory.deleted ∧ ∀ id, factory.mMap id ≠ some ptr

theorem registered_new : Registered new := by
  constructor <;> simp [new, Live]

theorem Registered.share {factory : ObjFactory} (registered : Registered factory) {ptr : Nat}
    (used : 0 < factory.useCount ptr) : Registered (factory.share ptr) := by
  obtain ⟨live, inMemory, named, keys, waiting, once, gone, distinct, unused⟩ := registered
  -- the object was live before
  obtain ⟨key, object⟩ := inMemory ptr used
  have registered := live ptr key ⟨object, used⟩
  simp only [Live] at live
  constructor <;> simp only [ObjFactory.share, Live] <;> grind

theorem Registered.create {factory : ObjFactory} (registered : Registered factory) {id : Int}
    (expired : ∀ ptr, factory.mMap id = some ptr → factory.useCount ptr = 0) :
    Registered (factory.create id) := by
  obtain ⟨live, inMemory, named, keys, waiting, once, gone, distinct, unused⟩ := registered
  have fresh := unused factory.created le_rfl
  -- no object of the id is live, for it would be the entry
  have none_live (ptr) : ¬ factory.Live ptr id := fun isLive =>
    Nat.ne_of_gt isLive.2 (expired ptr (live ptr id isLive))
  simp only [Live] at live none_live
  constructor <;> simp only [ObjFactory.create, Live] <;> grind

theorem Registered.get {factory : ObjFactory} (registered : Registered factory) (id : Int) :
    Registered (factory.get id).2 := by
  unfold ObjFactory.get
  split
  · next ptr entry =>
      split
      · next expired =>
          apply registered.create
          intro other found
          obtain rfl := Option.some.inj (entry.symm.trans found)
          exact expired
      · next used => exact registered.share (Nat.pos_of_ne_zero used)
  · next absent =>
      apply registered.create
      intro ptr found
      rw [absent] at found
      cases found

theorem Registered.release {factory : ObjFactory} (registered : Registered factory) {ptr : Nat}
    (used : 0 < factory.useCount ptr) : Registered (factory.release ptr) := by
  obtain ⟨live, inMemory, named, keys, waiting, once, gone, distinct, unused⟩ := registered
  obtain ⟨key, object⟩ := inMemory ptr used
  -- the deleter of an object with a handle is not waiting
  have notWaiting : ptr ∉ factory.removing := fun waits =>
    Nat.ne_of_gt used (waiting ptr waits).1
  simp only [Live] at live
  constructor <;> simp only [ObjFactory.release, Live] <;> grind

theorem Registered.eraseExpired {factory : ObjFactory} (registered : Registered factory)
    (key : Int) : Registered (factory.eraseExpired key) := by
  unfold ObjFactory.eraseExpired
  split
  · next entry found =>
      split
      · next expired =>
          obtain ⟨live, inMemory, named, keys, waiting, once, gone, distinct, unused⟩ := registered
          simp only [Live] at live
          constructor <;> simp only [Live] <;> grind
      · exact registered
  · exact registered

/-- A deleter that has left the queue deletes its object. -/
theorem Registered.delete {factory : ObjFactory} (registered : Registered factory) {ptr : Nat}
    (expired : factory.useCount ptr = 0) (left : ptr ∉ factory.removing) {key : Int}
    (object : factory.objects ptr = some key) :
    Registered { factory with
      objects := Function.update factory.objects ptr none
      deleted := ptr :: factory.deleted } := by
  obtain ⟨live, inMemory, named, keys, waiting, once, gone, distinct, unused⟩ := registered
  simp only [Live] at live
  constructor <;> simp only [Live] <;> grind

theorem Registered.leave {factory : ObjFactory} (registered : Registered factory) (ptr : Nat) :
    Registered { factory with removing := factory.removing.erase ptr } := by
  obtain ⟨live, inMemory, named, keys, waiting, once, gone, distinct, unused⟩ := registered
  exact ⟨live, inMemory, named, keys,
    fun other waits => waiting other (List.mem_of_mem_erase waits), once.erase ptr, gone,
    distinct, unused⟩

/-- Erasing an entry leaves the objects. -/
theorem eraseExpired_rest (factory : ObjFactory) (key : Int) :
    (factory.eraseExpired key).objects = factory.objects ∧
      (factory.eraseExpired key).useCount = factory.useCount ∧
      (factory.eraseExpired key).removing = factory.removing := by
  unfold eraseExpired
  split
  · split
    · exact ⟨rfl, rfl, rfl⟩
    · exact ⟨rfl, rfl, rfl⟩
  · exact ⟨rfl, rfl, rfl⟩

theorem Registered.removeObj {factory : ObjFactory} (registered : Registered factory) {ptr : Nat}
    (expired : factory.useCount ptr = 0) (left : ptr ∉ factory.removing) {key : Int}
    (object : factory.objects ptr = some key) :
    ∃ after, factory.removeObj ptr = some after ∧ Registered after := by
  obtain ⟨objects, useCount, removing⟩ := eraseExpired_rest factory key
  have erased := registered.eraseExpired key
  refine ⟨_, ?_, erased.delete (useCount ▸ expired) (removing ▸ left) (objects ▸ object)⟩
  simp only [ObjFactory.removeObj, object, Option.map_some]

/-- The turn of a waiting deleter comes to an end. -/
theorem Registered.turn {factory : ObjFactory} (registered : Registered factory) {ptr : Nat}
    (waits : ptr ∈ factory.removing) :
    ∃ after, machine.step factory (.removeObj ptr) = some after ∧ Registered after := by
  obtain ⟨expired, inMemory⟩ := registered.waiting ptr waits
  obtain ⟨key, object⟩ := Option.isSome_iff_exists.mp inMemory
  have left : ptr ∉ factory.removing.erase ptr := registered.once.not_mem_erase
  obtain ⟨after, removed, kept⟩ := (registered.leave ptr).removeObj expired left object
  exact ⟨after, (if_pos waits).trans removed, kept⟩

/-- **One step** keeps the registry right. -/
theorem Registered.step {factory after : ObjFactory} (registered : Registered factory)
    {event : Event} (stepped : machine.step factory event = some after) : Registered after := by
  cases event with
  | get id =>
      cases stepped
      exact registered.get id
  | copy ptr =>
      obtain ⟨used, rfl⟩ : 0 < factory.useCount ptr ∧ factory.share ptr = after := by
        simpa [machine] using stepped
      exact registered.share used
  | release ptr =>
      obtain ⟨used, rfl⟩ : 0 < factory.useCount ptr ∧ factory.release ptr = after := by
        simpa [machine] using stepped
      exact registered.release used
  | removeObj ptr =>
      by_cases waits : ptr ∈ factory.removing
      · obtain ⟨only, turned, kept⟩ := registered.turn waits
        obtain rfl := Option.some.inj (turned.symm.trans stepped)
        exact kept
      · simp [machine, waits] at stepped

theorem registered_of_reaches {factory : ObjFactory}
    (reached : machine.Reaches Machine.anyStep new factory) : Registered factory :=
  reached.invariant Registered registered_new fun _ _ _ registered _ stepped =>
    registered.step stepped

/-- **The registry.** In every interleaving of calls of `Get`, copies and releases of
handles and the turns of the deleters, an id has at most one live object, `Get` returns it
while it is live, the set holds the ids of the map, no object is deleted twice or
while it is live, and every waiting deleter can take its turn. -/
theorem registry {factory : ObjFactory}
    (reached : machine.Reaches Machine.anyStep new factory) :
    (∀ one other id, factory.Live one id → factory.Live other id → one = other) ∧
      (∀ ptr id, factory.Live ptr id → (factory.get id).1 = ptr) ∧
      (∀ id, id ∈ factory.mSet ↔ (factory.mMap id).isSome) ∧
      (factory.deleted.Nodup ∧ ∀ ptr id, factory.Live ptr id → ptr ∉ factory.deleted) ∧
      ∀ ptr ∈ factory.removing, ∃ after, machine.step factory (.removeObj ptr) = some after := by
  have registered := registered_of_reaches reached
  refine ⟨fun one other id first second => ?_, fun ptr id isLive => ?_, registered.keys,
    ⟨registered.distinct, fun ptr id isLive deleted => ?_⟩, fun ptr waits => ?_⟩
  · exact Option.some.inj ((registered.live one id first).symm.trans
      (registered.live other id second))
  · rw [get, registered.live ptr id isLive]
    exact congrArg Prod.fst (if_neg (Nat.ne_of_gt isLive.2))
  · have absent := registered.gone ptr deleted
    rw [isLive.1] at absent
    cases absent
  · obtain ⟨after, turned, -⟩ := registered.turn waits
    exact ⟨after, turned⟩

/-- The id 7 is created again twice while the deleters of its first two objects wait,
and these take their turns after the third creation. -/
theorem registry_recreated :
    ∃ factory, machine.execute Machine.anyStep
        [.get 7, .release 0, .get 7, .copy 1, .release 1, .release 1, .get 7, .removeObj 1,
          .removeObj 0] new = some factory ∧
      factory.deleted = [0, 1] ∧ 7 ∈ factory.mSet ∧ (factory.get 7).1 = 2 := by
  have ran : (machine.execute Machine.anyStep
      [.get 7, .release 0, .get 7, .copy 1, .release 1, .release 1, .get 7, .removeObj 1,
        .removeObj 0] new).map (fun factory => decide (factory.deleted = [0, 1] ∧
          7 ∈ factory.mSet ∧ factory.objects 2 = some 7 ∧ 0 < factory.useCount 2)) =
      some true := by
    decide +kernel
  obtain ⟨factory, executed, checked⟩ := Option.map_eq_some_iff.mp ran
  obtain ⟨deleted, member, object, used⟩ := of_decide_eq_true checked
  exact ⟨factory, executed, deleted, member,
    (registry (Machine.reaches_of_execute executed)).2.1 2 7 ⟨object, used⟩⟩

end ObjFactory

end FastDb.Raft
