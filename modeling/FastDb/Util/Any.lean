import Mathlib.Logic.Function.Basic
import FastDb.Foundation.Machine

/-! # Type-erased values

`Any` of `common/ioc_container.cppm`: a type index and an owning pointer to a copy of a value,
any number of objects of it, and the heap their pointers point into. Moving from an object
takes its pointer and leaves its type index, after which `is` still says that it holds a
value; and `is` does not tell a type from its qualified versions, which no value is stored
as. A run leaves every object of a type with its value exactly as long as it does neither
(`FastDb.Util.Any.neverNull_step_iff`).
-/

namespace FastDb.Util

open Foundation

/-- The address of a `Derived`. -/
abbrev Address := Nat

/-- A template argument `U`: an object type, or a `const` or `volatile` version of it or a
reference to it. `void` is none. -/
structure TemplateType (Ty : Type) where
  object : Ty
  qualified : Bool

/-- A `Derived<T>` of a decayed type, with its `m_value`. -/
abbrev Derived (Value : Ty → Type) := (type : Ty) × Value type

/-- `Any`; the type index of `void` is `none`. -/
structure Any (Ty : Type) where
  basePtr : Option Address
  typeIndex : Option Ty
deriving DecidableEq

namespace Any

variable {Ty Name : Type} {Value : Ty → Type}

/-- `is<U>()`: `typeid` drops the qualifiers. -/
def Is (any : Any Ty) (U : TemplateType Ty) : Prop := any.typeIndex = some U.object

instance [DecidableEq Ty] (any : Any Ty) (U : TemplateType Ty) : Decidable (any.Is U) :=
  inferInstanceAs (Decidable (_ = _))

/-- The objects, by their names, and the heap. -/
structure Memory (Name : Type) {Ty : Type} (Value : Ty → Type) where
  heap : Address → Option (Derived Value)
  objects : Name → Option (Any Ty)

/-- What comes of `anyCast<U>()`. -/
inductive Cast
  | badCast
  | reference (address : Address)
  /-- The null pointer is dereferenced. -/
  | undefined
deriving DecidableEq

/-- The pointer points to a `Derived<U>`, which a qualified type is never stored as. -/
def Holds (heap : Address → Option (Derived Value)) (any : Any Ty) (U : TemplateType Ty)
    (address : Address) : Prop :=
  any.basePtr = some address ∧ U.qualified = false ∧
    ∃ value, heap address = some ⟨U.object, value⟩

/-- `dynamic_cast<Derived<U> *>(m_basePtr.get())`, null unless it points to one. -/
def dynamicCast [DecidableEq Ty] (heap : Address → Option (Derived Value)) (any : Any Ty)
    (U : TemplateType Ty) : Option Address :=
  any.basePtr.bind fun address =>
    if U.qualified = false ∧ (heap address).map Sigma.fst = some U.object then some address
    else none

/-- `anyCast<U>()`. -/
def anyCast [DecidableEq Ty] (heap : Address → Option (Derived Value)) (any : Any Ty)
    (U : TemplateType Ty) : Cast :=
  if any.Is U then
    match dynamicCast heap any U with
    | some address => .reference address
    | none => .undefined
  else .badCast

/-- `clone()`, with the address a new `Derived` gets: the pointer, and the heap after it. -/
def clone (heap : Address → Option (Derived Value)) (any : Any Ty) (fresh : Address) :
    Option (Option Address × (Address → Option (Derived Value))) :=
  match any.basePtr with
  | none => some (none, heap)
  | some address =>
      match heap address, heap fresh with
      | some derived, none => some (some fresh, Function.update heap fresh (some derived))
      | _, _ => none

/-- The deletion of what a pointer owns. -/
def delete (heap : Address → Option (Derived Value)) :
    Option Address → Address → Option (Derived Value)
  | none => heap
  | some address => Function.update heap address none

/-- What can happen to the objects. -/
inductive Event (Name : Type) {Ty : Type} (Value : Ty → Type)
  | construct (name : Name)
  | fromValue (name : Name) (value : Derived Value) (fresh : Address)
  | copy (name other : Name) (fresh : Address)
  | move (name other : Name)
  | assign (name other : Name) (fresh : Address)
  | destroy (name : Name)

namespace Memory

variable [DecidableEq Name] (memory : Memory Name Value)

/-- What is under a name from now on, and the heap. -/
def store (name : Name) (slot : Option (Any Ty)) (heap : Address → Option (Derived Value)) :
    Memory Name Value where
  heap
  objects := Function.update memory.objects name slot

@[simp] theorem store_heap (name : Name) (slot : Option (Any Ty))
    (heap : Address → Option (Derived Value)) : (memory.store name slot heap).heap = heap := rfl

@[simp] theorem store_objects_self (name : Name) (slot : Option (Any Ty))
    (heap : Address → Option (Derived Value)) :
    (memory.store name slot heap).objects name = slot := Function.update_self ..

/-- Storing an object leaves the others. -/
theorem store_objects_of_ne {name other : Name} (different : other ≠ name)
    (slot : Option (Any Ty)) (heap : Address → Option (Derived Value)) :
    (memory.store name slot heap).objects other = memory.objects other :=
  Function.update_of_ne different ..

/-- One event; a new object has a new name. -/
def step : Event Name Value → Option (Memory Name Value)
  | .construct name =>
      match memory.objects name with
      | none => some (memory.store name (some ⟨none, none⟩) memory.heap)
      | some _ => none
  | .fromValue name value fresh =>
      match memory.objects name, memory.heap fresh with
      | none, none =>
          some (memory.store name (some ⟨some fresh, some value.1⟩)
            (Function.update memory.heap fresh (some value)))
      | _, _ => none
  | .copy name other fresh =>
      match memory.objects name, memory.objects other with
      | none, some source =>
          (clone memory.heap source fresh).map fun cloned =>
            memory.store name (some ⟨cloned.1, source.typeIndex⟩) cloned.2
      | _, _ => none
  | .move name other =>
      match memory.objects name, memory.objects other with
      | none, some source =>
          some ((memory.store other (some { source with basePtr := none }) memory.heap).store name
            (some source) memory.heap)
      | _, _ => none
  | .assign name other fresh =>
      match memory.objects name, memory.objects other with
      | some target, some source =>
          if target.basePtr = source.basePtr then some memory
          else
            (clone memory.heap source fresh).map fun cloned =>
              memory.store name (some ⟨cloned.1, source.typeIndex⟩)
                (delete cloned.2 target.basePtr)
      | _, _ => none
  | .destroy name =>
      match memory.objects name with
      | some any => some (memory.store name none (delete memory.heap any.basePtr))
      | none => none

end Memory

/-- The objects and what they own. -/
def machine [DecidableEq Name] : Machine (Memory Name Value) (Event Name Value) where
  step memory := memory.step

/-- No objects. -/
def initial : Memory Name Value where
  heap _ := none
  objects _ := none

/-- For every object, that it `is` of the type says that it holds a value of the type, and the
cast throws or returns a reference to one. -/
structure NeverNull [DecidableEq Ty] (memory : Memory Name Value) (U : TemplateType Ty) :
    Prop where
  held : ∀ name any, memory.objects name = some any → any.Is U →
    ∃ address, Holds memory.heap any U address
  cast : ∀ name any, memory.objects name = some any → anyCast memory.heap any U = .badCast ∨
    ∃ address, anyCast memory.heap any U = .reference address ∧
      Holds memory.heap any U address

/-- No object of the type is moved from, and if the type is a qualified one, no value of its
object type is stored. -/
def Keeps (U : TemplateType Ty) (memory : Memory Name Value) : Event Name Value → Prop
  | .move _ other => ∀ source ∈ memory.objects other, ¬ source.Is U
  | .fromValue _ value _ => U.qualified = true → value.1 ≠ U.object
  | _ => True

instance [DecidableEq Ty] (U : TemplateType Ty) (memory : Memory Name Value) :
    ∀ event, Decidable (Keeps U memory event)
  | .move _ other => inferInstanceAs (Decidable (∀ source ∈ memory.objects other, ¬ source.Is U))
  | .fromValue _ value _ => inferInstanceAs (Decidable (U.qualified = true → value.1 ≠ U.object))
  | .construct _ | .copy _ _ _ | .assign _ _ _ | .destroy _ => .isTrue trivial

section Ownership

variable {memory : Memory Name Value}

/-- A pointer points to a value of the type index, and has one owner. -/
structure Owned (memory : Memory Name Value) : Prop where
  typed : ∀ name any address, memory.objects name = some any → any.basePtr = some address →
    ∃ derived, memory.heap address = some derived ∧ any.typeIndex = some derived.1
  apart : ∀ name other any otherAny address, memory.objects name = some any →
    memory.objects other = some otherAny → any.basePtr = some address →
    otherAny.basePtr = some address → name = other

/-- An object that `is` of the type has a pointer, and the type is not a qualified one. -/
def Filled (U : TemplateType Ty) (memory : Memory Name Value) : Prop :=
  ∀ name any, memory.objects name = some any → any.Is U →
    any.basePtr ≠ none ∧ U.qualified = false

theorem owned_initial : Owned (initial : Memory Name Value) where
  typed _ _ _ found := nomatch found
  apart _ _ _ _ _ found := nomatch found

theorem filled_initial (U : TemplateType Ty) : Filled U (initial : Memory Name Value) :=
  fun _ _ found => nomatch found

variable [DecidableEq Name]

/-- What an event can do, with what has to hold for it. -/
inductive Change (memory : Memory Name Value) : Event Name Value → Memory Name Value → Prop
  | construct {name : Name} (unused : memory.objects name = none) :
      Change memory (.construct name) (memory.store name (some ⟨none, none⟩) memory.heap)
  | fromValue {name : Name} {value : Derived Value} {fresh : Address}
      (unused : memory.objects name = none) (free : memory.heap fresh = none) :
      Change memory (.fromValue name value fresh)
        (memory.store name (some ⟨some fresh, some value.1⟩)
          (Function.update memory.heap fresh (some value)))
  | copy {name other : Name} {fresh : Address} {source : Any Ty}
      {cloned : Option Address × (Address → Option (Derived Value))}
      (unused : memory.objects name = none) (found : memory.objects other = some source)
      (ran : clone memory.heap source fresh = some cloned) :
      Change memory (.copy name other fresh)
        (memory.store name (some ⟨cloned.1, source.typeIndex⟩) cloned.2)
  | move {name other : Name} {source : Any Ty} (unused : memory.objects name = none)
      (found : memory.objects other = some source) :
      Change memory (.move name other)
        ((memory.store other (some { source with basePtr := none }) memory.heap).store name
          (some source) memory.heap)
  | same {name other : Name} {fresh : Address} : Change memory (.assign name other fresh) memory
  | assign {name other : Name} {fresh : Address} {target source : Any Ty}
      {cloned : Option Address × (Address → Option (Derived Value))}
      (foundTarget : memory.objects name = some target)
      (found : memory.objects other = some source)
      (ran : clone memory.heap source fresh = some cloned) :
      Change memory (.assign name other fresh)
        (memory.store name (some ⟨cloned.1, source.typeIndex⟩) (delete cloned.2 target.basePtr))
  | destroy {name : Name} {any : Any Ty} (found : memory.objects name = some any) :
      Change memory (.destroy name) (memory.store name none (delete memory.heap any.basePtr))

/-- A step is one of the changes. -/
theorem change_of_step {event : Event Name Value} {after : Memory Name Value}
    (stepped : memory.step event = some after) : Change memory event after := by
  cases event with
  | construct name =>
      simp only [Memory.step] at stepped
      split at stepped
      · next unused =>
          cases stepped
          exact .construct unused
      · cases stepped
  | fromValue name value fresh =>
      simp only [Memory.step] at stepped
      split at stepped
      · next unused free =>
          cases stepped
          exact .fromValue unused free
      · cases stepped
  | copy name other fresh =>
      simp only [Memory.step] at stepped
      split at stepped
      · next source unused found =>
          obtain ⟨cloned, ran, rfl⟩ := Option.map_eq_some_iff.mp stepped
          exact .copy unused found ran
      · cases stepped
  | move name other =>
      simp only [Memory.step] at stepped
      split at stepped
      · next source unused found =>
          cases stepped
          exact .move unused found
      · cases stepped
  | assign name other fresh =>
      simp only [Memory.step] at stepped
      split at stepped
      · next target source foundTarget found =>
          split at stepped
          · cases stepped
            exact .same
          · obtain ⟨cloned, ran, rfl⟩ := Option.map_eq_some_iff.mp stepped
            exact .assign foundTarget found ran
      · cases stepped
  | destroy name =>
      simp only [Memory.step] at stepped
      split at stepped
      · next any found =>
          cases stepped
          exact .destroy found
      · cases stepped

/-- What a change of one object has to show of it, and what it leaves to the others. -/
theorem Owned.store (owned : Owned memory) {name : Name} {slot : Option (Any Ty)}
    {heap : Address → Option (Derived Value)}
    (typed : ∀ any address, slot = some any → any.basePtr = some address →
      ∃ derived, heap address = some derived ∧ any.typeIndex = some derived.1)
    (own : ∀ any address, slot = some any → any.basePtr = some address →
      ∀ other otherAny, other ≠ name → memory.objects other = some otherAny →
        otherAny.basePtr ≠ some address)
    (frame : ∀ other any address, other ≠ name → memory.objects other = some any →
      any.basePtr = some address → heap address = memory.heap address) :
    Owned (memory.store name slot heap) := by
  constructor
  · intro other any address found points
    by_cases same : other = name
    · subst same
      rw [Memory.store_objects_self] at found
      exact typed any address found points
    · rw [Memory.store_objects_of_ne _ same] at found
      rw [Memory.store_heap, frame other any address same found points]
      exact owned.typed other any address found points
  · intro one two any otherAny address found foundToo points pointsToo
    by_cases first : one = name <;> by_cases second : two = name
    · rw [first, second]
    · subst first
      rw [Memory.store_objects_self] at found
      rw [Memory.store_objects_of_ne _ second] at foundToo
      exact absurd pointsToo (own any address found points two otherAny second foundToo)
    · subst second
      rw [Memory.store_objects_self] at foundToo
      rw [Memory.store_objects_of_ne _ first] at found
      exact absurd points (own otherAny address foundToo pointsToo one any first found)
    · rw [Memory.store_objects_of_ne _ first] at found
      rw [Memory.store_objects_of_ne _ second] at foundToo
      exact owned.apart one two any otherAny address found foundToo points pointsToo

/-- Storing an object that is filled, or of another type. -/
theorem Filled.store {U : TemplateType Ty} (filled : Filled U memory) {name : Name}
    {slot : Option (Any Ty)} {heap : Address → Option (Derived Value)}
    (own : ∀ any, slot = some any → any.Is U → any.basePtr ≠ none ∧ U.qualified = false) :
    Filled U (memory.store name slot heap) := by
  intro other any found isType
  by_cases same : other = name
  · subst same
    rw [Memory.store_objects_self] at found
    exact own any found isType
  · rw [Memory.store_objects_of_ne _ same] at found
    exact filled other any found isType

omit [DecidableEq Name] in
/-- What cloning gives: a null pointer for a null pointer, else a copy of the value at an
address that was free. -/
theorem Owned.clone_cases (owned : Owned memory) {name : Name} {source : Any Ty}
    (found : memory.objects name = some source) {fresh : Address}
    {cloned : Option Address × (Address → Option (Derived Value))}
    (ran : clone memory.heap source fresh = some cloned) :
    (source.basePtr = none ∧ cloned = (none, memory.heap)) ∨
      ∃ derived, source.basePtr ≠ none ∧ source.typeIndex = some derived.1 ∧
        memory.heap fresh = none ∧
        cloned = (some fresh, Function.update memory.heap fresh (some derived)) := by
  rw [Any.clone] at ran
  split at ran
  · next null =>
      cases ran
      exact .inl ⟨null, rfl⟩
  · next address points =>
      split at ran
      · next derived stored free =>
          cases ran
          obtain ⟨known, storedToo, typed⟩ := owned.typed name source address found points
          rw [stored] at storedToo
          cases storedToo
          have filled : source.basePtr ≠ none := by
            rw [points]
            exact Option.some_ne_none address
          exact .inr ⟨derived, filled, typed, free, rfl⟩
      · cases ran

omit [DecidableEq Name] in
/-- A free address is nobody's. -/
theorem Owned.ne_of_free (owned : Owned memory) {fresh : Address}
    (free : memory.heap fresh = none) {name : Name} {any : Any Ty}
    (found : memory.objects name = some any) : any.basePtr ≠ some fresh := by
  intro points
  obtain ⟨derived, stored, -⟩ := owned.typed name any fresh found points
  rw [free] at stored
  cases stored

/-- An object without a pointer. -/
theorem Owned.storeNull (owned : Owned memory) (name : Name) (typeIndex : Option Ty) :
    Owned (memory.store name (some ⟨none, typeIndex⟩) memory.heap) := by
  refine owned.store ?_ ?_ fun _ _ _ _ _ _ => rfl
  · intro any address here points
    cases here
    cases points
  · intro any address here points
    cases here
    cases points

/-- An object with a new value. -/
theorem Owned.storeFresh (owned : Owned memory) (name : Name) {fresh : Address}
    (free : memory.heap fresh = none) (derived : Derived Value) :
    Owned (memory.store name (some ⟨some fresh, some derived.1⟩)
      (Function.update memory.heap fresh (some derived))) := by
  refine owned.store ?_ ?_ ?_
  · intro any address here points
    cases here
    cases points
    exact ⟨derived, Function.update_self .., rfl⟩
  · intro any address here points other otherAny _ found
    cases here
    cases points
    exact owned.ne_of_free free found
  · intro other any address _ found points
    apply Function.update_of_ne
    intro same
    exact owned.ne_of_free free found (same ▸ points)

/-- A destroyed object deletes its value. -/
theorem Owned.release (owned : Owned memory) {name : Name} {any : Any Ty}
    (found : memory.objects name = some any) :
    Owned (memory.store name none (delete memory.heap any.basePtr)) := by
  refine owned.store ?_ ?_ ?_
  · intro another address here
    cases here
  · intro another address here
    cases here
  · intro other otherAny address different foundToo points
    cases owns : any.basePtr with
    | none => rfl
    | some own =>
        apply Function.update_of_ne
        intro same
        subst same
        exact different (owned.apart other name otherAny any address foundToo found points owns)

/-- What an assignment leaves: the old value is deleted, then the object gets a clone. -/
theorem Owned.storeCloned (owned : Owned memory) {name other : Name} {source : Any Ty}
    (found : memory.objects other = some source) {fresh : Address}
    {cloned : Option Address × (Address → Option (Derived Value))}
    (ran : clone memory.heap source fresh = some cloned) {target : Option Address}
    (released : Owned (memory.store name none (delete memory.heap target)))
    (inUse : ∀ address, target = some address → memory.heap address ≠ none) :
    Owned (memory.store name (some ⟨cloned.1, source.typeIndex⟩)
      (delete cloned.2 target)) := by
  have twice (slot : Option (Any Ty)) (heap : Address → Option (Derived Value)) :
      (memory.store name none (delete memory.heap target)).store name slot heap =
        memory.store name slot heap := by
    rw [Memory.store, Memory.store, Function.update_idem]
    rfl
  rcases owned.clone_cases found ran with ⟨-, rfl⟩ | ⟨derived, -, typed, free, rfl⟩
  · have stored := released.storeNull name source.typeIndex
    rwa [twice] at stored
  · have apart : ∀ address, target = some address → address ≠ fresh := by
      intro address old same
      exact inUse address old (same ▸ free)
    have freeToo : delete memory.heap target fresh = none := by
      cases target with
      | none => exact free
      | some address => rw [delete, Function.update_of_ne (apart address rfl).symm, free]
    have order : Function.update (delete memory.heap target) fresh (some derived) =
        delete (Function.update memory.heap fresh (some derived)) target := by
      cases target with
      | none => rfl
      | some address => exact Function.update_comm (apart address rfl) ..
    have stored := released.storeFresh name freeToo derived
    rw [twice, Memory.store_heap, order] at stored
    rwa [typed]

/-- The pointer leaves one object before the other takes it. -/
theorem Owned.move (owned : Owned memory) {name other : Name} {source : Any Ty}
    (found : memory.objects other = some source) :
    Owned ((memory.store other (some { source with basePtr := none }) memory.heap).store name
      (some source) memory.heap) := by
  have released := owned.storeNull other source.typeIndex
  refine released.store ?_ ?_ fun _ _ _ _ _ _ => rfl
  · intro any address here points
    cases here
    exact owned.typed other source address found points
  · intro any address here points another otherAny _ foundToo pointsToo
    cases here
    by_cases same : another = other
    · subst same
      rw [Memory.store_objects_self] at foundToo
      cases foundToo
      cases pointsToo
    · rw [Memory.store_objects_of_ne _ same] at foundToo
      exact same (owned.apart another other otherAny source address foundToo found pointsToo points)

/-- **Ownership** is kept by every event. -/
theorem Owned.step (owned : Owned memory) {event : Event Name Value}
    {after : Memory Name Value} (stepped : memory.step event = some after) : Owned after := by
  cases change_of_step stepped with
  | construct unused => exact owned.storeNull _ none
  | fromValue unused free => exact owned.storeFresh _ free _
  | @copy name other fresh source cloned unused found ran =>
      have same : memory.store name none (delete memory.heap none) = memory := by
        rw [Memory.store, ← unused, Function.update_eq_self]
        rfl
      have inUse : ∀ address, (none : Option Address) = some address →
          memory.heap address ≠ none := by
        intro address points
        cases points
      exact owned.storeCloned found ran (same.symm ▸ owned) inUse
  | move unused found => exact owned.move found
  | same => exact owned
  | assign foundTarget found ran =>
      apply owned.storeCloned found ran (owned.release foundTarget)
      intro address points absent
      exact owned.ne_of_free absent foundTarget points
  | destroy found => exact owned.release found

omit [DecidableEq Name] in
/-- The new object of a copy or an assignment has a pointer if the old one has. -/
theorem Owned.basePtr_cloned (owned : Owned memory) {name : Name} {source : Any Ty}
    (found : memory.objects name = some source) {fresh : Address}
    {cloned : Option Address × (Address → Option (Derived Value))}
    (ran : Any.clone memory.heap source fresh = some cloned) (points : source.basePtr ≠ none) :
    cloned.1 ≠ none := by
  rcases owned.clone_cases found ran with ⟨null, -⟩ | ⟨derived, -, -, -, rfl⟩
  · exact absurd null points
  · exact Option.some_ne_none fresh

/-- So the type is found in the new object only if it was in the old one, with a pointer. -/
theorem Filled.storeCloned {U : TemplateType Ty} (filled : Filled U memory) (owned : Owned memory)
    {name other : Name} {source : Any Ty} (found : memory.objects other = some source)
    {fresh : Address} {cloned : Option Address × (Address → Option (Derived Value))}
    (ran : Any.clone memory.heap source fresh = some cloned)
    (heap : Address → Option (Derived Value)) :
    Filled U (memory.store name (some ⟨cloned.1, source.typeIndex⟩) heap) := by
  apply filled.store
  intro any here isType
  cases here
  obtain ⟨points, plain⟩ := filled other source found isType
  exact ⟨owned.basePtr_cloned found ran points, plain⟩

/-- **One step** that meets the condition leaves no object of the type without a value. -/
theorem Filled.step {U : TemplateType Ty} (filled : Filled U memory) (owned : Owned memory)
    {event : Event Name Value} {after : Memory Name Value} (keeps : Keeps U memory event)
    (stepped : memory.step event = some after) : Filled U after := by
  cases change_of_step stepped with
  | construct unused =>
      apply filled.store
      intro any here isType
      cases here
      cases isType
  | @fromValue name value fresh unused free =>
      apply filled.store
      intro any here isType
      cases here
      have same : value.1 = U.object := Option.some.inj isType
      refine ⟨Option.some_ne_none fresh, Bool.eq_false_iff.mpr fun qualified => ?_⟩
      exact keeps qualified same
  | copy unused found ran => exact filled.storeCloned owned found ran _
  | @move name other source unused found =>
      refine (filled.store ?_).store ?_
      · intro any here isType
        cases here
        exact absurd isType (keeps source found)
      · intro any here isType
        cases here
        exact filled other source found isType
  | same => exact filled
  | assign foundTarget found ran => exact filled.storeCloned owned found ran _
  | destroy found =>
      apply filled.store
      intro any here
      cases here

/-- **One step** that does not meet the condition leaves an object of the type without one. -/
theorem not_filled_of_not_keeps {U : TemplateType Ty} {event : Event Name Value}
    {after : Memory Name Value} (breaks : ¬ Keeps U memory event)
    (stepped : memory.step event = some after) : ¬ Filled U after := by
  intro filled
  cases change_of_step stepped with
  | @fromValue name value fresh unused free =>
      refine breaks fun qualified same => ?_
      have plain := (filled name _ (Memory.store_objects_self ..) (congrArg some same)).2
      rw [qualified] at plain
      cases plain
  | @move name other source unused found =>
      refine breaks fun another foundToo isType => ?_
      rw [found] at foundToo
      cases foundToo
      have different : other ≠ name := by
        intro same
        rw [same, unused] at found
        cases found
      have left : ((memory.store other (some { source with basePtr := none }) memory.heap).store
          name (some source) memory.heap).objects other =
            some { source with basePtr := none } := by
        rw [Memory.store_objects_of_ne _ different, Memory.store_objects_self]
      exact (filled other _ left isType).1 rfl
  | _ => exact breaks trivial

omit [DecidableEq Name] in
/-- What `is` says of an object, and the cast of it, are right exactly when objects of the type
have a value. -/
theorem neverNull_iff_filled [DecidableEq Ty] (owned : Owned memory) (U : TemplateType Ty) :
    NeverNull memory U ↔ Filled U memory := by
  constructor
  · intro sound name any found isType
    obtain ⟨address, points, plain, -⟩ := sound.held name any found isType
    refine ⟨?_, plain⟩
    rw [points]
    exact Option.some_ne_none address
  · intro filled
    have held : ∀ name any, memory.objects name = some any → any.Is U →
        ∃ address, Holds memory.heap any U address := by
      intro name any found isType
      obtain ⟨points, plain⟩ := filled name any found isType
      obtain ⟨address, points⟩ := Option.ne_none_iff_exists'.mp points
      obtain ⟨⟨type, value⟩, stored, typed⟩ := owned.typed name any address found points
      rw [isType] at typed
      cases typed
      exact ⟨address, points, plain, value, stored⟩
    refine ⟨held, fun name any found => ?_⟩
    by_cases isType : any.Is U
    · obtain ⟨address, points, plain, value, stored⟩ := held name any found isType
      refine .inr ⟨address, ?_, points, plain, value, stored⟩
      have down : dynamicCast memory.heap any U = some address := by
        rw [dynamicCast, points, Option.bind_some, stored]
        exact if_pos ⟨plain, rfl⟩
      rw [anyCast, if_pos isType, down]
    · exact .inl (if_neg isType)

end Ownership

section Runs

variable [DecidableEq Name] {memory : Memory Name Value} {U : TemplateType Ty}

theorem owned_of_reaches {allowed : Memory Name Value → Event Name Value → Prop}
    (run : machine.Reaches allowed initial memory) : Owned memory :=
  run.invariant Owned owned_initial fun _ _ _ owned _ stepped => owned.step stepped

theorem filled_of_reaches (run : machine.Reaches (Keeps U) initial memory) : Filled U memory := by
  refine run.invariant_given Owned (fun _ => owned_of_reaches) (Filled U) (filled_initial U) ?_
  intro before event after owned filled keeps stepped
  exact filled.step owned keeps stepped

variable [DecidableEq Ty]

/-- **`Any` hands out no null value** of a type in any state of a run whose steps all meet the
condition, and the first step that does not meet it leads to a state where it does. -/
theorem neverNull_step_iff (run : machine.Reaches (Keeps U) initial memory) :
    NeverNull memory U ∧
      ∀ event after, machine.step memory event = some after →
        (NeverNull after U ↔ Keeps U memory event) := by
  have owned := owned_of_reaches run
  have filled := filled_of_reaches run
  refine ⟨(neverNull_iff_filled owned U).mpr filled, fun event after stepped => ?_⟩
  rw [neverNull_iff_filled (owned.step stepped) U]
  constructor
  · intro filledAfter
    by_contra breaks
    exact not_filled_of_not_keeps breaks stepped filledAfter
  · intro keeps
    exact filled.step owned keeps stepped

/-- An `int` is stored, copied, and assigned to a default object, and then the copy is moved
from. -/
theorem neverNull_step_iff_moved :
    ∃ memory : Memory Nat fun _ : Unit => Int,
      machine.Reaches (Keeps ⟨(), false⟩) initial memory ∧ (memory.objects 1).isSome ∧
        NeverNull memory ⟨(), false⟩ ∧
        ∃ after, machine.step memory (.move 3 1) = some after ∧
          ¬ NeverNull after ⟨(), false⟩ := by
  have ran : (machine.execute (Keeps ⟨(), false⟩)
      [.fromValue 0 ⟨(), 5⟩ 0, .copy 1 0 1, .construct 2, .assign 2 1 2, .destroy 0]
      (initial : Memory Nat fun _ : Unit => Int)).map
        (fun memory => decide (memory.objects 1 = some ⟨some 1, some ()⟩ ∧
          memory.objects 3 = none)) = some true := by
    decide
  obtain ⟨memory, executed, checked⟩ := Option.map_eq_some_iff.mp ran
  obtain ⟨found, unused⟩ := of_decide_eq_true checked
  have run := Machine.reaches_of_execute executed
  obtain ⟨sound, next⟩ := neverNull_step_iff run
  have stepped : machine.step memory (.move 3 1) = some
      ((memory.store 1 (some ⟨none, some ()⟩) memory.heap).store 3 (some ⟨some 1, some ()⟩)
        memory.heap) := by
    change Memory.step memory (.move 3 1) = _
    simp only [Memory.step, found, unused]
  refine ⟨memory, run, by rw [found]; rfl, sound, _, stepped, fun soundAfter => ?_⟩
  exact (next _ _ stepped).mp soundAfter _ found rfl

/-- After the move `is<int>()` is true of an object without a value, and `anyCast<int>()`
dereferences a null pointer; and so it does for `const int`, of an object that holds an
`int`. -/
theorem neverNull_movedFrom :
    ∃ memory : Memory Nat fun _ : Unit => Int,
      machine.Reaches Machine.anyStep initial memory ∧
        (∃ any, memory.objects 0 = some any ∧ any.Is ⟨(), false⟩ ∧ any.basePtr = none ∧
          anyCast memory.heap any ⟨(), false⟩ = .undefined) ∧
        (∃ any, memory.objects 1 = some any ∧ any.Is ⟨(), true⟩ ∧ any.basePtr = some 0 ∧
          anyCast memory.heap any ⟨(), true⟩ = .undefined) ∧
        ¬ NeverNull memory ⟨(), false⟩ ∧ ¬ NeverNull memory ⟨(), true⟩ := by
  have ran : (machine.execute Machine.anyStep [.fromValue 0 ⟨(), 5⟩ 0, .move 1 0]
      (initial : Memory Nat fun _ : Unit => Int)).map
        (fun memory => decide (memory.objects 0 = some ⟨none, some ()⟩ ∧
          memory.objects 1 = some ⟨some 0, some ()⟩ ∧
          anyCast memory.heap ⟨none, some ()⟩ ⟨(), false⟩ = .undefined ∧
          anyCast memory.heap ⟨some 0, some ()⟩ ⟨(), true⟩ = .undefined)) = some true := by
    decide
  obtain ⟨memory, executed, checked⟩ := Option.map_eq_some_iff.mp ran
  obtain ⟨left, into, cast, castConst⟩ := of_decide_eq_true checked
  refine ⟨memory, Machine.reaches_of_execute executed, ⟨_, left, rfl, rfl, cast⟩,
    ⟨_, into, rfl, rfl, castConst⟩, fun sound => ?_, fun sound => ?_⟩
  · obtain ⟨address, points, -⟩ := sound.held 0 _ left rfl
    cases points
  · obtain ⟨address, -, plain, -⟩ := sound.held 1 _ into rfl
    cases plain

end Runs

end Any

end FastDb.Util
