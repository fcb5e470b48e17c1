import Mathlib.Data.List.Sort

/-! # Multimaps

A sequence of entries ordered by key, into which an entry goes behind those whose key is
equal to its own or less (`Foundation.Multimap.insert`). Keys are compared by a strict weak
order, for which two keys are equal when neither is less. What a multimap holds under a key
is a run of its entries (`Foundation.Multimap.equalRange`): the entries whose key is equal,
in the order of insertion (`Foundation.Multimap.equalRange_insertAll`).
-/

namespace Foundation

/-- A strict weak order. -/
structure KeyOrder (κ : Type*) where
  less : κ → κ → Bool
  asymm : ∀ a b, less a b = true → less b a = false
  /-- A third key is above the lesser or below the greater. -/
  cotrans : ∀ a b c, less a c = true → less a b = true ∨ less b c = true

namespace KeyOrder

variable {κ : Type*} (order : KeyOrder κ)

theorem irrefl (a : κ) : order.less a a = false := by
  by_contra less
  have greater := order.asymm a a (Bool.eq_true_of_not_eq_false less)
  exact less greater

/-- Keys neither of which is less. -/
def equivalent (a b : κ) : Bool := !order.less a b && !order.less b a

/-- Equal keys are the same. -/
def Separates : Prop := ∀ a b, order.equivalent a b = true → a = b

theorem equivalent_refl (a : κ) : order.equivalent a a = true := by
  rw [equivalent, order.irrefl]
  rfl

/-- Where an order separates, equivalent keys are equal. -/
theorem Separates.equivalent_iff {order : KeyOrder κ} (separates : order.Separates) {a b : κ} :
    order.equivalent a b = true ↔ a = b := by
  constructor
  · exact separates a b
  · rintro rfl
    exact order.equivalent_refl a

/-- The comparison of a linear order. -/
def ofLinearOrder (κ : Type*) [LinearOrder κ] : KeyOrder κ where
  less a b := decide (a < b)
  asymm a b less := decide_eq_false (lt_asymm (of_decide_eq_true less))
  cotrans a b c less := by
    rcases lt_or_ge a b with below | above
    · exact .inl (decide_eq_true below)
    · exact .inr (decide_eq_true (lt_of_le_of_lt above (of_decide_eq_true less)))

/-- A linear order separates. -/
theorem separates_ofLinearOrder (κ : Type*) [LinearOrder κ] : (ofLinearOrder κ).Separates := by
  intro a b equal
  simp only [equivalent, ofLinearOrder, Bool.and_eq_true, Bool.not_eq_true',
    decide_eq_false_iff_not, not_lt] at equal
  exact le_antisymm equal.2 equal.1

end KeyOrder

/-- Entries in the order of their keys. -/
structure Multimap {κ : Type*} (order : KeyOrder κ) (ν : Type*) where
  entries : List (κ × ν)
  sorted : entries.Pairwise fun earlier later => order.less later.1 earlier.1 = false

namespace Multimap

variable {κ ν : Type*} {order : KeyOrder κ}

section Entries

variable {entry head : κ × ν} {entries : List (κ × ν)}

/-- The place of an entry is behind every entry that is not greater. -/
def insertEntry (order : KeyOrder κ) (entry : κ × ν) : List (κ × ν) → List (κ × ν) :=
  List.orderedInsert (fun left right => order.less left.1 right.1 = true) entry

theorem insertEntry_cons :
    insertEntry order entry (head :: entries) =
      if order.less entry.1 head.1 = true then entry :: head :: entries
      else head :: insertEntry order entry entries := List.orderedInsert_cons ..

/-- Inserting adds the entry. -/
theorem insertEntry_perm (entry : κ × ν) (entries : List (κ × ν)) :
    (insertEntry order entry entries).Perm (entry :: entries) := List.perm_orderedInsert ..

/-- What is above the first entry is above all of them. -/
private theorem less_of_head
    (sorted : (head :: entries).Pairwise fun earlier later =>
      order.less later.1 earlier.1 = false)
    {key : κ} (above : order.less key head.1 = true) :
    ∀ other ∈ head :: entries, order.less key other.1 = true := by
  intro other member
  have notBelow : order.less other.1 head.1 = false := by
    rcases List.mem_cons.mp member with rfl | later
    · exact order.irrefl _
    · exact (List.pairwise_cons.mp sorted).1 other later
  rcases order.cotrans key other.1 head.1 above with less | less
  · exact less
  · rw [notBelow] at less
    cases less

/-- Inserting keeps the entries sorted. -/
theorem sorted_insertEntry (entry : κ × ν)
    (sorted : entries.Pairwise fun earlier later => order.less later.1 earlier.1 = false) :
    (insertEntry order entry entries).Pairwise fun earlier later =>
      order.less later.1 earlier.1 = false := by
  induction entries with
  | nil => exact List.pairwise_singleton _ _
  | cons head entries ih =>
      obtain ⟨first, others⟩ := List.pairwise_cons.mp sorted
      rw [insertEntry_cons]
      split
      · next less =>
          refine List.pairwise_cons.mpr ⟨fun other member => ?_, sorted⟩
          exact order.asymm _ _ (less_of_head sorted less other member)
      · next notLess =>
          refine List.pairwise_cons.mpr ⟨fun other member => ?_, ih others⟩
          rcases List.mem_cons.mp ((insertEntry_perm entry entries).mem_iff.mp member)
            with rfl | later
          · exact Bool.eq_false_of_not_eq_true notLess
          · exact first other later

/-- The entries of one key keep their order, and a new one comes last. -/
theorem filter_insertEntry (key : κ) (entry : κ × ν)
    (sorted : entries.Pairwise fun earlier later => order.less later.1 earlier.1 = false) :
    (insertEntry order entry entries).filter (fun other => order.equivalent other.1 key) =
      entries.filter (fun other => order.equivalent other.1 key) ++
        if order.equivalent entry.1 key = true then [entry] else [] := by
  induction entries with
  | nil =>
      change [entry].filter (fun other => order.equivalent other.1 key) = _
      rw [List.filter_cons, List.filter_nil, List.nil_append]
  | cons head entries ih =>
      obtain ⟨first, others⟩ := List.pairwise_cons.mp sorted
      rw [insertEntry_cons]
      split
      · next less =>
          rw [List.filter_cons]
          split
          · next equal =>
              -- everything from here on is above the key
              have none : (head :: entries).filter
                  (fun other => order.equivalent other.1 key) = [] := by
                refine List.filter_eq_nil_iff.mpr fun other member => ?_
                have above := less_of_head sorted less other member
                simp only [KeyOrder.equivalent, Bool.and_eq_true, Bool.not_eq_true'] at equal ⊢
                intro alike
                rcases order.cotrans _ key _ above with below | below
                · rw [equal.1] at below
                  cases below
                · rw [alike.2] at below
                  cases below
              rw [none, List.nil_append]
          · rw [List.append_nil]
      · rw [List.filter_cons, List.filter_cons, ih others]
        split <;> rfl

/-- Between the first entry not below a key and the first one above it are the entries of the
key. -/
theorem takeWhile_dropWhile_eq_filter (key : κ)
    (sorted : entries.Pairwise fun earlier later => order.less later.1 earlier.1 = false) :
    (entries.dropWhile fun entry => order.less entry.1 key).takeWhile
        (fun entry => !order.less key entry.1) =
      entries.filter fun entry => order.equivalent entry.1 key := by
  induction entries with
  | nil => rfl
  | cons head entries ih =>
      obtain ⟨first, others⟩ := List.pairwise_cons.mp sorted
      cases below : order.less head.1 key with
      | true =>
          have different : ¬ order.equivalent head.1 key = true := by
            simp [KeyOrder.equivalent, below]
          rw [List.dropWhile_cons_of_pos (p := fun entry : κ × ν => order.less entry.1 key) below,
            List.filter_cons_of_neg (p := fun entry : κ × ν => order.equivalent entry.1 key)
              different, ih others]
      | false =>
          rw [List.dropWhile_cons_of_neg (by rw [below]; exact Bool.false_ne_true)]
          cases above : order.less key head.1 with
          | true =>
              have none : (head :: entries).filter
                  (fun entry => order.equivalent entry.1 key) = [] := by
                refine List.filter_eq_nil_iff.mpr fun other member => ?_
                simp [KeyOrder.equivalent, less_of_head sorted above other member]
              rw [none, List.takeWhile_cons_of_neg]
              simp [above]
          | false =>
              have equal : order.equivalent head.1 key = true := by
                simp [KeyOrder.equivalent, below, above]
              have stays : entries.dropWhile (fun entry => order.less entry.1 key) = entries := by
                cases entries with
                | nil => rfl
                | cons second entries =>
                    refine List.dropWhile_cons_of_neg fun less => ?_
                    rcases order.cotrans _ head.1 _ less with lower | lower
                    · rw [first second List.mem_cons_self] at lower
                      cases lower
                    · rw [below] at lower
                      cases lower
              have taken := ih others
              rw [stays] at taken
              rw [List.takeWhile_cons_of_pos (by simp [above]),
                List.filter_cons_of_pos (p := fun entry : κ × ν => order.equivalent entry.1 key)
                  equal, taken]

end Entries

/-- No entries. -/
def empty : Multimap order ν := ⟨[], List.Pairwise.nil⟩

/-- Behind every entry that is not greater. -/
def insert (map : Multimap order ν) (entry : κ × ν) : Multimap order ν :=
  ⟨insertEntry order entry map.entries, sorted_insertEntry entry map.sorted⟩

/-- The number of entries. -/
def size (map : Multimap order ν) : Nat := map.entries.length

/-- The values from the first key not less to the first key greater. -/
def equalRange (map : Multimap order ν) (key : κ) : List ν :=
  ((map.entries.dropWhile fun entry => order.less entry.1 key).takeWhile
    fun entry => !order.less key entry.1).map Prod.snd

/-- The range of a key is made of the entries with an equivalent one. -/
theorem equalRange_eq_filter (map : Multimap order ν) (key : κ) :
    map.equalRange key =
      (map.entries.filter fun entry => order.equivalent entry.1 key).map Prod.snd := by
  rw [equalRange, takeWhile_dropWhile_eq_filter key map.sorted]

@[simp] theorem equalRange_empty (key : κ) : (empty : Multimap order ν).equalRange key = [] := rfl

/-- **Inserting** adds at the end of the range of the key. -/
theorem equalRange_insert (map : Multimap order ν) (entry : κ × ν) (key : κ) :
    (map.insert entry).equalRange key =
      map.equalRange key ++ if order.equivalent entry.1 key = true then [entry.2] else [] := by
  rw [equalRange_eq_filter, equalRange_eq_filter, insert, filter_insertEntry key entry map.sorted,
    List.map_append]
  split <;> rfl

theorem size_insert (map : Multimap order ν) (entry : κ × ν) :
    (map.insert entry).size = map.size + 1 := (insertEntry_perm entry map.entries).length_eq

/-- **Insertion of a list** puts the entries of a key behind the ones it has, in their
order. -/
theorem equalRange_insertAll (map : Multimap order ν) (entries : List (κ × ν)) (key : κ) :
    (entries.foldl insert map).equalRange key =
      map.equalRange key ++
        (entries.filter fun entry => order.equivalent entry.1 key).map Prod.snd := by
  induction entries generalizing map with
  | nil => rw [List.foldl_nil, List.filter_nil, List.map_nil, List.append_nil]
  | cons entry entries ih =>
      rw [List.foldl_cons, ih, equalRange_insert, List.append_assoc, List.filter_cons]
      split <;> rfl

theorem size_insertAll (map : Multimap order ν) (entries : List (κ × ν)) :
    (entries.foldl insert map).size = map.size + entries.length := by
  induction entries generalizing map with
  | nil => rfl
  | cons entry entries ih =>
      rw [List.foldl_cons, ih, size_insert, List.length_cons, Nat.add_assoc, Nat.add_comm 1]

end Multimap

end Foundation
