import FastDb.Foundation.Chains

/-! # Tables of chains

A table of buckets, each with the head of a chain, holds a list of cells when the
chain of every bucket lists the cells that carry its number, in the order of the
list (`Foundation.ChainTable`). A table is framed by its cells, an operation
on one bucket is an operation on the class it holds
(`Foundation.ChainTable.rebuild`), the first of some cells is taken out by a walk over
their bucket (`Foundation.ChainTable.walk_remove`), and deleting every chain deletes the
table (`Foundation.ChainTable.delete_all`).
-/

namespace Foundation

variable {ρ α β : Type*}

/-- The chain of every bucket lists the cells that carry its number. -/
def ChainTable (head : β → Option ρ) (number : ρ × α → Nat) (read : ρ → Option (α × Option ρ))
    (table : List β) (cells : List (ρ × α)) : Prop :=
  ∀ index bucket, table[index]? = some bucket →
    Segment read (head bucket) (classOf number cells index) none

/-- Only the first wanted element is erased. -/
theorem mem_eraseP_of_find?_ne {wanted : α → Bool} {items : List α} {item : α}
    (member : item ∈ items) (notFirst : items.find? wanted ≠ some item) :
    item ∈ items.eraseP wanted := by
  induction items with
  | nil => cases member
  | cons first items ih =>
      by_cases found : wanted first = true
      · rw [List.find?_cons_of_pos found] at notFirst
        rw [List.eraseP_cons_of_pos found]
        exact (List.mem_cons.mp member).resolve_left fun same => notFirst (congrArg some same.symm)
      · rw [List.find?_cons_of_neg found] at notFirst
        rw [List.eraseP_cons_of_neg found]
        rcases List.mem_cons.mp member with rfl | later
        · exact List.mem_cons_self
        · exact List.mem_cons_of_mem _ (ih later notFirst)

namespace ChainTable

variable {head : β → Option ρ} {number : ρ × α → Nat} {read other : ρ → Option (α × Option ρ)}
  {table : List β} {cells cells' : List (ρ × α)}

/-- The cells of a class are cells of the table. -/
theorem ref_mem {index : Nat} {ref : ρ}
    (member : ref ∈ (classOf number cells index).map Prod.fst) : ref ∈ cells.map Prod.fst :=
  (List.filter_sublist.map Prod.fst).subset member

/-- Cells with distinct addresses below a bound are no more than the bound in any class. -/
theorem class_length_le {number : Nat × α → Nat} {cells : List (Nat × α)} {fresh : Nat}
    (distinct : (cells.map Prod.fst).Nodup) (allocated : ∀ cell ∈ cells, cell.1 < fresh)
    (index : Nat) : (classOf number cells index).length ≤ fresh := by
  rw [← List.length_map Prod.fst]
  apply length_le_of_nodup_of_lt (distinct.sublist (List.filter_sublist.map _))
  intro ref member
  obtain ⟨cell, inClass, rfl⟩ := List.mem_map.mp member
  exact allocated cell (mem_classOf.mp inClass).1

/-- An address that was never handed out is not the address of a cell. -/
theorem fresh_not_mem {cells : List (Nat × α)} {fresh : Nat}
    (allocated : ∀ cell ∈ cells, cell.1 < fresh) : fresh ∉ cells.map Prod.fst := by
  intro member
  obtain ⟨cell, present, same⟩ := List.mem_map.mp member
  exact absurd (allocated cell present) (same ▸ Nat.lt_irrefl _)

/-- **Removing with a trailing pointer.** A loop over the chain of the bucket in which all
wanted cells are takes the first of them out, and says whether there was one. -/
theorem walk_remove {μ : Type*} (wanted : ρ × α → Bool) (kept : μ → Prop)
    (loop : Nat → Option ρ → Option ρ → Option (Bool × μ)) {index fuel : Nat}
    {start : Option ρ} (chain : Segment read start (classOf number cells index) none)
    (enough : (classOf number cells index).length ≤ fuel)
    (placed : ∀ cell, wanted cell = true → number cell = index)
    (passes : ∀ fuel prev ref content next, read ref = some (content, next) →
      ¬wanted (ref, content) = true → loop (fuel + 1) prev (some ref) = loop fuel (some ref) next)
    (ends : (∀ cell ∈ cells, ¬wanted cell = true) →
      ∃ after, kept after ∧ ∀ fuel prev, loop fuel prev none = some (false, after))
    (meets : ∀ front ref content next back,
      classOf number cells index = front ++ (ref, content) :: back →
      (∀ cell ∈ front, ¬wanted cell = true) → wanted (ref, content) = true →
      read ref = some (content, next) → ∃ after, kept after ∧
        ∀ fuel, loop (fuel + 1) (front.map Prod.fst).getLast? (some ref) = some (true, after)) :
    ∃ after, loop fuel none start = some (cells.any wanted, after) ∧ kept after := by
  let holds : Bool × μ → Prop := fun result => result.1 = cells.any wanted ∧ kept result.2
  suffices walked : ∃ result, loop fuel none start = some result ∧ holds result by
    obtain ⟨⟨_, after⟩, removed, rfl, held⟩ := walked
    exact ⟨after, removed, held⟩
  refine chain.walk_prev wanted holds loop enough passes ?ends ?meets
  case ends =>
    intro missed
    have absent : ∀ cell ∈ cells, ¬wanted cell = true := fun cell member found =>
      missed cell (mem_classOf.mpr ⟨member, placed cell found⟩) found
    obtain ⟨after, held, ended⟩ := ends absent
    exact ⟨(false, after), ⟨(List.any_eq_false.mpr absent).symm, held⟩, ended⟩
  case meets =>
    intro front ref content next back split missed here found
    obtain ⟨after, held, met⟩ := meets front ref content next back split missed here found
    have inClass : (ref, content) ∈ classOf number cells index := by
      rw [split]
      exact List.mem_append_right _ List.mem_cons_self
    have present : cells.any wanted = true :=
      List.any_eq_true.mpr ⟨_, (mem_classOf.mp inClass).1, here⟩
    exact ⟨(true, after), ⟨present.symm, held⟩, met⟩

/-- A table of empty buckets holds no cells. -/
theorem of_heads_none (empty : ∀ bucket ∈ table, head bucket = none) :
    ChainTable head number read table [] :=
  fun _ bucket found => empty bucket (List.mem_of_getElem? found)

/-- **Frame.** A table depends only on its cells. -/
theorem congr (chains : ChainTable head number read table cells)
    (unchanged : ∀ ref ∈ cells.map Prod.fst, other ref = read ref) :
    ChainTable head number other table cells :=
  fun index bucket found => (chains index bucket found).congr fun ref member =>
    unchanged ref (ref_mem member)

/-- Only the order within each class matters. -/
theorem congr_classes (chains : ChainTable head number read table cells)
    (same : ∀ index, index < table.length →
      classOf number cells' index = classOf number cells index) :
    ChainTable head number read table cells' := by
  intro index bucket found
  rw [same index (List.getElem?_eq_some_iff.mp found).1]
  exact chains index bucket found

/-- **Rebuilding one bucket.** The other chains stand when their classes, and the
cells outside the bucket, are unchanged. -/
theorem rebuild {index : Nat} {bucket : β} (chains : ChainTable head number read table cells)
    (distinct : (cells.map Prod.fst).Nodup)
    (elsewhere : ∀ place, place ≠ index →
      classOf number cells' place = classOf number cells place)
    (frame : ∀ ref ∈ cells.map Prod.fst, ref ∉ (classOf number cells index).map Prod.fst →
      other ref = read ref)
    (chain : Segment other (head bucket) (classOf number cells' index) none) :
    ChainTable head number other (table.set index bucket) cells' := by
  intro place found at_place
  by_cases same : index = place
  · subst same
    rw [List.getElem?_set_self'] at at_place
    obtain ⟨_, _, rfl⟩ := Option.map_eq_some_iff.mp at_place
    exact chain
  · rw [List.getElem?_set_ne same] at at_place
    rw [elsewhere place (Ne.symm same)]
    refine (chains place found at_place).congr fun ref member => ?_
    apply frame ref (ref_mem member)
    intro inside
    exact same (classOf_unique distinct inside member)

/-- **Pushing a cell.** A new cell that links to the head of its bucket is the
head of the longer chain. -/
theorem push {ref : ρ} {content : α} {bucket : β} (pushed : β)
    (chains : ChainTable head number read table cells)
    (found : table[number (ref, content)]? = some bucket)
    (distinct : (((ref, content) :: cells).map Prod.fst).Nodup)
    (unchanged : ∀ place ∈ cells.map Prod.fst, other place = read place)
    (linked : other ref = some (content, head bucket)) (heads : head pushed = some ref) :
    ChainTable head number other (table.set (number (ref, content)) pushed)
      ((ref, content) :: cells) := by
  rw [List.map_cons, List.nodup_cons] at distinct
  refine rebuild chains distinct.2 (fun place different => ?_)
    (fun place member _ => unchanged place member) ?_
  · rw [classOf, List.filter_cons_of_neg (by simpa using Ne.symm different), classOf]
  · rw [classOf, List.filter_cons_of_pos (by simp), ← classOf, heads]
    exact ⟨rfl, head bucket, linked, (chains _ bucket found).congr fun place member =>
      unchanged place (ref_mem member)⟩

/-- **Deleting a table.** A loop that deletes the chain of every bucket deletes all cells of the
table and no others. -/
theorem delete_all {η : Type*} {view : η → ρ → Option (α × Option ρ)} {heap : η}
    (delete : η → β → Option η) (chains : ChainTable head number (view heap) table cells)
    (distinct : (cells.map Prod.fst).Nodup)
    (inside : ∀ cell ∈ cells, number cell < table.length)
    (deletes : ∀ heap bucket index,
      Segment (view heap) (head bucket) (classOf number cells index) none →
        ((classOf number cells index).map Prod.fst).Nodup →
        ∃ after, delete heap bucket = some after ∧
          (∀ ref ∈ (classOf number cells index).map Prod.fst, view after ref = none) ∧
          ∀ ref, ref ∉ (classOf number cells index).map Prod.fst →
            view after ref = view heap ref) :
    ∃ after, table.foldlM delete heap = some after ∧
      (∀ ref ∈ cells.map Prod.fst, view after ref = none) ∧
      ∀ ref, ref ∉ cells.map Prod.fst → view after ref = view heap ref := by
  let deleted := fun size => ((List.range size).flatMap (classOf number cells)).map Prod.fst
  have extended : ∀ index,
      deleted (index + 1) = deleted index ++ (classOf number cells index).map Prod.fst := by
    intro index
    simp only [deleted, List.range_succ, List.flatMap_append, List.flatMap_singleton,
      List.map_append]
  obtain ⟨after, finished, gone, frame⟩ := foldlM_invariant delete table heap
    (fun index state => (∀ ref ∈ deleted index, view state ref = none) ∧
      ∀ ref, ref ∉ deleted index → view state ref = view heap ref)
    ⟨fun _ member => absurd member List.not_mem_nil, fun _ _ => rfl⟩ (by
      rintro index bucket state found ⟨gone, frame⟩
      have deletedDistinct : (deleted (index + 1)).Nodup :=
        nodup_map_flatMap_classOf distinct (index + 1)
      rw [extended, List.nodup_append] at deletedDistinct
      obtain ⟨-, classDistinct, apart⟩ := deletedDistinct
      have pending : Segment (view state) (head bucket) (classOf number cells index) none :=
        (chains index bucket found).congr fun ref member => frame ref fun earlier =>
          apart ref earlier ref member rfl
      obtain ⟨after, ran, nowGone, unchanged⟩ := deletes state bucket index pending classDistinct
      refine ⟨after, ran, fun ref member => ?_, fun ref outside => ?_⟩
      · by_cases here : ref ∈ (classOf number cells index).map Prod.fst
        · exact nowGone ref here
        · rw [unchanged ref here]
          rw [extended, List.mem_append] at member
          exact gone ref (member.resolve_right here)
      · rw [extended, List.mem_append, not_or] at outside
        exact (unchanged ref outside.2).trans (frame ref outside.1))
  have all : ∀ ref, ref ∈ deleted table.length ↔ ref ∈ cells.map Prod.fst := fun ref =>
    ((perm_flatMap_classOf inside).map Prod.fst).mem_iff
  exact ⟨after, finished, fun ref member => gone ref ((all ref).mpr member),
    fun ref outside => frame ref (mt (all ref).mp outside)⟩

end ChainTable

end Foundation
