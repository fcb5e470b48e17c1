import Mathlib.Data.List.Perm.Subperm
import Mathlib.Data.List.Nodup
import Mathlib.Data.List.Flatten
import Mathlib.Data.Finset.Card
import Mathlib.Data.Finset.Range
import Mathlib.Tactic.ByContra

/-! # Linked chains in a heap

A chain is the list of cells met when following the `next` references of a heap
from one reference to another (`Foundation.Segment`). Reading is the only
access: a heap is given by the function that reads a cell's content and its
`next` field, so the rules below serve every cell layout. A loop with fuel follows
a chain (`Foundation.Segment.walk`); loops that search it, with a trailing pointer or
without, and that delete it are spelled out. A chain is framed by the cells it visits
(`Foundation.Segment.congr`), redirecting the last cell redirects the chain
(`Foundation.Segment.relink`), and redirecting a cell past its successor takes the
successor out (`Foundation.Segment.bypass`).

The second part is about a list cut into the classes of a number its elements
carry, as the buckets of a table cut its contents: the classes together hold the
list (`Foundation.perm_flatMap_classOf`), and a finer classification of the
regrouped list is that of the list itself
(`Foundation.classOf_flatMap_classOf`).
-/

namespace Foundation

section Chains

variable {ρ α : Type*} (read : ρ → Option (α × Option ρ))

/-- Following `next` from `start` visits the cells, in order, and arrives at
`stop`. -/
def Segment : Option ρ → List (ρ × α) → Option ρ → Prop
  | start, [], stop => start = stop
  | start, (ref, content) :: cells, stop =>
      start = some ref ∧ ∃ next, read ref = some (content, next) ∧ Segment next cells stop

variable {read}

@[simp] theorem Segment.nil_iff {start stop : Option ρ} :
    Segment read start [] stop ↔ start = stop := Iff.rfl

theorem Segment.cons_iff {start stop : Option ρ} {ref : ρ} {content : α}
    {cells : List (ρ × α)} : Segment read start ((ref, content) :: cells) stop ↔
      start = some ref ∧
        ∃ next, read ref = some (content, next) ∧ Segment read next cells stop := Iff.rfl

theorem Segment.append_iff {start stop : Option ρ} {front back : List (ρ × α)} :
    Segment read start (front ++ back) stop ↔
      ∃ middle, Segment read start front middle ∧ Segment read middle back stop := by
  induction front generalizing start with
  | nil => simp only [List.nil_append, Segment.nil_iff, exists_eq_left']
  | cons cell front ih =>
      obtain ⟨ref, content⟩ := cell
      simp only [List.cons_append, Segment.cons_iff, ih]
      constructor
      · rintro ⟨starts, next, found, middle, left, right⟩
        exact ⟨middle, ⟨starts, next, found, left⟩, right⟩
      · rintro ⟨middle, ⟨starts, next, found, left⟩, right⟩
        exact ⟨starts, next, found, middle, left, right⟩

/-- **Frame.** A chain depends only on the cells it visits. -/
theorem Segment.congr {other : ρ → Option (α × Option ρ)} {start stop : Option ρ}
    {cells : List (ρ × α)} (chain : Segment read start cells stop)
    (unchanged : ∀ ref ∈ cells.map Prod.fst, other ref = read ref) :
    Segment other start cells stop := by
  induction cells generalizing start with
  | nil => exact chain
  | cons cell cells ih =>
      obtain ⟨ref, content⟩ := cell
      obtain ⟨starts, next, found, rest⟩ := chain
      refine ⟨starts, next, ?_, ih rest fun ref member => unchanged ref ?_⟩
      · rw [unchanged ref List.mem_cons_self, found]
      · exact List.mem_cons_of_mem _ member

/-- Every visited cell is in the heap with the content the chain lists. -/
theorem Segment.read_of_mem {start stop : Option ρ} {cells : List (ρ × α)}
    (chain : Segment read start cells stop) {ref : ρ} {content : α}
    (member : (ref, content) ∈ cells) : ∃ next, read ref = some (content, next) := by
  induction cells generalizing start with
  | nil => cases member
  | cons cell cells ih =>
      obtain ⟨_, next, found, rest⟩ := chain
      cases member with
      | head => exact ⟨next, found⟩
      | tail _ later => exact ih rest later

/-- The last cell of a chain links to where the chain stops. -/
theorem Segment.read_last {start stop : Option ρ} {front : List (ρ × α)} {ref : ρ} {content : α}
    (chain : Segment read start (front ++ [(ref, content)]) stop) :
    read ref = some (content, stop) := by
  obtain ⟨middle, -, -, next, found, rfl⟩ := Segment.append_iff.mp chain
  exact found

/-- A chain that ends starts nowhere exactly when it has no cells. -/
theorem Segment.start_eq_none_iff {start : Option ρ} {cells : List (ρ × α)}
    (chain : Segment read start cells none) : start = none ↔ cells = [] := by
  cases cells with
  | nil => exact iff_of_true chain rfl
  | cons cell cells =>
      obtain ⟨rfl, -⟩ := chain
      exact iff_of_false (Option.some_ne_none cell.1) (List.cons_ne_nil cell cells)

/-- **Walking.** With fuel for the whole chain, what a loop establishes at the end and, at each
cell, from what it establishes behind it, it establishes from the start. -/
@[elab_as_elim]
theorem Segment.walk {motive : Nat → Option ρ → List (ρ × α) → Prop} {start : Option ρ}
    {cells : List (ρ × α)} {fuel : Nat} (chain : Segment read start cells none)
    (enough : cells.length ≤ fuel) (ends : ∀ fuel, motive fuel none [])
    (visits : ∀ fuel ref content next cells, read ref = some (content, next) →
      motive fuel next cells → motive (fuel + 1) (some ref) ((ref, content) :: cells)) :
    motive fuel start cells := by
  induction cells generalizing fuel start with
  | nil =>
      obtain rfl := Segment.nil_iff.mp chain
      exact ends fuel
  | cons cell cells ih =>
      obtain ⟨ref, content⟩ := cell
      obtain ⟨rfl, next, found, rest⟩ := chain
      cases fuel with
      | zero => exact absurd enough (Nat.not_succ_le_zero _)
      | succ fuel =>
          exact visits fuel ref content next cells found (ih rest (Nat.le_of_succ_le_succ enough))

/-- **Searching.** A loop that follows a chain to the first wanted cell answers from it. -/
theorem Segment.walk_find {γ : Type*} {wanted : ρ × α → Bool} {answer : ρ × α → γ}
    {loop : Nat → Option ρ → Option (Option γ)} (ends : ∀ fuel, loop fuel none = some none)
    (visits : ∀ fuel ref content next, read ref = some (content, next) →
      loop (fuel + 1) (some ref) =
        if wanted (ref, content) then some (some (answer (ref, content))) else loop fuel next)
    {start : Option ρ} {cells : List (ρ × α)} {fuel : Nat} (chain : Segment read start cells none)
    (enough : cells.length ≤ fuel) :
    loop fuel start = some ((cells.find? wanted).map answer) := by
  refine chain.walk enough ends ?_
  intro fuel ref content next cells found behind
  rw [visits fuel ref content next found]
  by_cases here : wanted (ref, content) = true
  · rw [if_pos here, List.find?_cons_of_pos here, Option.map_some]
  · rw [if_neg here, behind, List.find?_cons_of_neg here]

/-- **Searching with a trailing pointer.** A loop that follows a chain to the first wanted cell
meets it with the last of the cells passed behind it, and otherwise passes the whole chain. -/
theorem Segment.walk_prev {γ : Type*} (wanted : ρ × α → Bool) (holds : γ → Prop)
    (loop : Nat → Option ρ → Option ρ → Option γ) {cells : List (ρ × α)}
    {start : Option ρ} {fuel : Nat} (chain : Segment read start cells none)
    (enough : cells.length ≤ fuel)
    (passes : ∀ fuel prev ref content next, read ref = some (content, next) →
      ¬wanted (ref, content) = true → loop (fuel + 1) prev (some ref) = loop fuel (some ref) next)
    (ends : (∀ cell ∈ cells, ¬wanted cell = true) →
      ∃ result, holds result ∧ ∀ fuel prev, loop fuel prev none = some result)
    (meets : ∀ front ref content next back, cells = front ++ (ref, content) :: back →
      (∀ cell ∈ front, ¬wanted cell = true) → wanted (ref, content) = true →
      read ref = some (content, next) → ∃ result, holds result ∧
        ∀ fuel, loop (fuel + 1) (front.map Prod.fst).getLast? (some ref) = some result) :
    ∃ result, loop fuel none start = some result ∧ holds result := by
  -- the cells passed so far grow while the rest of the chain is walked
  suffices general : ∀ pending passed fuel current, cells = passed ++ pending →
      (∀ cell ∈ passed, ¬wanted cell = true) → Segment read current pending none →
      pending.length ≤ fuel → ∃ result,
        loop fuel (passed.map Prod.fst).getLast? current = some result ∧ holds result from
    general cells [] fuel start rfl (fun _ member => nomatch member) chain enough
  intro pending
  induction pending with
  | nil =>
      intro passed fuel current split missed chain _
      obtain rfl := Segment.nil_iff.mp chain
      rw [List.append_nil] at split
      obtain ⟨result, held, ended⟩ := ends (split ▸ missed)
      exact ⟨result, ended _ _, held⟩
  | cons cell pending ih =>
      intro passed fuel current split missed chain enough
      obtain ⟨ref, content⟩ := cell
      obtain ⟨rfl, next, found, onward⟩ := chain
      cases fuel with
      | zero => exact absurd enough (Nat.not_succ_le_zero _)
      | succ fuel =>
          by_cases here : wanted (ref, content) = true
          · obtain ⟨result, held, met⟩ :=
              meets passed ref content next pending split missed here found
            exact ⟨result, met fuel, held⟩
          · rw [passes fuel _ ref content next found here]
            rw [List.append_cons] at split
            have advanced := ih (passed ++ [(ref, content)]) fuel next split ?_ onward
              (Nat.le_of_succ_le_succ enough)
            · rwa [List.map_append, List.map_singleton, List.getLast?_concat] at advanced
            · intro cell member
              rcases List.mem_append.mp member with old | new
              · exact missed cell old
              · rwa [List.mem_singleton.mp new]

/-- **Deleting a chain.** A loop that deletes the cells of a chain one by one, reading on before
each deletion, deletes them all and no others. -/
theorem Segment.walk_delete {η : Type*} (view : η → ρ → Option (α × Option ρ)) (erase : η → ρ → η)
    (loop : Nat → Option ρ → η → Option η) (ends : ∀ fuel heap, loop fuel none heap = some heap)
    (visits : ∀ fuel ref content next heap, view heap ref = some (content, next) →
      loop (fuel + 1) (some ref) heap = loop fuel next (erase heap ref))
    (erased : ∀ heap ref, view (erase heap ref) ref = none)
    (kept : ∀ heap ref other, other ≠ ref → view (erase heap ref) other = view heap other)
    {start : Option ρ} {cells : List (ρ × α)} {fuel : Nat} {heap : η}
    (chain : Segment (view heap) start cells none) (distinct : (cells.map Prod.fst).Nodup)
    (enough : cells.length ≤ fuel) :
    ∃ after, loop fuel start heap = some after ∧
      (∀ ref ∈ cells.map Prod.fst, view after ref = none) ∧
      ∀ ref, ref ∉ cells.map Prod.fst → view after ref = view heap ref := by
  induction cells generalizing fuel start heap with
  | nil =>
      obtain rfl := Segment.nil_iff.mp chain
      exact ⟨heap, ends fuel heap, fun _ member => absurd member List.not_mem_nil, fun _ _ => rfl⟩
  | cons cell cells ih =>
      obtain ⟨ref, content⟩ := cell
      obtain ⟨rfl, next, found, rest⟩ := chain
      rw [List.map_cons, List.nodup_cons] at distinct
      cases fuel with
      | zero => exact absurd enough (Nat.not_succ_le_zero _)
      | succ fuel =>
          have untouched : Segment (view (erase heap ref)) next cells none :=
            rest.congr fun other member => kept heap ref other (by
              rintro rfl
              exact distinct.1 member)
          obtain ⟨after, deleted, gone, frame⟩ :=
            ih untouched distinct.2 (Nat.le_of_succ_le_succ enough)
          refine ⟨after, (visits fuel ref content next heap found).trans deleted, ?_, ?_⟩
          · intro other member
            rcases List.mem_cons.mp member with rfl | later
            · rw [frame _ distinct.1, erased]
            · exact gone other later
          · intro other outside
            rw [List.map_cons, List.mem_cons, not_or] at outside
            rw [frame other outside.2, kept heap ref other outside.1]

/-- **Relinking.** Redirecting the last cell of a chain redirects the chain. -/
theorem Segment.relink {other : ρ → Option (α × Option ρ)} {start stop target : Option ρ}
    {front : List (ρ × α)} {ref : ρ} {content : α}
    (chain : Segment read start (front ++ [(ref, content)]) stop)
    (unchanged : ∀ kept ∈ front.map Prod.fst, other kept = read kept)
    (redirected : other ref = some (content, target)) :
    Segment other start (front ++ [(ref, content)]) target := by
  obtain ⟨middle, left, starts, -⟩ := Segment.append_iff.mp chain
  refine Segment.append_iff.mpr ⟨middle, left.congr unchanged, starts, target, redirected, ?_⟩
  exact Segment.nil_iff.mpr rfl

/-- A chain to the end of the list runs through every cell that can be reached. -/
theorem Segment.through {start middle : Option ρ} {cells front : List (ρ × α)}
    (chain : Segment read start cells none) (reached : Segment read start front middle) :
    ∃ back, cells = front ++ back ∧ Segment read middle back none := by
  induction front generalizing start cells with
  | nil =>
      obtain rfl := Segment.nil_iff.mp reached
      exact ⟨cells, rfl, chain⟩
  | cons cell front ih =>
      obtain ⟨ref, content⟩ := cell
      obtain ⟨rfl, next, found, reached⟩ := reached
      cases cells with
      | nil => cases Segment.nil_iff.mp chain
      | cons cell cells =>
          obtain ⟨other, content⟩ := cell
          obtain ⟨same, after, read, chain⟩ := chain
          obtain rfl := Option.some.inj same
          obtain ⟨rfl, rfl⟩ := Prod.mk.inj (Option.some.inj (found.symm.trans read))
          obtain ⟨back, rfl, rest⟩ := ih chain reached
          exact ⟨back, rfl, rest⟩

/-- **Bypassing.** Redirecting a cell past its successor takes the successor out. -/
theorem Segment.bypass {other : ρ → Option (α × Option ρ)} {start stop next : Option ρ}
    {front back : List (ρ × α)} {ref : ρ} {content : α} {gone : ρ × α}
    (chain : Segment read start (front ++ (ref, content) :: gone :: back) stop)
    (distinct : ((front ++ (ref, content) :: gone :: back).map Prod.fst).Nodup)
    (found : read gone.1 = some (gone.2, next))
    (unchanged : ∀ kept, kept ≠ ref → other kept = read kept)
    (redirected : other ref = some (content, next)) :
    Segment other start (front ++ (ref, content) :: back) stop := by
  obtain ⟨middle, before, rfl, successor, -, rfl, onward, present, rest⟩ :=
    Segment.append_iff.mp chain
  obtain rfl : onward = next := congrArg Prod.snd (Option.some.inj (present.symm.trans found))
  rw [List.map_append, List.map_cons, List.map_cons, List.nodup_append, List.nodup_cons,
    List.mem_cons, not_or] at distinct
  obtain ⟨-, ⟨⟨-, later⟩, -⟩, apart⟩ := distinct
  refine Segment.append_iff.mpr ⟨some ref, before.congr fun kept member => unchanged kept ?_,
    rfl, onward, redirected, rest.congr fun kept member => unchanged kept ?_⟩
  · exact apart kept member ref List.mem_cons_self
  · rintro rfl
    exact later member

/-- A list of distinct numbers below a bound is no longer than the bound. -/
theorem length_le_of_nodup_of_lt {numbers : List Nat} {bound : Nat} (distinct : numbers.Nodup)
    (below : ∀ number ∈ numbers, number < bound) : numbers.length ≤ bound := by
  have inside : numbers ⊆ List.range bound := fun number member =>
    List.mem_range.mpr (below number member)
  have shorter := (distinct.subperm inside).length_le
  rwa [List.length_range] at shorter

end Chains

section Classes

variable {α : Type*} (number : α → Nat)

/-- The elements of a list that carry a given number, in their order. -/
def classOf (items : List α) (index : Nat) : List α :=
  items.filter fun item => number item = index

variable {number}

theorem mem_classOf {items : List α} {index : Nat} {item : α} :
    item ∈ classOf number items index ↔ item ∈ items ∧ number item = index := by
  simp only [classOf, List.mem_filter, decide_eq_true_eq]

/-- The class of all wanted elements has the first of them first. -/
theorem find?_classOf {wanted : α → Bool} {index : Nat}
    (inside : ∀ item, wanted item = true → number item = index) (items : List α) :
    (classOf number items index).find? wanted = items.find? wanted := by
  rw [classOf, List.find?_filter]
  congr 1
  funext item
  by_cases found : wanted item = true
  · simp only [inside item found, found, decide_true, and_self]
  · simp only [found, Bool.false_eq_true, and_false, decide_false]

/-- The classes of a selection are selections of the classes. -/
theorem classOf_filter (kept : α → Bool) (items : List α) (index : Nat) :
    classOf number (items.filter kept) index = (classOf number items index).filter kept := by
  unfold classOf
  rw [List.filter_filter, List.filter_filter]
  congr 1
  funext item
  exact Bool.and_comm _ _

theorem classOf_concat_of_eq {item : α} {index : Nat} (carries : number item = index)
    (items : List α) :
    classOf number (items ++ [item]) index = classOf number items index ++ [item] := by
  rw [classOf, List.filter_append, List.filter_cons_of_pos, List.filter_nil, classOf]
  exact decide_eq_true carries

theorem classOf_concat_of_ne {item : α} {index : Nat} (carries : number item ≠ index)
    (items : List α) : classOf number (items ++ [item]) index = classOf number items index := by
  rw [classOf, List.filter_append, List.filter_cons_of_neg, List.filter_nil, List.append_nil,
    classOf]
  simpa only [decide_eq_true_eq] using carries

/-- Only one member of a family contributes to its concatenation. -/
private theorem flatMap_range_single {β : Type*} {size index : Nat} (family : Nat → List β)
    (inside : index < size) (others : ∀ other, other ≠ index → family other = []) :
    (List.range size).flatMap family = family index := by
  induction size with
  | zero => exact absurd inside (Nat.not_lt_zero _)
  | succ size ih =>
      rw [List.range_succ, List.flatMap_append, List.flatMap_singleton]
      by_cases last : index = size
      · subst last
        have earlier : (List.range index).flatMap family = [] :=
          List.flatMap_eq_nil_iff.mpr fun other member =>
            others other (Nat.ne_of_lt (List.mem_range.mp member))
        rw [earlier, List.nil_append]
      · rw [ih (by omega), others size (Ne.symm last), List.append_nil]

/-- Regrouping by a coarser number does not disturb the classes of a finer one. -/
theorem classOf_flatMap_classOf (finer : α → Nat) (items : List α) (index : Nat)
    {size coarse : Nat} (inside : coarse < size)
    (refines : ∀ item ∈ items, finer item = index → number item = coarse) :
    classOf finer ((List.range size).flatMap (classOf number items)) index =
      classOf finer items index := by
  rw [classOf, List.filter_flatMap, flatMap_range_single _ inside, classOf, List.filter_filter,
    classOf]
  · apply List.filter_congr
    intro item member
    by_cases same : finer item = index
    · simp only [same, refines item member same, decide_true, Bool.and_true]
    · simp only [same, decide_false, Bool.false_and]
  · intro other different
    apply List.filter_eq_nil_iff.mpr
    intro item inClass isFiner
    obtain ⟨member, carries⟩ := mem_classOf.mp inClass
    exact different (carries ▸ refines item member (of_decide_eq_true isFiner) ▸ rfl)

/-- **Regrouping.** The classes of a list, one after another, hold exactly the
elements of the list. -/
theorem perm_flatMap_classOf {size : Nat} {items : List α}
    (inside : ∀ item ∈ items, number item < size) :
    ((List.range size).flatMap (classOf number items)).Perm items := by
  classical
  apply List.perm_iff_count.mpr
  intro item
  by_cases member : item ∈ items
  · -- the copies of one element form a class of the finest classification
    have copies := classOf_flatMap_classOf (fun other => if other = item then 0 else 1) items 0
      (inside item member)
      (fun other _ same => by
        by_cases equal : other = item
        · rw [equal]
        · simp only [equal, ↓reduceIte, Nat.one_ne_zero] at same)
    have counted : ∀ list : List α, list.count item =
        (classOf (fun other => if other = item then 0 else 1) list 0).length := by
      intro list
      rw [List.count_eq_length_filter, classOf]
      congr 1
      apply List.filter_congr
      intro other _
      by_cases equal : other = item <;> simp [equal]
    rw [counted, counted, copies]
  · rw [List.count_eq_zero.mpr member, List.count_eq_zero]
    intro regrouped
    obtain ⟨index, -, inClass⟩ := List.mem_flatMap.mp regrouped
    exact member (mem_classOf.mp inClass).1

/-- No key of elements told apart by it is in two classes. -/
theorem classOf_unique {β : Type*} {key : α → β} {items : List α}
    (distinct : (items.map key).Nodup) {name : β} {left right : Nat}
    (inLeft : name ∈ (classOf number items left).map key)
    (inRight : name ∈ (classOf number items right).map key) : left = right := by
  obtain ⟨item, leftClass, rfl⟩ := List.mem_map.mp inLeft
  obtain ⟨other, rightClass, same⟩ := List.mem_map.mp inRight
  obtain ⟨member, carries⟩ := mem_classOf.mp leftClass
  obtain ⟨otherMember, otherNumber⟩ := mem_classOf.mp rightClass
  obtain rfl := List.inj_on_of_nodup_map distinct otherMember member same
  exact carries.symm.trans otherNumber

/-- Elements told apart by a key stay told apart when the list is regrouped. -/
theorem nodup_map_flatMap_classOf {β : Type*} {key : α → β} {items : List α}
    (distinct : (items.map key).Nodup) (size : Nat) :
    (((List.range size).flatMap (classOf number items)).map key).Nodup := by
  rw [List.map_flatMap, List.nodup_flatMap]
  refine ⟨fun index _ => distinct.sublist (List.filter_sublist.map _), ?_⟩
  apply List.nodup_range.pairwise_of_forall_ne
  intro left _ right _ different
  apply List.disjoint_left.mpr
  intro name inLeft inRight
  exact different (classOf_unique distinct inLeft inRight)

/-- Erasing a selected element erases it from the selection. -/
theorem filter_eraseP_of_imp {kept wanted : α → Bool}
    (inside : ∀ item, wanted item = true → kept item = true) (items : List α) :
    (items.eraseP wanted).filter kept = (items.filter kept).eraseP wanted := by
  induction items with
  | nil => rfl
  | cons item items ih =>
      by_cases found : wanted item = true
      · rw [List.eraseP_cons_of_pos found, List.filter_cons_of_pos (inside item found),
          List.eraseP_cons_of_pos found]
      · rw [List.eraseP_cons_of_neg found]
        by_cases selected : kept item = true
        · rw [List.filter_cons_of_pos selected, List.filter_cons_of_pos selected,
            List.eraseP_cons_of_neg found, ih]
        · rw [List.filter_cons_of_neg selected, List.filter_cons_of_neg selected, ih]

/-- Erasing an element that is not selected leaves the selection alone. -/
theorem filter_eraseP_of_not {kept wanted : α → Bool}
    (outside : ∀ item, wanted item = true → ¬kept item = true) (items : List α) :
    (items.eraseP wanted).filter kept = items.filter kept := by
  induction items with
  | nil => rfl
  | cons item items ih =>
      by_cases found : wanted item = true
      · rw [List.eraseP_cons_of_pos found, List.filter_cons_of_neg (outside item found)]
      · rw [List.eraseP_cons_of_neg found, List.filter_cons, List.filter_cons, ih]

end Classes

section Loops

variable {σ β : Type*}

/-- **Loop rule.** A fallible loop over a list terminates with its invariant when
the invariant holds initially and every iteration succeeds and advances it. -/
theorem foldlM_invariant (body : σ → β → Option σ) (items : List β) (start : σ)
    (holds : Nat → σ → Prop) (initially : holds 0 start)
    (advances : ∀ index item state, items[index]? = some item → holds index state →
      ∃ next, body state item = some next ∧ holds (index + 1) next) :
    ∃ final, items.foldlM body start = some final ∧ holds items.length final := by
  induction items generalizing holds start with
  | nil => exact ⟨start, rfl, initially⟩
  | cons item items ih =>
      obtain ⟨next, ran, kept⟩ := advances 0 item start rfl initially
      obtain ⟨final, finished, holding⟩ := ih next (fun index => holds (index + 1)) kept
        fun index item state found => advances (index + 1) item state found
      refine ⟨final, ?_, holding⟩
      rw [List.foldlM_cons, ran]
      exact finished

/-- **Gathering.** A loop that reads the class off every bucket gathers all elements. -/
theorem foldlM_classOf {α γ : Type*} {number : α → Nat} {content : α → γ} {items : List α}
    {visit : β → Option (List γ)} {table : List β}
    (inside : ∀ item ∈ items, number item < table.length)
    (visits : ∀ index bucket, table[index]? = some bucket →
      visit bucket = some ((classOf number items index).map content)) :
    ∃ visited, table.foldlM (fun calls bucket => do
        let visited ← visit bucket
        some (calls ++ visited)) [] = some visited ∧
      visited.Perm (items.map content) := by
  obtain ⟨visited, finished, gathered⟩ := foldlM_invariant
    (fun calls bucket => do
      let visited ← visit bucket
      some (calls ++ visited)) table []
    (fun index calls => calls = ((List.range index).flatMap (classOf number items)).map content)
    rfl (by
      rintro index bucket calls found rfl
      refine ⟨_, by rw [visits index bucket found]; rfl, ?_⟩
      rw [List.range_succ, List.flatMap_append, List.flatMap_singleton, List.map_append])
  exact ⟨visited, finished, gathered ▸ (perm_flatMap_classOf inside).map content⟩

end Loops

end Foundation
