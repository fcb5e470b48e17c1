import FastDb.Blog.ColumnTree

/-! # The tree of columns, in place

`build_column_tree` of `deprecated/MySqlBlog.cppm`. It goes through the vector once and moves
the children of each column out of their slots into it, with the children they have been
given by then; what is moved into a slot that has itself been moved out of is erased with it.
So the tree is the one the recursion builds just when children that have children stand
before their parent (`FastDb.Blog.buildColumnTree_agrees_iff`). Until its parent's turn a
slot holds what a loop that copies the children would hold
(`FastDb.Blog.ColumnFamily.Moving`).
-/

namespace FastDb.Blog

open Foundation

/-- What a move leaves in a column, given what it leaves in a string. -/
def BlogColumn.movedFrom (left : Bytes → Bytes) (column : BlogColumn) : BlogColumn :=
  { column with
    columnName := left column.columnName
    columnDescription := left column.columnDescription
    children := [] }

/-- `children_map[id]`: where the columns are that name a parent. -/
def pointers (columns : List BlogColumn) (id : UInt64) : List Nat :=
  (columns.zipIdx.filter fun entry => entry.1.pid == id).map Prod.snd

/-- `column.children.push_back(std::move(*child))`, for the column in a slot. -/
def moveChild (left : Bytes → Bytes) (position : Nat) (slots : List BlogColumn) (child : Nat) :
    List BlogColumn :=
  match slots[child]? with
  | some moved => (slots.set child (moved.movedFrom left)).modify position fun column =>
      { column with children := column.children ++ [moved] }
  | none => slots

/-- The turn of a slot in the second loop. -/
def adopt (left : Bytes → Bytes) (columns slots : List BlogColumn) (position : Nat) :
    List BlogColumn :=
  match slots[position]? with
  | some column => (pointers columns column.columnId).foldl (moveChild left position) slots
  | none => slots

/-- `build_column_tree`; `left` is what a move leaves of a string. -/
def buildColumnTree (left : Bytes → Bytes) (columns : List BlogColumn) : List BlogColumn :=
  ((List.range columns.length).foldl (adopt left columns) columns).filter fun column =>
    column.pid == 0

/-! ## Pointers -/

theorem mem_pointers {columns : List BlogColumn} {id : UInt64} {position : Nat} :
    position ∈ pointers columns id ↔ ∃ column, columns[position]? = some column ∧
      column.pid = id := by
  rw [pointers, List.mem_map]
  constructor
  · intro pointed
    obtain ⟨⟨column, _⟩, member, rfl⟩ := pointed
    obtain ⟨entry, named⟩ := List.mem_filter.mp member
    exact ⟨column, List.mem_zipIdx_iff_getElem?.mp entry, beq_iff_eq.mp named⟩
  · intro present
    obtain ⟨column, found, named⟩ := present
    refine ⟨(column, position), List.mem_filter.mpr ⟨?_, beq_iff_eq.mpr named⟩, rfl⟩
    exact List.mem_zipIdx_iff_getElem?.mpr found

/-- No child is pointed to twice. -/
theorem pointers_nodup (columns : List BlogColumn) (id : UInt64) : (pointers columns id).Nodup := by
  have positions : (columns.zipIdx.map Prod.snd).Nodup := by
    rw [List.zipIdx_map_snd]
    exact List.nodup_range'
  exact positions.sublist (List.filter_sublist.map _)

/-- What the slots of the children hold, in the order of the columns. -/
theorem filterMap_pointers {columns slots : List BlogColumn} {id : UInt64}
    {held : BlogColumn → BlogColumn} (holds : ∀ (position : Nat) column,
      columns[position]? = some column → column.pid = id →
        slots[position]? = some (held column)) :
    ((pointers columns id).filterMap fun child => slots[child]?) =
      (columns.filter fun column => column.pid == id).map held := by
  have entries : ((columns.zipIdx.filter fun entry => entry.1.pid == id).filterMap
      fun entry => slots[entry.2]?) =
        (columns.zipIdx.filter fun entry => entry.1.pid == id).map fun entry => held entry.1 := by
    rw [← List.filterMap_eq_map]
    apply List.filterMap_congr
    intro entry member
    obtain ⟨present, named⟩ := List.mem_filter.mp member
    exact holds entry.2 entry.1 (List.mem_zipIdx_iff_getElem?.mp present) (beq_iff_eq.mp named)
  have firsts : (columns.zipIdx.filter fun entry => entry.1.pid == id).map Prod.fst =
      columns.filter fun column => column.pid == id := by
    have moved := List.filter_map (f := Prod.fst) (l := columns.zipIdx)
      (p := fun column : BlogColumn => column.pid == id)
    rw [List.zipIdx_map_fst] at moved
    exact moved.symm
  rw [pointers, List.filterMap_map, ← firsts, List.map_map]
  exact entries

/-! ## One turn -/

section Turn

variable (left : Bytes → Bytes) {slots : List BlogColumn} {position : Nat} {column : BlogColumn}

/-- One child moved: into the slot, out of its own. -/
theorem moveChild_getElem? {child : Nat} {moved : BlogColumn}
    (here : slots[position]? = some column) (found : slots[child]? = some moved)
    (different : child ≠ position) (index : Nat) :
    (moveChild left position slots child)[index]? =
      if index = position then some { column with children := column.children ++ [moved] }
      else if index = child then some (moved.movedFrom left)
      else slots[index]? := by
  have inside := (List.getElem?_eq_some_iff.mp found).1
  rw [moveChild, found]
  dsimp only
  rw [List.getElem?_modify]
  by_cases atSlot : position = index
  · subst atSlot
    rw [if_pos rfl, List.getElem?_set_ne different, here]
    simp only [↓reduceIte, Option.map_eq_map, Option.map_some]
  · simp only [atSlot, Ne.symm atSlot, ↓reduceIte, Option.map_eq_map, Option.map_id']
    by_cases atChild : child = index
    · subst atChild
      rw [if_pos rfl, List.getElem?_set_self inside]
    · rw [if_neg (Ne.symm atChild), List.getElem?_set_ne atChild]

/-- **One turn**: the slot has its children, they are moved from, and nothing else is. -/
theorem foldl_moveChild {children : List Nat} (here : slots[position]? = some column)
    (nodup : children.Nodup) (outside : position ∉ children)
    (inside : ∀ child ∈ children, ∃ moved, slots[child]? = some moved) (index : Nat) :
    (children.foldl (moveChild left position) slots)[index]? =
      if index = position then some { column with
        children := column.children ++ children.filterMap fun child => slots[child]? }
      else if index ∈ children then slots[index]?.map (BlogColumn.movedFrom left)
      else slots[index]? := by
  induction children generalizing slots column with
  | nil =>
      rw [List.foldl_nil, List.filterMap_nil, List.append_nil, if_neg List.not_mem_nil]
      split
      · next same =>
          rw [same, here]
          cases column
          rfl
      · rfl
  | cons child children ih =>
      obtain ⟨fresh, nodup⟩ := List.nodup_cons.mp nodup
      rw [List.mem_cons, not_or] at outside
      obtain ⟨different, outside⟩ := outside
      obtain ⟨⟨moved, found⟩, inside⟩ := List.forall_mem_cons.mp inside
      have moves := moveChild_getElem? left here found (Ne.symm different)
      have next := moves position
      rw [if_pos rfl] at next
      have same : ∀ other ∈ children, (moveChild left position slots child)[other]? =
          slots[other]? := by
        intro other member
        have notSlot : other ≠ position := ne_of_mem_of_not_mem member outside
        have notChild : other ≠ child := ne_of_mem_of_not_mem member fresh
        rw [moves, if_neg notSlot, if_neg notChild]
      rw [List.foldl_cons, ih next nodup outside fun other member =>
        (inside other member).imp fun _ held => (same other member).trans held]
      by_cases atSlot : index = position
      · rw [if_pos atSlot, if_pos atSlot, List.filterMap_congr same,
          List.filterMap_cons_some found, List.append_assoc, List.singleton_append]
      · rw [if_neg atSlot, if_neg atSlot]
        by_cases atChild : index = child
        · subst atChild
          rw [if_neg fresh, if_pos List.mem_cons_self, moves, if_neg atSlot, if_pos rfl, found]
          rfl
        · by_cases member : index ∈ children
          · rw [if_pos member, if_pos (List.mem_cons_of_mem _ member), same index member]
          · rw [if_neg member, if_neg (List.not_mem_cons_of_ne_of_not_mem atChild member), moves,
              if_neg atSlot, if_neg atChild]

/-- Moving children keeps the number of slots. -/
theorem length_foldl_moveChild (children : List Nat) :
    (children.foldl (moveChild left position) slots).length = slots.length := by
  induction children generalizing slots with
  | nil => rfl
  | cons child children ih =>
      rw [List.foldl_cons, ih, moveChild]
      split
      · rw [List.length_modify, List.length_set]
      · rfl

end Turn

/-! ## Copying instead of moving -/

/-- What a column holds after the turns of some columns, the last of them first, where the
children are copied. -/
def grown (columns : List BlogColumn) : List BlogColumn → BlogColumn → BlogColumn
  | [], column => column
  | last :: earlier, column =>
      if column.columnId = last.columnId then { column with
        children := (columns.filter fun child => child.pid == column.columnId).map
          (grown columns earlier) }
      else grown columns earlier column

/-- Before its turn a column is as it was. -/
theorem grown_of_fresh (columns : List BlogColumn) {turns : List BlogColumn} {column : BlogColumn}
    (fresh : ∀ earlier ∈ turns, earlier.columnId ≠ column.columnId) :
    grown columns turns column = column := by
  induction turns with
  | nil => rfl
  | cons last earlier ih =>
      obtain ⟨different, fresh⟩ := List.forall_mem_cons.mp fresh
      rw [grown, if_neg (Ne.symm different), ih fresh]

/-- Only children are added. -/
theorem grown_eq (columns turns : List BlogColumn) (column : BlogColumn) :
    grown columns turns column = { column with
      children := (grown columns turns column).children } := by
  induction turns with
  | nil =>
      cases column
      rfl
  | cons last earlier ih =>
      rw [grown]
      split
      · rfl
      · exact ih

/-- The top level, where each of its slots holds what is said of it. -/
theorem filter_eq_map_filter {slots columns : List BlogColumn} {held : BlogColumn → BlogColumn}
    (length : slots.length = columns.length) (each : ∀ (position : Nat) column,
      columns[position]? = some column → ∃ slot, slots[position]? = some slot ∧
        slot.pid = column.pid ∧ (column.pid = 0 → slot = held column)) :
    (slots.filter fun slot => slot.pid == 0) =
      (columns.filter fun column => column.pid == 0).map held := by
  induction columns generalizing slots with
  | nil =>
      rw [List.eq_nil_of_length_eq_zero length]
      rfl
  | cons column columns ih =>
      obtain ⟨slot, rest, rfl⟩ := List.exists_cons_of_length_eq_add_one length
      obtain ⟨_, ⟨⟩, pid, whole⟩ := each 0 column rfl
      have others := ih (Nat.succ.inj length) fun position => each (position + 1)
      rw [List.filter_cons, List.filter_cons, pid, others]
      split
      · next root => rw [List.map_cons, whole (beq_iff_eq.mp root)]
      · rfl

/-- Children that have children stand before their parent. -/
def InnerFirst (columns : List BlogColumn) : Prop :=
  ∀ (position : Nat) parent, columns[position]? = some parent → ∀ column ∈ columns,
    column.pid = parent.columnId → (∃ child ∈ columns, child.pid = column.columnId) →
      column ∈ columns.take position

/-- A table of columns without children yet, in which every parent exists and no column is
below itself. -/
structure ColumnFamily extends ColumnTable where
  childless : ∀ column ∈ columns, column.children = []
  parents : ∀ column ∈ columns,
    column.pid = 0 ∨ ∃ parent ∈ columns, parent.columnId = column.pid
  acyclic : ∀ column ∈ columns, ¬ toColumnTable.Below column.columnId column

namespace ColumnFamily

variable (family : ColumnFamily)

/-- The columns that have had their turn, the last first. -/
def turns (count : Nat) : List BlogColumn := (family.columns.take count).reverse

/-- **The moving loop** after a number of turns. A slot keeps its ids, and until the turn of
the parent it holds what the copying loop would. -/
structure Moving (count : Nat) (slots : List BlogColumn) : Prop where
  length : slots.length = family.columns.length
  slot : ∀ (position : Nat) column, family.columns[position]? = some column →
    ∃ held, slots[position]? = some held ∧ held.columnId = column.columnId ∧
      held.pid = column.pid ∧
      ((∀ parent ∈ family.turns count, parent.columnId ≠ column.pid) →
        held = grown family.columns (family.turns count) column)

variable {family}

/-- Before the first turn nothing was moved. -/
theorem moving_start : family.Moving 0 family.columns where
  length := rfl
  slot _ column found := ⟨column, found, rfl, rfl, fun _ => rfl⟩

section Step

variable {count : Nat} {column : BlogColumn}

/-- The next turn is of the next column. -/
theorem turns_succ (found : family.columns[count]? = some column) :
    family.turns (count + 1) = column :: family.turns count := by
  rw [turns, turns, List.take_add_one, found, Option.toList_some, List.reverse_append,
    List.reverse_singleton, List.singleton_append]

/-- A column has one turn. -/
theorem fresh_turn (found : family.columns[count]? = some column) :
    ∀ earlier ∈ family.turns count, earlier.columnId ≠ column.columnId := by
  have distinct : ((family.turns (count + 1)).map BlogColumn.columnId).Nodup := by
    rw [turns, List.map_reverse, List.nodup_reverse]
    exact family.distinct.sublist ((List.take_sublist _ _).map _)
  rw [turns_succ found, List.map_cons, List.nodup_cons] at distinct
  intro earlier member same
  exact distinct.1 (same ▸ List.mem_map_of_mem member)

/-- Columns of one id are one. -/
theorem position_eq {position : Nat} {other : BlogColumn}
    (found : family.columns[count]? = some column)
    (otherFound : family.columns[position]? = some other)
    (same : other.columnId = column.columnId) : position = count := by
  have inside := (List.getElem?_eq_some_iff.mp otherFound).1
  have ids : (family.columns.map BlogColumn.columnId)[position]? =
      (family.columns.map BlogColumn.columnId)[count]? := by
    rw [List.getElem?_map, List.getElem?_map, found, otherFound, Option.map_some, same]
    rfl
  exact (List.getElem?_inj (by rwa [List.length_map]) family.distinct).mp ids

/-- No column is a child of its own. -/
theorem pid_ne (member : column ∈ family.columns) : column.pid ≠ column.columnId := by
  intro same
  exact family.acyclic column member (Hierarchy.Below.child member same)

/-- **One turn** of the moving loop. -/
theorem Moving.adopt {slots : List BlogColumn} (moving : family.Moving count slots)
    (found : family.columns[count]? = some column) (left : Bytes → Bytes) :
    family.Moving (count + 1) (adopt left family.columns slots count) := by
  have present := List.mem_of_getElem? found
  have fresh := fresh_turn found
  obtain ⟨holder, here, holderId, holderPid, holderGrown⟩ := moving.slot count column found
  have outside : count ∉ pointers family.columns column.columnId := by
    intro member
    obtain ⟨child, childFound, named⟩ := mem_pointers.mp member
    obtain rfl := Option.some.inj (found.symm.trans childFound)
    exact pid_ne present named
  have inside : ∀ child ∈ pointers family.columns column.columnId,
      ∃ moved, slots[child]? = some moved := by
    intro child member
    obtain ⟨original, childFound, -⟩ := mem_pointers.mp member
    obtain ⟨moved, held, -⟩ := moving.slot child original childFound
    exact ⟨moved, held⟩
  -- the parent of a child has had no turn before this one, so its slot still holds it
  have children : ((pointers family.columns column.columnId).filterMap
      fun child => slots[child]?) =
        (family.columns.filter fun child => child.pid == column.columnId).map
          (grown family.columns (family.turns count)) := by
    apply filterMap_pointers
    intro position child childFound named
    obtain ⟨moved, held, -, -, whole⟩ := moving.slot position child childFound
    rw [held, whole fun parent member => named ▸ fresh parent member]
  have turn := foldl_moveChild left here (pointers_nodup _ _) outside inside
  rw [children] at turn
  rw [FastDb.Blog.adopt, here]
  dsimp only
  rw [holderId]
  constructor
  · rw [length_foldl_moveChild, moving.length]
  · intro position other otherFound
    obtain ⟨held, there, heldId, heldPid, whole⟩ := moving.slot position other otherFound
    rw [turn, turns_succ found, List.forall_mem_cons]
    by_cases atTurn : position = count
    · subst atTurn
      obtain rfl := Option.some.inj (found.symm.trans otherFound)
      rw [if_pos rfl]
      refine ⟨_, rfl, holderId, holderPid, fun unmoved => ?_⟩
      have same := (holderGrown unmoved.2).trans (grown_of_fresh _ fresh)
      rw [grown, if_pos rfl, same, family.childless column present, List.nil_append]
    · rw [if_neg atTurn]
      split
      · next child =>
          obtain ⟨original, childFound, named⟩ := mem_pointers.mp child
          obtain rfl := Option.some.inj (otherFound.symm.trans childFound)
          rw [there]
          refine ⟨_, rfl, heldId, heldPid, fun unmoved => ?_⟩
          exact absurd named.symm unmoved.1
      · refine ⟨held, there, heldId, heldPid, fun unmoved => ?_⟩
        have different : other.columnId ≠ column.columnId := fun same =>
          atTurn (position_eq found otherFound same)
        rw [grown, if_neg different]
        exact whole unmoved.2

end Step

/-- Each turn adopts the children of its column. -/
theorem moving_of_turns (family : ColumnFamily) (left : Bytes → Bytes) {count : Nat}
    (within : count ≤ family.columns.length) :
    family.Moving count ((List.range count).foldl (FastDb.Blog.adopt left family.columns)
      family.columns) := by
  induction count with
  | zero => exact moving_start
  | succ count ih =>
      have found := List.getElem?_eq_getElem (Nat.lt_of_succ_le within)
      rw [List.range_succ, List.foldl_append]
      exact (ih (Nat.le_of_succ_le within)).adopt found left

/-- What is not erased holds what the copying loop would. -/
theorem buildColumnTree_eq (family : ColumnFamily) (left : Bytes → Bytes) :
    buildColumnTree left family.columns = (family.columns.filter fun column => column.pid == 0).map
      (grown family.columns (family.turns family.columns.length)) := by
  have moving := family.moving_of_turns left le_rfl
  rw [buildColumnTree]
  apply filter_eq_map_filter moving.length
  intro position column found
  obtain ⟨held, there, -, heldPid, whole⟩ := moving.slot position column found
  refine ⟨held, there, heldPid, fun root => whole fun parent member => ?_⟩
  rw [root]
  exact family.nonzero parent (List.mem_of_mem_take (List.mem_reverse.mp member))

/-! ## Where nothing is lost -/

/-- All columns are reached. -/
theorem below_zero (family : ColumnFamily) {column : BlogColumn}
    (member : column ∈ family.columns) : family.Below 0 column :=
  Hierarchy.below_root family.parents family.acyclic column member

/-- Every column of a family descends from the top. -/
theorem descends (family : ColumnFamily) {column : BlogColumn} (member : column ∈ family.columns) :
    ∃ path, family.hierarchy.Descends 0 column.columnId path := by
  obtain ⟨-, path, above⟩ := family.below_zero member
  exact ⟨column :: path, Hierarchy.Descends.child member rfl above⟩

/-- The children of a parent with the forests they have grown are the forest below it. -/
theorem isForest_children {turns : List BlogColumn} {parent : UInt64} {path : List BlogColumn}
    (above : family.hierarchy.Descends 0 parent path)
    (below : ∀ column ∈ family.columns, column.pid = parent →
      family.IsForest column.columnId (grown family.columns turns column).children) :
    family.IsForest parent ((family.columns.filter fun column => column.pid == parent).map
      (grown family.columns turns)) := by
  have collected : ∀ column, (column ∈ family.columns.filter fun column => column.pid == parent) ↔
      column ∈ family.columns ∧ column.pid = parent := by
    intro column
    rw [List.mem_filter, beq_iff_eq]
  have whole : ∀ column, grown family.columns turns column = { column with
      children := (grown family.columns turns column).children } :=
    grown_eq family.columns turns
  rw [funext whole]
  apply ColumnTable.IsForest.of_children above
  · exact (family.distinct.of_map _).filter _
  · exact collected
  · intro column member
    obtain ⟨present, named⟩ := (collected column).mp member
    exact below column present named

/-- Below a column without children there are no trees. -/
theorem isForest_leaf {column : BlogColumn}
    (leaf : ∀ child ∈ family.columns, child.pid ≠ column.columnId) :
    family.IsForest column.columnId [] where
  once := List.nodup_nil
  complete placement := by
    apply iff_of_false List.not_mem_nil
    intro reached
    obtain ⟨other, below, -⟩ := reached
    obtain ⟨child, member, named, -⟩ := Hierarchy.below_iff.mp below
    exact leaf child member named

/-- **Copying** is complete for a column that has had its turn or needs none. -/
theorem isForest_grown (inner : InnerFirst family.columns) {count : Nat}
    (within : count ≤ family.columns.length) {column : BlogColumn}
    (member : column ∈ family.columns) (done : column ∈ family.turns count ∨
      ∀ child ∈ family.columns, child.pid ≠ column.columnId) :
    family.IsForest column.columnId
      (grown family.columns (family.turns count) column).children := by
  induction count generalizing column with
  | zero =>
      rcases done with had | leaf
      · cases had
      · change family.IsForest column.columnId column.children
        rw [family.childless column member]
        exact isForest_leaf leaf
  | succ count ih =>
      have found := List.getElem?_eq_getElem (Nat.lt_of_succ_le within)
      generalize family.columns[count] = last at found
      rw [turns_succ found] at done ⊢
      rw [grown]
      split
      · next same =>
          obtain ⟨path, above⟩ := family.descends member
          apply isForest_children above
          intro child childMember named
          apply ih (Nat.le_of_succ_le within) childMember
          by_cases inside : ∃ grandchild ∈ family.columns, grandchild.pid = child.columnId
          · have before := inner count last found child childMember (named.trans same) inside
            exact Or.inl (List.mem_reverse.mpr before)
          · exact Or.inr fun grandchild present equal => inside ⟨grandchild, present, equal⟩
      · next different =>
          apply ih (Nat.le_of_succ_le within) member
          refine done.imp_left fun had => ?_
          rcases List.mem_cons.mp had with rfl | earlier
          · exact absurd rfl different
          · exact earlier

/-- With inner columns first the result is the whole forest. -/
theorem isForest_buildColumnTree (left : Bytes → Bytes) (inner : InnerFirst family.columns) :
    family.IsForest 0 (buildColumnTree left family.columns) := by
  rw [buildColumnTree_eq]
  apply isForest_children Hierarchy.Descends.here
  intro column member _
  apply isForest_grown inner le_rfl member
  left
  rw [turns, List.take_length]
  exact List.mem_reverse.mpr member

/-! ## What is lost -/

/-- Before any turn a column holds itself only. -/
theorem mem_childless {column : BlogColumn} (member : column ∈ family.columns) {label : UInt64}
    {placement : UInt64 × BlogColumn} (placed : placement ∈ column.placements label) :
    placement.2.columnId = column.columnId := by
  rw [BlogColumn.placements_eq, family.childless column member, placementsIn,
    List.mem_singleton] at placed
  rw [placed]
  rfl

/-- A child of a column that stands behind its own parent comes into that column only, which
its parent has taken before. -/
theorem mem_grown {position : Nat} {parent column child : BlogColumn}
    (found : family.columns[position]? = some parent) (member : column ∈ family.columns)
    (named : column.pid = parent.columnId) (late : column ∉ family.columns.take position)
    (childMember : child ∈ family.columns) (childNamed : child.pid = column.columnId)
    {count : Nat} (within : count ≤ family.columns.length) {top : BlogColumn}
    (topMember : top ∈ family.columns) {label : UInt64} {placement : UInt64 × BlogColumn}
    (placed : placement ∈ (grown family.columns (family.turns count) top).placements label)
    (isChild : placement.2.columnId = child.columnId) : top = child ∨ top = column := by
  have same : ∀ {first second}, first ∈ family.columns → second ∈ family.columns →
      first.columnId = second.columnId → first = second := family.hierarchy.eq_of_key
  induction count generalizing top label with
  | zero =>
      left
      exact same topMember childMember ((mem_childless topMember placed).symm.trans isChild)
  | succ count ih =>
      have lastFound := List.getElem?_eq_getElem (Nat.lt_of_succ_le within)
      generalize family.columns[count] = last at lastFound
      rw [turns_succ lastFound, grown] at placed
      split at placed
      · next atTurn =>
          obtain rfl := same topMember (List.mem_of_getElem? lastFound) atTurn
          rw [BlogColumn.placements_eq, List.mem_cons] at placed
          rcases placed with rfl | inside
          · exact Or.inl (same topMember childMember isChild)
          · rw [placementsIn_eq, List.flatMap_map] at inside
            obtain ⟨taken, takenMember, placed⟩ := List.mem_flatMap.mp inside
            obtain ⟨takenPresent, takenNamed⟩ := List.mem_filter.mp takenMember
            have takenPid := beq_iff_eq.mp takenNamed
            rcases ih (Nat.le_of_succ_le within) takenPresent placed with rfl | rfl
            · exact Or.inr (same topMember member (takenPid.symm.trans childNamed))
            · have atParent : count = position :=
                position_eq found lastFound (takenPid.symm.trans named)
              subst atParent
              have fresh : ∀ earlier ∈ family.turns count, earlier.columnId ≠ taken.columnId := by
                intro earlier before equal
                have early := List.mem_reverse.mp before
                exact late (same (List.mem_of_mem_take early) member equal ▸ early)
              rw [grown_of_fresh _ fresh] at placed
              have both := (mem_childless takenPresent placed).symm.trans isChild
              exact absurd (childNamed.trans both) (pid_ne childMember)
      · exact ih (Nat.le_of_succ_le within) topMember placed

end ColumnFamily

/-- **The two builders agree**, and no column is lost, just when children that have children
stand before their parent. -/
theorem buildColumnTree_agrees_iff (left : Bytes → Bytes) (family : ColumnFamily) :
    ∃ forest, (∀ depth, family.columns.length < depth →
        buildColumnTreeRecursive family.columns depth [] 0 = some forest) ∧
      (((placementsIn 0 (buildColumnTree left family.columns)).Perm (placementsIn 0 forest) ∧
          ∀ column ∈ family.columns,
            column.place ∈ placementsIn 0 (buildColumnTree left family.columns)) ↔
        InnerFirst family.columns) := by
  obtain ⟨forest, built, once, complete, -⟩ :=
    buildColumnTreeRecursive_complete family.toColumnTable
  refine ⟨forest, built, ?_, ?_⟩
  · intro agrees position parent found column member named hasChild
    obtain ⟨child, childMember, childNamed⟩ := hasChild
    by_contra late
    have placed := agrees.2 child childMember
    rw [family.buildColumnTree_eq, placementsIn_eq, List.flatMap_map] at placed
    obtain ⟨root, rootMember, placed⟩ := List.mem_flatMap.mp placed
    obtain ⟨present, isRoot⟩ := List.mem_filter.mp rootMember
    have atRoot := beq_iff_eq.mp isRoot
    rcases ColumnFamily.mem_grown found member named late childMember childNamed le_rfl present
      placed rfl with rfl | rfl
    · exact family.nonzero column member (childNamed.symm.trans atRoot)
    · exact family.nonzero parent (List.mem_of_getElem? found) (named.symm.trans atRoot)
  · intro inner
    have spec := ColumnFamily.isForest_buildColumnTree left inner
    constructor
    · apply (List.perm_ext_iff_of_nodup spec.once once).mpr
      intro placement
      rw [spec.complete, complete]
    · intro column member
      exact (spec.complete _).mpr ⟨column, family.below_zero member, rfl⟩

/-- Column 1 with the child 2, which has the child 3. -/
def oneBranch : ColumnFamily where
  columns := [⟨1, [], [], 0, []⟩, ⟨2, [], [], 1, []⟩, ⟨3, [], [], 2, []⟩]
  distinct := by decide
  nonzero := by simp
  childless := by simp
  parents := by simp
  acyclic := by
    intro column member
    have inside := member
    simp only [List.mem_cons, List.not_mem_nil, or_false] at inside
    rcases inside with rfl | rfl | rfl
    · exact Hierarchy.not_below_self member .here
    · exact Hierarchy.not_below_self member (.child List.mem_cons_self rfl .here)
    · exact Hierarchy.not_below_self member (.child (List.mem_cons_of_mem _ List.mem_cons_self) rfl
        (.child List.mem_cons_self rfl .here))

/-- Parents first, the branch is cut at its second column. -/
theorem buildColumnTree_oneBranch :
    (placementsIn 0 (buildColumnTree id oneBranch.columns)).map (fun placement =>
        placement.2.columnId) = [1, 2] ∧
      (buildColumnTreeRecursive oneBranch.columns 4 [] 0).map (fun forest =>
        (placementsIn 0 forest).map fun placement => placement.2.columnId) = some [1, 2, 3] := by
  decide

/-- With its second column first, the branch is whole. -/
example : (placementsIn 0 (buildColumnTree id
    [⟨2, [], [], 1, []⟩, ⟨1, [], [], 0, []⟩, ⟨3, [], [], 2, []⟩])).map (fun placement =>
      (placement.1, placement.2.columnId)) = [(0, 1), (1, 2), (2, 3)] := by
  decide

end FastDb.Blog
