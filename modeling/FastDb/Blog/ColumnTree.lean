import FastDb.Foundation.Bytes
import FastDb.Foundation.Hierarchy
import FastDb.Foundation.Lists
import Mathlib.Data.List.Sort

/-! # The tree of columns

`build_column_tree_recursive` of `deprecated/MySqlBlog.cppm`. The columns of a blog come
from the database as a list in which each names its parent by id, zero for none. A call
collects the columns of one parent, sorts them by id and calls itself for each, with nothing
that stops it at a column it has been at; it ends because the parents above it are distinct
columns of the list (`FastDb.Blog.buildColumnTreeRecursive_complete`).
-/

namespace FastDb.Blog

open Foundation

/-- `BlogColumn`: the fields that the functions here read or write. -/
structure BlogColumn where
  columnId : UInt64
  columnName : Bytes
  columnDescription : Bytes
  pid : UInt64
  children : List BlogColumn

/-- The call of `std::sort`; ids are distinct, so stability makes no difference. -/
def sortById (columns : List BlogColumn) : List BlogColumn :=
  columns.insertionSort fun a b => a.columnId ≤ b.columnId

/-- `build_column_tree_recursive`, to a depth of calls; `none` is a call beyond it. -/
def buildColumnTreeRecursive (allColumns : List BlogColumn) :
    Nat → List BlogColumn → UInt64 → Option (List BlogColumn)
  | 0, _, _ => none
  | depth + 1, currentLevel, parentId =>
      let collected := currentLevel ++ allColumns.filter fun column => column.pid == parentId
      (sortById collected).mapM fun column => do
        let children ← buildColumnTreeRecursive allColumns depth [] column.columnId
        some { column with children := children }

/-! ## Where columns are -/

/-- A column without its children. -/
def BlogColumn.bare (column : BlogColumn) : BlogColumn := { column with children := [] }

/-- Where a column says it belongs: under its parent. -/
def BlogColumn.place (column : BlogColumn) : UInt64 × BlogColumn := (column.pid, column.bare)

mutual

/-- The columns of a tree, each with the id of the one it is a child of. -/
def BlogColumn.placements (parent : UInt64) : BlogColumn → List (UInt64 × BlogColumn)
  | ⟨columnId, columnName, columnDescription, pid, children⟩ =>
      (parent, ⟨columnId, columnName, columnDescription, pid, []⟩) ::
        placementsIn columnId children

/-- The placements in a list of trees. -/
def placementsIn (parent : UInt64) : List BlogColumn → List (UInt64 × BlogColumn)
  | [] => []
  | column :: columns => column.placements parent ++ placementsIn parent columns

end

/-- A column is placed in front of what is below it. -/
theorem BlogColumn.placements_eq (parent : UInt64) (column : BlogColumn) :
    column.placements parent =
      (parent, column.bare) :: placementsIn column.columnId column.children := by
  cases column
  rw [placements]
  rfl

/-- Trees are placed one after another. -/
theorem placementsIn_eq (parent : UInt64) (columns : List BlogColumn) :
    placementsIn parent columns = columns.flatMap fun column => column.placements parent := by
  induction columns with
  | nil => rw [placementsIn, List.flatMap_nil]
  | cons column columns ih => rw [placementsIn, List.flatMap_cons, ih]

/-- Siblings are in the order of their ids, at every level. -/
inductive Ordered : List BlogColumn → Prop where
  | level {columns : List BlogColumn}
      (increasing : columns.Pairwise fun a b => a.columnId < b.columnId)
      (below : ∀ column ∈ columns, Ordered column.children) : Ordered columns

/-! ## Tables of columns -/

/-- Columns with distinct ids that are not zero; what they name as parents is arbitrary. -/
structure ColumnTable where
  columns : List BlogColumn
  distinct : (columns.map BlogColumn.columnId).Nodup
  nonzero : ∀ column ∈ columns, column.columnId ≠ 0

namespace ColumnTable

variable (table : ColumnTable)

/-- The columns of the table by their parents. -/
def hierarchy : Hierarchy BlogColumn UInt64 where
  nodes := table.columns
  key := BlogColumn.columnId
  parent := BlogColumn.pid
  root := 0
  distinct := table.distinct
  foreign := table.nonzero

/-- A column that is reached from an id, parent after parent. -/
abbrev Below (parent : UInt64) (column : BlogColumn) : Prop := table.hierarchy.Below parent column

/-- **The forest** below a parent: the columns reached from it, once each and where they
belong. -/
structure IsForest (parent : UInt64) (forest : List BlogColumn) : Prop where
  once : (placementsIn parent forest).Nodup
  complete : ∀ placement, placement ∈ placementsIn parent forest ↔
    ∃ column, table.Below parent column ∧ placement = column.place

variable {table}

/-- Columns of one place are one. -/
theorem eq_of_place {column other : BlogColumn} (member : column ∈ table.columns)
    (otherMember : other ∈ table.columns) (same : column.place = other.place) :
    column = other := by
  apply table.hierarchy.eq_of_key member otherMember
  exact congrArg (fun placement => placement.2.columnId) same

/-- A column with the forest below it has the columns under it. -/
theorem IsForest.mem_placements {column : BlogColumn} {children : List BlogColumn}
    (below : table.IsForest column.columnId children) {placement : UInt64 × BlogColumn} :
    placement ∈ ({ column with children := children } : BlogColumn).placements column.pid ↔
      ∃ other, table.hierarchy.Under column other ∧ placement = other.place := by
  rw [BlogColumn.placements_eq, List.mem_cons, below.complete]
  constructor
  · intro placed
    rcases placed with here | ⟨other, under, there⟩
    · exact ⟨column, Or.inl rfl, here⟩
    · exact ⟨other, Or.inr under, there⟩
  · intro placed
    obtain ⟨other, rfl | under, there⟩ := placed
    · exact Or.inl there
    · exact Or.inr ⟨other, under, there⟩

/-- The forest below a parent is its children with the forests below them, in any order. -/
theorem IsForest.of_children {parent : UInt64} {path level : List BlogColumn}
    {grown : BlogColumn → List BlogColumn} (above : table.hierarchy.Descends 0 parent path)
    (nodup : level.Nodup)
    (collected : ∀ column, column ∈ level ↔ column ∈ table.columns ∧ column.pid = parent)
    (below : ∀ column ∈ level, table.IsForest column.columnId (grown column)) :
    table.IsForest parent (level.map fun column => { column with children := grown column }) := by
  have blocks : placementsIn parent
      (level.map fun column => { column with children := grown column }) =
        level.flatMap fun column =>
          ({ column with children := grown column } : BlogColumn).placements column.pid := by
    rw [placementsIn_eq, List.flatMap_map]
    apply List.flatMap_congr
    intro column member
    rw [((collected column).mp member).2]
  constructor
  · rw [blocks]
    apply List.nodup_flatMap.mpr
    constructor
    · intro column member
      obtain ⟨present, child⟩ := (collected column).mp member
      rw [BlogColumn.placements_eq]
      apply List.nodup_cons.mpr
      refine ⟨fun again => ?_, (below column member).once⟩
      obtain ⟨other, under, there⟩ := ((below column member).complete _).mp again
      obtain rfl := eq_of_place present under.1 there
      exact Hierarchy.not_below_self present (child ▸ above) under
    · apply nodup.imp_of_mem
      intro column other member otherMember different placement inColumn inOther
      obtain ⟨present, child⟩ := (collected column).mp member
      obtain ⟨otherPresent, otherChild⟩ := (collected other).mp otherMember
      obtain ⟨first, under, rfl⟩ := (below column member).mem_placements.mp inColumn
      obtain ⟨second, otherUnder, same⟩ := (below other otherMember).mem_placements.mp inOther
      obtain rfl := eq_of_place (under.mem present) (otherUnder.mem otherPresent) same
      exact different (under.unique otherUnder present otherPresent (child ▸ above)
        (otherChild.trans child.symm))
  · intro placement
    rw [blocks, List.mem_flatMap]
    constructor
    · intro placed
      obtain ⟨column, member, inColumn⟩ := placed
      obtain ⟨present, child⟩ := (collected column).mp member
      obtain ⟨other, under, there⟩ := (below column member).mem_placements.mp inColumn
      exact ⟨other, Hierarchy.below_iff.mpr ⟨column, present, child, under⟩, there⟩
    · intro reached
      obtain ⟨other, belowParent, there⟩ := reached
      obtain ⟨column, present, child, under⟩ := Hierarchy.below_iff.mp belowParent
      have member := (collected column).mpr ⟨present, child⟩
      exact ⟨column, member, (below column member).mem_placements.mpr ⟨other, under, there⟩⟩

/-! ## The recursion -/

theorem mem_sortById {columns : List BlogColumn} {column : BlogColumn} :
    column ∈ sortById columns ↔ column ∈ columns := List.mem_insertionSort _

/-- Sorting orders the columns anew. -/
theorem sortById_perm (columns : List BlogColumn) : (sortById columns).Perm columns :=
  List.perm_insertionSort _ columns

/-- Columns of different ids are sorted strictly. -/
theorem sortById_increasing {columns : List BlogColumn}
    (distinct : (columns.map BlogColumn.columnId).Nodup) :
    (sortById columns).Pairwise fun a b => a.columnId < b.columnId := by
  let AtMost (a b : BlogColumn) : Prop := a.columnId ≤ b.columnId
  have : Std.Total AtMost := ⟨fun a b => UInt64.le_total a.columnId b.columnId⟩
  have : IsTrans BlogColumn AtMost := ⟨fun _ _ _ => UInt64.le_trans⟩
  have sorted : (sortById columns).Pairwise AtMost := List.pairwise_insertionSort _ _
  have different : (sortById columns).Pairwise fun a b => a.columnId ≠ b.columnId :=
    List.pairwise_map.mp (((sortById_perm columns).map _).nodup_iff.mpr distinct)
  apply (sorted.and different).imp
  intro a b both
  exact UInt64.lt_of_le_of_ne both.1 both.2

/-- The children of a parent, sorted. -/
def childrenOf (table : ColumnTable) (parent : UInt64) : List BlogColumn :=
  sortById (table.columns.filter fun column => column.pid == parent)

/-- Children are listed by their ids. -/
theorem childrenOf_increasing (table : ColumnTable) (parent : UInt64) :
    (table.childrenOf parent).Pairwise fun a b => a.columnId < b.columnId :=
  sortById_increasing (table.distinct.sublist (List.filter_sublist.map _))

/-- Children are listed once. -/
theorem childrenOf_nodup (table : ColumnTable) (parent : UInt64) :
    (table.childrenOf parent).Nodup := by
  apply (table.childrenOf_increasing parent).imp
  intro a b less same
  exact UInt64.lt_irrefl _ (same ▸ less)

theorem mem_childrenOf {parent : UInt64} {column : BlogColumn} :
    column ∈ table.childrenOf parent ↔ column ∈ table.columns ∧ column.pid = parent := by
  rw [childrenOf, mem_sortById, List.mem_filter, beq_iff_eq]

/-- From an id that a descent leads to, the calls that remain below it are as many as there
are other columns, and deeper calls change nothing. -/
theorem exists_isForest (depth : Nat) {parent : UInt64} {path : List BlogColumn}
    (above : table.hierarchy.Descends 0 parent path)
    (enough : table.columns.length < path.length + depth) :
    ∃ forest, (∀ more, depth ≤ more →
        buildColumnTreeRecursive table.columns more [] parent = some forest) ∧
      table.IsForest parent forest ∧ Ordered forest := by
  induction depth generalizing parent path with
  | zero => exact absurd above.length_le (Nat.not_le.mpr enough)
  | succ depth ih =>
      have below : ∀ column ∈ table.childrenOf parent, ∃ forest, (∀ more, depth ≤ more →
            buildColumnTreeRecursive table.columns more [] column.columnId = some forest) ∧
          table.IsForest column.columnId forest ∧ Ordered forest := by
        intro column member
        obtain ⟨present, child⟩ := mem_childrenOf.mp member
        apply ih (Hierarchy.Descends.child present rfl (child ▸ above))
        rw [List.length_cons]
        omega
      choose! grown built forest ordered using below
      refine ⟨(table.childrenOf parent).map fun column => { column with children := grown column },
        ?_, ?_, ?_⟩
      · intro more deeper
        obtain ⟨calls, rfl⟩ := Nat.exists_eq_add_of_le' deeper
        rw [← Nat.add_assoc, buildColumnTreeRecursive]
        apply mapM_eq_some
        intro column member
        rw [built column member (calls + depth) (Nat.le_add_left _ _)]
        rfl
      · exact IsForest.of_children above (table.childrenOf_nodup parent)
          (fun column => mem_childrenOf) forest
      · constructor
        · rw [List.pairwise_map]
          exact table.childrenOf_increasing parent
        · intro column member
          obtain ⟨original, present, rfl⟩ := List.mem_map.mp member
          exact ordered original present

end ColumnTable

/-- **The recursive tree** is total and complete: for every table of columns, whatever
parents they name, the call returns, and in the forest it leaves the columns reached from
zero occur once each and where they belong, no other does, and siblings are in the order of
their ids. -/
theorem buildColumnTreeRecursive_complete (table : ColumnTable) :
    ∃ forest, (∀ depth, table.columns.length < depth →
        buildColumnTreeRecursive table.columns depth [] 0 = some forest) ∧
      (placementsIn 0 forest).Nodup ∧
      (∀ placement, placement ∈ placementsIn 0 forest ↔
        ∃ column, table.Below 0 column ∧ placement = column.place) ∧ Ordered forest := by
  have enough : table.columns.length <
      ([] : List BlogColumn).length + (table.columns.length + 1) := by
    rw [List.length_nil]
    omega
  obtain ⟨forest, built, spec, ordered⟩ :=
    ColumnTable.exists_isForest _ Hierarchy.Descends.here enough
  exact ⟨forest, fun depth deep => built depth deep, spec.once, spec.complete, ordered⟩

end FastDb.Blog
