import Mathlib.Data.Fintype.Card
import Mathlib.Data.List.Nodup
import Mathlib.Data.Set.Finite.Basic

/-! # Hierarchies by parent keys

Nodes with keys of their own name their parents by key, or name the root, which is no
node's key. The nodes between a key and the root are determined by the key
(`Foundation.Hierarchy.Descends.unique`), so a descent from the root meets no node twice
and is no longer than there are nodes (`Foundation.Hierarchy.Descends.length_le`), whatever
parents the other nodes name. Where every parent exists and no node is below itself, every
node is below the root (`Foundation.Hierarchy.below_root`).
-/

namespace Foundation

/-- Nodes with distinct keys, and their parents' keys. -/
structure Hierarchy (Node Key : Type) where
  nodes : List Node
  key : Node → Key
  parent : Node → Key
  root : Key
  distinct : (nodes.map key).Nodup
  foreign : ∀ node ∈ nodes, key node ≠ root

namespace Hierarchy

variable {Node Key : Type} {h : Hierarchy Node Key}

/-- A descent from one key to another, through nodes of which the last is listed first. -/
inductive Descends (h : Hierarchy Node Key) (start : Key) : Key → List Node → Prop where
  | here : Descends h start start []
  | child {node : Node} {stop : Key} {path : List Node} (member : node ∈ h.nodes)
      (named : h.key node = stop) (above : Descends h start (h.parent node) path) :
      Descends h start stop (node :: path)

/-- A node that a descent from a key leads to. -/
def Below (h : Hierarchy Node Key) (start : Key) (node : Node) : Prop :=
  node ∈ h.nodes ∧ ∃ path, h.Descends start (h.parent node) path

/-- A node or one below it. -/
def Under (h : Hierarchy Node Key) (top node : Node) : Prop :=
  node = top ∨ h.Below (h.key top) node

/-- Nodes of one key are one. -/
theorem eq_of_key {node other : Node} (member : node ∈ h.nodes) (otherMember : other ∈ h.nodes)
    (same : h.key node = h.key other) : node = other :=
  List.inj_on_of_nodup_map h.distinct member otherMember same

namespace Descends

theorem trans {start middle stop : Key} {path rest : List Node}
    (first : h.Descends start middle path) (second : h.Descends middle stop rest) :
    h.Descends start stop (rest ++ path) := by
  induction second with
  | here => exact first
  | child member named above ih => exact child member named ih

/-- There is one way from the root to a key. -/
theorem unique {stop : Key} {path other : List Node} (descends : h.Descends h.root stop path)
    (otherDescends : h.Descends h.root stop other) : path = other := by
  induction descends generalizing other with
  | here =>
      cases otherDescends with
      | here => rfl
      | child member named above => exact absurd named (h.foreign _ member)
  | child member named above ih =>
      cases otherDescends with
      | here => exact absurd named (h.foreign _ member)
      | child otherMember otherNamed otherAbove =>
          obtain rfl := eq_of_key member otherMember (named.trans otherNamed.symm)
          rw [ih otherAbove]

/-- A descent goes on from each of its nodes. -/
theorem split {start stop : Key} {before after : List Node} {node : Node}
    (descends : h.Descends start stop (before ++ node :: after)) :
    h.Descends start (h.parent node) after := by
  induction before generalizing stop with
  | nil =>
      cases descends with
      | child member named above => exact above
  | cons first before ih =>
      cases descends with
      | child member named above => exact ih above

/-- A descent from the root meets no node twice. -/
theorem nodup {stop : Key} {path : List Node} (descends : h.Descends h.root stop path) :
    path.Nodup := by
  induction descends with
  | here => exact List.nodup_nil
  | @child node stop path member named above ih =>
      apply List.nodup_cons.mpr
      refine ⟨fun again => ?_, ih⟩
      obtain ⟨before, after, rfl⟩ := List.append_of_mem again
      have lengths := congrArg List.length (above.unique above.split)
      rw [List.length_append, List.length_cons] at lengths
      omega

/-- A descent meets nodes of the hierarchy. -/
theorem subset {start stop : Key} {path : List Node} (descends : h.Descends start stop path) :
    path ⊆ h.nodes := by
  induction descends with
  | here => exact List.nil_subset _
  | child member named above ih => exact List.cons_subset.mpr ⟨member, ih⟩

/-- **A descent** from the root is no longer than there are nodes. -/
theorem length_le {stop : Key} {path : List Node} (descends : h.Descends h.root stop path) :
    path.length ≤ h.nodes.length :=
  (descends.nodup.subperm descends.subset).length_le

end Descends

/-- A child is below its parent. -/
theorem Below.child {start : Key} {node : Node} (member : node ∈ h.nodes)
    (named : h.parent node = start) : h.Below start node := by
  subst named
  exact ⟨member, [], Descends.here⟩

/-- Below what is below. -/
theorem Below.trans {start : Key} {middle node : Node} (first : h.Below start middle)
    (second : h.Below (h.key middle) node) : h.Below start node := by
  obtain ⟨member, path, above⟩ := first
  obtain ⟨otherMember, rest, below⟩ := second
  exact ⟨otherMember, _, (Descends.child member rfl above).trans below⟩

/-- A node is below a key when it is a child there or below one. -/
theorem below_iff {start : Key} {node : Node} :
    h.Below start node ↔ ∃ top ∈ h.nodes, h.parent top = start ∧ h.Under top node := by
  constructor
  · intro below
    obtain ⟨member, path, above⟩ := below
    generalize ends : h.parent node = stop at above
    induction above generalizing node with
    | here => exact ⟨node, member, ends, Or.inl rfl⟩
    | child middleMember named above ih =>
        obtain ⟨top, topMember, child, under⟩ := ih middleMember rfl
        have last := Below.child member (ends.trans named.symm)
        refine ⟨top, topMember, child, Or.inr ?_⟩
        rcases under with rfl | below
        · exact last
        · exact below.trans last
  · intro child
    obtain ⟨top, topMember, rfl, rfl | below⟩ := child
    · exact Below.child topMember rfl
    · exact (Below.child topMember rfl).trans below

/-- Under a node there are nodes of the hierarchy. -/
theorem Under.mem {top node : Node} (under : h.Under top node) (member : top ∈ h.nodes) :
    node ∈ h.nodes := by
  rcases under with rfl | below
  · exact member
  · exact below.1

/-- From the root down to a node, through the one it is under. -/
theorem Under.descends {top node : Node} {path : List Node} (under : h.Under top node)
    (member : top ∈ h.nodes) (above : h.Descends h.root (h.parent top) path) :
    ∃ rest, h.Descends h.root (h.key node) (rest ++ top :: path) := by
  have first := Descends.child member rfl above
  rcases under with rfl | ⟨nodeMember, rest, below⟩
  · exact ⟨[], first⟩
  · exact ⟨node :: rest, first.trans (Descends.child nodeMember rfl below)⟩

/-- What is below two children of one key is below one child. -/
theorem Under.unique {top other node : Node} {path : List Node} (under : h.Under top node)
    (otherUnder : h.Under other node) (member : top ∈ h.nodes) (otherMember : other ∈ h.nodes)
    (above : h.Descends h.root (h.parent top) path) (siblings : h.parent other = h.parent top) :
    top = other := by
  obtain ⟨rest, down⟩ := under.descends member above
  obtain ⟨otherRest, otherDown⟩ := otherUnder.descends otherMember (siblings ▸ above)
  exact (List.cons.inj (List.append_inj_right' (down.unique otherDown) rfl)).1

/-- No node below the root is below itself. -/
theorem not_below_self {node : Node} {path : List Node} (member : node ∈ h.nodes)
    (above : h.Descends h.root (h.parent node) path) : ¬ h.Below (h.key node) node := by
  intro below
  obtain ⟨-, rest, below⟩ := below
  have again := (Descends.child member rfl above).trans (Descends.child member rfl below)
  have lengths := congrArg List.length (again.unique (Descends.child member rfl above))
  rw [List.length_append, List.length_cons, List.length_cons] at lengths
  omega

/-- **Every node** is below the root where parents exist and no node is below itself. -/
theorem below_root (parents : ∀ node ∈ h.nodes,
      h.parent node = h.root ∨ ∃ above ∈ h.nodes, h.key above = h.parent node)
    (acyclic : ∀ node ∈ h.nodes, ¬ h.Below (h.key node) node) :
    ∀ node ∈ h.nodes, h.Below h.root node := by
  let Over (above node : { node // node ∈ h.nodes }) : Prop := h.Below (h.key above) node
  have : IsTrans _ Over := ⟨fun _ _ _ first second => first.trans second⟩
  have : Std.Irrefl Over := ⟨fun node => acyclic node node.2⟩
  have : Finite { node // node ∈ h.nodes } := (List.finite_toSet h.nodes).to_subtype
  have grounded := Finite.wellFounded_of_trans_of_irrefl Over
  intro node member
  have all : ∀ node : { node // node ∈ h.nodes }, h.Below h.root node := by
    intro node
    induction node using grounded.induction with
    | _ node ih =>
        rcases parents node node.2 with top | ⟨above, aboveMember, named⟩
        · exact Below.child node.2 top
        · have child := Below.child node.2 named.symm
          exact (ih ⟨above, aboveMember⟩ child).trans child
  exact all ⟨node, member⟩

end Hierarchy

end Foundation
