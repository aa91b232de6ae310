import Mathlib.Data.List.Basic
import Mathlib.Data.List.Forall2
import Mathlib.Data.List.Perm.Basic
import Mathlib.Tactic.Common
import QueryPlan.Plan.Walk

/-!
# Branches as trees

A plan is a store of nodes that refer to each other by position.  The proofs look at a sound plan as
a tree: a branch is a node together with the branches below it.  What such a tree says about the
store is the list of its entries, one node with its links for each position.

Main results:

- Theorem `Branch.map_fst_entries`: the entries of a branch stand at its positions.
- Theorem `Branch.height_le_length_ids`: a branch is at most as high as it has nodes.
- Theorem `Branch.scans_eq_filterMap`: the scanned tables, read off the entries.
-/

namespace QueryPlan

/-- What holds of all members of a list holds of a certain one and of all others. -/
theorem forall_mem_middle {α : Type} {P : α → Prop} {left right : List α} {a : α} :
    (∀ x ∈ left ++ a :: right, P x) ↔ (∀ x ∈ left ++ right, P x) ∧ P a := by
  simp only [List.forall_mem_append, List.forall_mem_cons]
  tauto

section Forall₂

variable {α β : Type} {R : α → β → Prop} {l : List α} {l' : List β}

/-- What stands in the second of two related lists is related to something in the first one. -/
theorem exists_mem_of_forall₂ (h : List.Forall₂ R l l') : ∀ b ∈ l', ∃ a ∈ l, R a b := by
  induction h with
  | nil => exact fun b hb => absurd hb List.not_mem_nil
  | @cons a b l l' hab _ ih =>
    refine List.forall_mem_cons.2 ⟨⟨a, List.mem_cons_self, hab⟩, fun b hb => ?_⟩
    obtain ⟨a', ha', hR⟩ := ih b hb
    exact ⟨a', List.mem_cons_of_mem a ha', hR⟩

/-- What stands in the first of two related lists is related to something in the second one. -/
theorem exists_mem_of_forall₂_left (h : List.Forall₂ R l l') : ∀ a ∈ l, ∃ b ∈ l', R a b :=
  exists_mem_of_forall₂ (R := flip R) (List.Forall₂.flip h)

end Forall₂

/-- What a node of a plan says beside its links. -/
structure Label where
  op : Operator
  /-- The tables the node is scoped to. -/
  scope : AliasSet
  /-- Whether the node is known to produce no rows. -/
  vacuous : Bool

namespace Label

/-- The kind of the operator. -/
def kind (l : Label) : Operator.Kind :=
  l.op.kind

/-- The node with a given label and given links. -/
def node (l : Label) (parent : Option NodeId) (children : List NodeId) : Node :=
  ⟨l.op, parent, children, l.scope, l.vacuous⟩

/-- A node has the operator of its label. -/
@[simp]
theorem node_op (l : Label) (parent : Option NodeId) (children : List NodeId) :
    (l.node parent children).op = l.op :=
  rfl

/-- A node is of the kind of its label. -/
@[simp]
theorem node_kind (l : Label) (parent : Option NodeId) (children : List NodeId) :
    (l.node parent children).kind = l.kind :=
  rfl

/-- A node records the parent it is given. -/
@[simp]
theorem node_parent (l : Label) (parent : Option NodeId) (children : List NodeId) :
    (l.node parent children).parent = parent :=
  rfl

/-- A node lists the children it is given. -/
@[simp]
theorem node_children (l : Label) (parent : Option NodeId) (children : List NodeId) :
    (l.node parent children).children = children :=
  rfl

/-- A node has the scope of its label. -/
@[simp]
theorem node_scope (l : Label) (parent : Option NodeId) (children : List NodeId) :
    (l.node parent children).scope = l.scope :=
  rfl

/-- A node has the mark of its label. -/
@[simp]
theorem node_vacuous (l : Label) (parent : Option NodeId) (children : List NodeId) :
    (l.node parent children).vacuous = l.vacuous :=
  rfl

end Label

/-- A node with all below it. -/
inductive Branch where
  | node (id : NodeId) (label : Label) (branches : List Branch)

namespace Branch

/-- The position of the uppermost node. -/
def top : Branch → NodeId
  | .node id _ _ => id

/-- What the uppermost node says. -/
def label : Branch → Label
  | .node _ label _ => label

/-- The branches below the uppermost node. -/
def branches : Branch → List Branch
  | .node _ _ branches => branches

/-- The kind of the uppermost node. -/
def kind (b : Branch) : Operator.Kind :=
  b.label.kind

/-- The positions of all nodes, in preorder. -/
def ids : Branch → List NodeId
  | .node id _ branches => id :: branches.flatMap ids

/-- The number of nodes on the longest way down. -/
def height : Branch → Nat
  | .node _ _ branches => (branches.map height).foldr max 0 + 1

/-- The tables scanned, in preorder and with repetitions. -/
def scans : Branch → List String
  | .node _ label branches => label.op.scannedTable?.toList ++ branches.flatMap scans

/-- The set of the tables scanned. -/
def tables (b : Branch) : AliasSet :=
  AliasSet.ofList b.scans

/-- The nodes at the positions of the branch when its uppermost node records the given parent. -/
def entries (parent : Option NodeId) : Branch → List (NodeId × Node)
  | .node id label branches =>
    (id, label.node parent (branches.map top)) :: branches.flatMap (entries (some id))

/-- The nodes below the uppermost one. -/
def entriesBelow (b : Branch) : List (NodeId × Node) :=
  b.branches.flatMap (entries (some b.top))

/-- Induction over a branch: a property holds of a branch if it follows from the same property of
all branches directly below. -/
@[elab_as_elim, induction_eliminator]
theorem induct {motive : Branch → Prop}
    (node : ∀ id label branches, (∀ b ∈ branches, motive b) → motive (.node id label branches))
    (b : Branch) : motive b :=
  ids.induct motive node b

/-! ## One node at a time -/

section Node

variable (id : NodeId) (l : Label) (bs : List Branch)

/-- The top of a branch is its uppermost position. -/
@[simp]
theorem top_node : (node id l bs).top = id :=
  rfl

/-- The label of a branch is that of its uppermost node. -/
@[simp]
theorem label_node : (node id l bs).label = l :=
  rfl

/-- The branches of a branch are those directly below its uppermost node. -/
@[simp]
theorem branches_node : (node id l bs).branches = bs :=
  rfl

/-- A branch is of the kind of its uppermost label. -/
@[simp]
theorem kind_node : (node id l bs).kind = l.kind :=
  rfl

/-- The positions of a branch are its top and then those of the branches below. -/
@[simp]
theorem ids_node : (node id l bs).ids = id :: bs.flatMap ids := by
  rw [ids]

/-- A branch is higher by one than the highest of the branches below. -/
@[simp]
theorem height_node : (node id l bs).height = (bs.map height).foldr max 0 + 1 := by
  rw [height]

/-- A branch scans what its uppermost node scans and then what the branches below scan. -/
@[simp]
theorem scans_node : (node id l bs).scans = l.op.scannedTable?.toList ++ bs.flatMap scans := by
  rw [scans]

/-- The entries of a branch are its uppermost node and then those of the branches below. -/
@[simp]
theorem entries_node (parent : Option NodeId) :
    (node id l bs).entries parent =
      (id, l.node parent (bs.map top)) :: bs.flatMap (entries (some id)) := by
  rw [entries]

/-- The entries below the top are those of the branches below, which record it as their parent. -/
@[simp]
theorem entriesBelow_node : (node id l bs).entriesBelow = bs.flatMap (entries (some id)) :=
  rfl

end Node

/-- Only the first entry of a branch depends on the parent. -/
theorem entries_eq_cons (parent : Option NodeId) (b : Branch) :
    b.entries parent = (b.top, b.label.node parent (b.branches.map top)) :: b.entriesBelow := by
  cases b
  simp

/-- The top of a branch is one of its positions. -/
@[simp]
theorem top_mem_ids (b : Branch) : b.top ∈ b.ids := by
  cases b
  simp

/-- The entries of a branch stand at its positions, in preorder. -/
@[simp]
theorem map_fst_entries (parent : Option NodeId) (b : Branch) :
    (b.entries parent).map Prod.fst = b.ids := by
  induction b generalizing parent with
  | node id l bs ih =>
    simp only [entries_node, ids_node, List.map_cons, List.map_flatMap]
    rw [List.flatMap_congr fun b hb => ih b hb (some id)]

/-- The positions of several branches are those of their entries. -/
@[simp]
theorem map_fst_flatMap_entries (parent : Option NodeId) (bs : List Branch) :
    (bs.flatMap (entries parent)).map Prod.fst = bs.flatMap ids := by
  simp [List.map_flatMap]

/-- The positions of one of several branches are a sublist of those of all. -/
theorem ids_sublist_of_mem {b : Branch} {bs : List Branch} (hb : b ∈ bs) :
    b.ids.Sublist (bs.flatMap ids) := by
  rw [List.flatMap_def]
  exact List.sublist_flatten_of_mem (List.mem_map_of_mem hb)

/-- The tops of branches are among their positions. -/
theorem map_top_sublist (bs : List Branch) : (bs.map top).Sublist (bs.flatMap ids) := by
  induction bs with
  | nil => exact .refl _
  | cons b bs ih =>
    rw [List.map_cons, List.flatMap_cons, ← List.singleton_append]
    exact (List.singleton_sublist.2 b.top_mem_ids).append ih

/-- A branch has at least one level. -/
theorem height_pos (b : Branch) : 0 < b.height := by
  cases b
  simp

/-- A number is at most the greatest of the numbers it is one of. -/
theorem le_foldr_max {m : Nat} {ns : List Nat} (h : m ∈ ns) : m ≤ ns.foldr max 0 := by
  induction ns with
  | nil => exact absurd h List.not_mem_nil
  | cons n ns ih =>
    rw [List.foldr_cons]
    rcases List.mem_cons.1 h with rfl | h
    · exact Nat.le_max_left _ _
    · exact Nat.le_trans (ih h) (Nat.le_max_right _ _)

/-- A bound for all numbers is a bound for the greatest of them. -/
theorem foldr_max_le {m : Nat} {ns : List Nat} (h : ∀ n ∈ ns, n ≤ m) : ns.foldr max 0 ≤ m := by
  induction ns with
  | nil => exact Nat.zero_le m
  | cons n ns ih =>
    rw [List.foldr_cons]
    exact Nat.max_le.2 ⟨h n List.mem_cons_self, ih fun k hk => h k (List.mem_cons_of_mem n hk)⟩

/-- A branch is higher than each branch directly below it. -/
theorem height_lt_of_mem (id : NodeId) (l : Label) {bs : List Branch} {b : Branch} (hb : b ∈ bs) :
    b.height < (node id l bs).height := by
  rw [height_node, Nat.lt_succ_iff]
  exact le_foldr_max (List.mem_map_of_mem hb)

/-- A bound for the height of a node is a bound for the branches below it. -/
theorem height_node_le {id : NodeId} {l : Label} {bs : List Branch} {n : Nat}
    (h : ∀ b ∈ bs, b.height ≤ n) : (node id l bs).height ≤ n + 1 := by
  rw [height_node, Nat.add_le_add_iff_right]
  apply foldr_max_le
  intro m hm
  obtain ⟨b, hb, rfl⟩ := List.mem_map.1 hm
  exact h b hb

/-- A branch is at most as high as it has nodes. -/
theorem height_le_length_ids (b : Branch) : b.height ≤ b.ids.length := by
  induction b with
  | node id l bs ih =>
    rw [ids_node, List.length_cons]
    apply height_node_le
    intro b hb
    exact Nat.le_trans (ih b hb) (ids_sublist_of_mem hb).length_le

/-- The scanned tables are read off the entries of a branch. -/
theorem scans_eq_filterMap (parent : Option NodeId) (b : Branch) :
    b.scans = (b.entries parent).filterMap fun e => e.2.op.scannedTable? := by
  induction b generalizing parent with
  | node id l bs ih =>
    simp only [entries_node, scans_node, List.filterMap_cons, List.filterMap_flatMap]
    rw [List.flatMap_congr fun b hb => ih b hb (some id)]
    cases h : l.op.scannedTable? <;> simp [h]

/-- Branches that scan the same tables one by one scan the same tables together. -/
theorem flatMap_scans_congr {bs bs' : List Branch}
    (h : List.Forall₂ (fun b b' => b'.scans = b.scans) bs bs') :
    bs'.flatMap scans = bs.flatMap scans := by
  induction h with
  | nil => rfl
  | cons hb _ ih => rw [List.flatMap_cons, List.flatMap_cons, hb, ih]

/-- The tables of a branch are the one its uppermost node scans and those of the branches below. -/
theorem mem_tables_node {id : NodeId} {l : Label} {bs : List Branch} {a : String} :
    a ∈ (node id l bs).tables ↔ l.op.scannedTable? = some a ∨ ∃ b ∈ bs, a ∈ b.tables := by
  simp [tables]

end Branch

end QueryPlan
