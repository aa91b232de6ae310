import Mathlib.Data.List.Nodup
import QueryPlan.Plan.Structure
import QueryPlan.Proofs.Walk

/-!
# Links that agree

The first part of validation looks at every node by itself.  It finds no fault exactly when the links
of all nodes agree in both directions and no list of children repeats a node.

Main results:

- Definition `Plan.Agree`: the links of a plan agree.
- Theorem `Plan.linkErrors_eq_nil_iff`: this is what is checked.
-/

namespace QueryPlan.Plan

variable {p : Plan} {root : NodeId}

/-- Every child records the node that lists it, and no list repeats a child. -/
structure Owned (p : Plan) : Prop where
  child : ∀ {x n}, p.get? x = some n → ∀ y ∈ n.children, ∃ m, p.get? y = some m ∧ m.parent = some x
  nodup : ∀ {x n}, p.get? x = some n → n.children.Nodup

/-- Moreover, a node that records a parent is listed by it. -/
structure Mutual (p : Plan) : Prop extends Owned p where
  parent : ∀ {x n}, p.get? x = some n → ∀ y, n.parent = some y → ∃ m, p.get? y = some m ∧
    x ∈ m.children

/-- The links of all nodes agree: a child records the node that lists it, a node is listed by the
parent it records, only the root records none, and no child is listed twice. -/
structure Agree (p : Plan) (root : NodeId) : Prop extends Mutual p where
  root_of_none : ∀ {x n}, p.get? x = some n → n.parent = none → x = root
  none_of_root : ∀ {n}, p.get? root = some n → n.parent = none

/-- The nodes that are listed are those the store holds, each with its position. -/
@[simp]
theorem mem_live {x : NodeId} {n : Node} : (x, n) ∈ p.live ↔ p.get? x = some n := by
  rw [live, List.mem_filterMap]
  constructor
  · rintro ⟨y, -, hy⟩
    obtain ⟨m, hm, heq⟩ := Option.map_eq_some_iff.1 hy
    obtain ⟨rfl, rfl⟩ := Prod.mk.inj heq
    exact hm
  · intro h
    exact ⟨x, List.mem_range.2 (lt_size_of_get? h), by rw [h]; rfl⟩

/-- The nodes are listed at different positions. -/
theorem pairwise_live : p.live.Pairwise fun e e' => e.1 ≠ e'.1 := by
  rw [live, List.pairwise_filterMap]
  refine List.Pairwise.imp ?_ (List.nodup_range (n := p.nodes.size))
  intro x y hxy e he e' he'
  obtain ⟨n, -, rfl⟩ := Option.map_eq_some_iff.1 he
  obtain ⟨m, -, rfl⟩ := Option.map_eq_some_iff.1 he'
  exact hxy

/-- The link of the root is in order if the root records no parent. -/
theorem rootLinkErrors_eq_nil_iff {n : Node} : rootLinkErrors root n = [] ↔ n.parent = none := by
  unfold rootLinkErrors
  cases n.parent <;> simp

/-- The link to a child is in order if the child exists and records the node as its parent. -/
theorem childLinkError?_eq_none_iff {x y : NodeId} :
    p.childLinkError? x y = none ↔ ∃ m, p.get? y = some m ∧ m.parent = some x := by
  unfold childLinkError?
  cases p.get? y <;> simp

/-- The link to a parent is in order if the parent lists the node, or if there is none and the node
is the root. -/
theorem parentLinkError?_eq_none_iff {x : NodeId} {n : Node} :
    p.parentLinkError? root x n = none ↔
      (∀ y, n.parent = some y → ∃ m, p.get? y = some m ∧ x ∈ m.children) ∧
        (n.parent = none → x = root) := by
  unfold parentLinkError?
  cases n.parent with
  | none => simp
  | some y => simp [Option.any_eq_true]

/-- The links of a node are in order if those to its children and the one to its parent are. -/
theorem nodeLinkErrors_eq_nil_iff {x : NodeId} {n : Node} :
    p.nodeLinkErrors root x n = [] ↔
      (∀ y ∈ n.children, ∃ m, p.get? y = some m ∧ m.parent = some x) ∧
        (∀ y, n.parent = some y → ∃ m, p.get? y = some m ∧ x ∈ m.children) ∧
          (n.parent = none → x = root) := by
  rw [nodeLinkErrors, List.append_eq_nil_iff, List.filterMap_eq_nil_iff,
    Option.toList_eq_nil_iff, parentLinkError?_eq_none_iff]
  simp only [childLinkError?_eq_none_iff]

/-- The ownership of nodes is in order if no node is listed as a child twice. -/
theorem ownershipErrors_eq_nil_iff : p.ownershipErrors = [] ↔ p.listedChildren.Nodup := by
  rw [ownershipErrors, List.filterMap_eq_nil_iff, List.nodup_iff_count_le_one]
  constructor
  · intro h x
    by_contra hx
    have hmem : x ∈ p.listedChildren := List.count_pos_iff.1 (by omega)
    have hx' := h x (List.mem_mergeSort.2 (List.mem_eraseDups.2 hmem))
    rw [if_pos (by omega)] at hx'
    exact absurd hx' (Option.some_ne_none _)
  · intro h x _
    exact if_neg (Nat.not_lt.2 (h x))

/-- A child that records the one node that lists it is listed by no other node. -/
theorem listedChildren_nodup_iff
    (hchild : ∀ {x n}, p.get? x = some n → ∀ y ∈ n.children,
      ∃ m, p.get? y = some m ∧ m.parent = some x) :
    p.listedChildren.Nodup ↔ ∀ x n, p.get? x = some n → n.children.Nodup := by
  rw [listedChildren, List.nodup_flatMap]
  constructor
  · rintro ⟨h, -⟩ x n hx
    exact h (x, n) (mem_live.2 hx)
  · intro h
    refine ⟨fun e he => h e.1 e.2 (mem_live.1 he), ?_⟩
    refine List.Pairwise.imp_of_mem ?_ pairwise_live
    intro e e' he he' hne y hy hy'
    obtain ⟨m, hm, hparent⟩ := hchild (mem_live.1 he) y hy
    obtain ⟨m', hm', hparent'⟩ := hchild (mem_live.1 he') y hy'
    rw [hm] at hm'
    obtain rfl := Option.some.inj hm'
    rw [hparent] at hparent'
    exact hne (Option.some.inj hparent')

/-- What is checked of the links of a plan is that they agree. -/
theorem linkErrors_eq_nil_iff {n : Node} (hroot : p.get? root = some n) :
    p.linkErrors root n = [] ↔ p.Agree root := by
  rw [linkErrors, List.append_eq_nil_iff, List.append_eq_nil_iff, rootLinkErrors_eq_nil_iff,
    List.flatMap_eq_nil_iff, ownershipErrors_eq_nil_iff]
  constructor
  · rintro ⟨⟨hnone, hlinks⟩, hlisted⟩
    have hnode : ∀ {x n}, p.get? x = some n → p.nodeLinkErrors root x n = [] :=
      fun {x n} hx => hlinks (x, n) (mem_live.2 hx)
    have hchild : ∀ {x n}, p.get? x = some n → ∀ y ∈ n.children,
        ∃ m, p.get? y = some m ∧ m.parent = some x :=
      fun hx => (nodeLinkErrors_eq_nil_iff.1 (hnode hx)).1
    exact
      { child := hchild
        parent := fun hx => (nodeLinkErrors_eq_nil_iff.1 (hnode hx)).2.1
        root_of_none := fun hx => (nodeLinkErrors_eq_nil_iff.1 (hnode hx)).2.2
        none_of_root := fun hx => by
          rw [hroot] at hx
          exact Option.some.inj hx ▸ hnone
        nodup := fun hx => (listedChildren_nodup_iff hchild).1 hlisted _ _ hx }
  · intro h
    refine ⟨⟨h.none_of_root hroot, fun e he => ?_⟩, ?_⟩
    · have hx := mem_live.1 he
      exact nodeLinkErrors_eq_nil_iff.2 ⟨h.child hx, h.parent hx, h.root_of_none hx⟩
    · exact (listedChildren_nodup_iff h.child).2 fun x n hx => h.nodup hx

end QueryPlan.Plan
