import Mathlib.Algebra.GroupWithZero.Nat
import Mathlib.Algebra.Order.BigOperators.Group.List
import Mathlib.Algebra.Order.Group.Nat
import QueryPlan.Proofs.Folding
import QueryPlan.Proofs.Rule.Catalogue

/-!
# Measures of a run

Two quantities bound how long the optimizer works on a plan.  The rounds in which a slot is made
stable grow fewer with each rule that fires there.  The depth of the walk down counts a node twice
when a projection may still be put above it, so that no rule makes a branch deeper.

Main results:

- Theorem `Rule.Rewrites.rounds_lt`: a rule that fires in a slot leaves fewer rounds.
- Theorem `Rule.Rewrites.descent_le`: no rule makes the walk deeper.
- Theorems `Branch.rounds_le` and `Branch.descent_le`: both are linear in the number of nodes.
-/

namespace QueryPlan

namespace Branch

/-- The number of filters with a predicate that folding changes. -/
def unfolded : Branch → Nat
  | .node _ l branches =>
    (if (l.op.filter?.map (·.predicate.fold.2)) = some true then 1 else 0) +
      (branches.map unfolded).sum

/-- How many rules can fire, one after the other, in the slot of the branch. -/
def rounds (b : Branch) : Nat :=
  if b.label.vacuous then 0
  else 2 * b.ids.length + b.unfolded + (if b.kind = .filter then 1 else 0) + 1

/-- How deep the walk down can get, if a projection is put above each node that is no projection and
stands below none; `projected` tells whether the branch stands below a projection. -/
def descent (projected : Bool) : Branch → Nat
  | .node _ l branches =>
    (if projected || l.kind == .projection then 1 else 2) +
      (branches.map (descent (l.kind == .projection))).foldr max 0

section Node

variable (id : NodeId) (l : Label) (bs : List Branch)

/-- A node with branches has the unfolded filters of the branches, and may be one itself. -/
@[simp]
theorem unfolded_node :
    (node id l bs).unfolded =
      (if (l.op.filter?.map (·.predicate.fold.2)) = some true then 1 else 0) +
        (bs.map unfolded).sum := by
  rw [unfolded]

/-- The walk from a node goes one or two levels deeper than the deepest walk from a branch. -/
@[simp]
theorem descent_node (projected : Bool) :
    (node id l bs).descent projected =
      (if projected || l.kind == .projection then 1 else 2) +
        (bs.map (descent (l.kind == .projection))).foldr max 0 := by
  rw [descent]

/-- A node with branches has one position more than the branches together. -/
theorem length_ids_node : (node id l bs).ids.length = (bs.map fun b => b.ids.length).sum + 1 := by
  rw [ids_node, List.length_cons, List.length_flatMap]

end Node

/-- A walk below a projection is not deeper. -/
theorem descent_true_le (b : Branch) : b.descent true ≤ b.descent false := by
  obtain ⟨id, l, bs⟩ := b
  rw [descent_node, descent_node]
  simp only [Bool.true_or, if_true, Bool.false_or]
  split <;> omega

/-- Below a projection or not, a walk is at most as deep as it is below none. -/
theorem descent_le_false (projected : Bool) (b : Branch) :
    b.descent projected ≤ b.descent false := by
  cases projected with
  | true => exact b.descent_true_le
  | false => exact Nat.le_refl _

/-- A walk goes at least as deep as the node from which it starts. -/
theorem descent_pos (projected : Bool) (b : Branch) : 0 < b.descent projected := by
  obtain ⟨id, l, bs⟩ := b
  rw [descent_node]
  split <;> omega

/-- The walk gets less deep on the way down. -/
theorem descent_lt_of_mem (id : NodeId) (l : Label) {bs : List Branch} {b : Branch}
    (hb : b ∈ bs) (projected : Bool) :
    b.descent (l.kind == .projection) < (node id l bs).descent projected := by
  have hle := le_foldr_max (List.mem_map_of_mem (f := descent (l.kind == .projection)) hb)
  rw [descent_node]
  split <;> omega

/-- Branches that are not deeper make no node deeper. -/
theorem descent_node_le (projected : Bool) (id : NodeId) {l l' : Label} {bs bs' : List Branch}
    (hl : l'.kind = l.kind)
    (hbs : List.Forall₂
      (fun b b' => b'.descent (l.kind == .projection) ≤ b.descent (l.kind == .projection)) bs bs') :
    (node id l' bs').descent projected ≤ (node id l bs).descent projected := by
  rw [descent_node, descent_node, hl]
  apply Nat.add_le_add_left
  induction hbs with
  | nil => exact Nat.le_refl _
  | cons hb _ ih =>
    rw [List.map_cons, List.map_cons, List.foldr_cons, List.foldr_cons]
    exact max_le_max hb ih

/-- The walk is at most twice as deep as there are nodes. -/
theorem descent_le (projected : Bool) (b : Branch) : b.descent projected ≤ 2 * b.ids.length := by
  induction b generalizing projected with
  | node id l bs ih =>
    have hmax : (bs.map (descent (l.kind == .projection))).foldr max 0 ≤
        2 * (bs.flatMap ids).length := by
      apply foldr_max_le
      intro n hn
      obtain ⟨b, hb, rfl⟩ := List.mem_map.1 hn
      have hle := (ids_sublist_of_mem hb).length_le
      have hb' := ih b hb (l.kind == .projection)
      omega
    rw [descent_node, ids_node, List.length_cons]
    split <;> omega

/-- There are at most as many unfolded filters as nodes. -/
theorem unfolded_le (b : Branch) : b.unfolded ≤ b.ids.length := by
  induction b with
  | node id l bs ih =>
    rw [unfolded_node, length_ids_node]
    have hsum : (bs.map unfolded).sum ≤ (bs.map fun b => b.ids.length).sum :=
      List.sum_le_sum ih
    split <;> omega

/-- The rounds of a slot are linear in the number of nodes below it. -/
theorem rounds_le (b : Branch) : b.rounds ≤ 3 * b.ids.length + 2 := by
  have hle := b.unfolded_le
  rw [rounds]
  split
  · exact Nat.zero_le _
  · split <;> omega

/-- A bound for the rounds of a branch, whatever stands at its top. -/
theorem rounds_le_of_top (b : Branch) : b.rounds ≤ 2 * b.ids.length + b.unfolded + 2 := by
  rw [rounds]
  split
  · exact Nat.zero_le _
  · split <;> omega

/-- The rounds of a branch that may produce rows. -/
theorem lt_rounds {b : Branch} (hv : b.label.vacuous = false) :
    2 * b.ids.length + b.unfolded < b.rounds := by
  rw [rounds, hv]
  simp only [Bool.false_eq_true, if_false]
  omega

/-- A filter that may produce rows leaves one round more than other nodes do. -/
theorem lt_rounds_filter {b : Branch} (hv : b.label.vacuous = false) (hk : b.kind = .filter) :
    2 * b.ids.length + b.unfolded + 1 < b.rounds := by
  rw [rounds, hv, if_pos hk]
  simp only [Bool.false_eq_true, if_false]
  omega

/-- Marking changes neither the depth nor the positions. -/
theorem descent_mark (projected : Bool) (b : Branch) :
    b.mark.descent projected = b.descent projected := by
  induction b generalizing projected with
  | node id l bs ih =>
    rw [mark_node, descent_node, descent_node, List.map_map]
    have hbelow : bs.map (descent (l.kind == .projection) ∘ mark) =
        bs.map (descent (l.kind == .projection)) :=
      List.map_congr_left fun b hb => ih b hb _
    exact congrArg (fun ns => (if projected || l.kind == .projection then 1 else 2) +
      List.foldr max 0 ns) hbelow

end Branch

namespace PredicatePushdown

/-- A filter that was pushed below a join leaves fewer rounds to its slot. -/
theorem Pushes.rounds_lt {s s' : Branch} (h : Pushes s s') (hv : s.label.vacuous = false) :
    s'.rounds < s.rounds := by
  cases h with
  | @push id join l m f cond left right b hl hm hne hb hothers =>
    have hkind : l.kind = .filter := by rw [Label.kind, hl]; rfl
    have hm' : m.kind = .join := by rw [Label.kind, hm]; rfl
    have hlt := Branch.lt_rounds_filter hv hkind
    rw [Branch.rounds]
    split
    · omega
    · rw [if_neg (by rw [Branch.kind_node, hm']; decide)]
      refine Nat.lt_of_le_of_lt (Nat.le_of_eq ?_) hlt
      simp only [Branch.length_ids_node, Branch.unfolded_node, hm, List.map_append, List.map_cons,
        List.map_nil, List.sum_append, List.sum_cons, List.sum_nil, Operator.filter?]
      omega

/-- A filter that is pushed below a join does not make the walk deeper. -/
theorem Pushes.descent_le {s s' : Branch} (h : Pushes s s') (projected : Bool) :
    s'.descent projected ≤ s.descent projected := by
  cases h with
  | @push id join l m f cond left right b hl hm hne hb hothers =>
    have hl' : (l.kind == Operator.Kind.projection) = false := by rw [Label.kind, hl]; rfl
    have hm' : (m.kind == Operator.Kind.projection) = false := by rw [Label.kind, hm]; rfl
    have hfilter : (Branch.node id
        { l with scope := (l.scope.inter b.tables).union f.tables } [b]).descent false =
          2 + b.descent false := by
      rw [Branch.descent_node]
      simp [show (Label.kind { l with scope := (l.scope.inter b.tables).union f.tables } ==
        Operator.Kind.projection) = false from hl']
    have hbranch : ∀ x ∈ left ++ b :: right, x.descent false ≤
        ((left ++ b :: right).map (Branch.descent false)).foldr max 0 :=
      fun x hx => Branch.le_foldr_max (List.mem_map_of_mem hx)
    rw [Branch.descent_node, Branch.descent_node, hl', hm']
    simp only [List.map_cons, List.map_nil, List.foldr_cons, List.foldr_nil, Nat.max_zero]
    rw [Branch.descent_node, hm']
    simp only [Bool.or_self, Bool.false_eq_true, if_false]
    apply Nat.add_le_add_left
    apply Branch.foldr_max_le
    intro n hn
    obtain ⟨x, hx, rfl⟩ := List.mem_map.1 hn
    rcases List.mem_append.1 hx with hx | hx
    · have hle := hbranch x (List.mem_append_left _ hx)
      omega
    · rcases List.mem_cons.1 hx with rfl | hx
      · have hle := hbranch b (by simp)
        omega
      · have hle := hbranch x (List.mem_append_right _ (List.mem_cons_of_mem _ hx))
        omega

end PredicatePushdown

namespace PredicateSimplification

/-- A filter that was simplified leaves fewer rounds to its slot. -/
theorem Simplifies.rounds_lt {s s' : Branch} (h : Simplifies s s') : s'.rounds < s.rounds := by
  cases h with
  | @remove id l f s hl hv =>
    have hlt := Branch.lt_rounds (b := .node id l [s']) hv
    have hle := s'.rounds_le_of_top
    rw [Branch.length_ids_node, Branch.unfolded_node] at hlt
    simp only [List.map_cons, List.map_nil, List.sum_cons, List.sum_nil] at hlt
    omega
  | @refute id l f bs hl hv =>
    have hlt := Branch.lt_rounds (b := .node id l bs) hv
    rw [Branch.rounds, Branch.mark_node]
    exact Nat.lt_of_le_of_lt (Nat.zero_le _) hlt
  | @fold id l f bs hl hv hverdict hfold =>
    have hkind : l.kind = .filter := by rw [Label.kind, hl]; rfl
    have hlt := Branch.lt_rounds_filter (b := .node id l bs) hv hkind
    refine Nat.lt_of_le_of_lt (Nat.le_trans (Branch.rounds_le_of_top _) ?_) hlt
    simp only [Branch.length_ids_node, Branch.unfolded_node, hl, Operator.filter?,
      Option.map_some, withPredicate_predicate, Expr.fold_fold, hfold, if_true, Option.some.injEq,
      Bool.false_eq_true, if_false]
    omega

/-- Simplifying a filter does not make the walk deeper. -/
theorem Simplifies.descent_le {s s' : Branch} (h : Simplifies s s') (projected : Bool) :
    s'.descent projected ≤ s.descent projected := by
  cases h with
  | @remove id l f s hl hv =>
    have hl' : (l.kind == Operator.Kind.projection) = false := by rw [Label.kind, hl]; rfl
    have hle := s'.descent_le_false projected
    rw [Branch.descent_node, hl']
    simp only [List.map_cons, List.map_nil, List.foldr_cons, List.foldr_nil, Nat.max_zero]
    omega
  | refute hl =>
    rw [Branch.descent_mark, Branch.descent_node, Branch.descent_node]
    simp [Label.kind, hl, Operator.kind]
  | fold hl =>
    rw [Branch.descent_node, Branch.descent_node]
    simp [Label.kind, hl, Operator.kind]

end PredicateSimplification

namespace JoinElimination

/-- The branch that is kept is one of the two branches of the join. -/
theorem Eliminates.measures {c : Context} {s kept : Branch} (h : Eliminates c s kept) :
    kept.ids.length < s.ids.length ∧ kept.unfolded ≤ s.unfolded ∧
      ∀ projected, kept.descent false < s.descent projected := by
  have hsides : ∀ (id : NodeId) (l : Label) {left right kept other : Branch},
      Sides left right kept other → l.op.join?.isSome = true →
        kept.ids.length < (Branch.node id l [left, right]).ids.length ∧
          kept.unfolded ≤ (Branch.node id l [left, right]).unfolded ∧
            ∀ projected, kept.descent false <
              (Branch.node id l [left, right]).descent projected := by
    intro id l left right kept other hside hl
    have hl' : (l.kind == Operator.Kind.projection) = false := by
      rw [Label.kind]
      cases hop : l.op <;> simp_all [Operator.join?, Operator.kind]
    have hmem : kept ∈ [left, right] := hside.mem_iff.2 (.inl rfl)
    refine ⟨?_, ?_, fun projected => ?_⟩
    · rw [Branch.ids_node, List.length_cons, Nat.lt_succ_iff]
      exact (Branch.ids_sublist_of_mem hmem).length_le
    · rw [Branch.unfolded_node]
      have hle := List.single_le_sum (fun n _ => Nat.zero_le n) _
        (List.mem_map_of_mem (f := Branch.unfolded) hmem)
      omega
    · have hlt := Branch.descent_lt_of_mem id l hmem projected
      rwa [hl'] at hlt
  cases h with
  | byJoin hl hside => exact hsides _ _ hside (by rw [hl]; rfl)
  | @byFilter id join l m f j left right kept other foreign key hl hm hside =>
    obtain ⟨hids, hunfolded, hdescent⟩ := hsides join m hside (by rw [hm]; rfl)
    refine ⟨?_, ?_, fun projected => ?_⟩
    · rw [Branch.length_ids_node]
      simp only [List.map_cons, List.map_nil, List.sum_cons, List.sum_nil]
      omega
    · rw [Branch.unfolded_node]
      simp only [List.map_cons, List.map_nil, List.sum_cons, List.sum_nil]
      omega
    · have hlt := Branch.descent_lt_of_mem id l
        (List.mem_singleton.2 (rfl : Branch.node join m [left, right] = _)) projected
      exact Nat.lt_trans (hdescent _) hlt

/-- Eliminating a join leaves fewer rounds to its slot. -/
theorem Eliminates.rounds_lt {c : Context} {s kept : Branch} (h : Eliminates c s kept)
    (hv : s.label.vacuous = false) : kept.rounds < s.rounds := by
  obtain ⟨hids, hunfolded, -⟩ := h.measures
  have hle := kept.rounds_le_of_top
  have hlt := Branch.lt_rounds hv
  omega

end JoinElimination

namespace ProjectionPushdown

/-- A projection above a node makes no difference to the depth: the node counts once less. -/
theorem Narrows.descent_le {needed : ColumnSet} {b b' : Branch} (h : Narrows needed b b') :
    b'.descent false ≤ b.descent false := by
  cases h with
  | inPlace hl =>
    rw [Branch.descent_node, Branch.descent_node]
    simp [Label.kind, hl, Operator.kind]
  | insert fresh hsome hb =>
    obtain ⟨id, l, bs⟩ := b
    have hl' : (l.kind == Operator.Kind.projection) = false := by
      rw [Label.kind]
      cases hop : l.op <;> simp_all [Operator.projection?, Operator.kind]
    rw [Branch.descent_node]
    simp only [Label.kind, Operator.kind, beq_self_eq_true, Bool.or_true, if_true, List.map_cons,
      List.map_nil, List.foldr_cons, List.foldr_nil, Nat.max_zero]
    rw [Branch.descent_node, Branch.descent_node, hl']
    simp only [Bool.true_or, if_true, Bool.or_self, Bool.false_eq_true, if_false]
    omega

namespace BelowJoin

/-- Narrowing a branch below filters does not make the walk deeper than if it stood below no
projection. -/
theorem NarrowsBelow.descent_le {needed : ColumnSet} {b b' : Branch}
    (h : NarrowsBelow needed b b') : b'.descent false ≤ b.descent false := by
  induction h with
  | here h => exact h.descent_le
  | @pass id l f b b' hl hv hjoin hsub hbelow ih =>
    have hl' : (l.kind == Operator.Kind.projection) = false := by rw [Label.kind, hl]; rfl
    refine Branch.descent_node_le _ _ rfl (.cons ?_ .nil)
    rwa [hl']

/-- A projection that is pushed below a join does not make the walk deeper. -/
theorem Pushes.descent_le {s s' : Branch} (h : Pushes s s') (projected : Bool) :
    s'.descent projected ≤ s.descent projected := by
  cases h with
  | @push id join l m columns j bs bs' hl hm hbs =>
    have hm' : (m.kind == Operator.Kind.projection) = false := by rw [Label.kind, hm]; rfl
    refine Branch.descent_node_le _ _ rfl (.cons ?_ .nil)
    refine Branch.descent_node_le _ _ rfl (hbs.imp fun b b' hb => ?_)
    rw [hm']
    rcases hb with ⟨rfl, -⟩ | hb
    · exact Nat.le_refl _
    · exact hb.descent_le

end BelowJoin

/-- A projection that is pushed below a filter does not make the walk deeper. -/
theorem BelowFilter.Pushes.descent_le {s s' : Branch} (h : BelowFilter.Pushes s s')
    (projected : Bool) : s'.descent projected ≤ s.descent projected := by
  cases h with
  | @push id filter l m columns f b b' hl hm hb =>
    have hm' : (m.kind == Operator.Kind.projection) = false := by rw [Label.kind, hm]; rfl
    refine Branch.descent_node_le _ _ rfl (.cons ?_ .nil)
    refine Branch.descent_node_le _ _ rfl (.cons ?_ .nil)
    rw [hm']
    exact hb.descent_le

end ProjectionPushdown

namespace Rule.Rewrites

variable {r : Rule} {c c' : Context} {s s' : Branch}

/-- A rule that fires in a slot leaves fewer rounds. -/
theorem rounds_lt (h : r.Rewrites c s c' s') (hr : r.replacesAnchor = true)
    (hv : s.label.vacuous = false) : s'.rounds < s.rounds := by
  cases h with
  | belowJoin | belowFilter => exact absurd hr Bool.false_ne_true
  | push h => exact h.rounds_lt hv
  | eliminate h => exact h.rounds_lt hv
  | simplify h => exact h.rounds_lt

/-- No rule makes the walk deeper. -/
theorem descent_le (h : r.Rewrites c s c' s') (projected : Bool) :
    s'.descent projected ≤ s.descent projected := by
  cases h with
  | belowJoin h => exact h.descent_le projected
  | belowFilter h => exact h.descent_le projected
  | push h => exact h.descent_le projected
  | eliminate h =>
    exact Nat.le_of_lt (Nat.lt_of_le_of_lt (Branch.descent_le_false ..) (h.measures.2.2 projected))
  | simplify h => exact h.descent_le projected

end Rule.Rewrites

end QueryPlan
