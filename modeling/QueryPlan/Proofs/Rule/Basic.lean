import QueryPlan.Proofs.Edit
import QueryPlan.Rule.Basic

/-!
# Results of rules on trees

A rule that is applied at the top of a branch of a tree either leaves the plan alone or installs
another branch, in whose place it reports the new uppermost node.

Main results:

- Definition `RuleResult.Installs`: what a rule reports after it has put a branch into a context.
- Theorem `Plan.Has.isFilterOverJoin_eq`: the pattern of a filter above a join, read off a tree.
-/

namespace QueryPlan

/-- The result of a rule that changed the plan `p`: the branch `s` now stands in the context `c`, and
its uppermost node is the one reported. -/
structure RuleResult.Installs (res : RuleResult) (p : Plan) (c : Context) (s : Branch)
    (rest : NodeId → Option Node) : Prop where
  node_eq : res.node = s.top
  changed_eq : res.changed = true
  shows : res.plan.Shows (c.plug s) rest
  size_le : p.nodes.size ≤ res.plan.nodes.size

/-- A plan that shows the new branch in the context, reported at its top, installs this branch. -/
theorem RuleResult.Installs.replaced {p q : Plan} {c : Context} {s : Branch}
    {rest : NodeId → Option Node} (h : q.Shows (c.plug s) rest)
    (hsize : p.nodes.size ≤ q.nodes.size) :
    (RuleResult.replaced q s.top).Installs p c s rest :=
  ⟨rfl, rfl, h, hsize⟩

namespace Label

/-- The only child of a node. -/
@[simp]
theorem onlyChild?_node_singleton (l : Label) (parent : Option NodeId) (child : NodeId) :
    (l.node parent [child]).onlyChild? = some child :=
  rfl

/-- A node has an only child if it has exactly one branch, namely the top of this branch. -/
theorem onlyChild?_node_map_top (l : Label) (parent : Option NodeId) (bs : List Branch) :
    (l.node parent (bs.map Branch.top)).onlyChild? =
      match bs with
      | [b] => some b.top
      | _ => none := by
  match bs with
  | [] => rfl
  | [_] => rfl
  | _ :: _ :: _ => rfl

end Label

namespace Branch

/-- Whether the branch is a filter whose only branch is a join. -/
def isFilterOverJoin : Branch → Bool
  | .node _ l [j] => l.kind == .filter && j.kind == .join
  | _ => false

end Branch

namespace Plan.Has

variable {p : Plan} {parent : Option NodeId} {b : Branch}

/-- Whether a node is a filter above a join is read off its branch. -/
theorem isFilterOverJoin_eq (h : p.Has parent b) :
    p.isFilterOverJoin b.top = .ok b.isFilterOverJoin := by
  obtain ⟨id, l, bs⟩ := b
  rw [isFilterOverJoin, h.node_top, ok_bind, Branch.label_node, Branch.branches_node,
    Label.onlyChild?_node_map_top, Label.node_kind]
  match bs with
  | [] => cases l.kind <;> rfl
  | [j] =>
    have hj := (h.branch (List.mem_singleton.2 rfl)).node_top
    cases hl : l.kind
    case filter =>
      simp only [hj, ok_bind, pure_eq_ok, Label.node_kind, Branch.isFilterOverJoin, hl, beq_self_eq_true,
        Bool.true_and]
      rfl
    all_goals
      simp only [pure_eq_ok, Branch.isFilterOverJoin, hl]
      rfl
  | _ :: _ :: _ => cases l.kind <;> rfl

end Plan.Has

end QueryPlan
