import QueryPlan.Plan.Edit

/-!
# Applying a rule

An optimization rule is applied to a plan at one node, its anchor, the uppermost node of the pattern
that the rule looks for.  The result tells which node took the anchor's place and whether anything
changed.
-/

namespace QueryPlan

/-- The result of applying a rule at a node. -/
structure RuleResult where
  plan : Plan
  /-- The node that occupies the slot in which the anchor was. -/
  node : NodeId
  /-- Whether the rule changed the plan. -/
  changed : Bool
deriving DecidableEq

namespace RuleResult

/-- The rule does not apply at the node. -/
def unchanged (p : Plan) (id : NodeId) : RuleResult :=
  ⟨p, id, false⟩

/-- The rule applied and left the node in the slot of the anchor. -/
def replaced (p : Plan) (id : NodeId) : RuleResult :=
  ⟨p, id, true⟩

end RuleResult

namespace Plan

/-- Whether a node is a filter whose only child is a join. -/
def isFilterOverJoin (p : Plan) (id : NodeId) : Except Fault Bool := do
  let n ← p.node id
  match n.kind, n.onlyChild? with
  | .filter, some child => return (← p.node child).kind == .join
  | _, _ => return false

end Plan

end QueryPlan
