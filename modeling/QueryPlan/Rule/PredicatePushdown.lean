import QueryPlan.Rule.Basic

/-!
# Predicate pushdown

A filter above a join moves below it, onto the one branch that scans every table the filter refers
to, so that rows are dropped before they are joined.  The other branches stay as they are.
-/

namespace QueryPlan.PredicatePushdown

/-- The rule is tried at filters above a join. -/
def isAnchor (p : Plan) (id : NodeId) : Except Plan.Fault Bool :=
  p.isFilterOverJoin id

/-- The branches of a join that scan all the given tables, with the tables each one scans. -/
def servingBranches (p : Plan) (branches : List NodeId) (tables : AliasSet) :
    Except Plan.Fault (List (NodeId × AliasSet)) := do
  let scanned ← branches.mapM fun branch => return (branch, ← p.reachable branch)
  return scanned.filter (tables.subset ·.2)

/-- Moves a filter below the join under it if exactly one branch serves it.  The filter keeps of its
scope what the branch scans, and all that it refers to. -/
def apply (p : Plan) (id : NodeId) : Except Plan.Fault RuleResult := do
  let n ← p.node id
  match n.op, n.onlyChild? with
  | .filter f, some join =>
    let j ← p.node join
    if j.kind != .join || f.tables.isEmpty then return .unchanged p id
    match ← servingBranches p j.children f.tables with
    | [(branch, reachable)] =>
      let p ← p.replace id join
      let p ← p.placeAbove id branch
      let p ← p.setScope id ((n.scope.inter reachable).union f.tables)
      return .replaced p join
    | _ => return .unchanged p id
  | _, _ => return .unchanged p id

end QueryPlan.PredicatePushdown
