import QueryPlan.Plan.Basic
import QueryPlan.Text.Outline

/-!
# Walking a plan

Walks go from a node down along the lists of children, a node before its children and the children
in branch order.  A walk fails at the first position that holds no node.  It also fails when it gets
deeper than the plan has nodes, which happens on a cycle only.
-/

namespace QueryPlan.Plan

/-- The nodes below and including `id`, down to a limited depth. -/
def preorderWithin (p : Plan) : Nat → NodeId → Except Fault (List NodeId)
  | 0, id => .error (.endless id)
  | depth + 1, id => do
    let n ← p.node id
    let below ← n.children.mapM (p.preorderWithin depth)
    return id :: below.flatten

/-- The nodes of the branch at `id`, parents before children and siblings in branch order. -/
def preorder (p : Plan) (id : NodeId) : Except Fault (List NodeId) :=
  p.preorderWithin p.walkLimit id

/-- The tables scanned in the branch at `id`, in preorder and with repetitions. -/
def scannedTables (p : Plan) (id : NodeId) : Except Fault (List String) := do
  let ids ← p.preorder id
  return ids.filterMap fun x => (p.get? x).bind (·.op.scannedTable?)

/-- The set of the tables scanned in the branch at `id`. -/
def reachable (p : Plan) (id : NodeId) : Except Fault AliasSet :=
  AliasSet.ofList <$> p.scannedTables id

/-- The outline of the branch at `id`, down to a limited depth. -/
def outlineWithin (p : Plan) : Nat → NodeId → Except Fault Text.Outline
  | 0, id => .error (.endless id)
  | depth + 1, id => do
    let n ← p.node id
    let below ← n.children.mapM (p.outlineWithin depth)
    let remark := if n.vacuous then some "no rows" else none
    return .entry (n.op.text ++ " " ++ n.scope.text) remark below

/-- The drawing of the branch at `id`: each node with its scope, and a remark if it is known to
produce no rows. -/
def explainAt (p : Plan) (id : NodeId) : Except Fault String :=
  Text.Outline.render <$> p.outlineWithin p.walkLimit id

/-- The drawing of the whole plan; nothing if it has no root. -/
def explain (p : Plan) : Except Fault String :=
  match p.root with
  | none => .ok ""
  | some root => p.explainAt root

end QueryPlan.Plan
