import QueryPlan.Rule.Basic

/-!
# Projection pushdown

Two rules narrow the columns carried below a projection.  Below a join, every branch is projected to
the columns of the join's condition and those the projection keeps.  Below a filter, the branch is
projected to the columns the filter needs and those the projection keeps.
-/

namespace QueryPlan.ProjectionPushdown

/-- Whether a node is a projection whose only child is of the given kind and may produce rows. -/
def isOver (p : Plan) (id : NodeId) (kind : Operator.Kind) : Except Plan.Fault Bool := do
  let n ← p.node id
  match n.kind, n.onlyChild? with
  | .projection, some child =>
    let c ← p.node child
    return c.kind == kind && !c.vacuous
  | _, _ => return false

/-- Narrows what the branch at `id` produces to the columns in `needed` and tells whether this
changed the plan.  A projection that is there already is narrowed in place.  Nothing happens if no
column is needed, or none of those the projection has. -/
def narrow (p : Plan) (id : NodeId) (needed : ColumnSet) : Except Plan.Fault (Bool × Plan) := do
  if needed.isEmpty then return (false, p)
  match (p.get? id).bind (·.op.projection?) with
  | some present =>
    let narrowed := present.inter needed
    if narrowed.isEmpty || narrowed.size == present.size then return (false, p)
    return (true, p.setOp id (.projection narrowed))
  | none =>
    let (_, p) ← p.insertAbove id (.projection needed)
    return (true, p)

namespace BelowJoin

/-- The rule is tried at projections above a join. -/
def isAnchor (p : Plan) (id : NodeId) : Except Plan.Fault Bool :=
  isOver p id .join

/-- Goes down from `id`, at most so many steps, past filters that need no column outside `needed`.
A filter above a join is not passed, because it may still move below the join. -/
def passFilters (p : Plan) (needed : ColumnSet) : Nat → NodeId → Except Plan.Fault NodeId
  | 0, id => .error (.endless id)
  | steps + 1, id => do
    let n ← p.node id
    match n.op, n.onlyChild? with
    | .filter f, some child =>
      if n.vacuous then return id
      if (← p.node child).kind == .join || !f.columns.subset needed then return id
      passFilters p needed steps child
    | _, _ => return id

/-- Narrows one more branch of a join, whose condition names certain columns, below a projection to
certain columns.  The state tells whether the plan was changed so far. -/
def narrowBranch (condition columns : ColumnSet) (state : Bool × Plan) (branch : NodeId) :
    Except Plan.Fault (Bool × Plan) := do
  let p := state.2
  let reachable ← p.reachable branch
  let needed := (condition.inTables reachable).union (columns.inTables reachable)
  let target ← passFilters p needed p.walkLimit branch
  let (narrowed, p) ← narrow p target needed
  return (state.1 || narrowed, p)

/-- Narrows every branch of the join below a projection. -/
def apply (p : Plan) (id : NodeId) : Except Plan.Fault RuleResult := do
  let n ← p.node id
  match n.op, n.onlyChild? with
  | .projection columns, some join =>
    let j ← p.node join
    match j.op with
    | .join condition =>
      let (changed, p) ← j.children.foldlM (narrowBranch condition.columns columns) (false, p)
      return ⟨p, id, changed⟩
    | _ => return .unchanged p id
  | _, _ => return .unchanged p id

end BelowJoin

namespace BelowFilter

/-- The rule is tried at projections above a filter. -/
def isAnchor (p : Plan) (id : NodeId) : Except Plan.Fault Bool :=
  isOver p id .filter

/-- Narrows the branch below the filter below a projection. -/
def apply (p : Plan) (id : NodeId) : Except Plan.Fault RuleResult := do
  let n ← p.node id
  match n.op, n.onlyChild? with
  | .projection columns, some filter =>
    let f ← p.node filter
    match f.op, f.onlyChild? with
    | .filter condition, some below =>
      let (changed, p) ← narrow p below (columns.union condition.columns)
      return ⟨p, id, changed⟩
    | _, _ => return .unchanged p id
  | _, _ => return .unchanged p id

end BelowFilter

end QueryPlan.ProjectionPushdown
