import QueryPlan.Rule.Basic

/-!
# Join elimination

A join of a branch that holds a foreign key with the table the key points to matches every row of
the branch exactly once.  If nothing above reads that table, the join and the table can be dropped.
The foreign key is declared either by the join itself or by a filter above the join whose predicate
is an equality of the foreign column and the key.
-/

namespace QueryPlan

namespace Operator

/-- The columns an operator reads; a filter also reads those of its predicate. -/
def columnsRead (op : Operator) : List Column :=
  op.columns.columns ++ (op.filter?.map (·.predicate.columnList)).getD []

end Operator

namespace Plan

/-- The table scanned by the branch at `id` if the branch is a scan below at most so many
projections. -/
def soleTableWithin (p : Plan) : Nat → NodeId → Except Fault (Option String)
  | 0, id => .error (.endless id)
  | steps + 1, id => do
    let n ← p.node id
    match n.op, n.children with
    | .scan table, _ => return some table
    | .projection _, child :: _ => p.soleTableWithin steps child
    | _, _ => return none

/-- The table scanned by the branch at `id` if the branch is a scan below projections. -/
def soleTable? (p : Plan) (id : NodeId) : Except Fault (Option String) :=
  p.soleTableWithin p.walkLimit id

/-- The nodes met on the way up from a node, at most so many. -/
def upwardWithin (p : Plan) : Nat → Option NodeId → Except Fault (List Node)
  | _, none => .ok []
  | 0, some id => .error (.endless id)
  | steps + 1, some id => do
    let n ← p.node id
    return n :: (← p.upwardWithin steps n.parent)

/-- The ancestors of a node, nearest first. -/
def ancestors (p : Plan) (id : NodeId) : Except Fault (List Node) := do
  p.upwardWithin p.walkLimit (← p.node id).parent

/-- Whether what the plan produces may depend on a table below the node `id`: an ancestor reads one
of its columns, or no ancestor is a projection, so that every column reaches the output. -/
def isReadAbove (p : Plan) (id : NodeId) (table : String) : Except Fault Bool := do
  let above ← p.ancestors id
  return !above.any (·.kind == .projection) ||
    above.any (·.op.columnsRead.any (·.isOf table))

end Plan

namespace JoinElimination

/-- The rule is tried at joins of two branches and at filters above a join. -/
def isAnchor (p : Plan) (id : NodeId) : Except Plan.Fault Bool := do
  let n ← p.node id
  match n.kind with
  | .join => return n.children.length == 2
  | _ => p.isFilterOverJoin id

/-- Whether the condition of a join determines the row of the branch `other` for each row of the
branch `kept`, and nothing above the join needs `other`. -/
def isDetermined (p : Plan) (id : NodeId) (j : Join) (kept other : NodeId) :
    Except Plan.Fault Bool := do
  match ← p.soleTable? other with
  | none => return false
  | some table =>
    let keptColumns := j.columns.inTables (← p.reachable kept)
    let keyColumns := j.columns.inTables (.singleton table)
    if keptColumns.isEmpty || keyColumns.isEmpty || !keptColumns.subset j.foreign then
      return false
    return !(← p.isReadAbove id table)

/-- The branch to keep of a join that declares foreign columns. -/
def keptByJoin? (p : Plan) (id : NodeId) (n : Node) : Except Plan.Fault (Option NodeId) := do
  match n.op, n.children with
  | .join j, [left, right] =>
    if j.foreign.isEmpty then return none
    if ← isDetermined p id j left right then return some left
    if ← isDetermined p id j right left then return some right
    return none
  | _, _ => return none

/-- The foreign column and the key of a filter whose predicate is their equality. -/
def foreignKey? (f : Filter) : Option (Column × Column) :=
  match f.predicate.equatedColumns? with
  | some (left, right) =>
    if f.foreign.contains left then some (left, right)
    else if f.foreign.contains right then some (right, left)
    else none
  | none => none

/-- Of two branches the one to keep, when the other scans the given table. -/
def besideTable? (p : Plan) (table : String) (left right : NodeId) :
    Except Plan.Fault (Option NodeId) := do
  if (← p.soleTable? right) == some table then return some left
  if (← p.soleTable? left) == some table then return some right
  return none

/-- Whether a table has no column but `key` in the given set. -/
def mentionsOnly (columns : ColumnSet) (key : Column) : Bool :=
  (columns.inTables (.singleton key.table)).columns.all (· == key)

/-- The branch to keep of the join below a filter that declares a foreign column.  Only the key may
tie the dropped table to the rest of the plan. -/
def keptByFilter? (p : Plan) (id : NodeId) (n : Node) (f : Filter) :
    Except Plan.Fault (Option NodeId) := do
  match foreignKey? f, n.onlyChild? with
  | some (foreign, key), some join =>
    let m ← p.node join
    match m.op, m.children with
    | .join j, [left, right] =>
      match ← besideTable? p key.table left right with
      | none => return none
      | some kept =>
        if !(← p.reachable kept).contains foreign.table then return none
        if !mentionsOnly j.columns key || !mentionsOnly f.columns key then return none
        if ← p.isReadAbove id key.table then return none
        return some kept
    | _, _ => return none
  | _, _ => return none

/-- The branch that survives the elimination of the join at or below an anchor. -/
def kept? (p : Plan) (id : NodeId) : Except Plan.Fault (Option NodeId) := do
  let n ← p.node id
  match n.op with
  | .join _ => keptByJoin? p id n
  | .filter f => keptByFilter? p id n f
  | _ => return none

/-- Puts the surviving branch in the place of the anchor, discards the rest, and refreshes the
scopes above. -/
def apply (p : Plan) (id : NodeId) : Except Plan.Fault RuleResult := do
  match ← kept? p id with
  | none => return .unchanged p id
  | some kept =>
    let p ← p.replace id kept
    let p ← p.discardBranch id
    match (← p.node kept).parent with
    | some parent => return .replaced (← p.refreshScopes parent) kept
    | none => return .replaced p kept

end JoinElimination

end QueryPlan
