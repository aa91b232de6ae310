import QueryPlan.Plan.Walk

/-!
# Building plans

Each operation adds one node above branches that have no parent yet and returns its position.
-/

namespace QueryPlan.Plan

/-- Adds a node above the given children and records it as their parent. -/
def attach (p : Plan) (op : Operator) (children : List NodeId) (scope : AliasSet) :
    Except Fault (NodeId × Plan) := do
  let id := p.nodes.size
  let linked ← children.foldlM (fun q child => q.update child ({ · with parent := some id })) p
  return (id, linked.push op children scope)

/-- Adds a scan of a table. -/
def scan (p : Plan) (table : String) : Except Fault (NodeId × Plan) :=
  p.attach (.scan table) [] (.singleton table)

/-- Adds a filter.  Its scope is the one it declares, or else the tables of its columns. -/
def filter (p : Plan) (child : NodeId) (f : Filter) : Except Fault (NodeId × Plan) :=
  p.attach (.filter { f with declaredScope := none }) [child]
    (f.declaredScope.getD f.columns.tables)

/-- Adds a projection. -/
def project (p : Plan) (child : NodeId) (columns : ColumnSet) : Except Fault (NodeId × Plan) := do
  let scope ← p.reachable child
  p.attach (.projection columns) [child] scope

/-- Adds a join of the given branches. -/
def join (p : Plan) (children : List NodeId) (j : Join) : Except Fault (NodeId × Plan) := do
  let scopes ← children.mapM p.reachable
  p.attach (.join j) children (scopes.foldl AliasSet.union .empty)

end QueryPlan.Plan
