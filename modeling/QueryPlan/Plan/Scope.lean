import QueryPlan.Plan.Walk

/-!
# The scopes and columns of a plan

What the optimization rules rely on beside the links: scopes agree with the tables that are scanned
below a node, columns belong to such tables, and a column declared as foreign is part of the
condition it is declared for.
-/

namespace QueryPlan

/-- What is wrong with the scope or the columns of a node. -/
inductive SemanticError where
  /-- The scope differs from the tables scanned below the node. -/
  | scopeMismatch (node : NodeId) (operator : Operator.Kind) (expected actual : AliasSet)
  /-- A filter is scoped to a table that is not scanned below it. -/
  | filterScopeExceeded (node : NodeId) (scope reachable : AliasSet)
  /-- A column belongs to a table that is not scanned below the node. -/
  | unreachableColumn (node : NodeId) (operator : Operator.Kind) (column : Column)
  /-- A foreign column is not part of the condition. -/
  | foreignColumnNotInCondition (node : NodeId) (column : Column)
deriving DecidableEq

namespace SemanticError

/-- The name of a semantic error. -/
def name : SemanticError → String
  | .scopeMismatch .. => "VideosMismatch"
  | .filterScopeExceeded .. => "FilterScopeExceeded"
  | .unreachableColumn .. => "UnreachableColumn"
  | .foreignColumnNotInCondition .. => "ForeignColumnNotInCondition"

/-- The wording of a semantic error. -/
def message : SemanticError → String
  | .scopeMismatch node operator expected actual =>
    operator.name ++ " " ++ NodeId.text node ++ " has videos " ++ actual.text ++ ", expected " ++
      expected.text
  | .filterScopeExceeded node scope reachable =>
    "Filter " ++ NodeId.text node ++ " is scoped to " ++ scope.text ++ " but only " ++
      reachable.text ++ " is reachable"
  | .unreachableColumn node operator column =>
    operator.name ++ " " ++ NodeId.text node ++ " references unreachable column " ++ column.text
  | .foreignColumnNotInCondition node column =>
    "Foreign column " ++ column.text ++ " of " ++ NodeId.text node ++ " is not in its condition"

end SemanticError

namespace Plan

/-- The error of a node's scope when `reachable` are the tables scanned below it.  A filter may have
a narrower scope. -/
def scopeErrors (id : NodeId) (n : Node) (reachable : AliasSet) : List SemanticError :=
  match n.kind with
  | .filter =>
    if n.scope.subset reachable then [] else [.filterScopeExceeded id n.scope reachable]
  | kind => if n.scope = reachable then [] else [.scopeMismatch id kind reachable n.scope]

/-- The errors of a node's columns when `reachable` are the tables scanned below it. -/
def columnErrors (id : NodeId) (n : Node) (reachable : AliasSet) : List SemanticError :=
  let unreachable := n.op.columns.columns.filter (!reachable.contains ·.table)
  let stray := n.op.foreign.columns.filter (!n.op.columns.contains ·)
  unreachable.map (.unreachableColumn id n.kind) ++ stray.map (.foreignColumnNotInCondition id)

/-- The errors of one node. -/
def nodeSemanticErrors (p : Plan) (id : NodeId) : Except Fault (List SemanticError) := do
  let n ← p.node id
  let reachable ← p.reachable id
  return scopeErrors id n reachable ++ columnErrors id n reachable

/-- Everything that is wrong with the scopes and columns of a plan, in preorder. -/
def semanticErrors (p : Plan) : Except Fault (List SemanticError) :=
  match p.root with
  | none => .ok []
  | some root => do
    let ids ← p.preorder root
    return (← ids.mapM p.nodeSemanticErrors).flatten

end Plan

end QueryPlan
