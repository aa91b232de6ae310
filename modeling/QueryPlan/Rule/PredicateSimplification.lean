import QueryPlan.Expr.Folding
import QueryPlan.Rule.Basic

/-!
# Predicate simplification

The predicate of a filter is folded.  A filter whose predicate is always true is removed.  One whose
predicate is never true is kept and marked, with all below it, as producing no rows.  Otherwise the
folded predicate takes the place of the old one, and the filter forgets the columns and tables that
only the folded part read.
-/

namespace QueryPlan.PredicateSimplification

/-- The rule is tried at filters that may produce rows. -/
def isAnchor (p : Plan) (id : NodeId) : Except Plan.Fault Bool := do
  let n ← p.node id
  return n.kind == .filter && !n.vacuous

/-- Whether a predicate is the same for every row, and then whether it lets rows pass. -/
def verdict? : Expr → Option Bool
  | .literal (.bool b) => some b
  | .literal .null => some false
  | _ => none

/-- The columns that a filter no longer reads when its predicate is replaced. -/
def droppedColumns (f : Filter) (predicate : Expr) : ColumnSet :=
  f.predicate.columns.diff predicate.columns

/-- A filter with a new predicate, without the columns that are no longer read. -/
def withPredicate (f : Filter) (predicate : Expr) : Filter :=
  let dropped := droppedColumns f predicate
  if dropped.isEmpty then { f with predicate }
  else
    { f with
      predicate
      columns := f.columns.diff dropped
      foreign := f.foreign.diff dropped }

/-- The tables that a filter no longer refers to when its predicate is replaced. -/
def staleTables (f : Filter) (predicate : Expr) : AliasSet :=
  (droppedColumns f predicate).tables.diff (withPredicate f predicate).tables

/-- Replaces the predicate of a filter node. -/
def replacePredicate (p : Plan) (id : NodeId) (f : Filter) (predicate : Expr) : Plan :=
  p.modify id fun n =>
    { n with
      op := .filter (withPredicate f predicate)
      scope := n.scope.diff (staleTables f predicate) }

/-- Simplifies the predicate of a filter. -/
def apply (p : Plan) (id : NodeId) : Except Plan.Fault RuleResult := do
  let n ← p.node id
  match n.vacuous, n.op with
  | false, .filter f =>
    let folded := f.predicate.fold
    match verdict? folded.1 with
    | some true =>
      match ← p.bypass id with
      | (some child, p) => return .replaced p child
      | (none, p) => return .unchanged p id
    | some false =>
      let p := p.setOp id (.filter { f with predicate := folded.1 })
      return .replaced (← p.markVacuous id) id
    | none =>
      if folded.2 then return .replaced (replacePredicate p id f folded.1) id
      else return .unchanged p id
  | _, _ => return .unchanged p id

end QueryPlan.PredicateSimplification
