import QueryPlan.Expr.Basic

/-!
# Plan operators

What a node of a plan does to the rows of its branches, apart from its place in the plan: scan a
table, keep the rows that satisfy a predicate, keep some columns, or join branches.
-/

namespace QueryPlan

/-- Keeps the rows that satisfy a predicate. -/
structure Filter where
  predicate : Expr
  /-- The columns the predicate needs and any that are passed through. -/
  columns : ColumnSet
  /-- The columns among them that a foreign key determines. -/
  foreign : ColumnSet := .empty
  /-- The scope to be given to the node when it is put above a branch. -/
  declaredScope : Option AliasSet := none
deriving DecidableEq, Inhabited

namespace Filter

/-- A filter that needs just the columns of its predicate. -/
def ofPredicate (predicate : Expr) : Filter where
  predicate := predicate
  columns := predicate.columns

/-- The tables a filter refers to, through its columns or in its predicate. -/
def tables (f : Filter) : AliasSet :=
  f.columns.tables.union f.predicate.tables

/-- Equality of filters, constants being compared as values. -/
def agrees (f g : Filter) : Bool :=
  f.predicate.agrees g.predicate && f.columns == g.columns && f.foreign == g.foreign &&
    f.declaredScope == g.declaredScope

end Filter

/-- Combines the rows of its branches that agree on a condition. -/
structure Join where
  /-- The columns of the condition. -/
  columns : ColumnSet
  /-- The columns among them that a foreign key determines. -/
  foreign : ColumnSet := .empty
deriving DecidableEq, Inhabited

/-- The operation of a plan node. -/
inductive Operator where
  | scan (table : String)
  | filter (f : Filter)
  | projection (columns : ColumnSet)
  | join (j : Join)
deriving DecidableEq, Inhabited

namespace Operator

/-- The kinds of operators. -/
inductive Kind where
  | scan
  | filter
  | projection
  | join
deriving DecidableEq, Inhabited

/-- All kinds of operators. -/
def Kind.all : List Kind :=
  [.scan, .filter, .projection, .join]

/-- The name of a kind of operator. -/
def Kind.name : Kind → String
  | .scan => "TableScan"
  | .filter => "Filter"
  | .projection => "Projection"
  | .join => "InnerJoin"

/-- The kind of operator with a given name. -/
def Kind.ofName? (name : String) : Option Kind :=
  Kind.all.find? (·.name == name)

/-- The kind of an operator. -/
def kind : Operator → Kind
  | .scan _ => .scan
  | .filter _ => .filter
  | .projection _ => .projection
  | .join _ => .join

/-- The name of an operator. -/
def name (op : Operator) : String :=
  op.kind.name

/-- The table a scan reads. -/
def scannedTable? : Operator → Option String
  | .scan table => some table
  | _ => none

/-- The filter an operator is. -/
def filter? : Operator → Option Filter
  | .filter f => some f
  | _ => none

/-- The columns a projection keeps. -/
def projection? : Operator → Option ColumnSet
  | .projection columns => some columns
  | _ => none

/-- Only a projection keeps a list of columns. -/
theorem projection?_eq_some_iff {op : Operator} {columns : ColumnSet} :
    op.projection? = some columns ↔ op = .projection columns := by
  cases op <;> simp [projection?]

/-- The join an operator is. -/
def join? : Operator → Option Join
  | .join j => some j
  | _ => none

/-- An operator of the kind of joins is a join. -/
theorem exists_join_of_kind {op : Operator} (h : op.kind = .join) : ∃ j, op = .join j := by
  cases op with
  | join j => exact ⟨j, rfl⟩
  | scan | filter | projection => cases h

/-- The columns an operator names; a scan names none. -/
def columns : Operator → ColumnSet
  | .scan _ => .empty
  | .filter f => f.columns
  | .projection columns => columns
  | .join j => j.columns

/-- The columns an operator declares to be determined by a foreign key. -/
def foreign : Operator → ColumnSet
  | .filter f => f.foreign
  | .join j => j.foreign
  | _ => .empty

/-- Equality of operators, constants being compared as values. -/
def agrees : Operator → Operator → Bool
  | .filter f, .filter g => f.agrees g
  | a, b => a == b

/-- An operator as it is shown in a plan. -/
def text : Operator → String
  | .scan table => "TableScan " ++ table
  | .filter f => "Filter " ++ f.predicate.text
  | .projection columns => "Projection " ++ columns.text
  | .join j => "InnerJoin on " ++ j.columns.text

end Operator

end QueryPlan
