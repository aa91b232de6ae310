import QueryPlan.Column.Set
import QueryPlan.Value

/-!
# Predicates

Predicates are built from columns and constants by comparisons, by the connectives AND and OR, and
by negation.
-/

namespace QueryPlan

/-- An operator between two expressions. -/
inductive BinaryOp where
  | eq
  | notEq
  | lt
  | ltEq
  | gt
  | gtEq
  | and
  | or
deriving DecidableEq, Inhabited

namespace BinaryOp

/-- All operators. -/
def all : List BinaryOp :=
  [.eq, .notEq, .lt, .ltEq, .gt, .gtEq, .and, .or]

/-- The name of an operator in documents. -/
def name : BinaryOp → String
  | .eq => "Eq"
  | .notEq => "NotEq"
  | .lt => "Lt"
  | .ltEq => "LtEq"
  | .gt => "Gt"
  | .gtEq => "GtEq"
  | .and => "And"
  | .or => "Or"

/-- The operator with a given name. -/
def ofName? (name : String) : Option BinaryOp :=
  all.find? (·.name == name)

/-- The symbol of an operator in predicates. -/
def symbol : BinaryOp → String
  | .eq => "="
  | .notEq => "<>"
  | .lt => "<"
  | .ltEq => "<="
  | .gt => ">"
  | .gtEq => ">="
  | .and => "AND"
  | .or => "OR"

/-- Whether the operator is a connective. -/
def isLogical : BinaryOp → Bool
  | .and | .or => true
  | _ => false

/-- Whether the operator compares values. -/
def isComparison (op : BinaryOp) : Bool :=
  !op.isLogical

/-- Whether a comparison holds of two values in the given order; a connective has no answer. -/
def holds? (op : BinaryOp) (order : Ordering) : Option Bool :=
  match op with
  | .eq => some (order == .eq)
  | .notEq => some (order != .eq)
  | .lt => some (order == .lt)
  | .ltEq => some (order != .gt)
  | .gt => some (order == .gt)
  | .gtEq => some (order != .lt)
  | .and | .or => none

end BinaryOp

/-- A predicate or a part of one. -/
inductive Expr where
  | column (c : Column)
  | literal (v : Value)
  | binary (left : Expr) (op : BinaryOp) (right : Expr)
  | not (operand : Expr)
deriving DecidableEq, Inhabited

namespace Expr

/-- The constant an expression consists of. -/
def literal? : Expr → Option Value
  | .literal v => some v
  | _ => none

/-- Whether the expression is the given truth value, written as a constant. -/
def isBool (e : Expr) (b : Bool) : Bool :=
  e.literal?.bind Value.bool? == some b

/-- The columns an expression reads, from left to right, with repetitions. -/
def columnList : Expr → List Column
  | .column c => [c]
  | .literal _ => []
  | .binary left _ right => left.columnList ++ right.columnList
  | .not operand => operand.columnList

/-- The columns an expression reads, in the order in which they first occur. -/
def columns (e : Expr) : ColumnSet :=
  ColumnSet.ofList e.columnList

/-- The tables an expression reads. -/
def tables (e : Expr) : AliasSet :=
  e.columns.tables

/-- Whether an expression reads no column. -/
def isConstant (e : Expr) : Bool :=
  e.columns.isEmpty

/-- The two sides of an equality between columns. -/
def equatedColumns? : Expr → Option (Column × Column)
  | .binary (.column l) .eq (.column r) => some (l, r)
  | _ => none

/-- Equality of expressions, constants being compared as values. -/
def agrees : Expr → Expr → Bool
  | .column c, .column d => c == d
  | .literal v, .literal w => v.agrees w
  | .binary l op r, .binary l' op' r' => l.agrees l' && op == op' && r.agrees r'
  | .not e, .not e' => e.agrees e'
  | _, _ => false

/-- An expression as text.  Connectives stand in parentheses, comparisons stand free. -/
def text : Expr → String
  | .column c => c.text
  | .literal v => v.text
  | .binary left op right =>
    let plain := left.text ++ " " ++ op.symbol ++ " " ++ right.text
    if op.isLogical then "(" ++ plain ++ ")" else plain
  | .not operand => "NOT (" ++ operand.text ++ ")"

end Expr

end QueryPlan
