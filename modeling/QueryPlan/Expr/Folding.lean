import QueryPlan.Expr.Basic

/-!
# Constant folding

Folding evaluates the constant parts of a predicate, bottom up.  Truth is three-valued: a comparison
with null is null, and null is the unknown truth value of AND, OR and NOT.
-/

namespace QueryPlan

namespace BinaryOp

/-- AND and OR of truth values, of which none is the unknown one. -/
def connect? (op : BinaryOp) (a b : Option Bool) : Option Bool :=
  match op, a, b with
  | .and, some a, some b => some (a && b)
  | .and, some false, none | .and, none, some false => some false
  | .or, some a, some b => some (a || b)
  | .or, some true, none | .or, none, some true => some true
  | _, _, _ => none

end BinaryOp

namespace Value

/-- A three-valued truth value as a constant, null being the unknown one. -/
def ofTruth : Option Bool → Value
  | some b => .bool b
  | none => .null

/-- The truth value of a constant, if it has one at all. -/
def truth? : Value → Option (Option Bool)
  | .bool b => some (some b)
  | .null => some none
  | _ => none

/-- The value of an operator on two constants; none for operands it is not defined on. -/
def evaluate? (op : BinaryOp) (a b : Value) : Option Value :=
  if op.isLogical then
    match a.truth?, b.truth? with
    | some s, some t => some (ofTruth (op.connect? s t))
    | _, _ => none
  else if a.isNull || b.isNull then some .null
  else ((a.compare? b).bind op.holds?).map .bool

end Value

namespace Expr

/-- A connective one of whose operands is a constant truth value, without that operand. -/
def absorb? (left : Expr) (op : BinaryOp) (right : Expr) : Option Expr :=
  match op with
  | .and =>
    if right.isBool true then some left
    else if left.isBool true then some right
    else if left.isBool false || right.isBool false then some (.literal (.bool false))
    else none
  | .or =>
    if left.isBool true || right.isBool true then some (.literal (.bool true))
    else if right.isBool false then some left
    else if left.isBool false then some right
    else none
  | _ => none

/-- A simpler expression for an operator between folded operands, if there is one. -/
def reduce? (left : Expr) (op : BinaryOp) (right : Expr) : Option Expr :=
  match left, right with
  | .literal a, .literal b =>
    match Value.evaluate? op a b with
    | some v => some (.literal v)
    | none => absorb? left op right
  | _, _ => absorb? left op right

/-- Folds the constant parts of an expression and tells whether there were any. -/
def fold : Expr → Expr × Bool
  | .column c => (.column c, false)
  | .literal v => (.literal v, false)
  | .binary left op right =>
    let l := left.fold
    let r := right.fold
    match reduce? l.1 op r.1 with
    | some e => (e, true)
    | none => (.binary l.1 op r.1, l.2 || r.2)
  | .not operand =>
    let e := operand.fold
    match e.1.literal?.bind Value.truth? with
    | some t => (.literal (.ofTruth (t.map (!·))), true)
    | none => (.not e.1, e.2)

end Expr

end QueryPlan
