import QueryPlan.Expr.Basic
import QueryPlan.Json.Codec

/-!
# Columns, constants and predicates as JSON
-/

namespace QueryPlan

open Json (Codec)

namespace Column

/-- The fields of a column. -/
def jsonFields : List Json.Field :=
  [⟨"table", .nowhere⟩, ⟨"index", .nowhere⟩]

instance : Codec Column where
  encode c := .record [("table", Codec.encode c.table), ("index", Codec.encode c.index)]
  decode?
    | room + 1, j => do
      match ← Json.fields? jsonFields j with
      | [some table, some index] =>
        return ⟨← Codec.decode? room table, ← Codec.decode? room index⟩
      | _ => none
    | _, _ => none

end Column

/-- A set of columns is the array of its columns, which is taken as it is. -/
instance : Codec ColumnSet where
  encode s := Codec.encode s.columns
  decode? room j := ColumnSet.mk <$> Codec.decode? room j

/-- A set of aliases is the array of its members, which may come in any order and repeatedly. -/
instance : Codec AliasSet where
  encode s := Codec.encode s.aliases
  decode? room j := AliasSet.ofList <$> Codec.decode? room j

instance : Codec Value where
  encode
    | .null => .ofString "Null"
    | .bool b => .tagged "Bool" (Codec.encode b)
    | .int n => .tagged "Int64" (Codec.encode n)
    | .float x => .tagged "Float64" (Codec.encode x)
    | .string s => .tagged "String" (Codec.encode s)
  decode? room j :=
    if Json.constant? room j = some "Null" then some .null
    else
      match room, Json.tagged? j with
      | room + 1, some ("Bool", content) => .bool <$> Codec.decode? room content
      | room + 1, some ("Int64", content) => .int <$> Codec.decode? room content
      | room + 1, some ("Float64", content) => .float <$> Codec.decode? room content
      | room + 1, some ("String", content) => .string <$> Codec.decode? room content
      | _, _ => none

instance : Codec BinaryOp where
  encode op := .ofString op.name
  decode? room j := (Json.constant? room j).bind BinaryOp.ofName?

namespace Expr

/-- The fields of an operator between two expressions. -/
def jsonFields : List Json.Field :=
  [⟨"left", .nowhere⟩, ⟨"op", .nowhere⟩, ⟨"right", .nowhere⟩]

/-- The representation of an expression. -/
def toJson : Expr → Json
  | .column c => .tagged "Column" (Codec.encode c)
  | .literal v => .tagged "Literal" (Codec.encode v)
  | .binary left op right =>
    .tagged "Binary"
      (.record [("left", left.toJson), ("op", Codec.encode op), ("right", right.toJson)])
  | .not operand => .tagged "Not" operand.toJson

/-- The expression with a representation. -/
def ofJson? : Nat → Json → Option Expr
  | 0, _ => none
  | room + 1, j =>
    match Json.tagged? j with
    | some ("Column", content) => .column <$> Codec.decode? room content
    | some ("Literal", content) => .literal <$> Codec.decode? room content
    | some ("Not", content) => .not <$> ofJson? room content
    | some ("Binary", content) =>
      match room with
      | 0 => none
      | room + 1 => do
        match ← Json.fields? jsonFields content with
        | [some left, some op, some right] =>
          return .binary (← ofJson? room left) (← Codec.decode? room op) (← ofJson? room right)
        | _ => none
    | _ => none

instance : Codec Expr where
  encode := toJson
  decode? := ofJson?

end Expr

end QueryPlan
