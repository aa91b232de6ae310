import QueryPlan.Json.Expr
import QueryPlan.Plan.Basic

/-!
# Plans as JSON

A plan is a record of its nodes, in which holes are null, and its root.
-/

namespace QueryPlan

open Json (Codec)

namespace Filter

/-- The fields of a filter.  The declared scope is left out where there is none. -/
def jsonFields : List Json.Field :=
  [⟨"predicate", .nowhere⟩, ⟨"column_ids", .nowhere⟩, ⟨"foreign_column_ids", .nowhere⟩,
    ⟨"videos", .anywhere⟩]

instance : Codec Filter where
  encode f :=
    let declared :=
      match f.declaredScope with
      | some scope => [("videos", Codec.encode scope)]
      | none => []
    .record ([("predicate", Codec.encode f.predicate), ("column_ids", Codec.encode f.columns),
      ("foreign_column_ids", Codec.encode f.foreign)] ++ declared)
  decode?
    | room + 1, j => do
      match ← Json.fields? jsonFields j with
      | [some predicate, some columns, some foreign, declared] =>
        return {
          predicate := ← Codec.decode? room predicate
          columns := ← Codec.decode? room columns
          foreign := ← Codec.decode? room foreign
          declaredScope := ← (declared.map (Codec.decode? room)).getD (some none) }
      | _ => none
    | _, _ => none

end Filter

namespace Join

/-- The fields of a join. -/
def jsonFields : List Json.Field :=
  [⟨"join_ids", .nowhere⟩, ⟨"foreign_column_ids", .nowhere⟩]

instance : Codec Join where
  encode j :=
    .record [("join_ids", Codec.encode j.columns), ("foreign_column_ids", Codec.encode j.foreign)]
  decode?
    | room + 1, j => do
      match ← Json.fields? jsonFields j with
      | [some columns, some foreign] =>
        return ⟨← Codec.decode? room columns, ← Codec.decode? room foreign⟩
      | _ => none
    | _, _ => none

end Join

namespace Operator

instance : Codec Kind where
  encode kind := .ofString kind.name
  decode? room j := (Json.constant? room j).bind Kind.ofName?

/-- The representation of a record with one field. -/
def encodeSingle {α : Type} [Codec α] (name : String) (a : α) : Json :=
  .record [(name, Codec.encode a)]

/-- The content of a record with one field. -/
def decodeSingle? {α : Type} [Codec α] (name : String) : Nat → Json → Option α
  | room + 1, j => do
    match ← Json.fields? [⟨name, .nowhere⟩] j with
    | [some content] => Codec.decode? room content
    | _ => none
  | _, _ => none

instance : Codec Operator where
  encode
    | .scan table => .tagged "TableScan" (encodeSingle "tablename" table)
    | .filter f => .tagged "Filter" (Codec.encode f)
    | .projection columns => .tagged "Projection" (encodeSingle "column_ids" columns)
    | .join j => .tagged "InnerJoin" (Codec.encode j)
  decode? room j :=
    match room, Json.tagged? j with
    | room + 1, some ("TableScan", content) => .scan <$> decodeSingle? "tablename" room content
    | room + 1, some ("Filter", content) => .filter <$> Codec.decode? room content
    | room + 1, some ("Projection", content) =>
      .projection <$> decodeSingle? "column_ids" room content
    | room + 1, some ("InnerJoin", content) => .join <$> Codec.decode? room content
    | _, _ => none

end Operator

namespace Node

/-- The fields of a node. -/
def jsonFields : List Json.Field :=
  [⟨"op", .nowhere⟩, ⟨"parent", .fromObjects⟩, ⟨"children", .nowhere⟩, ⟨"videos", .nowhere⟩,
    ⟨"produces_no_rows", .nowhere⟩]

instance : Codec Node where
  encode n :=
    .record [("op", Codec.encode n.op), ("parent", Codec.encode n.parent),
      ("children", Codec.encode n.children), ("videos", Codec.encode n.scope),
      ("produces_no_rows", Codec.encode n.vacuous)]
  decode?
    | room + 1, j => do
      match ← Json.fields? jsonFields j with
      | [some op, parent, some children, some scope, some vacuous] =>
        return {
          op := ← Codec.decode? room op
          parent := ← (parent.map (Codec.decode? room)).getD (some none)
          children := ← Codec.decode? room children
          scope := ← Codec.decode? room scope
          vacuous := ← Codec.decode? room vacuous }
      | _ => none
    | _, _ => none

end Node

namespace Plan

/-- The fields of a plan. -/
def jsonFields : List Json.Field :=
  [⟨"nodes", .nowhere⟩, ⟨"root", .fromObjects⟩]

instance : Codec Plan where
  encode p :=
    .record [("nodes", Codec.encode p.nodes.toList), ("root", Codec.encode p.root)]
  decode?
    | room + 1, j => do
      match ← Json.fields? jsonFields j with
      | [some nodes, root] =>
        let nodes : List (Option Node) ← Codec.decode? room nodes
        return ⟨nodes.toArray, ← (root.map (Codec.decode? room)).getD (some none)⟩
      | _ => none
    | _, _ => none

end Plan

end QueryPlan
