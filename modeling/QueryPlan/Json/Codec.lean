import QueryPlan.Decimal.Meaning
import QueryPlan.Error
import QueryPlan.Json.Reader
import QueryPlan.Json.Writer

/-!
# Values as JSON

A codec says how the values of a type are represented in JSON.  Reading a representation opens at
most 127 arrays and objects within each other.  The limit does not apply to what is skipped: a field
that a type does not have is never looked into.
-/

namespace QueryPlan.Json

/-- How the values of a type are represented in JSON. -/
class Codec (α : Type) where
  /-- The representation of a value. -/
  encode : α → Json
  /-- The value with a representation, which may open so many arrays and objects within each
  other. -/
  decode? : Nat → Json → Option α

namespace Codec

/-- How many arrays and objects a document may open within each other. -/
def nestingLimit : Nat :=
  127

/-- Reads a value from JSON text. -/
def read {α : Type} [Codec α] (s : String) : Except Error α :=
  match (ofText? s).bind (decode? nestingLimit) with
  | some a => .ok a
  | none => .error .malformedDocument

/-- Writes a value as JSON text without blanks. -/
def write {α : Type} [Codec α] (a : α) : String :=
  (encode a).write .compact

end Codec

/-! ## Plain values -/

instance : Codec String where
  encode := ofString
  decode?
    | _, .string s => s
    | _, _ => none

instance : Codec Bool where
  encode := .bool
  decode?
    | _, .bool b => some b
    | _, _ => none

instance : Codec Nat where
  encode n := .number (.ofNat n)
  decode?
    | _, .number n => n.word?
    | _, _ => none

instance : Codec UInt64 where
  encode n := .number (.ofNat n.toNat)
  decode?
    | _, .number n => n.word?.map UInt64.ofNat
    | _, _ => none

instance : Codec Int64 where
  encode n := .number (.ofInt n.toInt)
  decode?
    | _, .number n => n.int64?
    | _, _ => none

/-- Floating-point numbers in JSON always have a fraction or a power of ten, and are positional from
`1e-5` up to below `1e16`. -/
def floatLayout : Decimal.Layout where
  tie := .toEven
  marksWhole := true
  positional point := -5 < point ∧ point ≤ 16

/-- A floating-point number; an infinite one, or one that is no number, is written as null. -/
instance : Codec Float where
  encode x :=
    match floatLayout.numeral? x with
    | some n => .number n
    | none => .null
  decode?
    | _, .number n => n.float?
    | _, _ => none

instance {α : Type} [Codec α] : Codec (Option α) where
  encode
    | some a => Codec.encode a
    | none => .null
  decode?
    | _, .null => some none
    | room, j => some <$> Codec.decode? room j

instance {α : Type} [Codec α] : Codec (List α) where
  encode items := .array (items.map Codec.encode)
  decode?
    | room + 1, .array items => items.mapM (Codec.decode? room)
    | _, _ => none

/-! ## Records -/

/-- Where a field may be missing. -/
inductive Missing where
  | nowhere
  | fromObjects
  | anywhere
deriving DecidableEq

/-- A field of a record. -/
structure Field where
  name : String
  /-- Where the field may be missing. -/
  missing : Missing := .nowhere

/-- Lays the items of an array out on the fields of a record, in order. -/
def layOut : List Field → List Json → Option (List (Option Json))
  | [], [] => some []
  | [], _ :: _ => none
  | field :: fields, [] =>
    if field.missing = .anywhere then (none :: ·) <$> layOut fields [] else none
  | _ :: fields, item :: items => (some item :: ·) <$> layOut fields items

/-- Looks a field up among the fields of an object, in which it may not be repeated. -/
def lookUp (content : List (String × Json)) (field : Field) : Option (Option Json) :=
  match content.filter (·.1 == field.name) with
  | [] => if field.missing = .nowhere then none else some none
  | [(_, j)] => some (some j)
  | _ => none

/-- The contents of the given fields of a record.  A record is an object, in which the order of the
fields is free and fields of other names are skipped, or the array of its fields in order. -/
def fields? (fields : List Field) : Json → Option (List (Option Json))
  | .array items => layOut fields items
  | .object content => do
    let named ← content.mapM fun entry => entry.1.map (·, entry.2)
    fields.mapM (lookUp named)
  | _ => none

/-! ## Alternatives -/

/-- The name of an alternative without content: the name alone, or an object with null as the only
field. -/
def constant? : Nat → Json → Option String
  | _, .string s => s
  | _ + 1, .object [(name, .null)] => name
  | _, _ => none

/-- The name and the content of an alternative: the only field of an object. -/
def tagged? : Json → Option (String × Json)
  | .object [(name, content)] => name.map (·, content)
  | _ => none

end QueryPlan.Json
