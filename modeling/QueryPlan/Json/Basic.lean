import QueryPlan.Decimal.Numeral

/-!
# JSON values

JSON as it is written: numbers keep their digits, and objects keep their fields in order and with
repetitions.  What a number or a repeated field means is up to the reader of the value.
-/

namespace QueryPlan

/-- The text of a JSON string.  A string in which half of a surrogate pair stands alone has none. -/
abbrev Json.Text :=
  Option String

/-- A JSON value. -/
inductive Json where
  | null
  | bool (b : Bool)
  | number (n : Decimal.Numeral)
  | string (s : Json.Text)
  | array (items : List Json)
  | object (fields : List (Json.Text × Json))
deriving Inhabited

namespace Json

/-- A string with a text. -/
def ofString (s : String) : Json :=
  .string (some s)

/-- An object with the given fields. -/
def record (fields : List (String × Json)) : Json :=
  .object (fields.map fun field => (some field.1, field.2))

/-- An object with a single field, as it stands for one of several alternatives. -/
def tagged (tag : String) (content : Json) : Json :=
  record [(tag, content)]

end Json

end QueryPlan
