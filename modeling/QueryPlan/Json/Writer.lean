import QueryPlan.Json.Escape

/-!
# Writing JSON

JSON is written in a style, which fixes the blanks between its parts: the compact style has none,
the spacious style puts every item of an array and every field of an object on a line of its own.
-/

namespace QueryPlan.Json

/-- The blanks between the parts of a JSON text. -/
structure Style where
  /-- What stands in front of an item or a closing bracket at the given depth. -/
  lineBreak : Nat → List Char
  /-- What stands behind a colon. -/
  afterColon : List Char

namespace Style

/-- No blanks at all. -/
def compact : Style where
  lineBreak _ := []
  afterColon := []

/-- One item a line, indented by two blanks for each level. -/
def spacious : Style where
  lineBreak depth := '\n' :: List.replicate (2 * depth) ' '
  afterColon := [' ']

end Style

mutual

/-- The characters of a value that stands at the given depth. -/
def chars (style : Style) (depth : Nat) : Json → List Char
  | .null => ['n', 'u', 'l', 'l']
  | .bool true => ['t', 'r', 'u', 'e']
  | .bool false => ['f', 'a', 'l', 's', 'e']
  | .number n => n.chars
  | .string s => quote s
  | .array [] => ['[', ']']
  | .array items => '[' :: (itemChars style (depth + 1) items ++ style.lineBreak depth ++ [']'])
  | .object [] => ['\x7b', '\x7d']
  | .object fields =>
    '\x7b' :: (fieldChars style (depth + 1) fields ++ style.lineBreak depth ++ ['\x7d'])

/-- The characters of the items of an array. -/
def itemChars (style : Style) (depth : Nat) : List Json → List Char
  | [] => []
  | [last] => style.lineBreak depth ++ chars style depth last
  | first :: rest =>
    style.lineBreak depth ++ chars style depth first ++ ',' :: itemChars style depth rest

/-- The characters of the fields of an object. -/
def fieldChars (style : Style) (depth : Nat) : List (Text × Json) → List Char
  | [] => []
  | [(key, last)] =>
    style.lineBreak depth ++ quote key ++ ':' :: (style.afterColon ++ chars style depth last)
  | (key, first) :: rest =>
    style.lineBreak depth ++ quote key ++ ':' :: (style.afterColon ++ chars style depth first) ++
      ',' :: fieldChars style depth rest

end

/-- The text of a value. -/
def write (style : Style) (j : Json) : String :=
  String.ofList (j.chars style 0)

end QueryPlan.Json
