import QueryPlan.Decimal.Layout

/-!
# Constant values

The values that stand in predicates: null, truth values, 64-bit integers, floating-point numbers and
text.  `Value.compare?` orders the values that can be compared, `Value.agrees` is equality of
values.
-/

namespace QueryPlan

/-- A constant. -/
inductive Value where
  | null
  | bool (b : Bool)
  | int (n : Int64)
  | float (x : Float)
  | string (s : String)
deriving DecidableEq, Inhabited

namespace Value

/-- Whether the value is null. -/
def isNull : Value → Bool
  | .null => true
  | _ => false

/-- The truth value. -/
def bool? : Value → Option Bool
  | .bool b => some b
  | _ => none

/-- The integer. -/
def int? : Value → Option Int64
  | .int n => some n
  | _ => none

/-- The number as a floating-point number; an integer is rounded to the nearest one. -/
def float? : Value → Option Float
  | .float x => some x
  | .int n => some (Float.ofInt n.toInt)
  | _ => none

/-- The name of the type a value has. -/
def typeName : Value → String
  | .null => "Null"
  | .bool _ => "Bool"
  | .int _ => "Int64"
  | .float _ => "Float64"
  | .string _ => "String"

/-- The order of two floating-point numbers, none if one of them is no number. -/
def orderFloats (x y : Float) : Option Ordering :=
  if x < y then some .lt else if x == y then some .eq else if y < x then some .gt else none

/-- The order of two values.  Truth values, integers and texts are compared among themselves, and
numbers of different kinds as floating-point numbers; all other values cannot be compared. -/
def compare? : Value → Value → Option Ordering
  | .int m, .int n => some (compare m n)
  | .bool a, .bool b => some (compare a b)
  | .string s, .string t => some (compare s t)
  | .float x, .float y => orderFloats x y
  | .int m, .float y => orderFloats (Float.ofInt m.toInt) y
  | .float x, .int n => orderFloats x (Float.ofInt n.toInt)
  | _, _ => none

/-- Equality of values of the same type.  Floating-point numbers are equal as numbers: the two zeros
are, and a value that is no number differs from itself. -/
def agrees : Value → Value → Bool
  | .null, .null => true
  | .bool a, .bool b => a == b
  | .int m, .int n => m == n
  | .float x, .float y => x == y
  | .string s, .string t => s == t
  | _, _ => false

/-- Floating-point constants in predicates are positional however large or small they are, a whole
number has no mark, and of two equally near decimals the larger is written. -/
def floatLayout : Decimal.Layout where
  tie := .up
  marksWhole := false
  positional := fun _ => true

/-- A floating-point constant as it stands in a predicate. -/
def floatText (x : Float) : String :=
  match floatLayout.numeral? x with
  | some n => n.text
  | none => if x.isNaN then "NaN" else if x < 0 then "-inf" else "inf"

/-- A value as it stands in a predicate.  Text is put between quotes as it is. -/
def text : Value → String
  | .null => "NULL"
  | .bool b => if b then "true" else "false"
  | .int n => (Decimal.Numeral.ofInt n.toInt).text
  | .float x => floatText x
  | .string s => "'" ++ s ++ "'"

end Value

end QueryPlan
