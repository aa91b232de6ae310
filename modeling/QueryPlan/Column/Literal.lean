import QueryPlan.Column.Basic

/-!
# Column literals

A column literal is an alias, a dot and a position.  The last dot of the text is the separator, so
the alias may hold dots of its own.  The position is a decimal number below `2 ^ 64` that may be
preceded by one plus sign.
-/

namespace QueryPlan.Column

/-- What is wrong with the position in a column literal. -/
inductive IndexError where
  | missing
  | invalidDigit
  | tooLarge
deriving DecidableEq

/-- The wording of a bad position. -/
def IndexError.message : IndexError → String
  | .missing => "cannot parse integer from empty string"
  | .invalidDigit => "invalid digit found in string"
  | .tooLarge => "number too large to fit in target type"

/-- Why a text is no column literal. -/
inductive LiteralError where
  | unqualified (literal : String)
  | emptyAlias (literal : String)
  | badIndex (literal : String) (cause : IndexError)
deriving DecidableEq

/-- The wording of a refused column literal. -/
def LiteralError.message : LiteralError → String
  | .unqualified s => "column '" ++ s ++ "' is not qualified as alias.index"
  | .emptyAlias s => "column '" ++ s ++ "' has an empty table alias"
  | .badIndex s cause => "column '" ++ s ++ "' has a bad index: " ++ cause.message

/-- The value of a decimal digit. -/
def digit? (c : Char) : Option Nat :=
  if c.isDigit then some (c.toNat - '0'.toNat) else none

/-- Continues a decimal number that has the value `n` so far.  The first digit that is none, or
that takes the number out of range, decides the error. -/
def readDigits (n : Nat) : List Char → Except IndexError Nat
  | [] => .ok n
  | c :: rest =>
    match digit? c with
    | none => .error .invalidDigit
    | some d => if n * 10 + d < UInt64.size then readDigits (n * 10 + d) rest else .error .tooLarge

/-- Reads the position of a column literal.  A sign alone counts as a bad digit. -/
def readIndex : List Char → Except IndexError Nat
  | [] => .error .missing
  | ['+'] => .error .invalidDigit
  | '+' :: digits => readDigits 0 digits
  | digits => readDigits 0 digits

/-- The text before the last dot and the text after it. -/
def splitLastDot : List Char → Option (List Char × List Char)
  | [] => none
  | c :: rest =>
    match splitLastDot rest with
    | some (front, back) => some (c :: front, back)
    | none => if c = '.' then some ([], rest) else none

/-- Reads a column literal. -/
def ofLiteral (s : String) : Except LiteralError Column :=
  match splitLastDot s.toList with
  | none => .error (.unqualified s)
  | some (table, index) =>
    if table.isEmpty then .error (.emptyAlias s)
    else
      match readIndex index with
      | .error cause => .error (.badIndex s cause)
      | .ok n => .ok ⟨String.ofList table, UInt64.ofNat n⟩

end QueryPlan.Column
