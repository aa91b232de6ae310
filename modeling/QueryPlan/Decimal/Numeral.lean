/-!
# Decimal numerals

A numeral is a number as it is written: a sign, the digits in front of the decimal point, the digits
behind it, and a power of ten.
-/

namespace QueryPlan.Decimal

/-- A power of ten as it is written. -/
structure Exponent where
  negative : Bool
  digits : List Char
deriving DecidableEq

/-- The characters of a power of ten, which has a sign in any case. -/
def Exponent.chars (e : Exponent) : List Char :=
  'e' :: (if e.negative then '-' else '+') :: e.digits

/-- A number as it is written. -/
structure Numeral where
  negative : Bool
  /-- The digits in front of the decimal point. -/
  whole : List Char
  /-- The digits behind the decimal point; if there are none, the point is missing too. -/
  fraction : List Char := []
  exponent : Option Exponent := none
deriving DecidableEq

namespace Numeral

/-- The sign in front of digits; a positive number has none. -/
def sign (negative : Bool) : List Char :=
  if negative then ['-'] else []

/-- The characters of a numeral. -/
def chars (n : Numeral) : List Char :=
  sign n.negative ++ n.whole ++ (if n.fraction.isEmpty then [] else '.' :: n.fraction) ++
    (n.exponent.map Exponent.chars).getD []

/-- The text of a numeral. -/
def text (n : Numeral) : String :=
  String.ofList n.chars

/-- The numeral of a natural number. -/
def ofNat (n : Nat) : Numeral where
  negative := false
  whole := Nat.toDigits 10 n

/-- The numeral of an integer. -/
def ofInt (i : Int) : Numeral where
  negative := i < 0
  whole := Nat.toDigits 10 i.natAbs

end Numeral

end QueryPlan.Decimal
