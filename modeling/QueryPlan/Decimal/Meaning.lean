import QueryPlan.Decimal.Numeral

/-!
# The meaning of numerals

What a numeral stands for as an integer and as a floating-point number.
-/

namespace QueryPlan.Decimal.Numeral

/-- The integer a numeral stands for.  A numeral with a fraction or a power of ten stands for none,
and neither does negative zero. -/
def int? (n : Numeral) : Option Int :=
  if n.fraction.isEmpty && n.exponent.isNone then
    let value := Nat.ofDigitChars 10 n.whole 0
    if n.negative then if value = 0 then none else some (-value) else some value
  else none

/-- The natural number below `2 ^ 64` a numeral stands for. -/
def word? (n : Numeral) : Option Nat := do
  let i ← n.int?
  if 0 ≤ i ∧ i.toNat < UInt64.size then some i.toNat else none

/-- The 64-bit integer a numeral stands for. -/
def int64? (n : Numeral) : Option Int64 := do
  let i ← n.int?
  if Int64.minValue.toInt ≤ i ∧ i ≤ Int64.maxValue.toInt then some (Int64.ofInt i) else none

/-- Appends digits to a number as long as it stays below `2 ^ 64`, and returns the digits left. -/
def takeDigits (n : Nat) : List Char → Nat × List Char
  | [] => (n, [])
  | c :: rest =>
    let next := n * 10 + (c.toNat - '0'.toNat)
    if next < UInt64.size then takeDigits next rest else (n, c :: rest)

/-- Multiplies a floating-point number by a power of ten, in steps none of which leaves the range of
exponents.  The result is none if it is too large. -/
def scaleByTen (x : Float) (e : Int) : Option Float :=
  if 308 < e then if x == 0 then some x else none
  else if 0 ≤ e then
    let scaled := x * Float.ofScientific 1 false e.toNat
    if scaled.isInf then none else some scaled
  else if -308 ≤ e then some (x / Float.ofScientific 1 false (-e).toNat)
  else if x == 0 then some x
  else scaleByTen (x / Float.ofScientific 1 false 308) (e + 308)
termination_by e.natAbs

/-- The floating-point number a numeral stands for, none if it is too large.  The digits that fit
into 64 bits are taken as an integer, which is then multiplied by a power of ten. -/
def float? (n : Numeral) : Option Float := do
  let (significand, left) := takeDigits 0 n.whole
  let (significand, unused) := takeDigits significand n.fraction
  let shift : Int := left.length - (n.fraction.length - unused.length)
  let power : Int :=
    match n.exponent with
    | none => 0
    | some e =>
      let value := Nat.ofDigitChars 10 e.digits 0
      if e.negative then -value else value
  let magnitude ← scaleByTen (Float.ofNat significand) (shift + power)
  return if n.negative then -magnitude else magnitude

end QueryPlan.Decimal.Numeral
