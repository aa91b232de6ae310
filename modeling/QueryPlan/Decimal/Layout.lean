import QueryPlan.Decimal.Numeral
import QueryPlan.Decimal.Shortest

/-!
# Writing floating-point numbers

A layout fixes all that the digits of a floating-point number leave open: where positional notation
ends, whether a whole number is marked by a zero behind the point, and which of two equally near
decimals is written.
-/

namespace QueryPlan.Decimal

/-- The free choices in writing a floating-point number. -/
structure Layout where
  /-- Which of two equally near decimals is written. -/
  tie : Tie
  /-- Whether a whole number gets a zero behind the decimal point. -/
  marksWhole : Bool
  /-- Whether a number is written positionally when its decimal point stands there. -/
  positional : Int → Bool

namespace Layout

/-- Digits written positionally, with zeros up to the decimal point where digits are missing. -/
def positionalNumeral (layout : Layout) (negative : Bool) (d : Digits) : Numeral :=
  if d.point ≤ 0 then ⟨negative, ['0'], List.replicate (-d.point).toNat '0' ++ d.digits, none⟩
  else
    let count := d.point.toNat
    let missing := List.replicate (count - d.digits.length) '0'
    let fraction := d.digits.drop count
    ⟨negative, d.digits.take count ++ missing,
      if fraction.isEmpty && layout.marksWhole then ['0'] else fraction, none⟩

/-- Digits written as one digit, a fraction if there are more, and a power of ten. -/
def exponentialNumeral (negative : Bool) (d : Digits) : Numeral :=
  let power := d.point - 1
  ⟨negative, d.digits.take 1, d.digits.drop 1, some ⟨power < 0, Nat.toDigits 10 power.natAbs⟩⟩

/-- The numeral of a floating-point number, none if it is infinite or no number at all. -/
def numeral? (layout : Layout) (x : Float) : Option Numeral :=
  let bits := x.toBits.toNat
  let negative := decide (1 <<< 63 ≤ bits)
  let exponent := (bits >>> 52) % 2048
  let fraction := bits % (1 <<< 52)
  if exponent = 2047 then none
  else if exponent = 0 ∧ fraction = 0 then
    some (layout.positionalNumeral negative ⟨['0'], 1⟩)
  else
    let d := shortest layout.tie exponent fraction
    if layout.positional d.point then some (layout.positionalNumeral negative d)
    else some (exponentialNumeral negative d)

end Layout

end QueryPlan.Decimal
