/-!
# Shortest decimals

The shortest decimal of a finite floating-point number is the one with the fewest digits among all
decimals that round to it, and the nearest of those.  The search runs in exact integer arithmetic:
for one digit, two digits and so on it looks at the two neighbours of the number on that decimal
grid and stops at the first grid on which one of them rounds to the number.
-/

namespace QueryPlan.Decimal

/-- The reals that round to a positive number, as integers over a common denominator. -/
structure RoundingInterval where
  /-- Halfway to the next smaller number. -/
  lower : Nat
  /-- The number itself. -/
  centre : Nat
  /-- Halfway to the next larger number. -/
  upper : Nat
  /-- The common denominator. -/
  unit : Nat
  /-- Whether the two ends belong to the interval. -/
  closed : Bool

/-- Which of two equally near decimals is taken. -/
inductive Tie where
  | toEven
  | up
deriving DecidableEq

/-- The interval of the positive number with the given exponent and fraction fields.  Ties go to
even significands, and below a power of two the gap is half as wide as above it. -/
def RoundingInterval.ofFields (exponent fraction : Nat) : RoundingInterval :=
  let significand := if exponent = 0 then fraction else (1 <<< 52) + fraction
  let gapBelow := if fraction = 0 ∧ 1 < exponent then 1 else 2
  let shift := exponent - 1
  ⟨(4 * significand - gapBelow) <<< shift, (4 * significand) <<< shift,
    (4 * significand + 2) <<< shift, 1 <<< 1076, significand % 2 == 0⟩

namespace RoundingInterval

/-- The interval in units of `10 ^ e`. -/
def inUnitsOf (r : RoundingInterval) (e : Int) : RoundingInterval :=
  let up := Nat.pow 10 (-e).toNat
  { r with
    lower := r.lower * up
    centre := r.centre * up
    upper := r.upper * up
    unit := r.unit * Nat.pow 10 e.toNat }

/-- Whether a whole number of units lies in the interval. -/
def holds (r : RoundingInterval) (n : Nat) : Bool :=
  if r.closed then r.lower ≤ n * r.unit && n * r.unit ≤ r.upper
  else r.lower < n * r.unit && n * r.unit < r.upper

/-- The neighbour of the centre on the grid of whole units that lies in the interval and is nearest
to the centre, if one lies there at all. -/
def gridPoint? (tie : Tie) (r : RoundingInterval) : Option Nat :=
  let low := r.centre / r.unit
  match r.holds low, r.holds (low + 1) with
  | false, false => none
  | true, false => some low
  | false, true => some (low + 1)
  | true, true =>
    match compare (2 * r.centre) ((2 * low + 1) * r.unit) with
    | .lt => some low
    | .gt => some (low + 1)
    | .eq => if tie = .toEven ∧ low % 2 = 0 then some low else some (low + 1)

/-- The number of digits in front of the decimal point; zero or less for a number below one
tenth. -/
def pointPosition (r : RoundingInterval) : Int :=
  ((Nat.toDigits 10 (r.centre * Nat.pow 10 324 / r.unit)).length : Int) - 324

end RoundingInterval

/-- The significant digits of a positive number, the last of them not zero, and the position of the
decimal point counted from in front of the first digit. -/
structure Digits where
  digits : List Char
  point : Int

/-- The shortest decimal of the number with the given exponent and fraction fields.  Seventeen
digits always suffice. -/
def shortest (tie : Tie) (exponent fraction : Nat) : Digits :=
  let r := RoundingInterval.ofFields exponent fraction
  let k := r.pointPosition
  let attempt (count : Nat) : Option Digits :=
    ((r.inUnitsOf (k - count)).gridPoint? tie).map fun n =>
      let digits := Nat.toDigits 10 n
      ⟨(digits.reverse.dropWhile (· == '0')).reverse, k - count + digits.length⟩
  ((List.range' 1 17).findSome? attempt).getD ⟨[], k⟩

end QueryPlan.Decimal
