import Mathlib.Tactic.Common
import QueryPlan.Value

/-!
# The order of values

Two values compare alike from either side.

Main results:

- Theorem `Value.orderFloats_eq`: floating-point numbers are ordered as IEEE 754 orders them.
- Theorem `Value.compare?_swap`: the order of two values is the reverse of the order the other way
  round.
- Theorem `Value.equals_comm`: equality of values is symmetric.
-/

namespace QueryPlan.Value

open Float.Model

/-- The order of two unpacked floating-point numbers, from the other side. -/
theorem unpacked_compare_swap (x y : UnpackedFloat) :
    x.compare y = (y.compare x).map Ordering.swap := by
  cases x with
  | notANumber => cases y <;> rfl
  | infinity s =>
    cases y with
    | infinity t => cases s <;> cases t <;> rfl
    | notANumber => cases s <;> rfl
    | zero t => cases s <;> rfl
    | finite t m e h => cases s <;> cases t <;> rfl
  | zero s =>
    cases y with
    | infinity t => cases t <;> rfl
    | notANumber => rfl
    | zero t => rfl
    | finite t m e h => cases t <;> rfl
  | finite s m e h =>
    cases y with
    | infinity t => cases s <;> cases t <;> rfl
    | notANumber => cases s <;> rfl
    | zero t => cases s <;> rfl
    | finite t m' e' h' =>
      have hm : compare m m' = (compare m' m).swap := Std.OrientedCmp.eq_swap
      have he : compare e e' = (compare e' e).swap := Std.OrientedCmp.eq_swap
      have hthen : (compare e e').then (compare m m') =
          ((compare e' e).then (compare m' m)).swap := by
        rw [hm, he, Ordering.swap_then]
      cases s with
      | positive =>
        cases t with
        | positive => exact congrArg some hthen
        | negative => rfl
      | negative =>
        cases t with
        | positive => rfl
        | negative => exact congrArg (some ∘ Ordering.swap) hthen

/-- A number is below another one if the unpacked numbers are ordered so. -/
theorem float_lt_iff {x y : Float} :
    x < y ↔ x.toModel.unpack.compare y.toModel.unpack = some .lt := by
  have hlt : x < y ↔ (x.toModel.unpack.compare y.toModel.unpack == some .lt) = true :=
    decide_eq_true_iff
  rw [hlt, beq_iff_eq]

/-- Two numbers count as equal if the unpacked numbers do. -/
theorem float_beq_iff {x y : Float} :
    (x == y) = true ↔ x.toModel.unpack.compare y.toModel.unpack = some .eq := by
  have hbeq : (x == y) = (x.toModel.unpack.compare y.toModel.unpack == some .eq) := rfl
  rw [hbeq, beq_iff_eq]

/-- Floating-point numbers are ordered as IEEE 754 orders them. -/
theorem orderFloats_eq (x y : Float) :
    orderFloats x y = x.toModel.unpack.compare y.toModel.unpack := by
  have hswap := unpacked_compare_swap x.toModel.unpack y.toModel.unpack
  simp only [orderFloats, float_lt_iff, float_beq_iff]
  rcases hxy : x.toModel.unpack.compare y.toModel.unpack with _ | _ | _ | _ <;>
    rcases hyx : y.toModel.unpack.compare x.toModel.unpack with _ | _ | _ | _ <;>
      simp_all

/-- The order of two floating-point numbers, from the other side. -/
theorem orderFloats_swap (x y : Float) :
    orderFloats x y = (orderFloats y x).map Ordering.swap := by
  rw [orderFloats_eq, orderFloats_eq]
  exact unpacked_compare_swap _ _

/-- The order of two values is the reverse of the order the other way round. -/
theorem compare?_swap (a b : Value) : a.compare? b = (b.compare? a).map Ordering.swap := by
  cases a with
  | null => cases b <;> rfl
  | bool s =>
    cases b with
    | bool t => exact congrArg some Std.OrientedCmp.eq_swap
    | null | int | float | string => rfl
  | int m =>
    cases b with
    | int n => exact congrArg some Std.OrientedCmp.eq_swap
    | float y => exact orderFloats_swap _ y
    | null | bool | string => rfl
  | float x =>
    cases b with
    | int n => exact orderFloats_swap x _
    | float y => exact orderFloats_swap x y
    | null | bool | string => rfl
  | string s =>
    cases b with
    | string t => exact congrArg some Std.OrientedCmp.eq_swap
    | null | bool | int | float => rfl

/-- Two values are equal if they can be compared and the comparison says so. -/
def equals (a b : Value) : Bool :=
  a.compare? b == some .eq

/-- Equality of values is symmetric. -/
theorem equals_comm (a b : Value) : a.equals b = b.equals a := by
  rw [equals, equals, compare?_swap]
  rcases b.compare? a with _ | _ | _ | _ <;> rfl

/-- No value equals null. -/
theorem equals_null (a : Value) : a.equals .null = false := by
  cases a <;> rfl

/-- A value that equals another one is not null. -/
theorem isNull_eq_false_of_equals {a b : Value} (h : a.equals b = true) : a.isNull = false := by
  cases a with
  | null =>
    rw [equals_comm, equals_null] at h
    exact absurd h Bool.false_ne_true
  | bool | int | float | string => rfl

end QueryPlan.Value
