import Mathlib.Tactic.Common
import QueryPlan.Expr.Folding

/-!
# The value of a predicate

Predicates are evaluated on a row in three-valued logic.  A comparison with null is null, and it is
left open what a comparison of values gives that cannot be compared.  Connectives and negation follow
Kleene's truth tables.

Main results:

- Definition `Expr.eval`: the value of an expression on a row.
- Theorem `Expr.eval_congr`: the value depends on the columns of the expression alone.
- Definition `Expr.SortedOn`: on the row, connectives and negations have truth values as operands.
- Theorem `Expr.WellSorted.sortedOn`: conditions as operands have truth values on every row.
-/

namespace QueryPlan

/-! ## Three-valued logic -/

namespace Kleene

/-- Conjunction of truth values, of which none is the unknown one. -/
def and : Option Bool → Option Bool → Option Bool
  | some false, _ => some false
  | _, some false => some false
  | some true, some true => some true
  | _, _ => none

/-- Disjunction. -/
def or : Option Bool → Option Bool → Option Bool
  | some true, _ => some true
  | _, some true => some true
  | some false, some false => some false
  | _, _ => none

/-- Negation. -/
def not : Option Bool → Option Bool
  | some b => some !b
  | none => none

section Laws

variable (t : Option Bool)

/-- Truth on the right does not count in a conjunction. -/
theorem and_true : and t (some true) = t := by
  rcases t with _ | _ | _ <;> rfl

/-- Truth on the left does not count in a conjunction. -/
theorem true_and : and (some true) t = t := by
  rcases t with _ | _ | _ <;> rfl

/-- A conjunction is false if its right side is, whatever the left one is. -/
theorem and_false : and t (some false) = some false := by
  rcases t with _ | _ | _ <;> rfl

/-- A conjunction is false if its left side is, whatever the right one is. -/
theorem false_and : and (some false) t = some false :=
  rfl

/-- A disjunction is true if its right side is, whatever the left one is. -/
theorem or_true : or t (some true) = some true := by
  rcases t with _ | _ | _ <;> rfl

/-- A disjunction is true if its left side is, whatever the right one is. -/
theorem true_or : or (some true) t = some true :=
  rfl

/-- Falsehood on the right does not count in a disjunction. -/
theorem or_false : or t (some false) = t := by
  rcases t with _ | _ | _ <;> rfl

/-- Falsehood on the left does not count in a disjunction. -/
theorem false_or : or (some false) t = t := by
  rcases t with _ | _ | _ <;> rfl

end Laws

end Kleene

/-- What comparisons give for values that cannot be compared. -/
abbrev Undecided := BinaryOp → Value → Value → Option Bool

namespace Value

/-- The truth value a value stands for; any value but true and false is unknown. -/
def asTruth : Value → Option Bool
  | .bool b => some b
  | _ => none

/-- Whether a value is true, false or null. -/
def isTruth (v : Value) : Bool :=
  v.truth?.isSome

/-- The value null counts as a truth value, the unknown one. -/
@[simp]
theorem isTruth_null : isTruth .null = true :=
  rfl

/-- Every boolean is a truth value. -/
@[simp]
theorem isTruth_bool (b : Bool) : isTruth (.bool b) = true :=
  rfl

/-- The value that stands for a truth value is one. -/
@[simp]
theorem isTruth_ofTruth (t : Option Bool) : (ofTruth t).isTruth = true := by
  cases t <;> rfl

/-- A constant with a truth value is that truth value. -/
theorem ofTruth_of_truth? {v : Value} {t : Option Bool} (h : v.truth? = some t) :
    ofTruth t = v ∧ v.asTruth = t := by
  cases v with
  | null =>
    obtain rfl := Option.some.inj h
    exact ⟨rfl, rfl⟩
  | bool b =>
    obtain rfl := Option.some.inj h
    exact ⟨rfl, rfl⟩
  | int | float | string => exact absurd h.symm (Option.some_ne_none t)

/-- A value that is true, false or null is the truth value it stands for. -/
theorem ofTruth_asTruth {v : Value} (h : v.isTruth = true) : ofTruth v.asTruth = v := by
  obtain ⟨t, ht⟩ := Option.isSome_iff_exists.1 h
  obtain ⟨hv, htruth⟩ := ofTruth_of_truth? ht
  rw [htruth, hv]

end Value

namespace BinaryOp

/-- The outcome of a comparison. -/
def compareValues (undecided : Undecided) (op : BinaryOp) (a b : Value) : Option Bool :=
  if a.isNull || b.isNull then none
  else
    match a.compare? b with
    | some order => op.holds? order
    | none => undecided op a b

/-- The outcome of an operator between two values. -/
def outcome (undecided : Undecided) (op : BinaryOp) (a b : Value) : Option Bool :=
  match op with
  | .and => Kleene.and a.asTruth b.asTruth
  | .or => Kleene.or a.asTruth b.asTruth
  | _ => op.compareValues undecided a b

/-- The outcome of an operator that is no connective is that of the comparison. -/
theorem outcome_comparison {undecided : Undecided} {op : BinaryOp} (h : op.isLogical = false)
    (a b : Value) : op.outcome undecided a b = op.compareValues undecided a b := by
  cases op <;> first | rfl | exact absurd h (by decide)

/-- Connectives of constants are evaluated by the truth tables. -/
theorem connect?_eq_outcome {undecided : Undecided} {op : BinaryOp} (h : op.isLogical = true)
    (a b : Value) : op.connect? a.asTruth b.asTruth = op.outcome undecided a b := by
  cases op with
  | and =>
    rw [outcome]
    rcases a.asTruth with _ | _ | _ <;> rcases b.asTruth with _ | _ | _ <;> rfl
  | or =>
    rw [outcome]
    rcases a.asTruth with _ | _ | _ <;> rcases b.asTruth with _ | _ | _ <;> rfl
  | eq | notEq | lt | ltEq | gt | gtEq => exact absurd h (by decide)

end BinaryOp

/-- Folded constants have the value that the operator gives them. -/
theorem Value.evaluate?_eq_outcome {undecided : Undecided} {op : BinaryOp} {a b v : Value}
    (h : Value.evaluate? op a b = some v) : v = Value.ofTruth (op.outcome undecided a b) := by
  unfold Value.evaluate? at h
  split at h
  · rename_i hlogical
    split at h
    · rename_i s t hs ht
      rw [← BinaryOp.connect?_eq_outcome hlogical, (Value.ofTruth_of_truth? hs).2,
        (Value.ofTruth_of_truth? ht).2]
      exact (Option.some.inj h).symm
    · exact absurd h.symm (Option.some_ne_none v)
  · rename_i hlogical
    rw [BinaryOp.outcome_comparison (Bool.not_eq_true _ ▸ hlogical), BinaryOp.compareValues]
    split at h
    · rename_i hnull
      rw [if_pos hnull]
      exact (Option.some.inj h).symm
    · rename_i hnull
      rw [if_neg hnull]
      obtain ⟨t, ht, rfl⟩ := Option.map_eq_some_iff.1 h
      obtain ⟨order, horder, hholds⟩ := Option.bind_eq_some_iff.1 ht
      simp only [horder, hholds]
      rfl

namespace Expr

/-! ## Evaluation -/

/-- The value of an expression on a row. -/
def eval (undecided : Undecided) (row : Column → Value) : Expr → Value
  | .column c => row c
  | .literal v => v
  | .binary left op right =>
    .ofTruth (op.outcome undecided (left.eval undecided row) (right.eval undecided row))
  | .not operand => .ofTruth (Kleene.not (operand.eval undecided row).asTruth)

/-- A conjunction has the value that the truth tables give for those of its operands. -/
theorem eval_and (undecided : Undecided) (row : Column → Value) (left right : Expr) :
    (Expr.binary left .and right).eval undecided row =
      .ofTruth (Kleene.and (left.eval undecided row).asTruth (right.eval undecided row).asTruth) :=
  rfl

/-- A disjunction has the value that the truth tables give for those of its operands. -/
theorem eval_or (undecided : Undecided) (row : Column → Value) (left right : Expr) :
    (Expr.binary left .or right).eval undecided row =
      .ofTruth (Kleene.or (left.eval undecided row).asTruth (right.eval undecided row).asTruth) :=
  rfl

/-- The value of an expression depends on its columns alone. -/
theorem eval_congr {undecided : Undecided} {row row' : Column → Value} {e : Expr}
    (h : ∀ c ∈ e.columnList, row c = row' c) : e.eval undecided row = e.eval undecided row' := by
  induction e with
  | column c => exact h c (List.mem_singleton.2 rfl)
  | literal v => rfl
  | binary left op right ihl ihr =>
    rw [eval, eval, ihl fun c hc => h c (List.mem_append_left _ hc),
      ihr fun c hc => h c (List.mem_append_right _ hc)]
  | not operand ih => rw [eval, eval, ih h]

/-- Whether an expression is made to be true, false or unknown: a comparison, a connective, a
negation, or a truth value or null as a constant. -/
def isCondition : Expr → Bool
  | .binary _ _ _ => true
  | .not _ => true
  | .literal (.bool _) => true
  | .literal .null => true
  | _ => false

/-- Every operand of a connective or a negation is a condition. -/
def WellSorted : Expr → Prop
  | .binary left op right =>
    (op.isLogical = true → left.isCondition = true ∧ right.isCondition = true) ∧
      left.WellSorted ∧ right.WellSorted
  | .not operand => operand.isCondition = true ∧ operand.WellSorted
  | _ => True

/-- On the row, every operand of a connective or a negation is true, false or null. -/
def SortedOn (undecided : Undecided) (row : Column → Value) : Expr → Prop
  | .binary left op right =>
    (op.isLogical = true →
        (left.eval undecided row).isTruth = true ∧ (right.eval undecided row).isTruth = true) ∧
      left.SortedOn undecided row ∧ right.SortedOn undecided row
  | .not operand => (operand.eval undecided row).isTruth = true ∧ operand.SortedOn undecided row
  | _ => True

/-- A condition has a truth value on every row. -/
theorem isTruth_eval {e : Expr} (h : e.isCondition = true) (undecided : Undecided)
    (row : Column → Value) : (e.eval undecided row).isTruth = true := by
  cases e with
  | column c => exact absurd h (by simp [isCondition])
  | literal v =>
    cases v with
    | null | bool => rfl
    | int | float | string => exact absurd h (by simp [isCondition])
  | binary | not => exact Value.isTruth_ofTruth _

/-- A well-sorted expression has truth values as operands wherever they are called for, on every
row. -/
theorem WellSorted.sortedOn {e : Expr} (h : e.WellSorted) (undecided : Undecided)
    (row : Column → Value) : e.SortedOn undecided row := by
  induction e with
  | column c => trivial
  | literal v => trivial
  | binary left op right ihl ihr =>
    obtain ⟨hop, hleft, hright⟩ := h
    refine ⟨fun hlogical => ?_, ihl hleft, ihr hright⟩
    exact ⟨isTruth_eval (hop hlogical).1 undecided row, isTruth_eval (hop hlogical).2 undecided row⟩
  | not operand ih => exact ⟨isTruth_eval h.1 undecided row, ih h.2⟩

end Expr

end QueryPlan
