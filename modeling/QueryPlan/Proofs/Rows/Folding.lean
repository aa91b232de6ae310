import QueryPlan.Proofs.Folding
import QueryPlan.Proofs.Rows.Truth

/-!
# Folding and evaluation

Folding may drop an operand of a connective only if the other operand is known to be a truth value: a
connective of `true` and a number is null, and the number alone is not.  On a row on which every operand
of a connective or a negation has a truth value, an expression keeps its value when it is folded.

Main results:

- Theorem `Expr.eval_reduce`: a reduced operator keeps its value.
- Theorem `Expr.WellSorted.fold`: folding keeps the operands of connectives conditions.
- Theorem `Expr.SortedOn.eval_fold`: folding keeps the value of an expression.
- Theorem `Expr.fold_preserves_eval`: it also keeps the truth values of the operands, so that what is
  folded may be folded again.
-/

namespace QueryPlan

namespace Expr

/-! ## Reduction of one operator -/

/-- A connective without its constant operand has the same value, if the other operand has a truth
value. -/
theorem eval_absorb {undecided : Undecided} {row : Column → Value} {left right e : Expr}
    {op : BinaryOp} (h : absorb? left op right = some e)
    (hl : (left.eval undecided row).isTruth = true)
    (hr : (right.eval undecided row).isTruth = true) :
    e.eval undecided row = (Expr.binary left op right).eval undecided row := by
  have hleft := Value.ofTruth_asTruth hl
  have hright := Value.ofTruth_asTruth hr
  have hbool : ∀ b : Bool, ((Expr.literal (.bool b)).eval undecided row).asTruth = some b :=
    fun _ => rfl
  unfold absorb? at h
  cases op <;> simp only at h
  case and =>
    rw [eval_and]
    split at h
    · rename_i hconst
      obtain rfl := Option.some.inj h
      rw [isBool_iff.1 hconst, hbool, Kleene.and_true, hleft]
    split at h
    · rename_i hconst
      obtain rfl := Option.some.inj h
      rw [isBool_iff.1 hconst, hbool, Kleene.true_and, hright]
    split at h
    · rename_i hconst
      obtain rfl := Option.some.inj h
      rcases Bool.or_eq_true_iff.1 hconst with hconst | hconst
      · rw [isBool_iff.1 hconst, hbool, Kleene.false_and]
        rfl
      · rw [isBool_iff.1 hconst, hbool, Kleene.and_false]
        rfl
    · exact absurd h.symm (Option.some_ne_none e)
  case or =>
    rw [eval_or]
    split at h
    · rename_i hconst
      obtain rfl := Option.some.inj h
      rcases Bool.or_eq_true_iff.1 hconst with hconst | hconst
      · rw [isBool_iff.1 hconst, hbool, Kleene.true_or]
        rfl
      · rw [isBool_iff.1 hconst, hbool, Kleene.or_true]
        rfl
    split at h
    · rename_i hconst
      obtain rfl := Option.some.inj h
      rw [isBool_iff.1 hconst, hbool, Kleene.or_false, hleft]
    split at h
    · rename_i hconst
      obtain rfl := Option.some.inj h
      rw [isBool_iff.1 hconst, hbool, Kleene.false_or, hright]
    · exact absurd h.symm (Option.some_ne_none e)
  all_goals exact absurd h.symm (Option.some_ne_none e)

/-- A reduced expression has the value of the operator between its operands. -/
theorem eval_reduce {undecided : Undecided} {row : Column → Value} {left right e : Expr}
    {op : BinaryOp} (h : reduce? left op right = some e)
    (hop : op.isLogical = true →
      (left.eval undecided row).isTruth = true ∧ (right.eval undecided row).isTruth = true) :
    e.eval undecided row = (Expr.binary left op right).eval undecided row := by
  have habsorb : ∀ {l r : Expr}, absorb? l op r = some e →
      (op.isLogical = true →
        (l.eval undecided row).isTruth = true ∧ (r.eval undecided row).isTruth = true) →
        e.eval undecided row = (Expr.binary l op r).eval undecided row := by
    intro l r hl hop
    have hboth := hop (absorb?_cases hl).1
    exact eval_absorb hl hboth.1 hboth.2
  unfold reduce? at h
  split at h
  · split at h
    · rename_i v hv
      obtain rfl := Option.some.inj h
      exact Value.evaluate?_eq_outcome hv
    · exact habsorb h hop
  · exact habsorb h hop

/-! ## Folding of an expression -/

/-- The constant for a truth value is a condition. -/
theorem isCondition_ofTruth (t : Option Bool) :
    (Expr.literal (.ofTruth t)).isCondition = true := by
  cases t <;> rfl

/-- Folding keeps an expression well sorted, and it leaves conditions conditions. -/
theorem WellSorted.fold {e : Expr} (h : e.WellSorted) :
    e.fold.1.WellSorted ∧ (e.isCondition = true → e.fold.1.isCondition = true) := by
  induction e with
  | column c => exact ⟨trivial, id⟩
  | literal v => exact ⟨trivial, id⟩
  | binary left op right ihl ihr =>
    obtain ⟨hop, hleft, hright⟩ := h
    obtain ⟨hleft', hleftCondition⟩ := ihl hleft
    obtain ⟨hright', hrightCondition⟩ := ihr hright
    rw [Expr.fold]
    split
    · rename_i e hreduce
      rcases reduce?_cases hreduce with ⟨t, rfl⟩ | ⟨hlogical, rfl | rfl⟩
      · exact ⟨trivial, fun _ => isCondition_ofTruth t⟩
      · exact ⟨hleft', fun _ => hleftCondition (hop hlogical).1⟩
      · exact ⟨hright', fun _ => hrightCondition (hop hlogical).2⟩
    · refine ⟨⟨fun hlogical => ?_, hleft', hright'⟩, fun _ => rfl⟩
      exact ⟨hleftCondition (hop hlogical).1, hrightCondition (hop hlogical).2⟩
  | not operand ih =>
    obtain ⟨hcondition, hoperand⟩ := h
    obtain ⟨hoperand', hcondition'⟩ := ih hoperand
    rw [Expr.fold]
    split
    · exact ⟨trivial, fun _ => isCondition_ofTruth _⟩
    · exact ⟨⟨hcondition' hcondition, hoperand'⟩, fun _ => rfl⟩

/-- Folding keeps the value of an expression on a row on which it is sorted. -/
theorem SortedOn.eval_fold {undecided : Undecided} {row : Column → Value} {e : Expr}
    (h : e.SortedOn undecided row) : e.fold.1.eval undecided row = e.eval undecided row := by
  induction e with
  | column c => rfl
  | literal v => rfl
  | binary left op right ihl ihr =>
    obtain ⟨hop, hleft, hright⟩ := h
    have hoperands : (Expr.binary left.fold.1 op right.fold.1).eval undecided row =
        (Expr.binary left op right).eval undecided row := by
      rw [eval, eval, ihl hleft, ihr hright]
    rw [Expr.fold]
    split
    · rename_i e hreduce
      -- The folded operands have the values of the operands, so they have truth values too.
      rw [← ihl hleft, ← ihr hright] at hop
      exact (eval_reduce hreduce hop).trans hoperands
    · exact hoperands
  | not operand ih =>
    have hoperand := ih h.2
    rw [Expr.fold]
    split
    · rename_i t htruth
      obtain ⟨v, hv, ht⟩ := Option.bind_eq_some_iff.1 htruth
      have hliteral : operand.fold.1 = .literal v := by
        cases hfold : operand.fold.1 with
        | literal w => rw [hfold] at hv; rw [Option.some.inj hv]
        | column | binary | not => rw [hfold] at hv; exact absurd hv.symm (Option.some_ne_none v)
      rw [eval, eval, ← hoperand, hliteral, eval, (Value.ofTruth_of_truth? ht).2]
      rcases t with _ | _ | _ <;> rfl
    · rw [eval, eval, hoperand]

/-- A folded expression is sorted on the rows on which the expression is. -/
theorem SortedOn.fold {undecided : Undecided} {row : Column → Value} {e : Expr}
    (h : e.SortedOn undecided row) : e.fold.1.SortedOn undecided row := by
  induction e with
  | column c => trivial
  | literal v => trivial
  | binary left op right ihl ihr =>
    obtain ⟨hop, hleft, hright⟩ := h
    rw [Expr.fold]
    split
    · rename_i e hreduce
      rcases reduce?_cases hreduce with ⟨t, rfl⟩ | ⟨-, rfl | rfl⟩
      · trivial
      · exact ihl hleft
      · exact ihr hright
    · refine ⟨?_, ihl hleft, ihr hright⟩
      rwa [hleft.eval_fold, hright.eval_fold]
  | not operand ih =>
    obtain ⟨htruth, hoperand⟩ := h
    rw [Expr.fold]
    split
    · trivial
    · refine ⟨?_, ih hoperand⟩
      rwa [hoperand.eval_fold]

/-- Folding keeps the value of an expression on every row on which the operands of its connectives and
negations are true, false or null, and on such a row the operands that are left are so again. -/
theorem fold_preserves_eval {e : Expr} {undecided : Undecided} {row : Column → Value}
    (h : e.SortedOn undecided row) :
    e.fold.1.eval undecided row = e.eval undecided row ∧ e.fold.1.SortedOn undecided row :=
  ⟨h.eval_fold, h.fold⟩

/-- Columns that hold truth values stand beside comparisons, of which one cannot be decided. -/
def flaggedRange : Expr :=
  .not (.binary
    (.binary (.column ⟨"a", 1⟩) .and (.binary (.literal .null) .eq (.literal (.int 3)))) .or
    (.binary (.binary (.literal (.string "x")) .lt (.literal (.int 3))) .and
      (.binary (.column ⟨"a", 2⟩) .or (.literal (.bool false)))))

/-- The theorem applies to a predicate that is no condition throughout, on a row that makes it one. -/
theorem fold_preserves_eval_flaggedRange :
    flaggedRange.SortedOn (fun _ _ _ => some true)
      (fun c => if c.index = 1 then .bool true else .null) ∧
    flaggedRange.fold.1.eval (fun _ _ _ => some true)
        (fun c => if c.index = 1 then .bool true else .null) =
      flaggedRange.eval (fun _ _ _ => some true)
        (fun c => if c.index = 1 then .bool true else .null) ∧
    flaggedRange.fold.1.SortedOn (fun _ _ _ => some true)
      (fun c => if c.index = 1 then .bool true else .null) := by
  have hsorted : flaggedRange.SortedOn (fun _ _ _ => some true)
      (fun c => if c.index = 1 then .bool true else .null) := by
    simp [flaggedRange, SortedOn, eval, BinaryOp.isLogical]
  exact ⟨hsorted, fold_preserves_eval hsorted⟩

end Expr

end QueryPlan
