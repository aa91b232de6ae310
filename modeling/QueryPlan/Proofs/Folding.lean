import QueryPlan.Expr.Folding

/-!
# What folding leaves

Folding leaves no constant part behind, so a folded expression is not changed by folding it again,
and folding says so.  What it leaves has no column that was not there before.

Main results:

- Theorem `Expr.reduce?_cases`: what an operator between folded operands is reduced to.
- Theorem `Expr.fold_eq_self`: folding that reports no change makes none.
- Theorem `Expr.fold_fold`: folding a folded expression reports no change.
- Theorem `Expr.columnList_fold_subset`: folding adds no column.
- Definition `Expr.IsNormal`: there is nothing to fold.
- Theorem `Expr.fold_eq_false_iff`: folding reports no change exactly of normal expressions.
- Theorem `Expr.fold_reaches_normal_form`: one call of folding is enough.
-/

namespace QueryPlan

/-- A folded constant is a truth value or null. -/
theorem Value.exists_ofTruth_of_evaluate? {op : BinaryOp} {a b v : Value}
    (h : Value.evaluate? op a b = some v) : ∃ t, v = .ofTruth t := by
  unfold Value.evaluate? at h
  split at h
  · split at h
    · exact ⟨_, (Option.some.inj h).symm⟩
    · exact absurd h.symm (Option.some_ne_none v)
  split at h
  · exact ⟨none, (Option.some.inj h).symm⟩
  · obtain ⟨t, -, rfl⟩ := Option.map_eq_some_iff.1 h
    exact ⟨some t, rfl⟩

namespace Expr

/-- A connective with a constant operand is that operand or the other one. -/
theorem absorb?_cases {left right e : Expr} {op : BinaryOp} (h : absorb? left op right = some e) :
    op.isLogical = true ∧ ((∃ b, e = .literal (.bool b)) ∨ e = left ∨ e = right) := by
  unfold absorb? at h
  cases op <;> simp only at h
  case and =>
    refine ⟨rfl, ?_⟩
    split at h
    · exact .inr (.inl (Option.some.inj h).symm)
    split at h
    · exact .inr (.inr (Option.some.inj h).symm)
    split at h
    · exact .inl ⟨false, (Option.some.inj h).symm⟩
    · exact absurd h.symm (Option.some_ne_none e)
  case or =>
    refine ⟨rfl, ?_⟩
    split at h
    · exact .inl ⟨true, (Option.some.inj h).symm⟩
    split at h
    · exact .inr (.inl (Option.some.inj h).symm)
    split at h
    · exact .inr (.inr (Option.some.inj h).symm)
    · exact absurd h.symm (Option.some_ne_none e)
  all_goals exact absurd h.symm (Option.some_ne_none e)

/-- An operator between folded operands is reduced to a constant, or a connective to one of its
operands. -/
theorem reduce?_cases {left right e : Expr} {op : BinaryOp} (h : reduce? left op right = some e) :
    (∃ t, e = .literal (.ofTruth t)) ∨ (op.isLogical = true ∧ (e = left ∨ e = right)) := by
  have habsorb : ∀ {l r : Expr}, absorb? l op r = some e →
      (∃ t, e = .literal (.ofTruth t)) ∨ (op.isLogical = true ∧ (e = l ∨ e = r)) := by
    intro l r hl
    obtain ⟨hop, ⟨b, rfl⟩ | hside⟩ := absorb?_cases hl
    · exact .inl ⟨some b, rfl⟩
    · exact .inr ⟨hop, hside⟩
  unfold reduce? at h
  split at h
  · split at h
    · rename_i v hv
      obtain ⟨t, rfl⟩ := Value.exists_ofTruth_of_evaluate? hv
      exact .inl ⟨t, (Option.some.inj h).symm⟩
    · exact habsorb h
  · exact habsorb h

/-- Folding that reports no change makes none. -/
theorem fold_eq_self {e : Expr} (h : e.fold.2 = false) : e.fold.1 = e := by
  induction e with
  | column c => rfl
  | literal v => rfl
  | binary left op right ihl ihr =>
    simp only [fold] at h ⊢
    split at h
    · exact absurd h.symm Bool.false_ne_true
    rename_i hreduce
    rw [Bool.or_eq_false_iff] at h
    simp only [ihl h.1, ihr h.2]
  | not operand ih =>
    simp only [fold] at h ⊢
    split at h
    · exact absurd h.symm Bool.false_ne_true
    rename_i htruth
    simp only [ih h]

/-- Folding a folded expression reports no change. -/
theorem fold_fold (e : Expr) : e.fold.1.fold.2 = false := by
  induction e with
  | column c => rfl
  | literal v => rfl
  | binary left op right ihl ihr =>
    rw [fold]
    split
    · rename_i e hreduce
      rcases reduce?_cases hreduce with ⟨t, rfl⟩ | ⟨-, rfl | rfl⟩
      · rfl
      · exact ihl
      · exact ihr
    · rename_i hreduce
      simp only [fold, fold_eq_self ihl, fold_eq_self ihr, hreduce, ihl, ihr, Bool.or_self]
  | not operand ih =>
    rw [fold]
    split
    · rfl
    · rename_i htruth
      simp only [fold, fold_eq_self ih, htruth, ih]

/-- Folding adds no column. -/
theorem columnList_fold_subset (e : Expr) : e.fold.1.columnList ⊆ e.columnList := by
  induction e with
  | column c => exact fun _ h => h
  | literal v => exact fun _ h => h
  | binary left op right ihl ihr =>
    rw [Expr.fold]
    split
    · rename_i e hreduce
      rcases reduce?_cases hreduce with ⟨t, rfl⟩ | ⟨-, rfl | rfl⟩
      · exact List.nil_subset _
      · exact fun c hc => List.mem_append_left _ (ihl hc)
      · exact fun c hc => List.mem_append_right _ (ihr hc)
    · intro c hc
      rcases List.mem_append.1 hc with hc | hc
      · exact List.mem_append_left _ (ihl hc)
      · exact List.mem_append_right _ (ihr hc)
  | not operand ih =>
    rw [Expr.fold]
    split
    · exact List.nil_subset _
    · exact ih

/-! ## Normal forms -/

/-- Only the constant itself is recognised as a constant truth value. -/
theorem isBool_iff {e : Expr} {b : Bool} : e.isBool b = true ↔ e = .literal (.bool b) := by
  cases e with
  | literal v => cases v <;> simp [isBool, literal?, Value.bool?]
  | column | binary | not => simp [isBool, literal?]

/-- The number of nodes of an expression. -/
def size : Expr → Nat
  | .column _ | .literal _ => 1
  | .binary left _ right => left.size + right.size + 1
  | .not operand => operand.size + 1

/-- There is nothing to fold in an expression: no operator stands between constants on which it is
defined, no connective has an operand that is a constant truth value, and nothing negated is a constant
truth value or null. -/
def IsNormal : Expr → Prop
  | .column _ | .literal _ => True
  | .binary left op right =>
    left.IsNormal ∧ right.IsNormal ∧
      (∀ a b, left = .literal a → right = .literal b → Value.evaluate? op a b = none) ∧
        (op.isLogical = true → ∀ b, left ≠ .literal (.bool b) ∧ right ≠ .literal (.bool b))
  | .not operand => operand.IsNormal ∧ ∀ t, operand ≠ .literal (.ofTruth t)

/-- Nothing is absorbed exactly if no operand of a connective is a constant truth value. -/
theorem absorb?_eq_none_iff {left right : Expr} {op : BinaryOp} :
    absorb? left op right = none ↔
      (op.isLogical = true → ∀ b, left ≠ .literal (.bool b) ∧ right ≠ .literal (.bool b)) := by
  simp only [ne_eq, ← isBool_iff]
  cases op with
  | and | or =>
    cases hl : left.isBool true <;> cases hl' : left.isBool false <;>
      cases hr : right.isBool true <;> cases hr' : right.isBool false <;>
        simp [absorb?, BinaryOp.isLogical, hl, hl', hr, hr']
  | eq | notEq | lt | ltEq | gt | gtEq => simp [absorb?, BinaryOp.isLogical]

/-- Nothing is reduced exactly if no constants can be evaluated and nothing can be absorbed. -/
theorem reduce?_eq_none_iff {left right : Expr} {op : BinaryOp} :
    reduce? left op right = none ↔
      (∀ a b, left = .literal a → right = .literal b → Value.evaluate? op a b = none) ∧
        (op.isLogical = true → ∀ b, left ≠ .literal (.bool b) ∧ right ≠ .literal (.bool b)) := by
  rw [← absorb?_eq_none_iff]
  unfold reduce?
  split
  · rename_i a b
    cases hv : Value.evaluate? op a b <;> simp [hv]
  · rename_i hconst
    refine (and_iff_right ?_).symm
    rintro a b rfl rfl
    exact absurd rfl (hconst a b rfl)

/-- A negation keeps its operand exactly if that is neither a constant truth value nor null. -/
theorem truth?_eq_none_iff {e : Expr} :
    e.literal?.bind Value.truth? = none ↔ ∀ t, e ≠ .literal (.ofTruth t) := by
  constructor
  · rintro h t rfl
    cases t <;> exact absurd h (Option.some_ne_none _)
  · intro h
    cases e with
    | literal v =>
      cases v with
      | null => exact absurd rfl (h none)
      | bool b => exact absurd rfl (h (some b))
      | int | float | string => rfl
    | column | binary | not => rfl

/-- Folding reports no change exactly if there is nothing to fold. -/
theorem fold_eq_false_iff {e : Expr} : e.fold.2 = false ↔ e.IsNormal := by
  induction e with
  | column c => exact iff_of_true rfl trivial
  | literal v => exact iff_of_true rfl trivial
  | binary left op right ihl ihr =>
    rw [IsNormal, ← ihl, ← ihr, ← reduce?_eq_none_iff]
    constructor
    · intro h
      simp only [fold] at h
      split at h
      · exact absurd h.symm Bool.false_ne_true
      · rename_i hreduce
        rw [Bool.or_eq_false_iff] at h
        rw [fold_eq_self h.1, fold_eq_self h.2] at hreduce
        exact ⟨h.1, h.2, hreduce⟩
    · rintro ⟨hl, hr, hreduce⟩
      simp only [fold, fold_eq_self hl, fold_eq_self hr, hreduce, hl, hr, Bool.or_self]
  | not operand ih =>
    rw [IsNormal, ← ih, ← truth?_eq_none_iff]
    constructor
    · intro h
      simp only [fold] at h
      split at h
      · exact absurd h.symm Bool.false_ne_true
      · rename_i htruth
        rw [fold_eq_self h] at htruth
        exact ⟨h, htruth⟩
    · rintro ⟨ho, htruth⟩
      simp only [fold, fold_eq_self ho, htruth, ho]

/-- An expression has at least one node. -/
theorem size_pos (e : Expr) : 0 < e.size := by
  cases e <;> simp [size]

/-- Folding makes an expression no larger, and smaller if it reports a change. -/
theorem size_fold_add_le (e : Expr) : e.fold.1.size + e.fold.2.toNat ≤ e.size := by
  induction e with
  | column c => exact Nat.le_refl 1
  | literal v => exact Nat.le_refl 1
  | binary left op right ihl ihr =>
    have hl := left.size_pos
    have hr := right.size_pos
    rw [fold]
    split
    · rename_i e hreduce
      -- What is left is a constant or one of the operands.
      rcases reduce?_cases hreduce with ⟨t, rfl⟩ | ⟨-, rfl | rfl⟩
      all_goals
        simp only [size, Bool.toNat_true]
        omega
    · have hflags : (left.fold.2 || right.fold.2).toNat ≤
          left.fold.2.toNat + right.fold.2.toNat := by
        cases left.fold.2 <;> simp
      simp only [size]
      omega
  | not operand ih =>
    have ho := operand.size_pos
    rw [fold]
    split
    · simp only [size, Bool.toNat_true]
      omega
    · simp only [size]
      omega

/-- One call of folding reaches a normal form and reports exactly whether there was anything to fold:
without a change the expression is the same, with a change it has fewer nodes, and folding the result
changes nothing.  No column is read that was not read before. -/
theorem fold_reaches_normal_form (e : Expr) :
    (e.fold.2 = false → e.fold.1 = e) ∧ (e.fold.2 = true → e.fold.1.size < e.size) ∧
      e.fold.1.fold = (e.fold.1, false) ∧ (∀ c ∈ e.fold.1.columns, c ∈ e.columns) ∧
        (e.fold.2 = false ↔ e.IsNormal) ∧ e.fold.1.IsNormal := by
  refine ⟨fold_eq_self, fun hchanged => ?_, ?_, fun c hc => ?_, fold_eq_false_iff, ?_⟩
  · have hle := e.size_fold_add_le
    rw [hchanged, Bool.toNat_true] at hle
    omega
  · have hagain := e.fold_fold
    exact Prod.ext (fold_eq_self hagain) hagain
  · rw [columns, ColumnSet.mem_ofList] at hc ⊢
    exact e.columnList_fold_subset hc
  · exact fold_eq_false_iff.1 e.fold_fold

end Expr

end QueryPlan
