import QueryPlan.Proofs.Columns.Order
import QueryPlan.Proofs.Filters.Scope
import QueryPlan.Proofs.Filters.Simplified

/-!
# Partly folded predicates

When a predicate is folded to another one that still depends on the row, its filter gives up the columns
that only the lost part read, and the tables of these columns that nothing in the filter mentions any
more.  A column that the filter merely passes through was never read, so it stays, and so does a column
that the lost part and the rest both read.

Main results:

- Definition `Filter.Loses`: a column that only the lost part of the predicate read.
- Definition `Filter.Forgets`: a table that only lost columns mentioned.
- Theorem `PredicateSimplification.withPredicate_eq`: the filter with the new predicate.
- Theorem `PredicateSimplification.apply_partial_fold`: what simplification does to the plan.
-/

namespace QueryPlan

namespace Filter

/-- The predicate of the filter reads the column and the one that takes its place does not. -/
def Loses (f : Filter) (e : Expr) (x : Column) : Prop :=
  x ∈ f.predicate.columnList ∧ x ∉ e.columnList

instance (f : Filter) (e : Expr) (x : Column) : Decidable (f.Loses e x) :=
  inferInstanceAs (Decidable (_ ∧ _))

/-- The table has a lost column, but no column that the filter goes on to list or to read. -/
structure Forgets (f : Filter) (e : Expr) (table : String) : Prop where
  exists_lost : ∃ x, f.Loses e x ∧ x.table = table
  not_listed : ∀ x ∈ f.columns, ¬ f.Loses e x → x.table ≠ table
  not_read : ∀ x ∈ e.columnList, x.table ≠ table

/-- The filter with another predicate, without the columns it loses. -/
def narrowedTo (f : Filter) (e : Expr) : Filter :=
  { f with
    predicate := e
    columns := ⟨f.columns.columns.filter fun x => ¬ f.Loses e x⟩
    foreign := ⟨f.foreign.columns.filter fun x => ¬ f.Loses e x⟩ }

end Filter

namespace PredicateSimplification

variable {f : Filter} {e : Expr}

/-- The columns that are dropped are those that the filter loses. -/
theorem mem_droppedColumns {x : Column} : x ∈ droppedColumns f e ↔ f.Loses e x := by
  simp only [droppedColumns, ColumnSet.mem_diff, Expr.columns, ColumnSet.mem_ofList, Filter.Loses]

/-- The columns that are not dropped are those that are not lost. -/
theorem diff_droppedColumns {s : ColumnSet} (h : s.columns.Nodup) :
    s.diff (droppedColumns f e) = ⟨s.columns.filter fun x => ¬ f.Loses e x⟩ := by
  rw [ColumnSet.diff, ColumnSet.select_eq_filter h]
  congr 2
  funext x
  rw [Bool.eq_iff_iff, Bool.not_eq_true', ← Bool.not_eq_true, ColumnSet.contains_iff,
    mem_droppedColumns, decide_eq_true_iff]

/-- If nothing is dropped, nothing is lost. -/
theorem filter_not_loses (h : (droppedColumns f e).isEmpty = true) (l : List Column) :
    l.filter (fun x => ¬ f.Loses e x) = l :=
  List.filter_eq_self.2 fun x _ =>
    decide_eq_true fun hx => ColumnSet.not_mem_of_isEmpty h x (mem_droppedColumns.2 hx)

/-- If no column is listed twice, giving a filter another predicate takes the lost columns away and
changes nothing else. -/
theorem withPredicate_eq (hcolumns : f.columns.columns.Nodup) (hforeign : f.foreign.columns.Nodup) :
    withPredicate f e = f.narrowedTo e := by
  unfold withPredicate Filter.narrowedTo
  by_cases h : (droppedColumns f e).isEmpty = true
  · simp only [if_pos h, filter_not_loses h]
  · simp only [if_neg h, diff_droppedColumns hcolumns, diff_droppedColumns hforeign]

/-- The tables that are stale are those that the filter forgets. -/
theorem mem_staleTables {a : String} : a ∈ staleTables f e ↔ f.Forgets e a := by
  have hlisted : (∃ x ∈ (withPredicate f e).columns, x.table = a) ↔
      ∃ x ∈ f.columns, ¬ f.Loses e x ∧ x.table = a := by
    simp only [mem_withPredicate_columns, mem_droppedColumns, and_assoc]
  rw [staleTables, AliasSet.mem_diff, ColumnSet.mem_tables, Filter.mem_tables_iff, hlisted,
    withPredicate_predicate]
  simp only [mem_droppedColumns]
  constructor
  · rintro ⟨hlost, hnone⟩
    rw [not_or] at hnone
    exact ⟨hlost, fun x hx hkept htable => hnone.1 ⟨x, hx, hkept, htable⟩,
      fun x hx htable => hnone.2 ⟨x, hx, htable⟩⟩
  · rintro ⟨hlost, hlisted, hread⟩
    refine ⟨hlost, ?_⟩
    rintro (⟨x, hx, hkept, htable⟩ | ⟨x, hx, htable⟩)
    · exact hlisted x hx hkept htable
    · exact hread x hx htable

/-- A filter that covers its predicate covers what the predicate is folded to. -/
theorem mem_narrowedTo_fold {x : Column} (hcovers : ∀ y ∈ f.predicate.columnList, y ∈ f.columns)
    (hx : x ∈ f.predicate.fold.1.columnList) : x ∈ (f.narrowedTo f.predicate.fold.1).columns := by
  have hold : x ∈ f.columns := hcovers x (Expr.columnList_fold_subset f.predicate hx)
  have hkept : ¬ f.Loses f.predicate.fold.1 x := fun hlost => hlost.2 hx
  exact List.mem_filter.2 ⟨hold, decide_eq_true hkept⟩

/-- Simplification of an unmarked filter whose predicate is folded, with a change, to no constant.
Neither the validity of the plan nor the place of the filter in it matters. -/
theorem apply_partial_fold {p : Plan} {id : NodeId} {n : Node} (hn : p.get? id = some n)
    (hop : n.op = .filter f) (hv : n.vacuous = false) (hcolumns : f.columns.columns.Nodup)
    (hforeign : f.foreign.columns.Nodup) (hfold : f.predicate.fold = (e, true))
    (htrue : e ≠ .literal (.bool true)) (hfalse : e ≠ .literal (.bool false))
    (hnull : e ≠ .literal .null) :
    ∃ q scope, apply p id = .ok (.replaced q id) ∧
      q.root = p.root ∧ q.nodes.size = p.nodes.size ∧ (∀ x, x ≠ id → q.get? x = p.get? x) ∧
      q.get? id = some { n with op := .filter (f.narrowedTo e), scope := scope } ∧
      (∀ a, a ∈ scope ↔ a ∈ n.scope ∧ ¬ f.Forgets e a) ∧
      ((∀ x ∈ f.predicate.columnList, x ∈ f.columns) →
        ∀ x ∈ e.columnList, x ∈ (f.narrowedTo e).columns) := by
  have hnode : p.node id = .ok n := Plan.node_of_get? hn
  have hverdict : verdict? e = none := verdict?_eq_none_iff.2 ⟨htrue, hfalse, hnull⟩
  have he : f.predicate.fold.1 = e := congrArg Prod.fst hfold
  refine ⟨replacePredicate p id f e, n.scope.diff (staleTables f e), ?_, rfl,
    Plan.size_modify .., fun x hx => ?_, ?_, fun a => ?_, fun hcovers x hx => ?_⟩
  · simp [apply, hnode, hv, hop, hfold, hverdict]
  · rw [replacePredicate, Plan.get?_modify, if_neg hx.symm]
  · rw [replacePredicate, Plan.get?_modify, if_pos rfl, hn, withPredicate_eq hcolumns hforeign]
    rfl
  · rw [AliasSet.mem_diff, mem_staleTables]
  · subst he
    exact mem_narrowedTo_fold hcovers hx

end PredicateSimplification

/-- A filter above the join of two scans.  The second operand of its predicate is never true, and only
that operand reads a column of `b`. -/
def Plan.deadOperand : Plan where
  nodes := #[
    some ⟨.scan "a", some 2, [], .singleton "a", false⟩,
    some ⟨.scan "b", some 2, [], .singleton "b", false⟩,
    some ⟨.join ⟨.ofList [⟨"a", 1⟩, ⟨"b", 1⟩], .empty⟩, some 3, [0, 1], .ofList ["a", "b"], false⟩,
    some ⟨.filter
      { predicate := .binary (.binary (.column ⟨"a", 2⟩) .gt (.literal (.int 3))) .or
          (.binary (.binary (.column ⟨"b", 2⟩) .eq (.column ⟨"a", 2⟩)) .and (.literal (.bool false)))
        columns := .ofList [⟨"a", 0⟩, ⟨"b", 2⟩, ⟨"a", 2⟩] },
      none, [2], .ofList ["a", "b"], false⟩]
  root := some 3

namespace PredicateSimplification

/-- The filter keeps the column that is passed through and the one that both operands read. -/
theorem apply_partial_fold_deadOperand :
    Plan.deadOperand.validate = .ok () ∧
    ∃ n f e, Plan.deadOperand.get? 3 = some n ∧ n.op = .filter f ∧ n.vacuous = false ∧
      f.predicate.fold = (e, true) ∧ f.Forgets e "b" ∧
      (f.narrowedTo e).columns = .ofList [⟨"a", 0⟩, ⟨"a", 2⟩] ∧
      ∃ q scope, apply Plan.deadOperand 3 = .ok (.replaced q 3) ∧
        (∀ x, x ≠ 3 → q.get? x = Plan.deadOperand.get? x) ∧
        q.get? 3 = some { n with op := .filter (f.narrowedTo e), scope := scope } ∧
        ∀ a, a ∈ scope ↔ a ∈ n.scope ∧ ¬ f.Forgets e a := by
  have hvalid : Plan.deadOperand.validate = .ok () := by cbv
  refine ⟨hvalid, _, _, .binary (.column ⟨"a", 2⟩) .gt (.literal (.int 3)), rfl, rfl, rfl, by decide,
    ⟨⟨⟨"b", 2⟩, by decide, rfl⟩, by decide, by decide⟩, by decide, ?_⟩
  obtain ⟨q, scope, happly, -, -, hothers, hfilter, hscope, -⟩ :=
    apply_partial_fold (e := .binary (.column ⟨"a", 2⟩) .gt (.literal (.int 3)))
      (show Plan.deadOperand.get? 3 = some _ from rfl) rfl rfl (by decide) (by decide) (by decide)
      (by decide) (by decide) (by decide)
  exact ⟨q, scope, happly, hothers, hfilter, hscope⟩

end PredicateSimplification

end QueryPlan
