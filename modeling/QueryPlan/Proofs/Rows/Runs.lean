import QueryPlan.Proofs.Rows.Rules
import QueryPlan.Proofs.Valid.Runs

/-!
# Runs keep rows

An optimizer that eliminates no join turns a plan into one that produces the same rows, on every
database and whatever the joins test.

Main results:

- Definitions `Plan.DistinctAliases` and `Plan.InContract`: what callers promise about a plan.
- Theorem `Branch.Steps.rows_eq`: rules applied one after the other keep the rows.
- Theorem `Optimizer.rows_preserved`: a run keeps the rows of the plan.
-/

namespace QueryPlan

namespace Plan

/-- No alias is scanned twice. -/
def DistinctAliases (p : Plan) : Prop :=
  ∀ root tables, p.root = some root → p.scannedTables root = .ok tables → tables.Nodup

/-- The predicates of all filters read only columns of their filters, and the operands of their
connectives are conditions. -/
def InContract (p : Plan) : Prop :=
  ∀ id n f, p.Reachable id → p.get? id = some n → n.op = .filter f → f.InContract

variable {p : Plan} {b : Branch} {rest : NodeId → Option Node}

/-- The aliases of a plan are distinct if the list of scanned tables has no repetition. -/
theorem distinctAliases_of_scannedTables {root : NodeId} (tables : List String)
    (hroot : p.root = some root) (htables : p.scannedTables root = .ok tables)
    (hnodup : tables.Nodup) : p.DistinctAliases := by
  intro root' tables' hroot' htables'
  obtain rfl : root = root' := Option.some.inj (hroot.symm.trans hroot')
  obtain rfl : tables = tables' := Except.ok.inj (htables.symm.trans htables')
  exact hnodup

/-- A plan with distinct aliases has no repeated scan in its tree. -/
theorem Shows.nodup_scans (h : p.Shows b rest) (hp : p.DistinctAliases) : b.scans.Nodup :=
  hp b.top b.scans h.root_eq h.has.scannedTables_eq

/-- The tree of a plan in contract is in contract. -/
theorem Shows.inContract (h : p.Shows b rest) (hp : p.InContract) : b.InContract := by
  intro f hf
  obtain ⟨⟨x, n⟩, he, hop⟩ := (Branch.mem_ops_iff none).1 hf
  refine hp x n f (h.reachable_iff.2 ?_) (h.splits.get?_entry x n he) hop
  rw [← b.map_fst_entries none]
  exact Splits.mem_map_fst he

end Plan

/-- Rules that eliminate no join, applied one after the other, keep the rows. -/
theorem Branch.Steps.rows_eq {rules : Rule → Prop} {b b' : Branch} (h : Steps rules b b')
    (hrules : ¬ rules .joinElimination) (hscans : b.scans.Nodup) (hcontract : b.InContract)
    (undecided : Undecided) (joins : JoinConditions) (db : Database) :
    b'.rows (.kleene undecided joins) db = b.rows (.kleene undecided joins) db := by
  -- The promises about scans and filters are carried along with the rows.
  have hall := h.preserves (motive := fun t => t.scans.Nodup ∧ t.InContract ∧
    t.rows (.kleene undecided joins) db = b.rows (.kleene undecided joins) db) ?_
    ⟨hscans, hcontract, rfl⟩
  · exact hall.2.2
  · rintro t t' hstep ⟨hnodup, hpromise, hrows⟩
    cases hstep with
    | @rewrite r c c' s s' hr hrewrites =>
      have hne : r ≠ .joinElimination := fun heq => hrules (heq ▸ hr)
      refine ⟨?_, hrewrites.inContract hne hpromise, ?_⟩
      · rw [hrewrites.scans_eq hne]
        exact hnodup
      · rw [hrewrites.rows_eq hne hnodup hpromise, hrows]

namespace Optimizer

/-- A run that eliminates no join keeps the rows of a valid plan, with their multiplicities, on every
database. -/
theorem rows_preserved {p : Plan} (hvalid : p.validate = .ok ()) (hdistinct : p.DistinctAliases)
    (hcontract : p.InContract) {rules : RuleSet} (hrules : Rule.joinElimination ∉ rules.rules)
    (validates traces : Bool) (undecided : Undecided) (joins : JoinConditions) (db : Database) :
    ∃ out rows, (ofRules rules validates traces).optimize p = .ok out ∧
      p.rows (.kleene undecided joins) db = .ok rows ∧
        out.plan.rows (.kleene undecided joins) db = .ok rows := by
  obtain ⟨b, rest, hsound⟩ := Plan.validate_eq_ok_iff.1 hvalid
  obtain ⟨b', out, hout, hsound', hsteps⟩ :=
    exists_optimize (sorted_ofRules rules validates traces) hsound
  have hrows := hsteps.rows_eq (fun hruns => hrules (runs_ofRules hruns))
    (hsound.shows.nodup_scans hdistinct) (hsound.shows.inContract hcontract) undecided joins db
  refine ⟨out, b.rows (.kleene undecided joins) db, hout, hsound.shows.rows_eq, ?_⟩
  rw [hsound'.shows.rows_eq, hrows]

/-- All rules that eliminate no join, run on a plan on which all kinds of operators stand. -/
theorem rows_preserved_filteredJoin :
    ∃ out rows,
      (ofRules ⟨[.projectionBelowJoin, .projectionBelowFilter, .predicatePushdown,
        .predicateSimplification], by decide⟩ true false).optimize Plan.filteredJoin = .ok out ∧
      Plan.filteredJoin.rows (.kleene (fun _ _ _ => none) .allEqual)
          (fun _ => [fun i => some (.int (.ofNat i.toNat))]) = .ok rows ∧
        out.plan.rows (.kleene (fun _ _ _ => none) .allEqual)
          (fun _ => [fun i => some (.int (.ofNat i.toNat))]) = .ok rows := by
  have hvalid : Plan.filteredJoin.validate = .ok () := by cbv
  have hdistinct : Plan.filteredJoin.DistinctAliases :=
    Plan.distinctAliases_of_scannedTables ["a", "b"] rfl (by cbv) (by decide)
  have hcontract : Plan.filteredJoin.InContract := by
    rintro id n f - hget hop
    have hlt : id < 5 := Plan.lt_size_of_get? hget
    interval_cases id
    case «3» =>
      obtain rfl := Option.some.inj hget
      obtain rfl := Operator.filter.inj hop
      exact ⟨fun c hc => ColumnSet.mem_ofList.2 hc, fun h => absurd h Bool.false_ne_true, trivial,
        trivial⟩
    all_goals
      obtain rfl := Option.some.inj hget
      exact absurd hop (by simp)
  exact rows_preserved hvalid hdistinct hcontract (by decide) true false _ _ _

end Optimizer

end QueryPlan
