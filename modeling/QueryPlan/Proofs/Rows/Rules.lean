import QueryPlan.Proofs.Rows.Contract
import QueryPlan.Proofs.Rows.Tree

/-!
# Rules keep rows

Each rule but join elimination leaves the rows of the branch it rewrites as they are.

Main results:

- Theorem `PredicatePushdown.Pushes.rows_eq`: a filter may be tested on the branch it refers to.
- Theorem `PredicateSimplification.Simplifies.rows_eq`: folding changes no row.
- Theorem `ProjectionPushdown.Narrows.map_keep_rows`: a narrowed branch has the same rows up to columns
  that are not needed.
- Theorem `Rule.Rewrites.rows_eq`: a rule that eliminates no join keeps the rows of the plan.
-/

namespace QueryPlan

variable {sem : Semantics} {db : Database}

namespace Branch

/-- Different branches scan different tables if no alias is scanned twice. -/
theorem scans_disjoint (left right : List Branch) {b x : Branch}
    (h : ((left ++ b :: right).flatMap scans).Nodup) (hx : x ∈ left ++ right) :
    ∀ a ∈ b.tables, a ∉ x.tables := by
  intro a ha hax
  rw [mem_tables] at ha hax
  rw [List.flatMap_append, List.flatMap_cons, List.nodup_append] at h
  obtain ⟨-, hbr, hleft⟩ := h
  rcases List.mem_append.1 hx with hx | hx
  · exact hleft a (List.mem_flatMap.2 ⟨x, hx, hax⟩) a (List.mem_append_left _ ha) rfl
  · exact (List.nodup_append.1 hbr).2.2 a ha a (List.mem_flatMap.2 ⟨x, hx, hax⟩) rfl

end Branch

/-- The columns of the predicate of a filter belong to tables the filter refers to. -/
theorem Filter.table_mem_tables {f : Filter} {c : Column} (hc : c ∈ f.predicate.columnList) :
    c.table ∈ f.tables := by
  refine AliasSet.mem_union.2 (.inr ?_)
  exact ColumnSet.mem_tables.2 ⟨c, ColumnSet.mem_ofList.2 hc, rfl⟩

/-- A filter may be tested on the branch that scans all tables it refers to. -/
theorem PredicatePushdown.Pushes.rows_eq {s s' : Branch} (h : Pushes s s') (hs : s.scans.Nodup) :
    s'.rows sem db = s.rows sem db := by
  cases h with
  | @push id join l m f cond left right b hl hm hne hb hothers =>
    have hnodup : ((left ++ b :: right).flatMap Branch.scans).Nodup := by
      rw [Branch.scans_single (by rw [hl]; rfl), Branch.scans_node, hm] at hs
      exact hs
    have hfilter : (Branch.node id
        { l with scope := (l.scope.inter b.tables).union f.tables } [b]).rows sem db =
          (b.rows sem db).filter (sem.passes f.predicate · = true) := by
      rw [Branch.rows_single]
      simp only [hl, Operator.output]
    have hnone : ∀ x ∈ left.map (Branch.rows sem db) ++ right.map (Branch.rows sem db),
        ∀ r ∈ x, ∀ c, c ∈ f.predicate.columnList → r c = none := by
      intro x hx r hr c hc
      rw [← List.map_append] at hx
      obtain ⟨t, ht, rfl⟩ := List.mem_map.1 hx
      refine Branch.within_tables hr c (Branch.scans_disjoint left right hnodup ht _ ?_)
      exact AliasSet.subset_iff.1 hb _ (Filter.table_mem_tables hc)
    rw [Branch.rows_node, Branch.rows_single, Branch.rows_node]
    simp only [List.map_append, List.map_cons]
    rw [hfilter, hl, hm, Row.combine_filter (sem.passes_dependsOn f.predicate) hnone]
    simp only [Operator.output]
    rw [Multiset.filter_filter, Multiset.filter_filter]
    apply Multiset.filter_congr
    intro r _
    exact and_comm

namespace PredicateSimplification

variable {undecided : Undecided} {joins : JoinConditions}

/-- A row passes a folded predicate if it passes the predicate. -/
theorem passes_fold {f : Filter} (hf : f.InContract) (r : Row) :
    (Semantics.kleene undecided joins).passes f.predicate.fold.1 r =
      (Semantics.kleene undecided joins).passes f.predicate r :=
  congrArg (· == Value.bool true) (hf.wellSorted.sortedOn undecided r.value).eval_fold

/-- Folding a predicate changes no row. -/
theorem Simplifies.rows_eq {s s' : Branch} (h : Simplifies s s') (hs : s.InContract) :
    s'.rows (.kleene undecided joins) db = s.rows (.kleene undecided joins) db := by
  cases h with
  | @remove id l f s hl hv hverdict =>
    have hpasses : ∀ r, (Semantics.kleene undecided joins).passes f.predicate r = true := by
      intro r
      rw [← passes_fold (hs.top hl) r, (eq_literal_of_verdict hverdict).2.2.1 rfl]
      rfl
    rw [Branch.rows_single, hl, Operator.output]
    exact (Multiset.filter_eq_self.2 fun r _ => hpasses r).symm
  | @refute id l f bs hl hv hverdict =>
    rw [Branch.rows_mark, Branch.rows_node, Branch.rows_node, hl]
    apply Multiset.filter_congr
    intro r _
    rw [← passes_fold (hs.top hl) r]
  | @fold id l f bs hl hv hverdict hfold =>
    rw [Branch.rows_node, Branch.rows_node, hl]
    apply Multiset.filter_congr
    intro r _
    rw [← passes_fold (hs.top hl) r, withPredicate_predicate]

end PredicateSimplification

namespace ProjectionPushdown

/-- A narrowed branch has the same rows up to columns that are not needed. -/
theorem Narrows.map_keep_rows {needed : ColumnSet} {b b' : Branch} (h : Narrows needed b b') :
    (b'.rows sem db).map (Row.keep needed.contains) =
      (b.rows sem db).map (Row.keep needed.contains) := by
  cases h with
  | @inPlace id l present bs hl =>
    rw [Branch.rows_node, Branch.rows_node, hl]
    simp only [Operator.output, Multiset.map_map]
    apply Multiset.map_congr rfl
    intro r _
    funext c
    by_cases hc : c ∈ needed <;> simp [Row.keep, hc]
  | insert =>
    rw [Branch.rows_single]
    simp only [Operator.output, Multiset.map_map]
    apply Multiset.map_congr rfl
    intro r _
    exact Row.keep_keep (fun _ hc => hc) r

/-- A filter in the contract depends on any columns that include its own. -/
theorem passes_dependsOn {f : Filter} (hf : f.InContract) {cond : Column → Bool}
    (hcond : ∀ c ∈ f.columns, cond c = true) :
    Row.DependsOn (sem.passes f.predicate) fun c => cond c = true :=
  (sem.passes_dependsOn f.predicate).mono fun c hc => hcond c (hf.reads c hc)

namespace BelowJoin

/-- A branch that is narrowed below filters has the same rows up to columns that are not needed. -/
theorem NarrowsBelow.map_keep_rows {needed : ColumnSet} {b b' : Branch}
    (h : NarrowsBelow needed b b') (hb : b.InContract) :
    (b'.rows sem db).map (Row.keep needed.contains) =
      (b.rows sem db).map (Row.keep needed.contains) := by
  induction h with
  | here h => exact h.map_keep_rows
  | @pass id l f b b' hl hv hjoin hsub hbelow ih =>
    have hcolumns := ColumnSet.subset_iff.1 hsub
    rw [Branch.rows_single, Branch.rows_single, hl]
    apply Row.map_filter_congr
      (passes_dependsOn (hb.top hl) fun c hc => ColumnSet.contains_iff.2 (hcolumns c hc))
      (fun _ hc => hc)
    exact ih (hb.branch (List.mem_singleton.2 rfl))

/-- The columns that the condition of a join and a projection above it call for. -/
def calledFor (condition columns : ColumnSet) (c : Column) : Bool :=
  condition.contains c || columns.contains c

/-- Of the columns that are called for, a branch has those that are needed of it. -/
theorem keep_calledFor {condition columns : ColumnSet} {b : Branch} {r : Row}
    (hr : r.Within b.tables) :
    r.keep (calledFor condition columns) = r.keep (neededColumns condition columns b).contains := by
  apply Row.keep_congr
  intro c hc
  have htable : c.table ∈ b.tables := by
    by_contra hnot
    exact hc (hr c hnot)
  rw [Bool.eq_iff_iff, calledFor, Bool.or_eq_true, ColumnSet.contains_iff, ColumnSet.contains_iff,
    ColumnSet.contains_iff, mem_neededColumns]
  exact (and_iff_left htable).symm

/-- A branch of a join has the same rows up to columns that are not called for, whether it is
narrowed or stays. -/
theorem Narrowed.map_keep_rows {condition columns : ColumnSet} {b b' : Branch}
    (h : Narrowed condition columns b b') (hb : b.InContract) :
    (b'.rows sem db).map (Row.keep (calledFor condition columns)) =
      (b.rows sem db).map (Row.keep (calledFor condition columns)) := by
  rcases h with ⟨rfl, -⟩ | h
  · rfl
  have hneeded : ∀ {t : Branch}, t.tables = b.tables →
      (t.rows sem db).map (Row.keep (calledFor condition columns)) =
        (t.rows sem db).map (Row.keep (neededColumns condition columns b).contains) := by
    intro t ht
    apply Multiset.map_congr rfl
    intro r hr
    exact keep_calledFor (ht ▸ Branch.within_tables hr)
  rw [hneeded (Branch.tables_eq_of_scans h.scans_eq), hneeded rfl]
  exact h.map_keep_rows hb

/-- Narrowing the branches of a join below a projection changes no row. -/
theorem Pushes.rows_eq {s s' : Branch} (h : Pushes s s') (hs : s.InContract) :
    s'.rows sem db = s.rows sem db := by
  cases h with
  | @push id join l m columns j bs bs' hl hm hbs =>
    have hjoin := hs.branch (List.mem_singleton.2 rfl)
    have hbranches : ∀ b ∈ bs, b.InContract := fun b hb => hjoin.branch hb
    have hrows : bs'.map (fun b => (b.rows sem db).map (Row.keep (calledFor j.columns columns))) =
        bs.map fun b => (b.rows sem db).map (Row.keep (calledFor j.columns columns)) := by
      clear hs hjoin
      induction hbs with
      | nil => rfl
      | cons hb _ ih =>
        rw [List.forall_mem_cons] at hbranches
        rw [List.map_cons, List.map_cons, hb.map_keep_rows hbranches.1, ih hbranches.2]
    rw [Branch.rows_single, Branch.rows_single, Branch.rows_node, Branch.rows_node, hl, hm]
    simp only [Operator.output]
    have hdepends : Row.DependsOn (sem.joins.holds join j)
        fun c => calledFor j.columns columns c = true := by
      refine (sem.joins.dependsOn join j).mono fun c hc => ?_
      rw [calledFor, ColumnSet.contains_iff.2 hc, Bool.true_or]
    refine Row.map_filter_congr hdepends ?_ ?_
    · intro c hc
      rw [calledFor, hc, Bool.or_true]
    · rw [Row.combine_map_keep, Row.combine_map_keep, List.map_map, List.map_map]
      exact congrArg Row.combine hrows

end BelowJoin

/-- Narrowing the branch of a filter below a projection changes no row. -/
theorem BelowFilter.Pushes.rows_eq {s s' : Branch} (h : BelowFilter.Pushes s s')
    (hs : s.InContract) : s'.rows sem db = s.rows sem db := by
  cases h with
  | @push id filter l m columns f b b' hl hm hb =>
    have hf := (hs.branch (List.mem_singleton.2 rfl)).top hm
    rw [Branch.rows_single, Branch.rows_single, Branch.rows_single, Branch.rows_single, hl, hm]
    simp only [Operator.output]
    refine Row.map_filter_congr (passes_dependsOn hf fun c hc => ?_) (fun c hc => ?_)
      hb.map_keep_rows
    · exact ColumnSet.contains_iff.2 (ColumnSet.mem_union.2 (.inr hc))
    · exact ColumnSet.contains_iff.2 (ColumnSet.mem_union.2 (.inl (ColumnSet.contains_iff.1 hc)))

end ProjectionPushdown

/-- A rule that eliminates no join keeps the rows of the plan. -/
theorem Rule.Rewrites.rows_eq {undecided : Undecided} {joins : JoinConditions} {r : Rule}
    {c c' : Context} {s s' : Branch} (h : r.Rewrites c s c' s') (hr : r ≠ .joinElimination)
    (hscans : (c.plug s).scans.Nodup) (hcontract : (c.plug s).InContract) :
    (c'.plug s').rows (.kleene undecided joins) db = (c.plug s).rows (.kleene undecided joins) db := by
  have hs := (c.scans_sublist_plug s).nodup hscans
  have hs' := Context.inContract_of_plug hcontract
  cases h with
  | belowJoin h => exact Context.rows_plug_congr (h.rows_eq hs') c
  | belowFilter h => exact Context.rows_plug_congr (h.rows_eq hs') c
  | push h => exact Context.rows_plug_congr (h.rows_eq hs) c
  | eliminate => exact absurd rfl hr
  | simplify h => exact Context.rows_plug_congr (h.rows_eq hs') c

end QueryPlan
