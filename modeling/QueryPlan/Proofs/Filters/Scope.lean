import Mathlib.Tactic.IntervalCases
import QueryPlan.Proofs.Filters.Labels
import QueryPlan.Proofs.Folding
import QueryPlan.Proofs.Valid.Runs

/-!
# Scopes of filters

Validation keeps the scope of a filter within the tables scanned below it, but it does not ask that the
scope contains the tables the filter refers to.  If it does so for all filters of a plan, it still does
after a run: predicate pushdown adds to the scope what the filter refers to, a folded predicate gives up
only tables that the filter has stopped referring to, and a table that disappears below a filter is one
to which the filter does not refer.

Main results:

- Definition `Label.Covers`: the scope of a filter contains the tables it refers to.
- Theorem `Branch.All.covers_refresh`: a table that the context does not read may disappear.
- Theorem `Rule.Rewrites.covers`: rules keep scopes that contain what filters refer to.
- Theorem `Optimizer.scopes_cover`: and so does a run, which also keeps them within what is scanned.
-/

namespace QueryPlan

/-- A filter refers to the tables of the columns that it lists and of those that its predicate
reads. -/
theorem Filter.mem_tables_iff {f : Filter} {a : String} :
    a ∈ f.tables ↔ (∃ x ∈ f.columns, x.table = a) ∨ ∃ x ∈ f.predicate.columnList, x.table = a := by
  rw [tables, AliasSet.mem_union, ColumnSet.mem_tables, Expr.tables, ColumnSet.mem_tables]
  simp only [Expr.columns, ColumnSet.mem_ofList]

/-- A filter that does not read a table does not refer to it. -/
theorem Filter.not_mem_tables {f : Filter} {table : String}
    (h : (Operator.filter f).columnsRead.any (·.isOf table) = false) : table ∉ f.tables := by
  have hread := Operator.table_ne_of_mem_columnsRead h
  rw [mem_tables_iff]
  rintro (⟨x, hx, htable⟩ | ⟨x, hx, htable⟩)
  · exact hread x (List.mem_append_left _ hx) htable
  · exact hread x (List.mem_append_right _ hx) htable

/-- The scope of a filter contains the tables the filter refers to. -/
def Label.Covers (l : Label) : Prop :=
  ∀ f, l.op = .filter f → ∀ a ∈ f.tables, a ∈ l.scope

/-- Nothing is demanded of the scope of a node that is not a filter. -/
theorem Label.covers_of_ne {l : Label} (hl : ∀ f, l.op ≠ .filter f) : l.Covers :=
  fun f hf => absurd hf (hl f)

/-- What is demanded of a filter is that its scope contains the tables it refers to. -/
theorem Label.covers_filter_iff {f : Filter} {scope : AliasSet} {vacuous : Bool} :
    Covers ⟨.filter f, scope, vacuous⟩ ↔ ∀ a ∈ f.tables, a ∈ scope :=
  ⟨fun h => h f rfl, fun h _ hg => Operator.filter.inj hg ▸ h⟩

/-- Projections may be put in and changed, since nothing is demanded of their scopes. -/
theorem Label.admitsProjections_covers : Label.AdmitsProjections Label.Covers where
  setColumns _ _ := covers_of_ne (by simp)
  insert _ _ := covers_of_ne (by simp)

/-! ## What the rules do -/

namespace PredicateSimplification

/-- A filter with a folded predicate refers to no other tables than before. -/
theorem tables_withPredicate_subset {f : Filter} {a : String}
    (ha : a ∈ (withPredicate f f.predicate.fold.1).tables) : a ∈ f.tables := by
  rw [Filter.mem_tables_iff, withPredicate_predicate] at ha
  rw [Filter.mem_tables_iff]
  rcases ha with ⟨x, hx, htable⟩ | ⟨x, hx, htable⟩
  · exact .inl ⟨x, (mem_withPredicate_columns.1 hx).1, htable⟩
  · exact .inr ⟨x, f.predicate.columnList_fold_subset hx, htable⟩

/-- Simplifying a filter keeps the scopes that contain what filters refer to. -/
theorem Simplifies.covers {s s' : Branch} (h : Simplifies s s') (hs : s.All Label.Covers) :
    s'.All Label.Covers := by
  cases h with
  | remove => exact List.forall_mem_singleton.1 hs.branch
  | @refute id l f bs hl =>
    refine Branch.All.mark (P := Label.Covers) (.intro ?_ hs.branch) fun _ hcovers => hcovers
    refine Label.covers_filter_iff.2 fun a ha => hs.label f hl a ?_
    rw [Filter.mem_tables_iff] at ha ⊢
    refine ha.imp_right ?_
    rintro ⟨x, hx, htable⟩
    exact ⟨x, f.predicate.columnList_fold_subset hx, htable⟩
  | @fold id l f bs hl =>
    refine .intro (Label.covers_filter_iff.2 fun a ha => ?_) hs.branch
    refine AliasSet.mem_diff.2 ⟨hs.label f hl a (tables_withPredicate_subset ha), fun hstale => ?_⟩
    -- What the filter still refers to is not given up.
    exact (AliasSet.mem_diff.1 hstale).2 ha

end PredicateSimplification

/-- A filter that was pushed below a join has a scope that contains what it refers to. -/
theorem PredicatePushdown.Pushes.covers {s s' : Branch} (h : Pushes s s')
    (hs : s.All Label.Covers) : s'.All Label.Covers := by
  refine h.all (fun {l f} hl _ tables g hg a ha => ?_) hs
  obtain rfl : f = g := Operator.filter.inj (hl.symm.trans hg)
  exact AliasSet.mem_union.2 (.inr ha)

/-- A filter above a branch has a refreshed scope that contains what the filter refers to, if it does
not read the table that has disappeared. -/
theorem Frame.covers_refresh {f : Frame} {s s' : Branch} {table : String} (h : (f.fill s).Valid)
    (hcovers : f.label.Covers) (hlose : ∀ a ∈ s.tables, a ∈ s'.tables ∨ a = table)
    (hreads : f.label.op.columnsRead.any (·.isOf table) = false) :
    (f.label.refresh (f.fill s').tables).Covers := by
  intro g hg a ha
  have hop : f.label.op = .filter g := hg
  have hkind : f.label.kind = .filter := by rw [Label.kind, hop]; rfl
  have hscope : (f.label.refresh (f.fill s').tables).scope =
      f.label.scope.inter (f.fill s').tables := by
    simp only [Label.refresh, Plan.refreshedScope, Label.node_kind, hkind, Label.node_scope]
  have hin := hcovers g hop a ha
  have hscanned := (Frame.valid_fill_iff.1 h).1.filterScope hkind a hin
  have hne : a ≠ table := by
    rintro rfl
    exact Filter.not_mem_tables (hop ▸ hreads) ha
  rw [hscope, AliasSet.mem_inter]
  exact ⟨hin, (lose_fill hlose f a hscanned).resolve_right hne⟩

/-- A table that the context does not read may disappear, if the scopes of the context are refreshed:
they still contain what the filters refer to. -/
theorem Branch.All.covers_refresh {c : Context} {s s' : Branch} {table : String}
    (hvalid : (c.plug s).Valid) (h : (c.plug s).All Label.Covers) (hs' : s'.All Label.Covers)
    (hlose : ∀ a ∈ s.tables, a ∈ s'.tables ∨ a = table) (hreads : c.reads table = false) :
    ((c.refresh s').plug s').All Label.Covers := by
  induction c generalizing s s' with
  | nil => exact hs'
  | cons f c ih =>
    obtain ⟨hl, hsiblings, -⟩ := Frame.all_fill_iff.1 (of_plug (c := c) h)
    rw [Context.reads, List.any_cons, Bool.or_eq_false_iff] at hreads
    have hscans := f.scans_fill_refresh s'
    have hrefreshed := f.covers_refresh (Valid.of_plug (c := c) hvalid) hl hlose hreads.1
    rw [Context.refresh_cons, Context.plug_cons, Context.refresh_congr hscans.symm]
    refine ih (s := f.fill s) hvalid h (Frame.all_fill_iff.2 ⟨hrefreshed, hsiblings, hs'⟩) ?_ hreads.2
    rw [Branch.tables_eq_of_scans hscans]
    exact Frame.lose_fill hlose f

/-- A rule keeps the scopes of filters wide enough. -/
theorem Rule.Rewrites.covers {r : Rule} {c c' : Context} {s s' : Branch}
    (h : r.Rewrites c s c' s') (hvalid : (c.plug s).Valid) (hcovers : (c.plug s).All Label.Covers) :
    (c'.plug s').All Label.Covers := by
  have hs := hcovers.of_plug
  cases h with
  | belowJoin h => exact hcovers.plug (h.all Label.admitsProjections_covers hs)
  | belowFilter h => exact hcovers.plug (h.all Label.admitsProjections_covers hs)
  | push h => exact hcovers.plug (h.covers hs)
  | simplify h => exact hcovers.plug (h.covers hs)
  | eliminate h =>
    obtain ⟨table, htables, hreads⟩ := h.exists_table hvalid.of_plug
    obtain ⟨f, d, rfl⟩ := h.exists_plug
    exact hcovers.covers_refresh hvalid (hs.of_plug (c := f :: d)) (fun a ha => (htables a).1 ha) hreads

/-- Rules applied one after the other keep the scopes of filters wide enough. -/
theorem Branch.Steps.covers {rules : Rule → Prop} {b b' : Branch} (h : Steps rules b b')
    (hvalid : b.Valid) (hcovers : b.All Label.Covers) : b'.All Label.Covers := by
  -- The scopes alone are not preserved: a refreshed scope is wide enough only in a valid tree.
  have hboth : b'.Valid ∧ b'.All Label.Covers := by
    refine h.preserves (motive := fun b => b.Valid ∧ b.All Label.Covers) (fun hstep hb => ?_)
      ⟨hvalid, hcovers⟩
    cases hstep with
    | rewrite _ hrewrites => exact ⟨hrewrites.valid hb.1, hrewrites.covers hb.1 hb.2⟩
  exact hboth.2

/-! ## Runs -/

/-- The scope of every reachable filter contains the tables the filter refers to. -/
def Plan.ScopesCover (p : Plan) : Prop :=
  ∀ id n f, p.Reachable id → p.get? id = some n → n.op = .filter f → ∀ a ∈ f.tables, a ∈ n.scope

/-- The scope of every reachable filter lies within the tables scanned below it. -/
def Plan.ScopesScanned (p : Plan) : Prop :=
  ∀ id n f, p.Reachable id → p.get? id = some n → n.op = .filter f →
    ∃ scanned, p.reachable id = .ok scanned ∧ ∀ a ∈ n.scope, a ∈ scanned

/-- The scopes of a plan contain what its filters refer to if those of its tree do. -/
theorem Plan.Shows.scopesCover_iff {p : Plan} {b : Branch} {rest : NodeId → Option Node}
    (h : p.Shows b rest) : p.ScopesCover ↔ b.All Label.Covers := by
  rw [h.all_iff]
  exact ⟨fun h id n hid hget f hf => h id n f hid hget hf,
    fun h id n f hid hget hf => h id n hid hget f hf⟩

/-- In a valid plan, the scope of a filter lies within the tables scanned below it. -/
theorem Plan.Sound.scopesScanned {p : Plan} {b : Branch} {rest : NodeId → Option Node}
    (h : p.Sound b rest) : p.ScopesScanned := by
  intro id n f hid hget hop
  obtain ⟨c, s, rfl, rfl⟩ := Branch.exists_plug_of_mem_ids (h.shows.reachable_iff.1 hid)
  obtain rfl := Option.some.inj (h.shows.has_plug.get?_top.symm.trans hget)
  have hkind : s.label.kind = .filter := by
    rw [Label.kind, ← Label.node_op, hop]
    rfl
  exact ⟨s.tables, h.shows.has_plug.reachable_eq, h.valid.fits_of_plug.filterScope hkind⟩

/-- The only filter of the plan is scoped to the one table it refers to. -/
theorem Plan.scopesCover_filteredJoin : filteredJoin.ScopesCover := by
  intro id n f _ hget hop
  have hlt : id < 5 := lt_size_of_get? hget
  interval_cases id
  case «3» =>
    obtain rfl := Option.some.inj hget
    obtain rfl := Operator.filter.inj hop
    exact AliasSet.subset_iff.1 (by decide)
  all_goals
    obtain rfl := Option.some.inj hget
    exact absurd hop (by simp)

namespace Optimizer

/-- If the scope of every filter of a valid plan contains the tables the filter refers to, this is so
after optimizing the plan, and every scope lies within the tables scanned below the filter. -/
theorem scopes_cover {p : Plan} (hvalid : p.validate = .ok ()) (hcover : p.ScopesCover)
    (rules : RuleSet) (validates traces : Bool) :
    ∃ out, (ofRules rules validates traces).optimize p = .ok out ∧
      out.plan.ScopesCover ∧ out.plan.ScopesScanned := by
  obtain ⟨b, rest, hsound⟩ := Plan.validate_eq_ok_iff.1 hvalid
  obtain ⟨b', out, hout, hsound', hsteps⟩ :=
    exists_optimize (sorted_ofRules rules validates traces) hsound
  have hcovers := hsteps.covers hsound.valid (hsound.shows.scopesCover_iff.1 hcover)
  exact ⟨out, hout, hsound'.shows.scopesCover_iff.2 hcovers, hsound'.scopesScanned⟩

/-- The theorem applies to a plan on which a filter moves below a join. -/
theorem scopes_cover_filteredJoin :
    Plan.filteredJoin.validate = .ok () ∧ Plan.filteredJoin.ScopesCover ∧
    ∀ (rules : RuleSet) (validates traces : Bool),
      ∃ out, (ofRules rules validates traces).optimize Plan.filteredJoin = .ok out ∧
        out.plan.ScopesCover ∧ out.plan.ScopesScanned := by
  have hvalid : Plan.filteredJoin.validate = .ok () := by cbv
  exact ⟨hvalid, Plan.scopesCover_filteredJoin, scopes_cover hvalid Plan.scopesCover_filteredJoin⟩

end Optimizer

end QueryPlan
