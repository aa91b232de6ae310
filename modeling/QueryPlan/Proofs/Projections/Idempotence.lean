import QueryPlan.Proofs.Optimizer.Still
import QueryPlan.Proofs.Projections.Narrow
import QueryPlan.Proofs.Rows.Contract
import QueryPlan.Proofs.Valid.Runs

/-!
# Projection pushdown twice

A run that only pushes projections down leaves a tree in which there is nothing left to narrow, and on
such a tree a run does nothing.  There is one exception.  The rule that projects below a filter asks
for the columns of the projection above it.  If a document lists one of them twice, the projection that
is put in lists it twice, too, and the next run takes the second mention for a column too many.

Main results:

- Definition `Branch.Idle`: there is nothing left to narrow in a tree.
- Theorem `Optimizer.transform_of_idle`: a run leaves such a tree alone.
- Theorem `Optimizer.pushdown_idempotent`: one run is enough, if no column is listed twice.
- Theorem `Optimizer.pushdown_not_idempotent_repeatedColumn`: otherwise it may not be enough.
-/

namespace QueryPlan

namespace Branch

/-- Wherever a walk down gets to, the given rules have nothing to do. -/
inductive Idle (rules : List Rule) : Branch → Prop
  | skip {b : Branch} (hv : b.label.vacuous = true) : Idle rules b
  | node {id : NodeId} {l : Label} {bs : List Branch}
      (hrules : ∀ r ∈ rules, r.isIdle (.node id l bs) = true) (hbs : ∀ b ∈ bs, b.Idle rules) :
      Idle rules (.node id l bs)

/-- No projection of the branch lists a column twice. -/
def Distinct (b : Branch) : Prop :=
  ∀ columns, Operator.projection columns ∈ b.ops → columns.columns.Nodup

end Branch

/-! ## Columns listed once -/

namespace ProjectionPushdown

variable {needed : ColumnSet} {b b' s s' : Branch}

/-- Narrowing a branch to different columns lists no column twice. -/
theorem Narrows.distinct (h : Narrows needed b b') (hneeded : needed.columns.Nodup)
    (hb : b.Distinct) : b'.Distinct := by
  intro columns hcolumns
  cases h with
  | inPlace =>
    rw [Branch.ops_node] at hcolumns
    rcases List.mem_cons.1 hcolumns with heq | hmem
    · obtain rfl := Operator.projection.inj heq
      exact ColumnSet.nodup_select ..
    · exact hb columns (by rw [Branch.ops_node]; exact List.mem_cons_of_mem _ hmem)
  | insert =>
    rw [Branch.ops_node, List.flatMap_singleton] at hcolumns
    rcases List.mem_cons.1 hcolumns with heq | hmem
    · obtain rfl := Operator.projection.inj heq
      exact hneeded
    · exact hb columns hmem

namespace BelowJoin

/-- Narrowing a branch to different columns below filters lists no column twice. -/
theorem NarrowsBelow.distinct (h : NarrowsBelow needed b b') (hneeded : needed.columns.Nodup)
    (hb : b.Distinct) : b'.Distinct := by
  induction h with
  | here h => exact h.distinct hneeded hb
  | pass hl _ _ _ _ ih =>
    intro columns hcolumns
    rw [Branch.ops_node, List.flatMap_singleton, hl] at hcolumns
    refine ih (fun columns hmem => hb columns ?_) columns
      ((List.mem_cons.1 hcolumns).resolve_left (by simp))
    rw [Branch.ops_node, List.flatMap_singleton]
    exact List.mem_cons_of_mem _ hmem

/-- A branch of a join lists no column twice, whether it is narrowed or stays. -/
theorem Narrowed.distinct {condition columns : ColumnSet} (h : Narrowed condition columns b b')
    (hb : b.Distinct) : b'.Distinct := by
  rcases h with ⟨rfl, -⟩ | h
  · exact hb
  · exact h.distinct (nodup_neededColumns ..) hb

/-- Pushing a projection below a join lists no column twice. -/
theorem Pushes.distinct (h : Pushes s s') (hs : s.Distinct) : s'.Distinct := by
  cases h with
  | @push id join l m columns j bs bs' hl hm hbs =>
    intro cs hcs
    simp only [Branch.ops_node, List.flatMap_singleton, List.mem_cons] at hcs
    rcases hcs with hcs | hcs | hcs
    · exact hs cs (by simp [hcs])
    · exact hs cs (by simp [hcs])
    · obtain ⟨b', hb', hcs⟩ := List.mem_flatMap.1 hcs
      obtain ⟨b, hb, hnarrowed⟩ := exists_mem_of_forall₂ hbs b' hb'
      refine hnarrowed.distinct (fun cs hcs => hs cs ?_) cs hcs
      simp only [Branch.ops_node, List.flatMap_singleton, List.mem_cons, List.mem_flatMap]
      exact .inr (.inr ⟨b, hb, hcs⟩)

end BelowJoin

/-- Pushing a projection below a filter lists no column twice. -/
theorem BelowFilter.Pushes.distinct (h : BelowFilter.Pushes s s') (hs : s.Distinct) :
    s'.Distinct := by
  cases h with
  | @push id filter l m columns f b b' hl hm hb =>
    have hneeded := ColumnSet.nodup_union (hs columns (by simp [hl])) f.columns
    intro cs hcs
    simp only [Branch.ops_node, List.flatMap_singleton, List.mem_cons] at hcs
    rcases hcs with hcs | hcs | hcs
    · exact hs cs (by simp [hcs])
    · exact hs cs (by simp [hcs])
    · exact hb.distinct hneeded (fun cs hcs => hs cs (by simp [hcs])) cs hcs

end ProjectionPushdown

/-- The rules that narrow list no column twice where none was listed twice. -/
theorem Rule.Rewrites.distinct {r : Rule} {c c' : Context} {s s' : Branch}
    (h : r.Rewrites c s c' s') (hr : r.replacesAnchor = false) (hplug : (c.plug s).Distinct) :
    (c'.plug s').Distinct := by
  have hs : s.Distinct := fun columns hmem => hplug columns (Context.ops_subset_plug hmem)
  intro columns hmem
  cases h with
  | belowJoin h =>
    exact (Context.mem_ops_plug hmem s).elim (h.distinct hs columns) (hplug columns)
  | belowFilter h =>
    exact (Context.mem_ops_plug hmem s).elim (h.distinct hs columns) (hplug columns)
  | push | eliminate | simplify => exact absurd hr.symm (by decide)

namespace Optimizer

variable {o : Optimizer} {rest : NodeId → Option Node} {c : Context} {t t' b : Branch}
  {s : Optimized}

/-! ## A run leaves nothing to do -/

/-- A slot stays as it is if no rule may replace its occupant. -/
theorem Settles.eq_of_nil {ops : List Operator} (hnone : o.replacingRules = [])
    (h : o.Settles ops t t') : t' = t := by
  cases h with
  | rest => rfl
  | fire _ hr =>
    rw [hnone] at hr
    exact absurd hr List.not_mem_nil

/-- The rules that are tried at a node have nothing to do there afterwards. -/
theorem Narrows.isIdle (ho : o.Sorted) (h : o.Narrows c t t')
    (hdistinct : .projectionBelowFilter ∈ o.narrowingRules → (c.plug t).Distinct) :
    ∀ r ∈ o.narrowingRules, r.isIdle t' = true := by
  intro r hr
  cases h with
  | stay h hrests => exact (Rule.isIdle_iff (ho.narrowing r hr) h).2 (hrests r hr)
  | fire hr' h =>
    refine h.isIdle (ho.narrowing _ hr') (ho.narrowing r hr) ?_
    rintro rfl columns hop
    refine hdistinct hr' columns (Context.ops_subset_plug ?_)
    obtain ⟨id, l, bs⟩ := t
    rw [Branch.ops_node, ← hop]
    exact List.mem_cons_self

/-- What a run that only narrows does to a tree: no projection lists a column twice afterwards if none
did so before. -/
theorem distinct_of_steps (ho : o.Sorted) (hnone : o.replacingRules = [])
    (h : Branch.Steps o.Runs b t) (hb : b.Distinct) : t.Distinct := by
  refine h.preserves (fun hstep hdistinct => ?_) hb
  cases hstep with
  | rewrite hr hrewrites =>
    rcases hr with hr | hr
    · exact absurd hr (by simp [hnone])
    · exact hrewrites.distinct (ho.narrowing _ hr) hdistinct

/-- The walk down leaves nothing to do behind, and it keeps what the rules at the nodes above have
seen. -/
theorem visits_idle (ho : o.Sorted) (hnone : o.replacingRules = [])
    (hdistinct : .projectionBelowFilter ∈ o.narrowingRules → b.Distinct) :
    o.Visits b (fun _ _ => True) fun _ t t' => t'.Idle o.narrowingRules ∧ t.Kept t' where
  skip _ hv := ⟨.skip hv, .refl _⟩
  enter _ _ _ _ _ := trivial
  leave {c t t₁ t₂ l bs} hsteps _ hopens hl hbs := by
    have hidle := hopens.narrows.isIdle ho fun hr =>
      distinct_of_steps ho hnone hsteps (hdistinct hr)
    have hkept : List.Forall₂ Branch.Kept t₂.branches bs := hbs.imp fun _ _ h => h.2
    have hsame : t.branches = t₁.branches := by
      have heq := hopens.settles.imp fun _ _ h => (h.eq_of_nil hnone).symm
      rwa [List.forall₂_eq_eq_eq] at heq
    constructor
    · obtain ⟨id₂, l₂, bs₂⟩ := t₂
      refine .node (fun r hr => ?_) fun b hb => ?_
      · exact (Branch.isIdle_kept (ho.narrowing r hr) hl hkept).trans (hidle r hr)
      · obtain ⟨_, -, h, -⟩ := exists_mem_of_forall₂ hbs b hb
        exact h
    · obtain ⟨id, l₀, bs₀⟩ := t
      obtain ⟨id₁, l₁, bs₁⟩ := t₁
      obtain rfl : id₁ = id := hopens.top_eq
      obtain rfl : bs₀ = bs₁ := hsame
      have hl₁ : l₀.Alike l₁ := hopens.label
      cases hopens.narrows with
      | stay => exact .node (hl₁.trans hl) hkept
      | fire hr h =>
        have hreplaces := ho.narrowing _ hr
        obtain ⟨columns, hop, hlabel, hscans⟩ := h.exists_projection hreplaces
        obtain ⟨id₂, l₂, bs₂⟩ := t₂
        obtain rfl : id₂ = id₁ := h.top_eq hreplaces
        obtain rfl : l₂ = l₁ := hlabel
        refine .cut (hl₁.trans hl) (hl₁.op_eq ▸ hop) ?_
        calc (Branch.node id₂ l bs).scans
            = (Branch.node id₂ l₂ bs₂).scans := (Branch.Kept.node hl hkept).scans_eq
          _ = (Branch.node id₂ l₂ bs₀).scans := hscans
          _ = (Branch.node id₂ l₀ bs₀).scans :=
            (Branch.Kept.node hl₁ (List.forall₂_same.2 fun b _ => .refl b)).scans_eq

/-! ## A run with nothing to do -/

/-- Wherever a walk gets to in a tree in which there is nothing left to narrow, the rules rest. -/
theorem leaves_of_idle (ho : o.Sorted) (hnone : o.replacingRules = []) {p : Plan}
    (h : p.Shows (c.plug t) rest) (hidle : t.Idle o.narrowingRules) : o.Leaves p t := by
  induction hidle generalizing c with
  | skip hv => exact .skip hv
  | node hrules _ ih =>
    refine .node (fun b _ r hr => ?_) (fun r hr => ?_) fun b hb => ?_
    · rw [hnone] at hr
      exact absurd hr List.not_mem_nil
    · exact (Rule.isIdle_iff (ho.narrowing r hr) h).1 (hrules r hr)
    · obtain ⟨c', hb'⟩ := exists_shows_of_mem h hb
      exact ih b hb hb'

/-- A run leaves a tree alone in which there is nothing left to narrow. -/
theorem transform_of_idle (ho : o.Sorted) (hnone : o.replacingRules = []) {p : Plan}
    (h : p.Shows b rest) (hidle : b.Idle o.narrowingRules) :
    o.transform p = .ok (.start p) :=
  transform_of_leaves h (by simp [hnone]) (leaves_of_idle (c := []) ho hnone h hidle)

/-! ## One run is enough -/

/-- The projections of a plan are those of its tree. -/
theorem distinct_of_reachable {p : Plan} (h : p.Shows b rest)
    (hdistinct : ∀ id n columns, p.Reachable id → p.get? id = some n → n.op = .projection columns →
      columns.columns.Nodup) : b.Distinct := by
  intro columns hmem
  obtain ⟨⟨id, n⟩, hentry, hop⟩ := (Branch.mem_ops_iff none).1 hmem
  have hid : p.Reachable id := by
    rw [h.reachable_iff, ← Branch.map_fst_entries none]
    exact List.mem_map_of_mem hentry
  exact hdistinct id n columns hid (h.splits.get?_entry id n hentry) hop

/-- If only rules that push projections down are selected, a second run applies no rule and gives the
plan that the first run gave, with the same store.  If the rule that projects below a filter is among
them, it is asked that no projection of the plan lists a column twice. -/
theorem pushdown_idempotent {p : Plan} (hvalid : p.validate = .ok ()) {rules : RuleSet}
    (hrules : ∀ r ∈ rules.rules, r = .projectionBelowJoin ∨ r = .projectionBelowFilter)
    (hdistinct : .projectionBelowFilter ∈ rules.rules → ∀ id n columns, p.Reachable id →
      p.get? id = some n → n.op = .projection columns → columns.columns.Nodup)
    (validates traces : Bool) :
    ∃ out, (ofRules rules validates traces).optimize p = .ok out ∧
      ∀ validates' traces', (ofRules rules validates' traces').optimize out.plan =
        .ok ⟨out.plan, 0, []⟩ := by
  obtain ⟨b, rest, hsound⟩ := Plan.validate_eq_ok_iff.1 hvalid
  have ho := sorted_ofRules rules validates traces
  have hnone : (ofRules rules validates traces).replacingRules = [] := by
    refine List.eq_nil_iff_forall_not_mem.2 fun r hr => ?_
    have hreplaces := ho.replacing r hr
    rcases hrules r (runs_ofRules (.inl hr)) with rfl | rfl <;>
      exact absurd hreplaces (by decide)
  have hvisits := visits_idle ho hnone fun hr =>
    distinct_of_reachable hsound.shows (hdistinct (runs_ofRules (.inr hr)))
  obtain ⟨t, b', out, hrun, hgoes, -, hidle, -⟩ :=
    exists_transform_of_visits ho hvisits hsound.shows fun _ _ => trivial
  have hsound' : out.plan.Sound b' rest :=
    ⟨hgoes.shows, hgoes.steps.valid hsound.valid, hsound.linked⟩
  refine ⟨out, optimize_eq_of_transform hsound hrun hsound', fun validates' traces' => ?_⟩
  -- The rules are the same, whatever else the two optimizers do.
  have hagain := transform_of_idle (sorted_ofRules rules validates' traces') hnone hgoes.shows hidle
  exact optimize_eq_of_transform hsound' hagain hsound'

/-- The theorem applies to a projection above a filter above a join. -/
theorem pushdown_idempotent_filteredJoin :
    Plan.filteredJoin.validate = .ok () ∧
    (∀ r ∈ (RuleSet.ofList [.projectionBelowJoin, .projectionBelowFilter]).rules,
      r = .projectionBelowJoin ∨ r = .projectionBelowFilter) ∧
    (∀ id n columns, Plan.filteredJoin.Reachable id → Plan.filteredJoin.get? id = some n →
      n.op = .projection columns → columns.columns.Nodup) ∧
    ∃ out, (ofRules (.ofList [.projectionBelowJoin, .projectionBelowFilter]) true true).optimize
        Plan.filteredJoin = .ok out ∧
      ∀ validates' traces',
        (ofRules (.ofList [.projectionBelowJoin, .projectionBelowFilter]) validates' traces').optimize
          out.plan = .ok ⟨out.plan, 0, []⟩ := by
  have hvalid : Plan.filteredJoin.validate = .ok () := by cbv
  have hrules : ∀ r ∈ (RuleSet.ofList [.projectionBelowJoin, .projectionBelowFilter]).rules,
      r = .projectionBelowJoin ∨ r = .projectionBelowFilter := by decide
  have hdistinct : ∀ id n columns, Plan.filteredJoin.Reachable id →
      Plan.filteredJoin.get? id = some n → n.op = .projection columns → columns.columns.Nodup := by
    intro id n columns _ hget hop
    obtain ⟨-, rfl⟩ := Plan.eq_of_projection_filteredJoin hget hop
    decide
  exact ⟨hvalid, hrules, hdistinct,
    pushdown_idempotent hvalid hrules (fun _ => hdistinct) true true⟩

end Optimizer

/-- A projection, which lists a column twice, above a filter. -/
def Plan.repeatedColumn : Plan where
  nodes := #[
    some ⟨.scan "a", some 1, [], .singleton "a", false⟩,
    some ⟨.filter (.ofPredicate (.binary (.column ⟨"a", 1⟩) .gt (.literal (.int 3)))), some 2, [0],
      .singleton "a", false⟩,
    some ⟨.projection ⟨[⟨"a", 2⟩, ⟨"a", 2⟩]⟩, none, [1], .singleton "a", false⟩]
  root := some 2

namespace Optimizer

/-- The first run puts a projection below the filter that lists the column twice, and the second run
narrows it. -/
theorem pushdown_not_idempotent_repeatedColumn :
    Plan.repeatedColumn.validate = .ok () ∧
    ∃ out out', (ofRules (.ofList [.projectionBelowFilter]) true false).optimize
        Plan.repeatedColumn = .ok out ∧
      (ofRules (.ofList [.projectionBelowFilter]) true false).optimize out.plan = .ok out' ∧
      out'.applied = 1 ∧ out'.plan ≠ out.plan := by
  let o := ofRules (.ofList [.projectionBelowFilter]) true false
  have hruns : (do
      let out ← o.optimize Plan.repeatedColumn
      let out' ← o.optimize out.plan
      return (out'.applied, decide (out'.plan = out.plan))) = .ok (1, false) := by cbv
  obtain ⟨out, hout, hruns⟩ := bind_eq_ok.1 hruns
  obtain ⟨out', hout', hruns⟩ := bind_eq_ok.1 hruns
  obtain ⟨happlied, hne⟩ := Prod.mk.inj (Except.ok.inj hruns)
  exact ⟨by cbv, out, out', hout, hout', happlied, of_decide_eq_false hne⟩

end Optimizer

end QueryPlan
