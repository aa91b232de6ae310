import QueryPlan.Proofs.Columns.Flow
import QueryPlan.Proofs.Valid.Runs

/-!
# Rules and runs keep columns flowing

A rule that moves or removes filters and joins leaves a branch that carries the same columns.  A
projection that is put in or narrowed loses columns, but none that the nodes above it read: the rule
works below a projection and asks that one, and the nodes in between, for the columns they need.

Main results:

- Theorem `ProjectionPushdown.BelowJoin.NarrowsBelow.carries`: what is needed is still carried.
- Theorem `Rule.Rewrites.flows`: one rule keeps columns flowing.
- Theorem `Optimizer.columns_flow`: a run keeps columns flowing, for plans that pass validation.
-/

namespace QueryPlan

namespace Branch

/-- A branch without rows carries what it carried before. -/
theorem carries_mark {b : Branch} {x : Column} : b.mark.Carries x ↔ b.Carries x := by
  induction b with
  | node id l bs ih =>
    rw [mark_node]
    cases hproj : l.op.projection? with
    | some columns =>
      have hl := Operator.projection?_eq_some_iff.1 hproj
      rw [carries_projection_iff hl]
      exact carries_projection_iff hl
    | none =>
      have hmark : ({ l with vacuous := true } : Label).op.projection? = none := hproj
      rw [carries_through_iff hmark, carries_through_iff hproj, Serve, List.forall_mem_map]
      refine forall₂_congr fun b hb => ?_
      rw [ih b hb, tables_eq_of_scans (scans_mark b)]

/-- Marked branches serve the same columns. -/
theorem serve_mark {bs : List Branch} {x : Column} : Serve (bs.map mark) x ↔ Serve bs x := by
  simp only [Serve, List.forall_mem_map, carries_mark, tables_eq_of_scans (scans_mark _)]

/-- Columns flow through a marked branch. -/
theorem Flows.mark {b : Branch} (h : b.Flows) : b.mark.Flows := by
  induction b with
  | node id l bs ih =>
    rw [mark_node]
    refine .intro (fun x hx => serve_mark.2 (h.serve hx)) ?_
    rw [List.forall_mem_map]
    exact fun b hb => ih b hb (h.branch hb)

/-- A node that is no projection and has one branch carries what the branch carries. -/
theorem serve_single {id : NodeId} {l : Label} {b : Branch} {x : Column}
    (hproj : l.op.projection? = none) (hscan : l.op.scannedTable? = none) :
    Serve [node id l [b]] x ↔ Serve [b] x := by
  rw [serve_singleton, carries_through_iff hproj, tables_single hscan, serve_singleton]
  tauto

end Branch

namespace PredicateSimplification

variable {s s' : Branch}

/-- A simplified filter, or what is left of it, carries the same columns. -/
theorem Simplifies.relays (h : Simplifies s s') : s.Relays s' := by
  have htables := Branch.tables_eq_of_scans h.scans_eq
  cases h with
  | remove hl => exact Branch.relays_of_mem (by rw [hl]; rfl) (List.mem_singleton.2 rfl)
  | refute hl =>
    refine .of_tables_eq htables fun x hx => Branch.carries_mark.2 (.through rfl ?_)
    exact (Branch.carries_through_iff (by rw [hl]; rfl)).1 hx
  | fold hl =>
    refine .of_tables_eq htables fun x hx => .through rfl ?_
    exact (Branch.carries_through_iff (by rw [hl]; rfl)).1 hx

/-- Columns flow through a simplified filter, or what is left of it. -/
theorem Simplifies.flows (h : Simplifies s s') (hs : s.Flows) : s'.Flows := by
  cases h with
  | remove => exact hs.branch (List.mem_singleton.2 rfl)
  | refute hl => exact (hs.relabel (by rw [hl]; exact fun _ hx => hx)).mark
  | fold hl =>
    refine hs.relabel ?_
    rw [hl]
    exact fun x hx => (mem_withPredicate_columns.1 hx).1

end PredicateSimplification

namespace PredicatePushdown

variable {s s' : Branch}

/-- Branches serve the same columns when there is a filter above one of them. -/
theorem serve_filter {id : NodeId} {l : Label} {f : Filter} {left right : List Branch} {b : Branch}
    {x : Column} (hl : l.op = .filter f) :
    Branch.Serve (left ++ .node id l [b] :: right) x ↔ Branch.Serve (left ++ b :: right) x := by
  have hfilter : Branch.Serve [.node id l [b]] x ↔ Branch.Serve [b] x :=
    Branch.serve_single (by rw [hl]; rfl) (by rw [hl]; rfl)
  let frame : Frame := ⟨id, l, left, right⟩
  calc
    Branch.Serve (left ++ .node id l [b] :: right) x
      ↔ Branch.Serve frame.siblings x ∧ Branch.Serve [.node id l [b]] x := frame.serve_iff
    _ ↔ Branch.Serve frame.siblings x ∧ Branch.Serve [b] x := and_congr_right' hfilter
    _ ↔ Branch.Serve (left ++ b :: right) x := frame.serve_iff.symm

/-- A join into which a filter was pushed carries the columns that the filter carried. -/
theorem Pushes.relays (h : Pushes s s') : s.Relays s' := by
  have htables := Branch.tables_eq_of_scans h.scans_eq
  cases h with
  | @push id join l m f cond left right b hl hm =>
    refine .of_tables_eq htables fun x hx => ?_
    have hproj : l.op.projection? = none := by rw [hl]; rfl
    have hjoin : m.op.projection? = none := by rw [hm]; rfl
    rw [Branch.carries_through_iff hproj, Branch.serve_singleton] at hx
    refine .through hjoin ((serve_filter (by exact hl)).2 ?_)
    intro t ht htable
    have htables : x.table ∈ (Branch.node join m (left ++ b :: right)).tables :=
      Branch.mem_tables_node.2 (.inr ⟨t, ht, htable⟩)
    exact (Branch.carries_through_iff hjoin).1 (hx htables) t ht htable

/-- Columns flow through a join into which a filter was pushed. -/
theorem Pushes.flows (h : Pushes s s') (hs : s.Flows) : s'.Flows := by
  cases h with
  | @push id join l m f cond left right b hl hm =>
    have hjoin := hs.branch (List.mem_singleton.2 rfl)
    have hproj : m.op.projection? = none := by rw [hm]; rfl
    obtain ⟨hothers, hb⟩ := forall_mem_middle.1 fun x hx => hjoin.branch hx
    refine .intro (fun x hx => (serve_filter (by exact hl)).2 (hjoin.serve hx))
      (forall_mem_middle.2 ⟨hothers, .intro (fun x hx => ?_) (List.forall_mem_singleton.2 hb)⟩)
    -- What the filter reads, it has read through the join.
    exact (Branch.relays_of_mem hproj (by simp)).serve (hs.serve hx)

end PredicatePushdown

namespace ProjectionPushdown

variable {needed : ColumnSet} {b b' : Branch}

/-- A branch that is narrowed still carries the columns that are needed. -/
theorem Narrows.carries (h : Narrows needed b b') {x : Column} (hx : x ∈ needed)
    (hb : b.Carries x) : b'.Carries x := by
  cases h with
  | inPlace hl =>
    rw [Branch.carries_projection_iff hl] at hb
    exact .projection rfl (ColumnSet.mem_inter.2 ⟨hb, hx⟩)
  | insert => exact .projection rfl hx

/-- Columns flow through a narrowed branch if it has carried all that is needed. -/
theorem Narrows.flows (h : Narrows needed b b') (hb : b.Flows)
    (hneeded : ∀ x ∈ needed, Branch.Serve [b] x) : b'.Flows := by
  cases h with
  | inPlace hl =>
    refine hb.relabel ?_
    rw [hl]
    exact fun x hx => (ColumnSet.mem_inter.1 hx).1
  | insert => exact .intro hneeded fun t ht => List.mem_singleton.1 ht ▸ hb

namespace BelowJoin

/-- A branch that is narrowed below filters still carries the columns that are needed. -/
theorem NarrowsBelow.carries (h : NarrowsBelow needed b b') {x : Column} (hx : x ∈ needed)
    (hb : b.Carries x) : b'.Carries x := by
  induction h with
  | here h => exact h.carries hx hb
  | @pass id l f b b' hl _ _ _ hbelow ih =>
    have hproj : l.op.projection? = none := by rw [hl]; rfl
    rw [Branch.carries_through_iff hproj, Branch.serve_singleton] at hb ⊢
    intro htable
    rw [Branch.tables_eq_of_scans hbelow.scans_eq] at htable
    exact ih (hb htable)

/-- A branch that is narrowed below filters still serves the columns that are needed. -/
theorem NarrowsBelow.serve (h : NarrowsBelow needed b b') {x : Column} (hx : x ∈ needed)
    (hb : Branch.Serve [b] x) : Branch.Serve [b'] x := by
  rw [Branch.serve_singleton, Branch.tables_eq_of_scans h.scans_eq]
  rw [Branch.serve_singleton] at hb
  exact fun htable => h.carries hx (hb htable)

/-- The filters that are passed read nothing but what is needed, so they still find it. -/
theorem NarrowsBelow.flows (h : NarrowsBelow needed b b') (hb : b.Flows)
    (hneeded : ∀ x ∈ needed, Branch.Serve [b] x) : b'.Flows := by
  induction h with
  | here h => exact h.flows hb hneeded
  | @pass id l f b b' hl _ _ hsub hbelow ih =>
    have hproj : l.op.projection? = none := by rw [hl]; rfl
    have hscan : l.op.scannedTable? = none := by rw [hl]; rfl
    have hserve : ∀ x ∈ needed, Branch.Serve [b] x := fun x hx =>
      (Branch.serve_single hproj hscan).1 (hneeded x hx)
    refine .intro (fun x hx => ?_) fun t ht => ?_
    · rw [hl] at hx
      have hx' := ColumnSet.subset_iff.1 hsub x hx
      exact hbelow.serve hx' (hserve x hx')
    · exact List.mem_singleton.1 ht ▸ ih (hb.branch (List.mem_singleton.2 rfl)) hserve

variable {condition columns : ColumnSet}

/-- A branch of a join that is narrowed still carries the columns that the join and the projection
above it read. -/
theorem Narrowed.carries (h : Narrowed condition columns b b') {x : Column}
    (hx : x ∈ condition ∨ x ∈ columns) (htable : x.table ∈ b.tables) (hb : b.Carries x) :
    b'.Carries x := by
  rcases h with ⟨rfl, -⟩ | h
  · exact hb
  · exact h.carries (mem_neededColumns.2 ⟨hx, htable⟩) hb

/-- Columns flow through a branch of a join after it was narrowed, if it has served what the join
and the projection read. -/
theorem Narrowed.flows (h : Narrowed condition columns b b') (hb : b.Flows)
    (hserve : ∀ x, x ∈ condition ∨ x ∈ columns → Branch.Serve [b] x) : b'.Flows := by
  rcases h with ⟨rfl, -⟩ | h
  · exact hb
  · exact h.flows hb fun x hx => hserve x (mem_neededColumns.1 hx).1

variable {bs bs' : List Branch}

/-- The narrowed branches of a join still serve the columns that the join and the projection read.
-/
theorem serve_forall₂ (h : List.Forall₂ (Narrowed condition columns) bs bs') {x : Column}
    (hx : x ∈ condition ∨ x ∈ columns) (hbs : Branch.Serve bs x) : Branch.Serve bs' x := by
  intro b' hb' htable
  obtain ⟨b, hb, hnarrowed⟩ := exists_mem_of_forall₂ h b' hb'
  rw [Branch.tables_eq_of_scans hnarrowed.scans_eq] at htable
  exact hnarrowed.carries hx htable (hbs b hb htable)

/-- Columns flow through all branches of a join after they were narrowed, if these have served what
the join and the projection read. -/
theorem flows_forall₂ (h : List.Forall₂ (Narrowed condition columns) bs bs')
    (hbs : ∀ b ∈ bs, b.Flows) (hserve : ∀ x, x ∈ condition ∨ x ∈ columns → Branch.Serve bs x) :
    ∀ b ∈ bs', b.Flows := by
  intro b' hb'
  obtain ⟨b, hb, hnarrowed⟩ := exists_mem_of_forall₂ h b' hb'
  exact hnarrowed.flows (hbs b hb) fun x hx => Branch.serve_singleton.2 (hserve x hx b hb)

variable {s s' : Branch}

/-- The projection above the narrowed branches of a join carries what it lists, as before. -/
theorem Pushes.relays (h : Pushes s s') : s.Relays s' := by
  have htables := Branch.tables_eq_of_scans h.scans_eq
  cases h with
  | push hl => exact Branch.relays_of_projection hl htables

/-- Columns flow through a join whose branches were narrowed, and through the projection above it.
-/
theorem Pushes.flows (h : Pushes s s') (hs : s.Flows) : s'.Flows := by
  cases h with
  | @push id join l m columns j bs bs' hl hm hbs =>
    have hjoin := hs.branch (List.mem_singleton.2 rfl)
    have hproj : m.op.projection? = none := by rw [hm]; rfl
    have hscan : m.op.scannedTable? = none := by rw [hm]; rfl
    have hserve : ∀ x, x ∈ j.columns ∨ x ∈ columns → Branch.Serve bs x := by
      rintro x (hx | hx) t ht htable
      · exact hjoin.serve (by rw [hm]; exact hx) t ht htable
      · have hread := hs.serve (x := x) (by rw [hl]; exact hx)
        exact (Branch.relays_of_mem hproj ht).serve hread t (List.mem_singleton.2 rfl) htable
    refine .intro (fun x hx => ?_) fun t ht => ?_
    · rw [hl] at hx
      rw [Branch.serve_singleton, Branch.carries_through_iff hproj]
      exact fun _ => serve_forall₂ hbs (.inr hx) (hserve x (.inr hx))
    · rw [List.mem_singleton.1 ht]
      refine .intro (fun x hx => ?_) (flows_forall₂ hbs (fun b hb => hjoin.branch hb) hserve)
      rw [hm] at hx
      exact serve_forall₂ hbs (.inl hx) (hserve x (.inl hx))

end BelowJoin

namespace BelowFilter

variable {s s' : Branch}

/-- The projection above a filter over a narrowed branch carries what it lists, as before. -/
theorem Pushes.relays (h : Pushes s s') : s.Relays s' := by
  have htables := Branch.tables_eq_of_scans h.scans_eq
  cases h with
  | push hl => exact Branch.relays_of_projection hl htables

/-- Columns flow through a filter whose branch was narrowed, and through the projection above it. -/
theorem Pushes.flows (h : Pushes s s') (hs : s.Flows) : s'.Flows := by
  cases h with
  | @push id filter l m columns f b b' hl hm hb =>
    have hfilter := hs.branch (List.mem_singleton.2 rfl)
    have hproj : m.op.projection? = none := by rw [hm]; rfl
    have hscan : m.op.scannedTable? = none := by rw [hm]; rfl
    have hserve : ∀ x ∈ columns.union f.columns, Branch.Serve [b] x := by
      intro x hx
      rcases ColumnSet.mem_union.1 hx with hx | hx
      · exact (Branch.serve_single hproj hscan).1 (hs.serve (by rw [hl]; exact hx))
      · exact hfilter.serve (by rw [hm]; exact hx)
    have hserve' : ∀ x ∈ columns.union f.columns, Branch.Serve [b'] x := fun x hx =>
      (BelowJoin.NarrowsBelow.here hb).serve hx (hserve x hx)
    refine .intro (fun x hx => ?_) fun t ht => ?_
    · rw [hl] at hx
      exact (Branch.serve_single hproj hscan).2 (hserve' x (ColumnSet.mem_union.2 (.inl hx)))
    · rw [List.mem_singleton.1 ht]
      refine .intro (fun x hx => ?_) fun t ht => ?_
      · rw [hm] at hx
        exact hserve' x (ColumnSet.mem_union.2 (.inr hx))
      · rw [List.mem_singleton.1 ht]
        exact hb.flows (hfilter.branch (List.mem_singleton.2 rfl)) hserve

end BelowFilter

end ProjectionPushdown

namespace JoinElimination

variable {c : Context} {s kept : Branch}

/-- Neither a join nor a filter above it projects, so what is kept has carried the same columns. -/
theorem Eliminates.relays (h : Eliminates c s kept) : s.Relays kept := by
  cases h with
  | byJoin hl hsides =>
    exact Branch.relays_of_mem (by rw [hl]; rfl) (hsides.mem_iff.2 (.inl rfl))
  | byFilter hl hm hsides =>
    refine (Branch.relays_of_mem (by rw [hl]; rfl) (List.mem_singleton.2 rfl)).trans ?_
    exact Branch.relays_of_mem (by rw [hm]; rfl) (hsides.mem_iff.2 (.inl rfl))

/-- Columns flow through what a join elimination keeps. -/
theorem Eliminates.flows (h : Eliminates c s kept) (hs : s.Flows) : kept.Flows := by
  obtain ⟨f, d, rfl⟩ := h.exists_plug
  exact Branch.Flows.of_plug (c := f :: d) hs

end JoinElimination

namespace Rule.Rewrites

variable {r : Rule} {c c' : Context} {s s' : Branch}

/-- The branch that a rule puts in place carries the same columns of the tables it scans. -/
theorem relays (h : r.Rewrites c s c' s') : s.Relays s' := by
  cases h with
  | belowJoin h => exact h.relays
  | belowFilter h => exact h.relays
  | push h => exact h.relays
  | eliminate h => exact h.relays
  | simplify h => exact h.relays

/-- A rule keeps columns flowing. -/
theorem flows (h : r.Rewrites c s c' s') (hflow : (c.plug s).Flows) : (c'.plug s').Flows := by
  have hs := hflow.of_plug
  refine h.relays.flows_plug h.alike hflow ?_
  cases h with
  | belowJoin h => exact h.flows hs
  | belowFilter h => exact h.flows hs
  | push h => exact h.flows hs
  | eliminate h => exact h.flows hs
  | simplify h => exact h.flows hs

end Rule.Rewrites

/-- Rules applied one after the other keep columns flowing. -/
theorem Branch.Steps.flows {rules : Rule → Prop} {b b' : Branch} (h : Steps rules b b')
    (hb : b.Flows) : b'.Flows := by
  refine h.preserves (fun hstep hflow => ?_) hb
  cases hstep with
  | rewrite _ hrewrites => exact hrewrites.flows hflow

namespace Optimizer

/-- A run on a valid plan through which columns flow gives a plan through which columns flow. -/
theorem columns_flow {p : Plan} (hvalid : p.validate = .ok ()) (hflow : p.ColumnsFlow)
    (rules : RuleSet) (validates traces : Bool) :
    ∃ out, (ofRules rules validates traces).optimize p = .ok out ∧ out.plan.ColumnsFlow := by
  obtain ⟨b, rest, hsound⟩ := Plan.validate_eq_ok_iff.1 hvalid
  obtain ⟨b', out, hout, hsound', hsteps⟩ :=
    exists_optimize (sorted_ofRules rules validates traces) hsound
  have hb := hsound.shows.columnsFlow_iff.1 hflow
  exact ⟨out, hout, hsound'.shows.columnsFlow_iff.2 (hsteps.flows hb)⟩

end Optimizer

/-- A join of a projection that keeps the columns of the condition and of the filter above it. -/
def Plan.narrowedJoin : Plan where
  nodes := #[
    some ⟨.scan "a", some 1, [], .singleton "a", false⟩,
    some ⟨.projection (.ofList [⟨"a", 1⟩, ⟨"a", 2⟩]), some 3, [0], .singleton "a", false⟩,
    some ⟨.scan "b", some 3, [], .singleton "b", false⟩,
    some ⟨.join ⟨.ofList [⟨"a", 1⟩, ⟨"b", 1⟩], .empty⟩, some 4, [1, 2], .ofList ["a", "b"], false⟩,
    some ⟨.filter (.ofPredicate (.binary (.column ⟨"a", 2⟩) .gt (.literal (.int 3)))), some 5, [3],
      .singleton "a", false⟩,
    some ⟨.projection (.ofList [⟨"b", 2⟩]), none, [4], .ofList ["a", "b"], false⟩]
  root := some 5

/-- The tree of `Plan.narrowedJoin`. -/
def Branch.narrowedJoin : Branch :=
  .node 5 ⟨.projection (.ofList [⟨"b", 2⟩]), .ofList ["a", "b"], false⟩ [
    .node 4 ⟨.filter (.ofPredicate (.binary (.column ⟨"a", 2⟩) .gt (.literal (.int 3)))),
        .singleton "a", false⟩ [
      .node 3 ⟨.join ⟨.ofList [⟨"a", 1⟩, ⟨"b", 1⟩], .empty⟩, .ofList ["a", "b"], false⟩ [
        .node 1 ⟨.projection (.ofList [⟨"a", 1⟩, ⟨"a", 2⟩]), .singleton "a", false⟩ [
          .node 0 ⟨.scan "a", .singleton "a", false⟩ []],
        .node 2 ⟨.scan "b", .singleton "b", false⟩ []]]]

namespace Optimizer

/-- Columns flow in a join with a projection below it, before and after a run with all rules. -/
theorem columns_flow_narrowedJoin :
    Plan.narrowedJoin.validate = .ok () ∧ Plan.narrowedJoin.ColumnsFlow ∧
      ∃ out, (ofRules .all true false).optimize Plan.narrowedJoin = .ok out ∧
        out.plan.ColumnsFlow := by
  have hvalid : Plan.narrowedJoin.validate = .ok () := by cbv
  have hget : ∀ e ∈ Branch.narrowedJoin.entries none, Plan.narrowedJoin.get? e.1 = some e.2 := by
    simp [Branch.narrowedJoin, Plan.narrowedJoin, Plan.get?, Label.node]
  have hshows := Plan.shows_of_get? (b := Branch.narrowedJoin) rfl (by simp [Branch.narrowedJoin]) hget
  have hflow : Branch.narrowedJoin.Flows := by
    simp [Branch.narrowedJoin, Branch.flows_node_iff, Branch.carries_node_iff, Branch.Serve,
      Branch.tables, Operator.columns, Operator.projection?, Operator.scannedTable?,
      Filter.ofPredicate, Expr.columns, Expr.columnList]
  exact ⟨hvalid, hshows.columnsFlow_iff.2 hflow,
    columns_flow hvalid (hshows.columnsFlow_iff.2 hflow) .all true false⟩

end Optimizer

end QueryPlan
