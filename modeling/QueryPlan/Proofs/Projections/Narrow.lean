import QueryPlan.Proofs.Columns.Order
import QueryPlan.Proofs.Optimizer.Run
import QueryPlan.Proofs.Valid.Rules

/-!
# Narrow trees

After a branch was narrowed, narrowing it again changes nothing, if the columns it was narrowed to are
different ones.  Nor does it after rules have worked further down: they leave everything alone from
the top of the branch to the first projection on each way down, and narrowing looks no further.

Main results:

- Theorem `ProjectionPushdown.BelowJoin.NarrowsBelow.isNarrowBelow`: a narrowed branch is narrow.
- Definition `Rule.isIdle`: a rule that narrows has nothing to do at a branch.
- Theorem `Rule.Rewrites.isIdle`: it has nothing to do where it has just been applied.
- Definition `Branch.Kept`: two branches do not differ above the first projections.
- Theorem `Branch.isIdle_kept`: such branches have the same rules idle.
-/

namespace QueryPlan

/-! ## Narrowing twice -/

namespace ProjectionPushdown

variable {needed : ColumnSet} {b b' : Branch}

/-- A branch that was narrowed has a projection on top. -/
theorem Narrows.exists_op (h : Narrows needed b b') : ∃ columns, b'.label.op = .projection columns := by
  cases h with
  | inPlace => exact ⟨_, rfl⟩
  | insert => exact ⟨_, rfl⟩

/-- A branch is narrow once it has been narrowed to columns of which none is listed twice. -/
theorem Narrows.isNarrow (h : Narrows needed b b') (hneeded : needed.columns.Nodup) :
    isNarrow needed b' = true := by
  cases h with
  | @inPlace id l present =>
    have hinter : (present.inter needed).inter needed = present.inter needed :=
      ColumnSet.inter_eq_self (ColumnSet.nodup_select ..) fun x hx => (ColumnSet.mem_inter.1 hx).2
    simp [ProjectionPushdown.isNarrow, Operator.projection?, hinter]
  | insert =>
    simp [ProjectionPushdown.isNarrow, Operator.projection?,
      ColumnSet.inter_eq_self hneeded fun x hx => hx]

namespace BelowJoin

section Node

variable {id : NodeId} {l : Label}

/-- Narrowing does not look below a projection. -/
theorem isNarrowBelow_of_projection {columns : ColumnSet} (hl : l.op = .projection columns)
    (bs : List Branch) : isNarrowBelow needed (.node id l bs) = isNarrow needed (.node id l bs) := by
  match bs with
  | [] | _ :: _ :: _ => simp [isNarrowBelow]
  | [b] => simp [isNarrowBelow, hl]

/-- Narrowing looks below a filter that it can pass. -/
theorem isNarrowBelow_pass {f : Filter} (hl : l.op = .filter f) (hv : l.vacuous = false)
    (hjoin : b.kind ≠ .join) (hsub : f.columns.subset needed = true) :
    isNarrowBelow needed (.node id l [b]) = isNarrowBelow needed b := by
  rw [isNarrowBelow]
  simp [hl, hv, hjoin, hsub]

end Node

/-- A branch that was narrowed below filters has no join on top. -/
theorem NarrowsBelow.kind_ne_join (h : NarrowsBelow needed b b') : b'.kind ≠ .join := by
  cases h with
  | here h =>
    obtain ⟨columns, hop⟩ := h.exists_op
    simp [Branch.kind, Label.kind, hop, Operator.kind]
  | pass hl => simp [Label.kind, hl, Operator.kind]

/-- A branch is narrow once it has been narrowed, and the filters that were passed are passed again. -/
theorem NarrowsBelow.isNarrowBelow (h : NarrowsBelow needed b b') (hneeded : needed.columns.Nodup) :
    isNarrowBelow needed b' = true := by
  induction h with
  | @here b b' h =>
    obtain ⟨columns, hop⟩ := h.exists_op
    obtain ⟨id, l, bs⟩ := b'
    rw [isNarrowBelow_of_projection (l := l) hop]
    exact h.isNarrow hneeded
  | pass hl hv _ hsub hbelow ih => rwa [isNarrowBelow_pass hl hv hbelow.kind_ne_join hsub]

/-- No column is needed twice. -/
theorem nodup_neededColumns (condition columns : ColumnSet) (b : Branch) :
    (neededColumns condition columns b).columns.Nodup :=
  ColumnSet.nodup_union (ColumnSet.nodup_select ..) _

/-- Branches that scan the same tables need the same columns. -/
theorem neededColumns_congr {condition columns : ColumnSet} (h : b'.scans = b.scans) :
    neededColumns condition columns b' = neededColumns condition columns b := by
  rw [neededColumns, neededColumns, Branch.tables_eq_of_scans h]

/-- A branch of a join is narrow afterwards, whether it was narrowed or stayed. -/
theorem Narrowed.isNarrowBelow {condition columns : ColumnSet}
    (h : Narrowed condition columns b b') :
    BelowJoin.isNarrowBelow (neededColumns condition columns b') b' = true := by
  rw [neededColumns_congr h.scans_eq]
  rcases h with ⟨rfl, hnarrow⟩ | h
  · exact hnarrow
  · exact h.isNarrowBelow (nodup_neededColumns ..)

end BelowJoin

end ProjectionPushdown

namespace Rule

/-- Whether a rule that narrows has nothing to do at a branch; other rules count as idle only where
they are not tried. -/
def isIdle (r : Rule) (b : Branch) : Bool :=
  !r.anchorsAt b ||
    match r with
    | .projectionBelowJoin => ProjectionPushdown.BelowJoin.isIdle b
    | .projectionBelowFilter => ProjectionPushdown.BelowFilter.isIdle b
    | .predicatePushdown | .joinElimination | .predicateSimplification => false

/-- A rule that narrows leaves a plan alone exactly where it is idle. -/
theorem isIdle_iff {r : Rule} (hr : r.replacesAnchor = false) {p : Plan} {c : Context} {t : Branch}
    {rest : NodeId → Option Node} (h : p.Shows (c.plug t) rest) :
    r.isIdle t = true ↔ r.Rests p t := by
  have hcases : ∀ {idle : Bool} {x : Except Plan.Fault RuleResult} {P : RuleResult → Branch → Prop},
      (∃ res, x = .ok res ∧ ((idle = true ∧ res = .unchanged p t.top) ∨
        idle = false ∧ ∃ t', P res t' ∧ res.Installs p c t' rest)) →
      (idle = true ↔ x = .ok (.unchanged p t.top)) := by
    rintro idle x P ⟨res, rfl, ⟨rfl, rfl⟩ | ⟨rfl, t', -, hinst⟩⟩
    · exact iff_of_true rfl rfl
    · refine iff_of_false Bool.false_ne_true fun heq => ?_
      have hchanged := hinst.changed_eq
      rw [Except.ok.inj heq] at hchanged
      exact Bool.false_ne_true hchanged
  unfold isIdle Rests
  rw [Bool.or_eq_true, Bool.not_eq_true', ← Bool.not_eq_true, ← imp_iff_not_or]
  refine imp_congr_right fun _ => ?_
  cases r with
  | projectionBelowJoin => exact hcases (ProjectionPushdown.BelowJoin.apply_shows h)
  | projectionBelowFilter => exact hcases (ProjectionPushdown.BelowFilter.apply_shows h)
  | predicatePushdown | joinElimination | predicateSimplification => exact absurd hr.symm (by decide)

/-- A rule that narrows is applied at a projection.  It changes neither that nor what is scanned. -/
theorem Rewrites.exists_projection {r : Rule} {c c' : Context} {s s' : Branch}
    (h : r.Rewrites c s c' s') (hr : r.replacesAnchor = false) :
    ∃ columns, s.label.op = .projection columns ∧ s'.label = s.label ∧ s'.scans = s.scans := by
  cases h with
  | push | eliminate | simplify => exact absurd hr.symm (by decide)
  | belowJoin h =>
    have hscans := h.scans_eq
    cases h with
    | push hl => exact ⟨_, hl, rfl, hscans⟩
  | belowFilter h =>
    have hscans := h.scans_eq
    cases h with
    | push hl => exact ⟨_, hl, rfl, hscans⟩

/-- A rule that narrows changes nothing that the nodes directly below its anchor say. -/
theorem Rewrites.exists_branch_label {r : Rule} {c c' : Context} {s s' : Branch}
    (h : r.Rewrites c s c' s') (hr : r.replacesAnchor = false) :
    ∀ x' ∈ s'.branches, ∃ x ∈ s.branches, x'.label = x.label := by
  cases h with
  | push | eliminate | simplify => exact absurd hr.symm (by decide)
  | belowJoin h =>
    cases h with
    | push =>
      intro x' hx'
      rw [List.mem_singleton.1 hx']
      exact ⟨_, List.mem_singleton.2 rfl, rfl⟩
  | belowFilter h =>
    cases h with
    | push =>
      intro x' hx'
      rw [List.mem_singleton.1 hx']
      exact ⟨_, List.mem_singleton.2 rfl, rfl⟩

/-- A rule that narrows has nothing to do where it has just been applied, nor has the other one.  The
rule for filters asks for the columns of the projection, which should be different ones. -/
theorem Rewrites.isIdle {r r' : Rule} {c c' : Context} {s s' : Branch} (h : r.Rewrites c s c' s')
    (hr : r.replacesAnchor = false) (hr' : r'.replacesAnchor = false)
    (hnodup : r = .projectionBelowFilter → ∀ columns, s.label.op = .projection columns →
      columns.columns.Nodup) : r'.isIdle s' = true := by
  cases h with
  | push | eliminate | simplify => exact absurd hr.symm (by decide)
  | belowJoin h =>
    cases h with
    | @push id join l m columns j bs bs' hl hm hbs =>
      cases r' with
      | predicatePushdown | joinElimination | predicateSimplification =>
        exact absurd hr'.symm (by decide)
      | projectionBelowFilter =>
        simp [Rule.isIdle, anchorsAt, Branch.isProjectionOver, Label.kind, hm, Operator.kind]
      | projectionBelowJoin =>
        simp only [Rule.isIdle, ProjectionPushdown.BelowJoin.isIdle, hl, hm, Bool.or_eq_true,
          List.all_eq_true]
        refine .inr fun b' hb' => ?_
        obtain ⟨b, -, hb⟩ := exists_mem_of_forall₂ hbs b' hb'
        exact hb.isNarrowBelow
  | belowFilter h =>
    cases h with
    | @push id filter l m columns f b b' hl hm hb =>
      cases r' with
      | predicatePushdown | joinElimination | predicateSimplification =>
        exact absurd hr'.symm (by decide)
      | projectionBelowJoin =>
        simp [Rule.isIdle, anchorsAt, Branch.isProjectionOver, Label.kind, hm, Operator.kind]
      | projectionBelowFilter =>
        have hneeded := ColumnSet.nodup_union (hnodup rfl columns hl) f.columns
        simp only [Rule.isIdle, ProjectionPushdown.BelowFilter.isIdle, hl, hm, Bool.or_eq_true]
        exact .inr (hb.isNarrow hneeded)

end Rule

/-- All that is done to a branch before the walk goes down changes at most the scope of its uppermost
node. -/
theorem Optimizer.Opens.alike {o : Optimizer} {c : Context} {t t₁ t₂ : Branch} (ho : o.Sorted)
    (h : o.Opens c t t₁ t₂) : t.label.Alike t₂.label := by
  cases h.narrows with
  | stay => exact h.label
  | fire hr hrewrites =>
    obtain ⟨columns, -, hlabel, -⟩ := hrewrites.exists_projection (ho.narrowing _ hr)
    exact hlabel ▸ h.label

/-! ## Work further down -/

namespace Branch

/-- The branches do not differ, up to scopes, from the top to the first projection on each way down,
and they scan the same tables below it. -/
inductive Kept : Branch → Branch → Prop
  | cut {id : NodeId} {l l' : Label} {columns : ColumnSet} {bs bs' : List Branch} (hl : l.Alike l')
      (hop : l.op = .projection columns)
      (hscans : (Branch.node id l' bs').scans = (Branch.node id l bs).scans) :
      Kept (.node id l bs) (.node id l' bs')
  | node {id : NodeId} {l l' : Label} {bs bs' : List Branch} (hl : l.Alike l')
      (hbs : List.Forall₂ Kept bs bs') : Kept (.node id l bs) (.node id l' bs')

/-- A branch does not differ from itself. -/
theorem Kept.refl (b : Branch) : b.Kept b := by
  induction b with
  | node id l bs ih =>
    refine .node ⟨rfl, rfl⟩ ?_
    rw [List.forall₂_same]
    exact ih

variable {b b' b'' : Branch}

/-- On top, the branches differ in scopes at most. -/
theorem Kept.label (h : b.Kept b') : b.label.Alike b'.label := by
  cases h with
  | cut hl | node hl => exact hl

/-- The branches have nodes of the same kind on top. -/
theorem Kept.kind_eq (h : b.Kept b') : b'.kind = b.kind := by
  rw [kind, kind, Label.kind, Label.kind, h.label.op_eq]

/-- The branches scan the same tables in the same order. -/
theorem Kept.scans_eq (h : b.Kept b') : b'.scans = b.scans := by
  induction b generalizing b' with
  | node id l bs ih =>
    cases h with
    | cut _ _ hscans => exact hscans
    | @node _ _ l' _ bs' hl hbs =>
      have hscans := (List.forall₂_and_left _ _).2 ⟨fun b hb b' => @ih b hb b', hbs⟩
      rw [scans_node, scans_node, hl.op_eq,
        flatMap_scans_congr (hscans.imp fun b b' h => h.1 b' h.2)]

open ProjectionPushdown in
/-- Narrowing finds the one branch narrow if it finds the other one narrow. -/
theorem Kept.isNarrowBelow_eq {needed : ColumnSet} (h : b.Kept b') :
    BelowJoin.isNarrowBelow needed b' = BelowJoin.isNarrowBelow needed b := by
  induction b generalizing b' with
  | node id l bs ih =>
    cases h with
    | cut hl hop =>
      rw [BelowJoin.isNarrowBelow_of_projection hop,
        BelowJoin.isNarrowBelow_of_projection (hl.op_eq.trans hop)]
      exact isNarrow_of_op hl.op_eq
    | @node _ _ l' _ bs' hl hbs =>
      have hnarrow : isNarrow needed (.node id l' bs') = isNarrow needed (.node id l bs) :=
        isNarrow_of_op hl.op_eq
      cases hbs with
      | nil => simpa only [BelowJoin.isNarrowBelow] using hnarrow
      | cons hb hrest =>
        cases hrest with
        | cons => simpa only [BelowJoin.isNarrowBelow] using hnarrow
        | nil =>
          rw [BelowJoin.isNarrowBelow, BelowJoin.isNarrowBelow, hnarrow, hl.op_eq, hl.vacuous_eq,
            hb.kind_eq, ih _ List.mem_cons_self hb]

section Idle

open ProjectionPushdown

variable {id : NodeId} {l l' : Label} {bs bs' : List Branch}

/-- Nodes above such branches have the pattern of a projection above an operator together. -/
theorem isProjectionOver_kept (hl : l.Alike l') (hbs : List.Forall₂ Kept bs bs')
    (kind : Operator.Kind) :
    (node id l' bs').isProjectionOver kind = (node id l bs).isProjectionOver kind := by
  cases hbs with
  | nil => rfl
  | cons hb hrest =>
    cases hrest with
    | cons => rfl
    | nil =>
      rw [isProjectionOver, isProjectionOver, Label.kind, Label.kind, hl.op_eq, hb.kind_eq,
        hb.label.vacuous_eq]

/-- The branches of a join are all narrow if those they do not differ from are. -/
theorem all_isNarrowBelow_kept {condition columns : ColumnSet} (hbs : List.Forall₂ Kept bs bs') :
    (bs'.all fun b => BelowJoin.isNarrowBelow (BelowJoin.neededColumns condition columns b) b) =
      bs.all fun b => BelowJoin.isNarrowBelow (BelowJoin.neededColumns condition columns b) b := by
  induction hbs with
  | nil => rfl
  | cons hb _ ih =>
    rw [List.all_cons, List.all_cons, ih, BelowJoin.neededColumns_congr hb.scans_eq,
      hb.isNarrowBelow_eq]

/-- What is done further down does not give a rule that narrows something to do. -/
theorem isIdle_kept {r : Rule} (hr : r.replacesAnchor = false) (hl : l.Alike l')
    (hbs : List.Forall₂ Kept bs bs') : r.isIdle (node id l' bs') = r.isIdle (node id l bs) := by
  have hanchor : r.anchorsAt (node id l' bs') = r.anchorsAt (node id l bs) := by
    cases r with
    | projectionBelowJoin => exact isProjectionOver_kept hl hbs .join
    | projectionBelowFilter => exact isProjectionOver_kept hl hbs .filter
    | predicatePushdown | joinElimination | predicateSimplification =>
      exact absurd hr.symm (by decide)
  unfold Rule.isIdle
  rw [hanchor]
  by_cases hcond : r.anchorsAt (node id l bs) = true
  swap
  · simp [hcond]
  congr 1
  -- An anchor is a projection above a join or a filter, whose branches are kept one by one.
  cases hbs with
  | nil => cases r <;> rfl
  | cons hb hrest =>
    cases hrest with
    | cons => cases r <;> simp_all [Rule.anchorsAt, isProjectionOver]
    | nil =>
      cases hb with
      | cut _ hop =>
        cases r <;> simp_all [Rule.anchorsAt, isProjectionOver, Label.kind, Operator.kind]
      | node hm hjs =>
        cases r with
        | predicatePushdown | joinElimination | predicateSimplification => rfl
        | projectionBelowJoin =>
          simp only [BelowJoin.isIdle, hl.op_eq, hm.op_eq, all_isNarrowBelow_kept hjs]
        | projectionBelowFilter =>
          cases hjs with
          | nil => rfl
          | cons hj hrest =>
            cases hrest with
            | cons => rfl
            | nil => simp only [BelowFilter.isIdle, hl.op_eq, hm.op_eq, isNarrow_of_op hj.label.op_eq]

end Idle

end Branch

end QueryPlan
