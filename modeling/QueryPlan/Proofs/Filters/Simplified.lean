import QueryPlan.Proofs.Filters.Marks
import QueryPlan.Proofs.Folding
import QueryPlan.Proofs.Projections.Pushed

/-!
# Simplification reaches every filter

A run tries simplification in every slot it makes stable, and only what stands in such a slot is gone
down from.  Whatever was moved, inserted or promoted before, the occupant of a slot is left behind with
a predicate that simplification leaves alone, unless it is marked; and what lies below a mark is marked.

Main results:

- Definition `Expr.Irreducible`: a predicate that is no constant and has nothing left to fold.
- Theorem `PredicateSimplification.apply_eq_unchanged_iff`: where simplification changes nothing.
- Theorem `Optimizer.Calm.simplified`: a slot in which nothing more happens is simplified.
- Theorem `Optimizer.filters_simplified`: a run leaves nothing to simplify.
-/

namespace QueryPlan

/-- The predicate is neither a truth value nor null, and folding leaves it as it is. -/
structure Expr.Irreducible (e : Expr) : Prop where
  ne_true : e ≠ .literal (.bool true)
  ne_false : e ≠ .literal (.bool false)
  ne_null : e ≠ .literal .null
  fold_eq : e.fold = (e, false)

/-- A filter without a mark has an irreducible predicate. -/
def Label.Simplified (l : Label) : Prop :=
  l.vacuous = false → ∀ f, l.op = .filter f → f.predicate.Irreducible

/-- Scopes do not matter to whether a filter is simplified. -/
theorem Label.Alike.simplified {l l' : Label} (h : l.Alike l') (hl : l.Simplified) :
    l'.Simplified :=
  fun hv f hop => hl (h.vacuous_eq.symm.trans hv) f (h.op_eq.symm.trans hop)

/-- A result that reports a replacement does not say that the plan is unchanged. -/
theorem RuleResult.replaced_ne_unchanged {p q : Plan} {id id' : NodeId} :
    replaced q id' ≠ unchanged p id :=
  fun h => Bool.false_ne_true (congrArg changed h).symm

namespace PredicateSimplification

/-- There is no verdict on a predicate that is neither a truth value nor null. -/
theorem verdict?_eq_none_iff {e : Expr} :
    verdict? e = none ↔
      e ≠ .literal (.bool true) ∧ e ≠ .literal (.bool false) ∧ e ≠ .literal .null := by
  constructor
  · intro h
    refine ⟨?_, ?_, ?_⟩ <;>
      rintro rfl <;>
      exact absurd h (Option.some_ne_none _)
  · rintro ⟨htrue, hfalse, hnull⟩
    unfold verdict?
    split
    · rename_i b
      cases b
      · exact absurd rfl hfalse
      · exact absurd rfl htrue
    · exact absurd rfl hnull
    · rfl

/-- A predicate is irreducible if folding makes no change and there is no verdict on it. -/
theorem irreducible_iff {e : Expr} :
    e.Irreducible ↔ verdict? e.fold.1 = none ∧ e.fold.2 = false := by
  constructor
  · intro h
    rw [h.fold_eq]
    exact ⟨verdict?_eq_none_iff.2 ⟨h.ne_true, h.ne_false, h.ne_null⟩, rfl⟩
  · rintro ⟨hverdict, hfold⟩
    have hself := Expr.fold_eq_self hfold
    rw [hself] at hverdict
    obtain ⟨htrue, hfalse, hnull⟩ := verdict?_eq_none_iff.1 hverdict
    exact ⟨htrue, hfalse, hnull, Prod.ext hself hfold⟩

variable {p : Plan} {c : Context} {rest : NodeId → Option Node}

/-- Simplification leaves a filter without a mark alone exactly if its predicate is irreducible. -/
theorem apply_filter_eq_unchanged_iff {id : NodeId} {l : Label} {f : Filter} {s : Branch}
    (h : p.Shows (c.plug (.node id l [s])) rest) (hl : l.op = .filter f) (hv : l.vacuous = false) :
    apply p id = .ok (.unchanged p id) ↔ f.predicate.Irreducible := by
  have hid : p.node id = .ok (l.node c.parent? [s.top]) := h.has_plug.node_top
  rw [apply, hid, irreducible_iff]
  simp only [ok_bind, Label.node_op, Label.node_vacuous, hl, hv]
  cases hverdict : verdict? f.predicate.fold.1 with
  | none =>
    cases hfold : f.predicate.fold.2 with
    | false => simp
    | true =>
      refine iff_of_false (fun heq => ?_) (by simp)
      exact RuleResult.replaced_ne_unchanged (Except.ok.inj heq)
  | some b =>
    refine iff_of_false (fun heq => ?_) (by simp)
    cases b with
    | true =>
      obtain ⟨q, hq, -⟩ := h.bypass
      simp only [hq, ok_bind, pure_eq_ok] at heq
      exact RuleResult.replaced_ne_unchanged (Except.ok.inj heq)
    | false =>
      obtain ⟨q, -, heq⟩ := bind_eq_ok.1 heq
      exact RuleResult.replaced_ne_unchanged (Except.ok.inj heq)

/-- Simplification changes nothing exactly at nodes that are simplified. -/
theorem apply_eq_unchanged_iff {s : Branch} (h : p.Shows (c.plug s) rest) (hs : s.Valid) :
    apply p s.top = .ok (.unchanged p s.top) ↔ s.label.Simplified := by
  obtain ⟨id, l, bs⟩ := s
  have hid : p.node id = .ok (l.node c.parent? (bs.map Branch.top)) := h.has_plug.node_top
  match hv : l.vacuous, hop : l.op with
  | false, .filter f =>
    obtain ⟨s, rfl⟩ := hs.branches_filter (.inl (by rw [Label.kind, hop]; rfl))
    rw [Branch.top_node, apply_filter_eq_unchanged_iff h hop hv]
    constructor
    · rintro hirreducible - g hg
      obtain rfl : f = g := Operator.filter.inj (hop.symm.trans hg)
      exact hirreducible
    · exact fun hsimplified => hsimplified hv f hop
  | true, _ =>
    refine iff_of_true ?_ fun hfalse => absurd (hfalse.symm.trans hv) Bool.false_ne_true
    rw [Branch.top_node, apply, hid]
    simp only [ok_bind, Label.node_op, Label.node_vacuous, hv, pure_eq_ok]
  | false, .scan _ | false, .projection _ | false, .join _ =>
    refine iff_of_true ?_ fun _ f hf => absurd (hop.symm.trans hf) (by simp)
    rw [Branch.top_node, apply, hid]
    simp only [ok_bind, Label.node_op, Label.node_vacuous, hv, hop, pure_eq_ok]

end PredicateSimplification

/-! ## Runs -/

namespace Optimizer

variable {o : Optimizer} {c : Context} {t t₁ t₂ b : Branch}

/-- A slot in which nothing more happens is occupied by a node that is simplified. -/
theorem Calm.simplified (hr : .predicateSimplification ∈ o.replacingRules) (h : o.Calm t)
    (ht : t.Valid) : t.label.Simplified := by
  intro hv f hop
  cases h with
  | vacuous hv' => exact absurd (hv.symm.trans hv') Bool.false_ne_true
  | rests h hrests =>
    have hanchor : Rule.predicateSimplification.anchorsAt t = true := by
      simp [Rule.anchorsAt, Branch.kind, Label.kind, hop, hv, Operator.kind]
    have hunchanged := hrests _ hr hanchor
    exact (PredicateSimplification.apply_eq_unchanged_iff h ht).1 hunchanged hv f hop

/-- The walk goes down to nodes that are simplified, since narrowing changes none of them. -/
theorem Opens.simplified (ho : o.Sorted) (hr : .predicateSimplification ∈ o.replacingRules)
    (h : o.Opens c t t₁ t₂) (ht₁ : t₁.Valid) : ∀ x ∈ t₂.branches, x.label.Simplified := by
  have hcalm : ∀ x ∈ t₁.branches, x.label.Simplified := by
    intro x hx
    obtain ⟨id₁, l₁, bs₁⟩ := t₁
    exact (h.calm x hx).simplified hr (ht₁.branch hx)
  cases h.narrows with
  | stay => exact hcalm
  | fire hr' hrewrites =>
    intro x' hx'
    obtain ⟨x, hx, hlabel⟩ := hrewrites.exists_branch_label (ho.narrowing _ hr') x' hx'
    rw [hlabel]
    exact hcalm x hx

/-- The walk down from a node that is simplified leaves nothing to simplify. -/
theorem visits_simplified (ho : o.Sorted) (hr : .predicateSimplification ∈ o.replacingRules)
    (hb : b.Valid) :
    o.Visits b (fun _ t => t.Marked ∧ t.label.Simplified) fun _ _ t' => t'.All Label.Simplified where
  skip hpre hv := (hpre.1.all_vacuous hv).mono fun _ hl hfalse =>
    absurd (hfalse.symm.trans hl) Bool.false_ne_true
  enter {c t t₁ t₂} hsteps hpre hopens x hx :=
    ⟨(visits_marked ho b).enter hsteps hpre.1 hopens x hx,
      hopens.simplified ho hr (hsteps.valid hb).of_plug x hx⟩
  leave {c t t₁ t₂ l bs} _ hpre hopens hl hbs := by
    refine .intro (hl.simplified ((hopens.alike ho).simplified hpre.2)) fun b' hb' => ?_
    obtain ⟨_, -, hb⟩ := exists_mem_of_forall₂ hbs b' hb'
    exact hb

/-- After optimizing a valid plan without marks by rules among which is simplification, every reachable
filter without a mark has an irreducible predicate, and simplification changes nothing at any reachable
node. -/
theorem filters_simplified {p : Plan} (hvalid : p.validate = .ok ()) (hunmarked : p.Unmarked)
    {rules : RuleSet} (hrules : .predicateSimplification ∈ rules.rules) (validates traces : Bool) :
    ∃ out, (ofRules rules validates traces).optimize p = .ok out ∧
      (∀ id n f, out.plan.Reachable id → out.plan.get? id = some n → n.op = .filter f →
        n.vacuous = false → f.predicate.Irreducible) ∧
      ∀ id, out.plan.Reachable id →
        Rule.apply .predicateSimplification out.plan id = .ok (.unchanged out.plan id) := by
  obtain ⟨b, rest, hsound⟩ := Plan.validate_eq_ok_iff.1 hvalid
  have ho := sorted_ofRules rules validates traces
  have hr : .predicateSimplification ∈ (ofRules rules validates traces).replacingRules :=
    mem_replacingRules_ofRules hrules rfl
  have hall := hsound.shows.all_of_unmarked hunmarked
  have hpre : ∀ t, (ofRules rules validates traces).Settles [] b t →
      (ofRules rules validates traces).Calm t → t.Marked ∧ t.label.Simplified :=
    fun t ht hcalm => ⟨ht.marked ho hall.marked, hcalm.simplified hr (ht.valid_drops hsound.valid).1⟩
  obtain ⟨t, b', out, hout, ⟨hshows, hvalid', -⟩, -, hsimplified⟩ :=
    exists_optimize_of_calm ho (visits_simplified ho hr hsound.valid) hsound hpre
  refine ⟨out, hout, fun id n f hid hget hop hv => ?_, fun id hid => ?_⟩
  · exact hshows.all_iff.1 hsimplified id n hid hget hv f hop
  · obtain ⟨c, s, rfl, rfl⟩ := Branch.exists_plug_of_mem_ids (hshows.reachable_iff.1 hid)
    have hs : s.Valid := hvalid'.of_plug
    exact (PredicateSimplification.apply_eq_unchanged_iff hshows hs).2 hsimplified.of_plug.label

/-- The theorem applies to a plan with two filters of which one is simplified and the other one is
marked. -/
theorem filters_simplified_constantFilters :
    Plan.constantFilters.validate = .ok () ∧ Plan.constantFilters.Unmarked ∧
    .predicateSimplification ∈ RuleSet.all.rules ∧
    ∃ out, (ofRules .all true false).optimize Plan.constantFilters = .ok out ∧
      (∀ id n f, out.plan.Reachable id → out.plan.get? id = some n → n.op = .filter f →
        n.vacuous = false → f.predicate.Irreducible) ∧
      ∀ id, out.plan.Reachable id →
        Rule.apply .predicateSimplification out.plan id = .ok (.unchanged out.plan id) := by
  have hvalid : Plan.constantFilters.validate = .ok () := by cbv
  have hrules : Rule.predicateSimplification ∈ RuleSet.all.rules := by decide
  exact ⟨hvalid, Plan.unmarked_constantFilters, hrules,
    filters_simplified hvalid Plan.unmarked_constantFilters hrules true false⟩

end Optimizer

end QueryPlan
