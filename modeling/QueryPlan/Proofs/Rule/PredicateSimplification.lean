import QueryPlan.Proofs.Rule.Basic
import QueryPlan.Rule.PredicateSimplification

/-!
# Predicate simplification on trees

A filter is removed, marked with all below it, or given a folded predicate, according to the verdict
on its predicate.

Main results:

- Definition `PredicateSimplification.Simplifies`: what the rule does to a branch.
- Theorem `PredicateSimplification.apply_shows`: the rule does that or leaves the plan alone.
-/

namespace QueryPlan.PredicateSimplification

/-- A filter that is given another predicate has this predicate. -/
@[simp]
theorem withPredicate_predicate (f : Filter) (predicate : Expr) :
    (withPredicate f predicate).predicate = predicate := by
  unfold withPredicate
  by_cases h : (droppedColumns f predicate).isEmpty = true <;> simp [h]

/-- What predicate simplification does to a branch. -/
inductive Simplifies : Branch → Branch → Prop
  | remove {id : NodeId} {l : Label} {f : Filter} {s : Branch} (hl : l.op = .filter f)
      (hv : l.vacuous = false) (hverdict : verdict? f.predicate.fold.1 = some true) :
      Simplifies (.node id l [s]) s
  | refute {id : NodeId} {l : Label} {f : Filter} {bs : List Branch} (hl : l.op = .filter f)
      (hv : l.vacuous = false) (hverdict : verdict? f.predicate.fold.1 = some false) :
      Simplifies (.node id l bs)
        (Branch.mark
          (.node id { l with op := .filter { f with predicate := f.predicate.fold.1 } } bs))
  | fold {id : NodeId} {l : Label} {f : Filter} {bs : List Branch} (hl : l.op = .filter f)
      (hv : l.vacuous = false) (hverdict : verdict? f.predicate.fold.1 = none)
      (hfold : f.predicate.fold.2 = true) :
      Simplifies (.node id l bs)
        (.node id
          { l with
            op := .filter (withPredicate f f.predicate.fold.1)
            scope := l.scope.diff (staleTables f f.predicate.fold.1) }
          bs)

/-- Predicate simplification at a filter that may produce rows. -/
theorem apply_filter {p : Plan} {c : Context} {rest : NodeId → Option Node} {id : NodeId}
    {l : Label} {f : Filter} {bs : List Branch} (h : p.Shows (c.plug (.node id l bs)) rest)
    (hl : l.op = .filter f) (hv : l.vacuous = false) :
    ∃ res, apply p id = .ok res ∧ (res = .unchanged p id ∨
      ∃ s', Simplifies (.node id l bs) s' ∧ res.Installs p c s' rest) := by
  have hid : p.node id = .ok (l.node c.parent? (bs.map Branch.top)) := h.has_plug.node_top
  rw [apply, hid]
  simp only [ok_bind, Label.node_op, Label.node_vacuous, hl, hv]
  match hverdict : verdict? f.predicate.fold.1 with
  | some true =>
    match bs with
    | [s] =>
      obtain ⟨q, hq, h₁, hsize⟩ := h.bypass
      refine ⟨.replaced q s.top, ?_, .inr ⟨s, .remove hl hv hverdict, ?_⟩⟩
      · simp only [hq, ok_bind, pure_eq_ok]
      · exact .replaced h₁ (Nat.le_of_eq hsize.symm)
    | [] | _ :: _ :: _ =>
      refine ⟨.unchanged p id, ?_, .inl rfl⟩
      rw [Plan.bypass, hid]
      rfl
  | some false =>
    have h₁ := h.relabel { l with op := .filter { f with predicate := f.predicate.fold.1 } }
      (fun n => { n with op := .filter { f with predicate := f.predicate.fold.1 } })
      (fun _ _ => rfl)
    obtain ⟨q, hq, h₂, hsize⟩ := h₁.markVacuous
    refine ⟨.replaced q id, ?_, .inr ⟨_, .refute hl hv hverdict, ?_⟩⟩
    · exact congrArg (· >>= fun q => Except.ok (RuleResult.replaced q id)) hq
    · exact ⟨(Branch.top_mark (.node id _ bs)).symm, rfl, h₂,
        Nat.le_of_eq (hsize.trans (Plan.size_modify ..)).symm⟩
  | none =>
    by_cases hfold : f.predicate.fold.2 = true
    · rw [if_pos hfold]
      refine ⟨_, rfl, .inr ⟨_, .fold hl hv hverdict hfold, ?_⟩⟩
      refine ⟨rfl, rfl, h.relabel _ _ fun _ _ => rfl, ?_⟩
      exact Nat.le_of_eq (Plan.size_modify ..).symm
    · rw [if_neg hfold]
      exact ⟨_, rfl, .inl rfl⟩

/-- Predicate simplification at the top of a branch. -/
theorem apply_shows {p : Plan} {c : Context} {s : Branch} {rest : NodeId → Option Node}
    (h : p.Shows (c.plug s) rest) :
    ∃ res, apply p s.top = .ok res ∧
      (res = .unchanged p s.top ∨ ∃ s', Simplifies s s' ∧ res.Installs p c s' rest) := by
  obtain ⟨id, l, bs⟩ := s
  have hid : p.node id = .ok (l.node c.parent? (bs.map Branch.top)) := h.has_plug.node_top
  match hv : l.vacuous, hop : l.op with
  | false, .filter f => exact apply_filter h hop hv
  | true, _ | false, .scan _ | false, .projection _ | false, .join _ =>
    refine ⟨.unchanged p id, ?_, .inl rfl⟩
    rw [Branch.top_node, apply, hid]
    simp only [ok_bind, Label.node_op, Label.node_vacuous, hv, hop, pure_eq_ok]

/-- The rule is tried at filters that may produce rows. -/
theorem isAnchor_eq {p : Plan} {parent : Option NodeId} {b : Branch} (h : p.Has parent b) :
    isAnchor p b.top = .ok (b.kind == .filter && !b.label.vacuous) := by
  rw [isAnchor, h.node_top]
  rfl

end QueryPlan.PredicateSimplification
