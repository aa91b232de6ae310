import Mathlib.Logic.Relation
import QueryPlan.Proofs.Rule.JoinElimination
import QueryPlan.Proofs.Rule.PredicatePushdown
import QueryPlan.Proofs.Rule.PredicateSimplification
import QueryPlan.Proofs.Rule.ProjectionPushdown
import QueryPlan.Rule.Catalogue

/-!
# The rules on trees

A rule applied at the top of a branch either leaves the plan alone or rewrites the branch, and only
join elimination touches the context, of which it refreshes the scopes.

Main results:

- Definitions `Rule.Rewrites` and `Branch.Step`: one application of a rule to a tree.
- Theorem `Rule.apply_shows`: a rule rewrites the branch it is applied at or leaves the plan alone.
- Theorem `Branch.Steps.preserves`: what each rule preserves, a sequence of rules preserves.
-/

namespace QueryPlan

namespace Rule

/-- What a rule does to a branch in its context. -/
inductive Rewrites : Rule → Context → Branch → Context → Branch → Prop
  | belowJoin {c : Context} {s s' : Branch} (h : ProjectionPushdown.BelowJoin.Pushes s s') :
      Rewrites .projectionBelowJoin c s c s'
  | belowFilter {c : Context} {s s' : Branch} (h : ProjectionPushdown.BelowFilter.Pushes s s') :
      Rewrites .projectionBelowFilter c s c s'
  | push {c : Context} {s s' : Branch} (h : PredicatePushdown.Pushes s s') :
      Rewrites .predicatePushdown c s c s'
  | eliminate {c : Context} {s kept : Branch} (h : JoinElimination.Eliminates c s kept) :
      Rewrites .joinElimination c s (c.refresh kept) kept
  | simplify {c : Context} {s s' : Branch} (h : PredicateSimplification.Simplifies s s') :
      Rewrites .predicateSimplification c s c s'

variable {p : Plan} {c : Context} {s : Branch} {rest : NodeId → Option Node}

/-- A rule rewrites the branch it is applied at or leaves the plan alone. -/
theorem apply_shows (r : Rule) (h : p.Shows (c.plug s) rest) :
    ∃ res, r.apply p s.top = .ok res ∧ (res = .unchanged p s.top ∨
      ∃ c' s', r.Rewrites c s c' s' ∧ res.Installs p c' s' rest) := by
  cases r with
  | projectionBelowJoin =>
    obtain ⟨res, hres, ⟨-, hsame⟩ | ⟨-, s', hs, hinst⟩⟩ :=
      ProjectionPushdown.BelowJoin.apply_shows h
    · exact ⟨res, hres, .inl hsame⟩
    · exact ⟨res, hres, .inr ⟨c, s', .belowJoin hs, hinst⟩⟩
  | projectionBelowFilter =>
    obtain ⟨res, hres, ⟨-, hsame⟩ | ⟨-, s', hs, hinst⟩⟩ :=
      ProjectionPushdown.BelowFilter.apply_shows h
    · exact ⟨res, hres, .inl hsame⟩
    · exact ⟨res, hres, .inr ⟨c, s', .belowFilter hs, hinst⟩⟩
  | predicatePushdown =>
    obtain ⟨res, hres, hsame | ⟨s', hs, hinst⟩⟩ := PredicatePushdown.apply_shows h
    · exact ⟨res, hres, .inl hsame⟩
    · exact ⟨res, hres, .inr ⟨c, s', .push hs, hinst⟩⟩
  | joinElimination =>
    obtain ⟨res, hres, hsame | ⟨kept, hs, hinst⟩⟩ := JoinElimination.apply_shows h
    · exact ⟨res, hres, .inl hsame⟩
    · exact ⟨res, hres, .inr ⟨c.refresh kept, kept, .eliminate hs, hinst⟩⟩
  | predicateSimplification =>
    obtain ⟨res, hres, hsame | ⟨s', hs, hinst⟩⟩ := PredicateSimplification.apply_shows h
    · exact ⟨res, hres, .inl hsame⟩
    · exact ⟨res, hres, .inr ⟨c, s', .simplify hs, hinst⟩⟩

/-- The kinds of nodes at which a rule is tried. -/
def anchorsAt : Rule → Branch → Bool
  | .projectionBelowJoin, b => b.isProjectionOver .join
  | .projectionBelowFilter, b => b.isProjectionOver .filter
  | .predicatePushdown, b => b.isFilterOverJoin
  | .joinElimination, b =>
    if b.kind = .join then b.branches.length == 2 else b.isFilterOverJoin
  | .predicateSimplification, b => b.kind == .filter && !b.label.vacuous

/-- Whether a rule is tried at a node is read off the branch of this node. -/
theorem isAnchor_eq (r : Rule) {parent : Option NodeId} (h : p.Has parent s) :
    r.isAnchor p s.top = .ok (r.anchorsAt s) := by
  cases r with
  | projectionBelowJoin => exact ProjectionPushdown.BelowJoin.isAnchor_eq h
  | projectionBelowFilter => exact ProjectionPushdown.BelowFilter.isAnchor_eq h
  | predicatePushdown => exact PredicatePushdown.isAnchor_eq h
  | joinElimination => exact JoinElimination.isAnchor_eq h
  | predicateSimplification => exact PredicateSimplification.isAnchor_eq h

/-- A rule that is tried at the branch `s` of the plan `p` leaves the plan alone. -/
def Rests (r : Rule) (p : Plan) (s : Branch) : Prop :=
  r.anchorsAt s = true → r.apply p s.top = .ok (.unchanged p s.top)

end Rule

namespace Branch

/-- One of the given rules is applied at a node of a tree. -/
inductive Step (rules : Rule → Prop) : Branch → Branch → Prop
  | rewrite {r : Rule} {c c' : Context} {s s' : Branch} (hr : rules r)
      (h : r.Rewrites c s c' s') : Step rules (c.plug s) (c'.plug s')

/-- Rules are applied one after the other. -/
abbrev Steps (rules : Rule → Prop) : Branch → Branch → Prop :=
  Relation.ReflTransGen (Step rules)

/-- What each application of a rule preserves, a sequence of applications preserves. -/
theorem Steps.preserves {rules : Rule → Prop} {motive : Branch → Prop}
    (hstep : ∀ {b b'}, Step rules b b' → motive b → motive b') {b b' : Branch}
    (h : Steps rules b b') (hb : motive b) : motive b' := by
  induction h with
  | refl => exact hb
  | tail _ hlast ih => exact hstep hlast ih

end Branch

end QueryPlan
