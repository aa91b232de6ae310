import Mathlib
import QueryPlan.Proofs.Optimizer.Run
import QueryPlan.Proofs.Valid.Rules
import QueryPlan.Proofs.Valid.Sound

/-!
# Rules and runs keep plans valid

Whatever rule is applied at a node of a valid plan, and whatever rules an optimizer runs on it, there
is a result, and the result is a valid plan again.

Main results:

- Theorem `Rule.exists_sound_apply`: one rule at one node.
- Theorem `Optimizer.exists_optimize`: a whole run.
- Theorem `Plan.validate_preserved`: both, for plans that pass validation.
-/

namespace QueryPlan

variable {p : Plan} {b : Branch} {rest : NodeId → Option Node}

/-- A rule applied at a node of a valid plan gives a valid plan. -/
theorem Rule.exists_sound_apply (r : Rule) (h : p.Sound b rest) {id : NodeId}
    (hid : p.Reachable id) :
    ∃ res b', r.apply p id = .ok res ∧ res.plan.Sound b' rest := by
  obtain ⟨c, s, rfl, rfl⟩ := Branch.exists_plug_of_mem_ids (h.shows.reachable_iff.1 hid)
  obtain ⟨res, hres, rfl | ⟨c', s', hrewrites, hinst⟩⟩ := r.apply_shows h.shows
  · exact ⟨_, c.plug s, hres, h⟩
  · exact ⟨res, c'.plug s', hres, hinst.shows, hrewrites.valid h.valid, h.linked⟩

namespace Optimizer

variable {o : Optimizer}

/-- A run on a valid plan gives a valid plan. -/
theorem exists_sound_transform (ho : o.Sorted) (h : p.Sound b rest) :
    ∃ b' s', o.transform p = .ok s' ∧ s'.plan.Sound b' rest ∧ Branch.Steps o.Runs b b' := by
  obtain ⟨b', s', hrun, hshows, hsteps⟩ := exists_transform ho h.shows
  exact ⟨b', s', hrun, ⟨hshows, hsteps.valid h.valid, h.linked⟩, hsteps⟩

/-- Validation does not get in the way of a run from a valid plan to a valid plan. -/
theorem optimize_eq_of_transform {b' : Branch} {s' : Optimized} (h : p.Sound b rest)
    (hrun : o.transform p = .ok s') (hsound : s'.plan.Sound b' rest) : o.optimize p = .ok s' := by
  have hp := Plan.validate_eq_ok_iff.2 ⟨b, rest, h⟩
  have hq := Plan.validate_eq_ok_iff.2 ⟨b', rest, hsound⟩
  cases hvalidates : o.validates <;>
    simp [optimize, hvalidates, hp, hrun, hq, Except.mapError]

/-- Optimizing a valid plan succeeds, whether or not plans are validated, and the rules lead from one
tree to the other. -/
theorem exists_optimize (ho : o.Sorted) (h : p.Sound b rest) :
    ∃ b' s', o.optimize p = .ok s' ∧ s'.plan.Sound b' rest ∧ Branch.Steps o.Runs b b' := by
  obtain ⟨b', s', hrun, hsound, hsteps⟩ := exists_sound_transform ho h
  exact ⟨b', s', optimize_eq_of_transform h hrun hsound, hsound, hsteps⟩

/-- Optimizing a valid plan succeeds, and the walk down from the root, once its slot is calm, keeps its
contract. -/
theorem exists_optimize_of_calm (ho : o.Sorted) {Pre : List Operator → Branch → Prop}
    {Post : List Operator → Branch → Branch → Prop} (hvisits : o.Visits b Pre Post)
    (h : p.Sound b rest) (hpre : ∀ t, o.Settles [] b t → o.Calm t → Pre [] t) :
    ∃ t b' s', o.optimize p = .ok s' ∧ s'.plan.Sound b' rest ∧ Branch.Steps o.Runs b b' ∧
      Post [] t b' := by
  obtain ⟨t, b', s', hrun, hgoes, -, hpost⟩ := exists_transform_of_calm ho hvisits h.shows hpre
  have hsound : s'.plan.Sound b' rest :=
    ⟨hgoes.shows, hgoes.steps.valid h.valid, h.linked⟩
  exact ⟨t, b', s', optimize_eq_of_transform h hrun hsound, hsound, hgoes.steps, hpost⟩

end Optimizer

namespace Plan

/-- Rules and runs keep plans valid: applied to a plan that passes validation, every rule at every
reachable node and every rule set as a whole have a result, and it passes validation. -/
theorem validate_preserved (h : p.validate = .ok ()) :
    (∀ (r : Rule) (id : NodeId), p.Reachable id →
      ∃ res, r.apply p id = .ok res ∧ res.plan.validate = .ok ()) ∧
    ∀ (rules : RuleSet) (traces : Bool),
      ∃ out, (Optimizer.ofRules rules true traces).optimize p = .ok out ∧
        out.plan.validate = .ok () := by
  obtain ⟨b, rest, hsound⟩ := validate_eq_ok_iff.1 h
  constructor
  · intro r id hid
    obtain ⟨res, b', hres, hsound'⟩ := r.exists_sound_apply hsound hid
    exact ⟨res, hres, validate_eq_ok_iff.2 ⟨b', rest, hsound'⟩⟩
  · intro rules traces
    obtain ⟨b', out, hout, hsound', -⟩ :=
      Optimizer.exists_optimize (Optimizer.sorted_ofRules rules true traces) hsound
    exact ⟨out, hout, validate_eq_ok_iff.2 ⟨b', rest, hsound'⟩⟩

/-- A projection above a filter above a join of two scans. -/
def filteredJoin : Plan where
  nodes := #[
    some ⟨.scan "a", some 2, [], .singleton "a", false⟩,
    some ⟨.scan "b", some 2, [], .singleton "b", false⟩,
    some ⟨.join ⟨.ofList [⟨"a", 1⟩, ⟨"b", 1⟩], .empty⟩, some 3, [0, 1], .ofList ["a", "b"], false⟩,
    some ⟨.filter (.ofPredicate (.binary (.column ⟨"a", 2⟩) .gt (.literal (.int 3)))), some 4, [2],
      .singleton "a", false⟩,
    some ⟨.projection (.ofList [⟨"b", 2⟩]), none, [3], .ofList ["a", "b"], false⟩]
  root := some 4

/-- The only projection of the plan is its root. -/
theorem eq_of_projection_filteredJoin {id : NodeId} {n : Node} {columns : ColumnSet}
    (hget : filteredJoin.get? id = some n) (hop : n.op = .projection columns) :
    id = 4 ∧ columns = .ofList [⟨"b", 2⟩] := by
  have hlt : id < 5 := lt_size_of_get? hget
  interval_cases id
  case «4» =>
    obtain rfl := Option.some.inj hget
    exact ⟨rfl, (Operator.projection.inj hop).symm⟩
  all_goals
    obtain rfl := Option.some.inj hget
    exact absurd hop (by simp)

/-- The theorem applies to a plan on which all kinds of operators stand. -/
theorem validate_preserved_filteredJoin :
    filteredJoin.validate = .ok () ∧
    (∀ (r : Rule) (id : NodeId), filteredJoin.Reachable id →
      ∃ res, r.apply filteredJoin id = .ok res ∧ res.plan.validate = .ok ()) ∧
    ∀ (rules : RuleSet) (traces : Bool),
      ∃ out, (Optimizer.ofRules rules true traces).optimize filteredJoin = .ok out ∧
        out.plan.validate = .ok () := by
  have hvalid : filteredJoin.validate = .ok () := by cbv
  exact ⟨hvalid, validate_preserved hvalid⟩

end Plan

end QueryPlan
