import Mathlib.Data.List.Chain
import QueryPlan.Proofs.Valid.Runs

/-!
# Traces tell what happened

A run that leaves a trace writes one entry whenever a rule changes the plan, and nothing else changes
the plan: a rule that reports no change has made none, on whatever plan and at whatever node it was
tried.  So the drawings of consecutive entries fit together, from the plan given to the plan returned.

Main results:

- Theorem `Rule.honest_apply`: a rule that reports no change leaves the plan as it is.
- Definition `Optimizer.Records`: what one recorded application of a rule does to the state of a run.
- Theorem `Optimizer.transform_records`: a run consists of recorded applications.
- Definition `Optimized.Recounts`: the trace tells how the plan came about.
- Theorem `Optimizer.trace_faithful`: the trace of every run does.
-/

namespace QueryPlan

/-! ## Rules report what they change -/

/-- A result that reports no change holds the plan to which the rule was applied. -/
def RuleResult.Honest (p : Plan) (res : RuleResult) : Prop :=
  res.changed = false → res.plan = p

namespace RuleResult

/-- A result that says the plan is unchanged is honest. -/
theorem honest_unchanged (p : Plan) (id : NodeId) : (unchanged p id).Honest p :=
  fun _ => rfl

/-- A result that reports a replacement is honest, whatever plan it holds. -/
theorem honest_replaced (p q : Plan) (id : NodeId) : (replaced q id).Honest p :=
  fun h => absurd h.symm Bool.false_ne_true

end RuleResult

variable {p q : Plan} {id : NodeId} {res : RuleResult}

/-- A node that has no only child is not bypassed, and the plan stays as it is. -/
theorem Plan.eq_of_bypass_none (h : p.bypass id = .ok (none, q)) : q = p := by
  rw [bypass] at h
  obtain ⟨n, -, h⟩ := bind_eq_ok.1 h
  split at h
  · exact (Prod.mk.inj (Except.ok.inj h)).2.symm
  · obtain ⟨p₁, -, h⟩ := bind_eq_ok.1 h
    obtain ⟨p₂, -, h⟩ := bind_eq_ok.1 h
    exact absurd (Prod.mk.inj (Except.ok.inj h)).1 (Option.some_ne_none _)

namespace ProjectionPushdown

/-- If narrowing reports no change, the plan stays as it is. -/
theorem eq_of_narrow_false {needed : ColumnSet} (h : narrow p id needed = .ok (false, q)) :
    q = p := by
  rw [narrow] at h
  split at h
  · exact (Prod.mk.inj (Except.ok.inj h)).2.symm
  split at h
  · dsimp only at h
    split at h
    · exact (Prod.mk.inj (Except.ok.inj h)).2.symm
    · exact absurd (Prod.mk.inj (Except.ok.inj h)).1.symm Bool.false_ne_true
  · obtain ⟨⟨fresh, p₁⟩, -, h⟩ := bind_eq_ok.1 h
    exact absurd (Prod.mk.inj (Except.ok.inj h)).1.symm Bool.false_ne_true

namespace BelowJoin

/-- If a branch of a join is reported not to have changed, neither it nor an earlier one has. -/
theorem eq_of_narrowBranch_false {condition columns : ColumnSet} {state : Bool × Plan}
    (h : narrowBranch condition columns state id = .ok (false, q)) : state = (false, q) := by
  rw [narrowBranch] at h
  obtain ⟨reachable, -, h⟩ := bind_eq_ok.1 h
  obtain ⟨target, -, h⟩ := bind_eq_ok.1 h
  obtain ⟨⟨narrowed, p₁⟩, hnarrow, h⟩ := bind_eq_ok.1 h
  obtain ⟨hchanged, rfl⟩ := Prod.mk.inj (Except.ok.inj h)
  obtain ⟨hstate, rfl⟩ := Bool.or_eq_false_iff.1 hchanged
  exact Prod.ext hstate (eq_of_narrow_false hnarrow).symm

/-- If no branch of a join was narrowed, the plan stays as it is. -/
theorem eq_of_narrowBranches_false {condition columns : ColumnSet} {branches : List NodeId}
    {state : Bool × Plan}
    (h : branches.foldlM (narrowBranch condition columns) state = .ok (false, q)) :
    state = (false, q) := by
  induction branches generalizing state with
  | nil => exact Except.ok.inj h
  | cons branch branches ih =>
    rw [List.foldlM_cons] at h
    obtain ⟨state₁, hbranch, h⟩ := bind_eq_ok.1 h
    obtain rfl := ih h
    exact eq_of_narrowBranch_false hbranch

/-- Pushing a projection below a join reports every change. -/
theorem honest_apply (h : apply p id = .ok res) : res.Honest p := by
  rw [apply] at h
  obtain ⟨n, -, h⟩ := bind_eq_ok.1 h
  split at h
  · obtain ⟨j, -, h⟩ := bind_eq_ok.1 h
    split at h
    · obtain ⟨⟨changed, p₁⟩, hfold, h⟩ := bind_eq_ok.1 h
      obtain rfl := Except.ok.inj h
      rintro rfl
      exact (Prod.mk.inj (eq_of_narrowBranches_false hfold)).2.symm
    · exact Except.ok.inj h ▸ RuleResult.honest_unchanged p id
  · exact Except.ok.inj h ▸ RuleResult.honest_unchanged p id

end BelowJoin

/-- Pushing a projection below a filter reports every change. -/
theorem BelowFilter.honest_apply (h : apply p id = .ok res) : res.Honest p := by
  rw [apply] at h
  obtain ⟨n, -, h⟩ := bind_eq_ok.1 h
  split at h
  · obtain ⟨f, -, h⟩ := bind_eq_ok.1 h
    split at h
    · obtain ⟨⟨changed, p₁⟩, hnarrow, h⟩ := bind_eq_ok.1 h
      obtain rfl := Except.ok.inj h
      rintro rfl
      exact eq_of_narrow_false hnarrow
    · exact Except.ok.inj h ▸ RuleResult.honest_unchanged p id
  · exact Except.ok.inj h ▸ RuleResult.honest_unchanged p id

end ProjectionPushdown

/-- Pushing a filter below a join reports every change. -/
theorem PredicatePushdown.honest_apply (h : apply p id = .ok res) : res.Honest p := by
  rw [apply] at h
  obtain ⟨n, -, h⟩ := bind_eq_ok.1 h
  split at h
  · obtain ⟨j, -, h⟩ := bind_eq_ok.1 h
    split at h
    · exact Except.ok.inj h ▸ RuleResult.honest_unchanged p id
    obtain ⟨branches, -, h⟩ := bind_eq_ok.1 h
    split at h
    · obtain ⟨p₁, -, h⟩ := bind_eq_ok.1 h
      obtain ⟨p₂, -, h⟩ := bind_eq_ok.1 h
      obtain ⟨p₃, -, h⟩ := bind_eq_ok.1 h
      exact Except.ok.inj h ▸ RuleResult.honest_replaced p p₃ _
    · exact Except.ok.inj h ▸ RuleResult.honest_unchanged p id
  · exact Except.ok.inj h ▸ RuleResult.honest_unchanged p id

/-- Eliminating a join reports every change. -/
theorem JoinElimination.honest_apply (h : apply p id = .ok res) : res.Honest p := by
  rw [apply] at h
  obtain ⟨k, -, h⟩ := bind_eq_ok.1 h
  split at h
  · exact Except.ok.inj h ▸ RuleResult.honest_unchanged p id
  · obtain ⟨p₁, -, h⟩ := bind_eq_ok.1 h
    obtain ⟨p₂, -, h⟩ := bind_eq_ok.1 h
    obtain ⟨n, -, h⟩ := bind_eq_ok.1 h
    split at h
    · obtain ⟨p₃, -, h⟩ := bind_eq_ok.1 h
      exact Except.ok.inj h ▸ RuleResult.honest_replaced p p₃ _
    · exact Except.ok.inj h ▸ RuleResult.honest_replaced p p₂ _

/-- Simplifying a filter reports every change. -/
theorem PredicateSimplification.honest_apply (h : apply p id = .ok res) : res.Honest p := by
  rw [apply] at h
  obtain ⟨n, -, h⟩ := bind_eq_ok.1 h
  split at h
  · dsimp only at h
    split at h
    · obtain ⟨⟨child, p₁⟩, hbypass, h⟩ := bind_eq_ok.1 h
      cases child with
      | some child => exact Except.ok.inj h ▸ RuleResult.honest_replaced p p₁ child
      | none =>
        dsimp only at h
        rw [Plan.eq_of_bypass_none hbypass] at h
        exact Except.ok.inj h ▸ RuleResult.honest_unchanged p id
    · obtain ⟨p₁, -, h⟩ := bind_eq_ok.1 h
      exact Except.ok.inj h ▸ RuleResult.honest_replaced p p₁ id
    · split at h
      · exact Except.ok.inj h ▸ RuleResult.honest_replaced p _ id
      · exact Except.ok.inj h ▸ RuleResult.honest_unchanged p id
  · exact Except.ok.inj h ▸ RuleResult.honest_unchanged p id

/-- A rule that reports no change leaves the plan as it is, whatever plan it is. -/
theorem Rule.honest_apply {r : Rule} (h : r.apply p id = .ok res) : res.Honest p := by
  cases r with
  | projectionBelowJoin => exact ProjectionPushdown.BelowJoin.honest_apply h
  | projectionBelowFilter => exact ProjectionPushdown.BelowFilter.honest_apply h
  | predicatePushdown => exact PredicatePushdown.honest_apply h
  | joinElimination => exact JoinElimination.honest_apply h
  | predicateSimplification => exact PredicateSimplification.honest_apply h

/-! ## What a run records -/

namespace Optimizer

/-- One of the given rules is applied, changes the plan and is recorded. -/
inductive Records (rules : Rule → Prop) : Optimized → Optimized → Prop
  | apply {r : Rule} {id : NodeId} {s : Optimized} {res : RuleResult} {before after : String}
      (hr : rules r) (hres : r.apply s.plan id = .ok res) (hchanged : res.changed = true)
      (hbefore : s.plan.explain = .ok before) (hafter : res.plan.explain = .ok after) :
      Records rules s
        ⟨res.plan, s.applied + 1, s.trace ++ [⟨r.name, id, before, after, true⟩]⟩

/-- The state of a run changes by recorded applications only. -/
abbrev History (rules : Rule → Prop) : Optimized → Optimized → Prop :=
  Relation.ReflTransGen (Records rules)

variable {o : Optimizer} {s s' : Optimized}

/-- A rule that is tried is recorded if it changes the plan, and otherwise nothing happens. -/
theorem tryRule_records (ho : o.traces = true) {r : Rule} (hr : o.Runs r) {found : Option NodeId}
    (h : o.tryRule id r s = .ok (found, s')) : History o.Runs s s' := by
  rw [tryRule] at h
  obtain ⟨anchors, -, h⟩ := bind_eq_ok.1 h
  split at h
  · obtain ⟨-, rfl⟩ := Prod.mk.inj (Except.ok.inj h)
    exact .refl
  dsimp only at h
  obtain ⟨before, hbefore, h⟩ := bind_eq_ok.1 h
  obtain ⟨res, hres, h⟩ := bind_eq_ok.1 h
  split at h
  · rename_i hchanged
    rw [Bool.not_eq_true'] at hchanged
    obtain ⟨-, rfl⟩ := Prod.mk.inj (Except.ok.inj h)
    rw [Rule.honest_apply hres hchanged]
  · rename_i hchanged
    rw [Bool.not_eq_true', Bool.not_eq_false] at hchanged
    obtain ⟨after, hafter, h⟩ := bind_eq_ok.1 h
    obtain ⟨-, rfl⟩ := Prod.mk.inj (Except.ok.inj h)
    exact .single (.apply hr hres hchanged hbefore hafter)

/-- Of rules that are tried in turn, one that changes the plan is recorded. -/
theorem tryRules_records (ho : o.traces = true) {rules : List Rule} (hrules : ∀ r ∈ rules, o.Runs r)
    {found : Option NodeId} (h : o.tryRules id rules s = .ok (found, s')) :
    History o.Runs s s' := by
  induction rules generalizing s with
  | nil =>
    obtain ⟨-, rfl⟩ := Prod.mk.inj (Except.ok.inj h)
    exact .refl
  | cons r rules ih =>
    rw [List.forall_mem_cons] at hrules
    rw [tryRules] at h
    obtain ⟨⟨found₁, s₁⟩, htry, h⟩ := bind_eq_ok.1 h
    have hfirst := tryRule_records ho hrules.1 htry
    cases found₁ with
    | some node =>
      obtain ⟨-, rfl⟩ := Prod.mk.inj (Except.ok.inj h)
      exact hfirst
    | none => exact hfirst.trans (ih hrules.2 h)

/-- What happens in a slot until it is stable, or its rounds are used up, is recorded. -/
theorem stabilizeWithin_records (ho : o.traces = true) {rounds : Nat} {id' : NodeId}
    (h : o.stabilizeWithin rounds id s = .ok (id', s')) : History o.Runs s s' := by
  induction rounds generalizing id s with
  | zero => simp [stabilizeWithin] at h
  | succ rounds ih =>
    rw [stabilizeWithin] at h
    obtain ⟨n, -, h⟩ := bind_eq_ok.1 h
    split at h
    · obtain ⟨-, rfl⟩ := Prod.mk.inj (Except.ok.inj h)
      exact .refl
    obtain ⟨⟨found, s₁⟩, htry, h⟩ := bind_eq_ok.1 h
    have hround := tryRules_records ho (fun _ hr => .inl hr) htry
    cases found with
    | some node => exact hround.trans (ih h)
    | none =>
      obtain ⟨-, rfl⟩ := Prod.mk.inj (Except.ok.inj h)
      exact hround

/-- What is done for one node after the other is recorded if it is for each node. -/
theorem foldlM_records {f : Optimized → NodeId → Except Plan.Fault Optimized}
    {rules : Rule → Prop} (hf : ∀ {s id s'}, f s id = .ok s' → History rules s s')
    {ids : List NodeId} (h : ids.foldlM f s = .ok s') : History rules s s' := by
  induction ids generalizing s with
  | nil =>
    obtain rfl := Except.ok.inj h
    exact .refl
  | cons id ids ih =>
    rw [List.foldlM_cons] at h
    obtain ⟨s₁, hfirst, h⟩ := bind_eq_ok.1 h
    exact (hf hfirst).trans (ih h)

/-- What happens in the slots of some nodes until all are stable is recorded. -/
theorem stabilizeAll_records (ho : o.traces = true) {ids : List NodeId}
    (h : o.stabilizeAll ids s = .ok s') : History o.Runs s s' := by
  refine foldlM_records (fun hslot => ?_) h
  obtain ⟨⟨id', s₁⟩, hstabilize, rfl⟩ := map_eq_ok.1 hslot
  exact stabilizeWithin_records ho hstabilize

/-- What happens on the walk down is recorded. -/
theorem descendWithin_records (ho : o.traces = true) {depth : Nat}
    (h : o.descendWithin depth id s = .ok s') : History o.Runs s s' := by
  induction depth generalizing id s s' with
  | zero => simp [descendWithin] at h
  | succ depth ih =>
    rw [descendWithin] at h
    obtain ⟨n, -, h⟩ := bind_eq_ok.1 h
    split at h
    · obtain rfl := Except.ok.inj h
      exact .refl
    obtain ⟨s₁, hstable, h⟩ := bind_eq_ok.1 h
    obtain ⟨⟨found, s₂⟩, hnarrow, h⟩ := bind_eq_ok.1 h
    obtain ⟨n₂, -, h⟩ := bind_eq_ok.1 h
    have hopened := stabilizeAll_records ho hstable
    have hnarrowed := tryRules_records ho (fun _ hr => .inr hr) hnarrow
    exact (hopened.trans hnarrowed).trans (foldlM_records ih h)

/-- A run consists of recorded applications. -/
theorem transform_records (ho : o.traces = true) (h : o.transform p = .ok s') :
    History o.Runs (.start p) s' := by
  rw [transform] at h
  split at h
  · obtain rfl := Except.ok.inj h
    exact .refl
  · obtain ⟨⟨root, s₁⟩, hstable, h⟩ := bind_eq_ok.1 h
    exact (stabilizeWithin_records ho hstable).trans (descendWithin_records ho h)

end Optimizer

/-! ## What the trace tells -/

/-- The trace tells how the plan came about from the plan `p`, by some of the given rules. -/
structure Optimized.Recounts (rules : Rule → Prop) (p : Plan) (s : Optimized) : Prop where
  /-- There are as many entries as applications. -/
  count : s.trace.length = s.applied
  entries : ∀ e ∈ s.trace, e.changed = true ∧ ∃ r, rules r ∧ e.rule = r.name
  /-- The first entry starts from the drawing of the plan given. -/
  first : ∀ e, s.trace.head? = some e → p.explain = .ok e.before
  /-- Every other entry starts where the one before it has come to. -/
  chain : s.trace.IsChain fun e e' => e'.before = e.after
  /-- The last entry has come to the drawing of the plan. -/
  last : ∀ e, s.trace.getLast? = some e → s.plan.explain = .ok e.after
  /-- Without an entry, the plan is the one given. -/
  idle : s.trace = [] → s.plan = p

namespace Optimized

variable {rules : Rule → Prop} {s s' : Optimized}

/-- At the start, the empty trace tells of the plan as it was given. -/
theorem recounts_start (rules : Rule → Prop) (p : Plan) : (start p).Recounts rules p where
  count := rfl
  entries _ he := absurd he List.not_mem_nil
  first _ he := absurd he.symm (Option.some_ne_none _)
  chain := .nil
  last _ he := absurd he.symm (Option.some_ne_none _)
  idle _ := rfl

/-- One more recorded application leaves a trace that tells how the plan came about. -/
theorem Recounts.records (h : s.Recounts rules p) (hstep : Optimizer.Records rules s s') :
    s'.Recounts rules p := by
  cases hstep with
  | @apply r id _ res before after hr hres hchanged hbefore hafter =>
    refine ⟨?_, fun e he => ?_, fun e he => ?_, ?_, fun e he => ?_, fun hnil => ?_⟩
    · rw [List.length_append, h.count]
      rfl
    · rcases List.mem_append.1 he with he | he
      · exact h.entries e he
      · obtain rfl := List.mem_singleton.1 he
        exact ⟨rfl, r, hr, rfl⟩
    · cases htrace : s.trace with
      | nil =>
        rw [htrace] at he
        obtain rfl := Option.some.inj he
        rw [← h.idle htrace]
        exact hbefore
      | cons e₁ trace =>
        rw [htrace] at he
        exact h.first e (by rw [htrace]; exact he)
    · refine List.isChain_append.2 ⟨h.chain, .singleton _, fun e he e' he' => ?_⟩
      obtain rfl := Option.some.inj he'
      exact Except.ok.inj (hbefore.symm.trans (h.last e he))
    · rw [List.getLast?_append, List.getLast?_singleton] at he
      obtain rfl := Option.some.inj he
      exact hafter
    · exact absurd hnil (by simp)

/-- Recorded applications leave a trace that tells how the plan came about. -/
theorem Recounts.history (h : s.Recounts rules p) (hrun : Optimizer.History rules s s') :
    s'.Recounts rules p := by
  induction hrun with
  | refl => exact h
  | tail _ hlast ih => exact ih.records hlast

/-- A trace that names only some rules serves a larger selection of rules as well. -/
theorem Recounts.mono {rules' : Rule → Prop} (h : s.Recounts rules p)
    (hrules : ∀ r, rules r → rules' r) : s.Recounts rules' p where
  __ := h
  entries e he := by
    obtain ⟨hchanged, r, hr, hname⟩ := h.entries e he
    exact ⟨hchanged, r, hrules r hr, hname⟩

end Optimized

namespace Optimizer

/-- The trace that optimizing a valid plan leaves is a history of what happened: it has an entry for
every application of a rule, each names a rule of the set, and the drawings lead from the plan given to
the plan returned.  If there is no entry, the plan returned is the one given. -/
theorem trace_faithful (hvalid : p.validate = .ok ()) (rules : RuleSet) (validates : Bool) :
    ∃ out, (ofRules rules validates true).optimize p = .ok out ∧
      out.Recounts (· ∈ rules.rules) p := by
  obtain ⟨b, rest, hsound⟩ := Plan.validate_eq_ok_iff.1 hvalid
  obtain ⟨b', out, hrun, hsound', -⟩ :=
    exists_sound_transform (sorted_ofRules rules validates true) hsound
  have hhistory := transform_records rfl hrun
  have hrecounts := (Optimized.recounts_start _ p).history hhistory
  exact ⟨out, optimize_eq_of_transform hsound hrun hsound', hrecounts.mono fun _ => runs_ofRules⟩

/-- The theorem applies to a plan on which all kinds of operators stand. -/
theorem trace_faithful_filteredJoin :
    Plan.filteredJoin.validate = .ok () ∧
    ∀ (rules : RuleSet) (validates : Bool),
      ∃ out, (ofRules rules validates true).optimize Plan.filteredJoin = .ok out ∧
        out.Recounts (· ∈ rules.rules) Plan.filteredJoin := by
  have hvalid : Plan.filteredJoin.validate = .ok () := by cbv
  exact ⟨hvalid, trace_faithful hvalid⟩

example :
    ((ofRules .all true true).optimize Plan.filteredJoin).toOption.map (·.trace.map (·.rule)) =
      some ["PREDICATE_PUSHDOWN", "PROJECTION_PUSHDOWN_JOIN", "PROJECTION_PUSHDOWN_SELECT"] := by
  cbv

end Optimizer

end QueryPlan
