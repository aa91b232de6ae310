import QueryPlan.Proofs.Valid.Runs

/-!
# What settings decide

An optimizer tries the rules it was given in the order of the catalogue, and neither tracing nor
validation takes part in what it does to a valid plan.  So a run depends on the plan and on which rules
are named: their order, their repetitions and the two flags do not count.

Main results:

- Theorem `RuleSet.ofNames_eq_error_iff`: the first name that no rule has decides the error.
- Theorem `RuleSet.mem_ofNames`: the rules of a set are those that are named.
- Theorem `Optimizer.transform_quiet`: without a trace, a run does the same to the plan.
- Theorem `Optimizer.runs_agree`: settings that name the same rules lead to the same plan.
-/

namespace QueryPlan

/-! ## Names of rules -/

namespace Rule

/-- The names of all rules. -/
def names : List String :=
  all.map name

/-- Every rule is found by its name. -/
theorem ofName_name (r : Rule) : ofName r.name = .ok r := by
  cases r <;> decide

/-- No two rules have the same name. -/
theorem name_injective {r s : Rule} (h : r.name = s.name) : r = s := by
  have hr := ofName_name r
  rw [h, ofName_name] at hr
  exact (Except.ok.inj hr).symm

/-- Every name of a rule is the name of the rule that is found. -/
theorem exists_ofName {n : String} (h : n ∈ names) : ∃ r, ofName n = .ok r ∧ r.name = n := by
  obtain ⟨r, -, rfl⟩ := List.mem_map.1 h
  exact ⟨r, ofName_name r, rfl⟩

/-- A name that no rule has is reported as unknown. -/
theorem ofName_of_not_mem {n : String} (h : n ∉ names) : ofName n = .error (.unknownRule n) := by
  have hnone : all.find? (·.name == n) = none := by
    refine List.find?_eq_none.2 fun r hr heq => h ?_
    exact List.mem_map.2 ⟨r, hr, beq_iff_eq.1 heq⟩
  rw [ofName, hnone]

end Rule

namespace RuleSet

/-- Adding a rule to a set adds this rule only. -/
theorem mem_insert {s : RuleSet} {r x : Rule} : x ∈ (s.insert r).rules ↔ x ∈ s.rules ∨ x = r := by
  unfold insert
  split
  · rename_i hr
    constructor
    · exact .inl
    · rintro (hx | rfl)
      · exact hx
      · exact hr
  · simp

/-- The selection of the rules in a list has the rules of the list. -/
theorem mem_ofList {rules : List Rule} {x : Rule} : x ∈ (ofList rules).rules ↔ x ∈ rules := by
  have hfold : ∀ s : RuleSet, x ∈ (rules.foldl insert s).rules ↔ x ∈ s.rules ∨ x ∈ rules := by
    induction rules with
    | nil => simp
    | cons r rules ih =>
      intro s
      rw [List.foldl_cons, ih, mem_insert, List.mem_cons, or_assoc]
  rw [ofList, hfold empty]
  simp [empty]

/-- A list of names is refused on account of the first name that no rule has. -/
theorem ofNames_eq_error_iff {names : List String} {e : Error} :
    ofNames names = .error e ↔
      ∃ n, names.find? (· ∉ Rule.names) = some n ∧ e = .unknownRule n := by
  have hmap : ofNames names = .error e ↔ names.mapM Rule.ofName = .error e := by
    rw [ofNames]
    cases names.mapM Rule.ofName <;> simp
  rw [hmap]
  clear hmap
  induction names with
  | nil => simp
  | cons n names ih =>
    rw [List.mapM_cons]
    by_cases hn : n ∈ Rule.names
    · obtain ⟨r, hr, -⟩ := Rule.exists_ofName hn
      rw [hr, ok_bind, List.find?_cons_of_neg (by simpa using hn)]
      refine Iff.trans ?_ ih
      cases names.mapM Rule.ofName <;> simp
    · rw [Rule.ofName_of_not_mem hn, error_bind, List.find?_cons_of_pos (by simpa using hn)]
      simp [eq_comm]

/-- The rules of a set that is given by names are those that are named. -/
theorem mem_ofNames {names : List String} {s : RuleSet} (h : ofNames names = .ok s) {r : Rule} :
    r ∈ s.rules ↔ r.name ∈ names := by
  obtain ⟨rules, hrules, rfl⟩ := map_eq_ok.1 h
  rw [mem_ofList]
  clear h
  induction names generalizing rules with
  | nil =>
    obtain rfl := Except.ok.inj hrules
    simp
  | cons n names ih =>
    rw [List.mapM_cons] at hrules
    obtain ⟨r', hr', hrules⟩ := bind_eq_ok.1 hrules
    obtain ⟨rules', hrules', hrules⟩ := bind_eq_ok.1 hrules
    obtain rfl := Except.ok.inj hrules
    have hname : r'.name = n := by
      by_cases hn : n ∈ Rule.names
      · obtain ⟨r'', hr'', rfl⟩ := Rule.exists_ofName hn
        rw [Except.ok.inj (hr'.symm.trans hr'')]
      · rw [Rule.ofName_of_not_mem hn] at hr'
        exact absurd hr' (by simp)
    rw [List.mem_cons, List.mem_cons, ih rules' hrules', ← hname]
    refine or_congr ⟨fun h => h ▸ rfl, fun h => Rule.name_injective h⟩ Iff.rfl

/-- Names of rules are accepted. -/
theorem exists_ofNames {names : List String} (h : ∀ n ∈ names, n ∈ Rule.names) :
    ∃ s, ofNames names = .ok s := by
  cases hs : ofNames names with
  | ok s => exact ⟨s, rfl⟩
  | error e =>
    obtain ⟨n, hn, -⟩ := ofNames_eq_error_iff.1 hs
    exact absurd (h n (List.mem_of_find?_eq_some hn)) (by simpa using List.find?_some hn)

end RuleSet

/-! ## Runs without a trace -/

/-- The state of a run, without its trace. -/
def Optimized.untraced (s : Optimized) : Optimized :=
  { s with trace := [] }

namespace Optimizer

/-- The optimizer that tries the same rules, but neither validates plans nor traces runs. -/
def quiet (o : Optimizer) : Optimizer :=
  { o with validates := false, traces := false }

/-- Sets with the same rules give the same optimizer, apart from its flags. -/
theorem quiet_ofRules_congr {rules rules' : RuleSet} (h : ∀ r, r ∈ rules.rules ↔ r ∈ rules'.rules)
    (validates traces validates' traces' : Bool) :
    (ofRules rules validates traces).quiet = (ofRules rules' validates' traces').quiet := by
  have hcontains : rules.contains = rules'.contains := by
    funext r
    simp [RuleSet.contains, h]
  simp only [quiet, ofRules, hcontains]

variable {o : Optimizer} {p : Plan} {id : NodeId} {s s' : Optimized} {found : Option NodeId}

/-- What is run after a step that depends on a flag is run after some result of that step. -/
theorem exists_of_ite_bind {ε α β : Type} {flag : Prop} [Decidable flag] {x y : Except ε α}
    {f : α → Except ε β} {b : β} (h : (if flag then x >>= f else y >>= f) = .ok b) :
    ∃ a, f a = .ok b := by
  split at h
  · obtain ⟨a, -, ha⟩ := bind_eq_ok.1 h
    exact ⟨a, ha⟩
  · obtain ⟨a, -, ha⟩ := bind_eq_ok.1 h
    exact ⟨a, ha⟩

/-- Whether a rule that is tried fires does not depend on the flags. -/
theorem tryRule_quiet {r : Rule} (h : o.tryRule id r s = .ok (found, s')) :
    o.quiet.tryRule id r s.untraced = .ok (found, s'.untraced) := by
  have hplan : s.untraced.plan = s.plan := rfl
  rw [tryRule] at h ⊢
  obtain ⟨anchors, hanchors, h⟩ := bind_eq_ok.1 h
  rw [hplan, hanchors, ok_bind]
  split at h
  · rename_i hcalm
    obtain ⟨rfl, rfl⟩ := Prod.mk.inj (Except.ok.inj h)
    rw [if_pos hcalm]
    rfl
  rename_i hcalm
  rw [if_neg hcalm]
  dsimp only at h
  obtain ⟨before, h⟩ := exists_of_ite_bind h
  obtain ⟨res, hres, h⟩ := bind_eq_ok.1 h
  have hquiet : ¬o.quiet.traces = true := Bool.false_ne_true
  dsimp only
  rw [if_neg hquiet, pure_eq_ok, ok_bind, hres, ok_bind]
  split at h
  · rename_i hsame
    obtain ⟨rfl, rfl⟩ := Prod.mk.inj (Except.ok.inj h)
    rw [if_pos hsame]
    rfl
  · rename_i hchanged
    obtain ⟨after, h⟩ := exists_of_ite_bind h
    obtain ⟨rfl, rfl⟩ := Prod.mk.inj (Except.ok.inj h)
    rw [if_neg hchanged]
    rfl

/-- Which of several rules fires does not depend on the flags. -/
theorem tryRules_quiet {rules : List Rule} (h : o.tryRules id rules s = .ok (found, s')) :
    o.quiet.tryRules id rules s.untraced = .ok (found, s'.untraced) := by
  induction rules generalizing s with
  | nil =>
    obtain ⟨rfl, rfl⟩ := Prod.mk.inj (Except.ok.inj h)
    rfl
  | cons r rules ih =>
    rw [tryRules] at h ⊢
    obtain ⟨⟨found₁, s₁⟩, htry, h⟩ := bind_eq_ok.1 h
    rw [tryRule_quiet htry, ok_bind]
    cases found₁ with
    | some node =>
      obtain ⟨rfl, rfl⟩ := Prod.mk.inj (Except.ok.inj h)
      rfl
    | none => exact ih h

/-- What happens in a slot until it is stable does not depend on the flags. -/
theorem stabilizeWithin_quiet {rounds : Nat} {id' : NodeId}
    (h : o.stabilizeWithin rounds id s = .ok (id', s')) :
    o.quiet.stabilizeWithin rounds id s.untraced = .ok (id', s'.untraced) := by
  induction rounds generalizing id s with
  | zero => simp [stabilizeWithin] at h
  | succ rounds ih =>
    rw [stabilizeWithin] at h ⊢
    obtain ⟨n, hn, h⟩ := bind_eq_ok.1 h
    have hn' : s.untraced.plan.node id = .ok n := hn
    rw [hn', ok_bind]
    split at h
    · rename_i hvacuous
      obtain ⟨rfl, rfl⟩ := Prod.mk.inj (Except.ok.inj h)
      rw [if_pos hvacuous]
      rfl
    · rename_i hvacuous
      rw [if_neg hvacuous]
      obtain ⟨⟨found, s₁⟩, htry, h⟩ := bind_eq_ok.1 h
      rw [show o.quiet.replacingRules = o.replacingRules from rfl, tryRules_quiet htry, ok_bind]
      cases found with
      | some node => exact ih h
      | none =>
        obtain ⟨rfl, rfl⟩ := Prod.mk.inj (Except.ok.inj h)
        rfl

/-- What is done for one node after the other is done without a trace, if it is for each node. -/
theorem foldlM_quiet {f g : Optimized → NodeId → Except Plan.Fault Optimized}
    (hfg : ∀ {s id s'}, f s id = .ok s' → g s.untraced id = .ok s'.untraced) {ids : List NodeId}
    (h : ids.foldlM f s = .ok s') : ids.foldlM g s.untraced = .ok s'.untraced := by
  induction ids generalizing s with
  | nil =>
    obtain rfl := Except.ok.inj h
    rfl
  | cons id ids ih =>
    rw [List.foldlM_cons] at h ⊢
    obtain ⟨s₁, hfirst, h⟩ := bind_eq_ok.1 h
    rw [hfg hfirst, ok_bind]
    exact ih h

/-- What happens in the slots of some nodes does not depend on the flags. -/
theorem stabilizeAll_quiet {ids : List NodeId} (h : o.stabilizeAll ids s = .ok s') :
    o.quiet.stabilizeAll ids s.untraced = .ok s'.untraced := by
  refine foldlM_quiet (fun {s id s'} hslot => ?_) h
  obtain ⟨⟨id', s₁⟩, hstable, rfl⟩ := map_eq_ok.1 hslot
  have hquiet : o.quiet.stabilize id s.untraced = .ok (id', s₁.untraced) :=
    stabilizeWithin_quiet hstable
  rw [hquiet]
  rfl

/-- What happens on the walk down does not depend on the flags. -/
theorem descendWithin_quiet {depth : Nat} (h : o.descendWithin depth id s = .ok s') :
    o.quiet.descendWithin depth id s.untraced = .ok s'.untraced := by
  induction depth generalizing id s s' with
  | zero => simp [descendWithin] at h
  | succ depth ih =>
    rw [descendWithin] at h ⊢
    obtain ⟨n, hn, h⟩ := bind_eq_ok.1 h
    have hn' : s.untraced.plan.node id = .ok n := hn
    rw [hn', ok_bind]
    split at h
    · rename_i hvacuous
      obtain rfl := Except.ok.inj h
      rw [if_pos hvacuous]
      rfl
    · rename_i hvacuous
      rw [if_neg hvacuous]
      obtain ⟨s₁, hstable, h⟩ := bind_eq_ok.1 h
      obtain ⟨⟨found, s₂⟩, hnarrow, h⟩ := bind_eq_ok.1 h
      obtain ⟨n₂, hn₂, h⟩ := bind_eq_ok.1 h
      have hn₂' : s₂.untraced.plan.node id = .ok n₂ := hn₂
      rw [stabilizeAll_quiet hstable, ok_bind,
        show o.quiet.narrowingRules = o.narrowingRules from rfl, tryRules_quiet hnarrow, ok_bind]
      dsimp only
      rw [hn₂', ok_bind]
      exact foldlM_quiet ih h

/-- Without a trace, a run does the same to the plan. -/
theorem transform_quiet (h : o.transform p = .ok s) : o.quiet.transform p = .ok s.untraced := by
  rw [transform] at h ⊢
  split at h
  · obtain rfl := Except.ok.inj h
    rfl
  · rename_i root _
    obtain ⟨⟨root', s₁⟩, hstable, h⟩ := bind_eq_ok.1 h
    have hquiet : o.quiet.stabilize root (.start p) = .ok (root', s₁.untraced) :=
      stabilizeWithin_quiet hstable
    rw [hquiet, ok_bind]
    exact descendWithin_quiet h

/-! ## Runs under settings -/

/-- The settings say which rules run. -/
theorem ofSettings_eq {settings : Settings} {rules : RuleSet}
    (h : RuleSet.ofNames settings.rules = .ok rules) :
    ofSettings settings = .ok (ofRules rules settings.validate settings.trace) := by
  rw [ofSettings, h]
  rfl

/-- Names of rules are refused just on account of the first one that no rule has.  Configurations that
name the same rules, in whatever order, however often and with whatever flags, make the same plan of a
valid plan, in the same number of applications. -/
theorem runs_agree :
    (∀ (names : List String) (e : Error), RuleSet.ofNames names = .error e ↔
      ∃ n, names.find? (· ∉ Rule.names) = some n ∧ e = .unknownRule n) ∧
    ∀ (p : Plan) (c d : Config), p.validate = .ok () →
      (∀ n ∈ c.optimizer.rules, n ∈ Rule.names) →
      (∀ n, n ∈ c.optimizer.rules ↔ n ∈ d.optimizer.rules) →
      ∃ o o' out out', ofSettings c.optimizer = .ok o ∧ ofSettings d.optimizer = .ok o' ∧
        o.optimize p = .ok out ∧ o'.optimize p = .ok out' ∧
        out.plan = out'.plan ∧ out.applied = out'.applied := by
  refine ⟨fun _ _ => RuleSet.ofNames_eq_error_iff, fun p c d hvalid hknown hsame => ?_⟩
  obtain ⟨rules, hrules⟩ := RuleSet.exists_ofNames hknown
  obtain ⟨rules', hrules'⟩ := RuleSet.exists_ofNames fun n hn => hknown n ((hsame n).2 hn)
  have hmem : ∀ r, r ∈ rules.rules ↔ r ∈ rules'.rules := fun r => by
    rw [RuleSet.mem_ofNames hrules, RuleSet.mem_ofNames hrules', hsame]
  obtain ⟨b, rest, hsound⟩ := Plan.validate_eq_ok_iff.1 hvalid
  obtain ⟨b₁, out, hrun, hsound₁, -⟩ :=
    exists_sound_transform (sorted_ofRules rules c.optimizer.validate c.optimizer.trace) hsound
  obtain ⟨b₂, out', hrun', hsound₂, -⟩ :=
    exists_sound_transform (sorted_ofRules rules' d.optimizer.validate d.optimizer.trace) hsound
  refine ⟨_, _, out, out', ofSettings_eq hrules, ofSettings_eq hrules',
    optimize_eq_of_transform hsound hrun hsound₁, optimize_eq_of_transform hsound hrun' hsound₂, ?_⟩
  have huntraced : out.untraced = out'.untraced := by
    have hquiet := transform_quiet hrun
    rw [quiet_ofRules_congr hmem _ _ d.optimizer.validate d.optimizer.trace,
      transform_quiet hrun'] at hquiet
    exact (Except.ok.inj hquiet).symm
  have hplan := congrArg Optimized.plan huntraced
  have happlied := congrArg Optimized.applied huntraced
  exact ⟨hplan, happlied⟩

/-- The theorem applies to a list with two unknown names, and to two configurations that differ in the
order and number of their names and in both flags. -/
theorem runs_agree_filteredJoin :
    RuleSet.ofNames ["PREDICATE_PUSHDOWN", "MERGE", "SORT"] = .error (.unknownRule "MERGE") ∧
    Plan.filteredJoin.validate = .ok () ∧
    ∃ o o' out out',
      ofSettings ⟨["SIMPLIFY_PREDICATE", "PREDICATE_PUSHDOWN", "SIMPLIFY_PREDICATE"], true, false⟩ =
        .ok o ∧
      ofSettings ⟨["PREDICATE_PUSHDOWN", "SIMPLIFY_PREDICATE"], false, true⟩ = .ok o' ∧
      o.optimize Plan.filteredJoin = .ok out ∧ o'.optimize Plan.filteredJoin = .ok out' ∧
      out.plan = out'.plan ∧ out.applied = out'.applied := by
  have hvalid : Plan.filteredJoin.validate = .ok () := by cbv
  refine ⟨(runs_agree.1 _ _).2 ⟨"MERGE", by decide, rfl⟩, hvalid, ?_⟩
  refine runs_agree.2 _ ⟨⟨["SIMPLIFY_PREDICATE", "PREDICATE_PUSHDOWN", "SIMPLIFY_PREDICATE"], true,
    false⟩⟩ ⟨⟨["PREDICATE_PUSHDOWN", "SIMPLIFY_PREDICATE"], false, true⟩⟩ hvalid ?_ ?_
  · decide
  · intro n
    simp only [List.mem_cons, List.not_mem_nil, or_false]
    tauto

end Optimizer

end QueryPlan
