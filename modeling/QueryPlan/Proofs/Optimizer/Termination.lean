import QueryPlan.Proofs.Valid.Runs

/-!
# Runs come to an end

Loops and recursions are given limits, since a plan may hold cycles.  On the plans that a run meets,
the limits do not count: a loop that is given more steps than its limit does the same, so it would
come to the same end without any limit.

Main results:

- Definition `Plan.Ends`: a walk comes to an end within a limit.
- Definition `Optimizer.LoopsEnd`: every loop of a run that starts at a node comes to an end.
- Theorem `Optimizer.Leads.exists_sound`: the plans a run meets are valid.
- Theorem `Optimizer.optimize_terminates`: a run ends, and all its loops do on all plans it may meet.
-/

namespace QueryPlan

/-! ## More steps -/

section Except

variable {ε α β : Type} {f g : α → Except ε β} {l : List α} {bs : List β}

/-- Running over a list has the same result if every single run has. -/
theorem mapM_ok_of_imp (h : ∀ {a b}, f a = .ok b → g a = .ok b) (hf : l.mapM f = .ok bs) :
    l.mapM g = .ok bs := by
  induction l generalizing bs with
  | nil => exact hf
  | cons a l ih =>
    rw [List.mapM_cons] at hf ⊢
    obtain ⟨b, hb, hf⟩ := bind_eq_ok.1 hf
    obtain ⟨bs, hbs, hf⟩ := bind_eq_ok.1 hf
    rw [h hb, ok_bind, ih hbs, ok_bind]
    exact hf

/-- A loop over a list that has a result has the same one if every single step keeps its result. -/
theorem foldlM_ok_of_imp {f g : β → α → Except ε β} {s s' : β}
    (h : ∀ {s a s'}, f s a = .ok s' → g s a = .ok s') (hf : l.foldlM f s = .ok s') :
    l.foldlM g s = .ok s' := by
  induction l generalizing s with
  | nil => exact hf
  | cons a l ih =>
    rw [List.foldlM_cons] at hf ⊢
    obtain ⟨s₁, hs₁, hf⟩ := bind_eq_ok.1 hf
    rw [h hs₁, ok_bind]
    exact ih hf

end Except

namespace Plan

/-- A walk with a limited number of steps comes to an end: with `limit` steps or any larger number it
has one and the same result. -/
def Ends {α : Type} (limit : Nat) (walk : Nat → Except Fault α) : Prop :=
  ∃ a, ∀ steps, limit ≤ steps → walk steps = .ok a

/-- A walk that has a result keeps it, if one more step does not change any result. -/
theorem eq_ok_of_le {α : Type} {limit : Nat} {f : Nat → Except Fault α} {a : α}
    (hsucc : ∀ {steps a}, f steps = .ok a → f (steps + 1) = .ok a) (h : f limit = .ok a)
    (steps : Nat) (hsteps : limit ≤ steps) : f steps = .ok a := by
  induction hsteps with
  | refl => exact h
  | step _ ih => exact hsucc ih

/-- A walk that has a result within a limit comes to an end, if one more step does not change any
result. -/
theorem Ends.of_succ {α : Type} {limit : Nat} {walk : Nat → Except Fault α} {a : α}
    (hsucc : ∀ {steps a}, walk steps = .ok a → walk (steps + 1) = .ok a) (h : walk limit = .ok a) :
    Ends limit walk :=
  ⟨a, eq_ok_of_le hsucc h⟩

variable {p q : Plan} {id : NodeId} {steps : Nat}

/-- A walk in preorder that ended in time ends the same way if it is given one more step. -/
theorem preorderWithin_succ {ids : List NodeId} (h : p.preorderWithin steps id = .ok ids) :
    p.preorderWithin (steps + 1) id = .ok ids := by
  induction steps generalizing id ids with
  | zero => simp [preorderWithin] at h
  | succ steps ih =>
    rw [preorderWithin] at h ⊢
    obtain ⟨n, hn, h⟩ := bind_eq_ok.1 h
    obtain ⟨below, hbelow, h⟩ := bind_eq_ok.1 h
    rw [hn, ok_bind, mapM_ok_of_imp ih hbelow, ok_bind]
    exact h

/-- A search for the only table that ended in time ends the same way if it is given one more step.
-/
theorem soleTableWithin_succ {table : Option String} (h : p.soleTableWithin steps id = .ok table) :
    p.soleTableWithin (steps + 1) id = .ok table := by
  induction steps generalizing id with
  | zero => simp [soleTableWithin] at h
  | succ steps ih =>
    rw [soleTableWithin] at h ⊢
    obtain ⟨n, hn, h⟩ := bind_eq_ok.1 h
    rw [hn, ok_bind]
    split
    · simpa [*] using h
    · rename_i hop hchildren
      simp only [hop, hchildren] at h
      exact ih h
    · simpa [*] using h

/-- A way up that ended in time ends the same way if it is given one more step. -/
theorem upwardWithin_succ {start : Option NodeId} {above : List Node}
    (h : p.upwardWithin steps start = .ok above) : p.upwardWithin (steps + 1) start = .ok above := by
  induction steps generalizing start above with
  | zero =>
    cases start with
    | none => rwa [upwardWithin] at h ⊢
    | some id => simp [upwardWithin] at h
  | succ steps ih =>
    cases start with
    | none => rwa [upwardWithin] at h ⊢
    | some id =>
      rw [upwardWithin] at h ⊢
      obtain ⟨n, hn, h⟩ := bind_eq_ok.1 h
      obtain ⟨above, habove, h⟩ := bind_eq_ok.1 h
      rw [hn, ok_bind, ih habove, ok_bind]
      exact h

/-- Refreshing that ended in time ends the same way if it is given one more step. -/
theorem refreshScopesWithin_succ (h : refreshScopesWithin steps id p = .ok q) :
    refreshScopesWithin (steps + 1) id p = .ok q := by
  induction steps generalizing id p with
  | zero => simp [refreshScopesWithin] at h
  | succ steps ih =>
    rw [refreshScopesWithin] at h ⊢
    obtain ⟨reachable, hreachable, h⟩ := bind_eq_ok.1 h
    obtain ⟨n, hn, h⟩ := bind_eq_ok.1 h
    obtain ⟨p₁, hp₁, h⟩ := bind_eq_ok.1 h
    rw [hreachable, ok_bind, hn, ok_bind, hp₁, ok_bind]
    cases hparent : n.parent with
    | none => simpa only [hparent] using h
    | some parent =>
      simp only [hparent] at h
      exact ih h

end Plan

namespace ProjectionPushdown.BelowJoin

/-- Passing filters that ended in time ends the same way if it is given one more step. -/
theorem passFilters_succ {p : Plan} {needed : ColumnSet} {steps : Nat} {id target : NodeId}
    (h : passFilters p needed steps id = .ok target) :
    passFilters p needed (steps + 1) id = .ok target := by
  induction steps generalizing id with
  | zero => simp [passFilters] at h
  | succ steps ih =>
    rw [passFilters] at h ⊢
    obtain ⟨n, hn, h⟩ := bind_eq_ok.1 h
    rw [hn, ok_bind]
    split
    · rename_i f child hop hchild
      simp only [hop, hchild] at h
      by_cases hv : n.vacuous = true
      · rwa [if_pos hv] at h ⊢
      rw [if_neg hv] at h ⊢
      obtain ⟨m, hm, h⟩ := bind_eq_ok.1 h
      rw [hm, ok_bind]
      split
      · rename_i hstay
        rwa [if_pos hstay] at h
      · rename_i hpass
        rw [if_neg hpass] at h
        exact ih h
    · simpa [*] using h

end ProjectionPushdown.BelowJoin

namespace Optimizer

variable {o : Optimizer} {id id' : NodeId} {s s' : Optimized} {steps : Nat}

/-- A slot that became stable in time does so in the same way if it is given one more round. -/
theorem stabilizeWithin_succ (h : o.stabilizeWithin steps id s = .ok (id', s')) :
    o.stabilizeWithin (steps + 1) id s = .ok (id', s') := by
  induction steps generalizing id s with
  | zero => simp [stabilizeWithin] at h
  | succ steps ih =>
    rw [stabilizeWithin] at h ⊢
    obtain ⟨n, hn, h⟩ := bind_eq_ok.1 h
    rw [hn, ok_bind]
    by_cases hv : n.vacuous = true
    · rwa [if_pos hv] at h ⊢
    rw [if_neg hv] at h ⊢
    obtain ⟨⟨found, s₁⟩, hfound, h⟩ := bind_eq_ok.1 h
    rw [hfound, ok_bind]
    cases found with
    | none => exact h
    | some node => exact ih h

/-- A walk down that ended in time ends the same way if it is given one more level. -/
theorem descendWithin_succ (h : o.descendWithin steps id s = .ok s') :
    o.descendWithin (steps + 1) id s = .ok s' := by
  induction steps generalizing id s s' with
  | zero => simp [descendWithin] at h
  | succ steps ih =>
    rw [descendWithin] at h ⊢
    obtain ⟨n, hn, h⟩ := bind_eq_ok.1 h
    rw [hn, ok_bind]
    by_cases hv : n.vacuous = true
    · rwa [if_pos hv] at h ⊢
    rw [if_neg hv] at h ⊢
    obtain ⟨s₁, hs₁, h⟩ := bind_eq_ok.1 h
    obtain ⟨⟨found, s₂⟩, hfound, h⟩ := bind_eq_ok.1 h
    obtain ⟨n₂, hn₂, h⟩ := bind_eq_ok.1 h
    rw [hs₁, ok_bind, hfound, ok_bind]
    simp only [hn₂, ok_bind]
    exact foldlM_ok_of_imp ih h

/-! ## The loops of a run -/

/-- Every loop that a run of the optimizer starts at the node `id` of the plan `p` comes to an end. -/
structure LoopsEnd (o : Optimizer) (p : Plan) (id : NodeId) : Prop where
  /-- The slot of the node becomes stable. -/
  stabilize : ∀ s, s.plan = p → ∃ id' s',
    (∀ rounds, roundLimit p ≤ rounds → o.stabilizeWithin rounds id s = .ok (id', s')) ∧
      o.Stable id' s'
  /-- The walk down ends, also in the branches that rules put in while it is on its way. -/
  descend : ∀ s, s.plan = p →
    Plan.Ends (depthLimit p) fun depth => o.descendWithin depth id s
  passFilters : ∀ needed, Plan.Ends p.walkLimit fun steps =>
    ProjectionPushdown.BelowJoin.passFilters p needed steps id
  soleTable : Plan.Ends p.walkLimit fun steps => p.soleTableWithin steps id
  /-- The way up ends from which it is read off whether the nodes above read a table. -/
  upward : ∀ n, p.get? id = some n → Plan.Ends p.walkLimit fun steps => p.upwardWithin steps n.parent
  preorder : Plan.Ends p.walkLimit fun depth => p.preorderWithin depth id
  refreshScopes : Plan.Ends p.walkLimit fun steps => Plan.refreshScopesWithin steps id p
  /-- No loop that a rule starts on a plan on which it has begun to work runs out of steps. -/
  apply : ∀ r : Rule, ∃ res, r.apply p id = .ok res

variable {p q : Plan} {b : Branch} {c : Context} {t : Branch} {rest : NodeId → Option Node}

/-- The loops that start at a node of a tree come to an end. -/
theorem loopsEnd_of_shows (ho : o.Sorted) (h : p.Shows (c.plug t) rest) : o.LoopsEnd p t.top where
  stabilize s hs := by
    subst hs
    obtain ⟨c', t', s', hrun, -, -, hstable⟩ := stabilize_goes ho h
    refine ⟨t'.top, s', fun rounds hrounds => ?_, hstable⟩
    exact Plan.eq_ok_of_le (f := fun rounds => o.stabilizeWithin rounds t.top s)
      stabilizeWithin_succ hrun rounds hrounds
  descend s hs := by
    subst hs
    obtain ⟨c', t', s', hrun, -⟩ := descendWithin_goes ho (visits_trivial o (c.plug t)) h .refl
      trivial (descent_le_depthLimit h false)
    exact .of_succ descendWithin_succ hrun
  passFilters needed := by
    have hheight := Nat.le_trans h.has_plug.height_le (Nat.le_succ _)
    obtain ⟨_, target, _, hrun, _⟩ :=
      ProjectionPushdown.BelowJoin.passFilters_eq h.has_plug needed hheight
    exact .of_succ ProjectionPushdown.BelowJoin.passFilters_succ hrun
  soleTable := .of_succ Plan.soleTableWithin_succ h.has_plug.soleTable?_eq
  upward n hn := by
    obtain rfl := Option.some.inj (h.has_plug.get?_top.symm.trans hn)
    obtain ⟨above, habove, -⟩ := Plan.upwardWithin_eq h (Nat.le_of_lt h.length_lt_walkLimit)
    exact .of_succ Plan.upwardWithin_succ habove
  preorder := .of_succ Plan.preorderWithin_succ h.has_plug.preorder_eq
  refreshScopes := by
    obtain ⟨q, hq, -⟩ := h.splits_append_nil.refreshScopes
    exact .of_succ Plan.refreshScopesWithin_succ hq
  apply r := by
    obtain ⟨res, hres, -⟩ := r.apply_shows h
    exact ⟨res, hres⟩

/-- Rules lead from valid plans to valid plans. -/
theorem Leads.exists_sound (h : o.Leads p q) (hp : p.Sound b rest) : ∃ b', q.Sound b' rest := by
  induction h with
  | refl => exact ⟨b, hp⟩
  | tail _ hchanges ih =>
    obtain ⟨b', hsound⟩ := ih
    obtain ⟨r, id, res, -, hid, hres, -, rfl⟩ := hchanges
    obtain ⟨res', b'', hres', hsound'⟩ := r.exists_sound_apply hsound hid
    obtain rfl := Except.ok.inj (hres.symm.trans hres')
    exact ⟨b'', hsound'⟩

/-- A run on a plan that passes validation comes to an end, whatever rules are selected.  So does every
loop that it starts at a node of the plan, or of any plan that its rules can make of it: what the run
meets on its way are such plans. -/
theorem optimize_terminates (hvalid : p.validate = .ok ()) (rules : RuleSet)
    (validates traces : Bool) :
    (∃ out, (ofRules rules validates traces).optimize p = .ok out ∧
      (ofRules rules validates traces).Leads p out.plan) ∧
    ∀ q, (ofRules rules validates traces).Leads p q →
      ∀ id, q.Reachable id → (ofRules rules validates traces).LoopsEnd q id := by
  obtain ⟨b, rest, hsound⟩ := Plan.validate_eq_ok_iff.1 hvalid
  have ho := sorted_ofRules rules validates traces
  constructor
  · obtain ⟨-, b', out, hrun, hgoes, -⟩ :=
      exists_transform_of_visits ho (visits_trivial _ b) hsound.shows fun _ _ => trivial
    have hsound' : out.plan.Sound b' rest :=
      ⟨hgoes.shows, hgoes.steps.valid hsound.valid, hsound.linked⟩
    exact ⟨out, optimize_eq_of_transform hsound hrun hsound', hgoes.leads⟩
  · intro q hq id hid
    obtain ⟨b', hsound'⟩ := hq.exists_sound hsound
    obtain ⟨c, t, rfl, rfl⟩ := Branch.exists_plug_of_mem_ids (hsound'.shows.reachable_iff.1 hid)
    exact loopsEnd_of_shows ho hsound'.shows

/-- The theorem applies to a plan on which all kinds of operators stand. -/
theorem optimize_terminates_filteredJoin :
    Plan.filteredJoin.validate = .ok () ∧
    (∃ out, (ofRules .all true true).optimize Plan.filteredJoin = .ok out ∧
      (ofRules .all true true).Leads Plan.filteredJoin out.plan) ∧
    ∀ q, (ofRules .all true true).Leads Plan.filteredJoin q →
      ∀ id, q.Reachable id → (ofRules .all true true).LoopsEnd q id := by
  have hvalid : Plan.filteredJoin.validate = .ok () := by cbv
  exact ⟨hvalid, optimize_terminates hvalid .all true true⟩

end Optimizer

end QueryPlan
