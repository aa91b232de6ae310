import QueryPlan.Optimizer.Run
import QueryPlan.Proofs.Optimizer.Measure

/-!
# Runs of the optimizer

A run on a plan that is a tree comes to an end, and what it leaves is a tree that the rules lead to.
While the run works on a branch, nothing but scopes changes around it, so that the walk finds the
other branches of a node as it left them.

Main results:

- Theorem `Optimizer.stabilize_goes`: a slot becomes stable within its rounds.
- Definition `Optimizer.Calm`: nothing more happens in a slot, read off the tree.
- Definition `Optimizer.Visits`: what can be said of a walk down, one node at a time.
- Theorem `Optimizer.descendWithin_goes`: the walk down stays within its depth and keeps to that.
- Theorem `Optimizer.exists_transform`: a run comes to an end.
-/

namespace QueryPlan

/-- A label of which at most the scope was changed. -/
structure Label.Alike (l l' : Label) : Prop where
  op_eq : l'.op = l.op
  vacuous_eq : l'.vacuous = l.vacuous

/-- Changes of scopes add up to a change of scopes. -/
theorem Label.Alike.trans {l l' l'' : Label} (h : l.Alike l') (h' : l'.Alike l'') : l.Alike l'' :=
  ⟨h'.op_eq.trans h.op_eq, h'.vacuous_eq.trans h.vacuous_eq⟩

/-- A node above a branch of which at most the scope was changed. -/
structure Frame.Alike (f f' : Frame) : Prop where
  id_eq : f'.id = f.id
  label : f.label.Alike f'.label
  left_eq : f'.left = f.left
  right_eq : f'.right = f.right

namespace Context

/-- The operators of the nodes above a branch, nearest first. -/
def ops (c : Context) : List Operator :=
  c.map (·.label.op)

/-- There are no operators above the uppermost node. -/
@[simp]
theorem ops_nil : ops [] = [] :=
  rfl

/-- The operator of the nearest node above comes first. -/
@[simp]
theorem ops_cons (f : Frame) (c : Context) : ops (f :: c) = f.label.op :: ops c :=
  rfl

/-- A context of which at most scopes were changed. -/
abbrev Alike (c c' : Context) : Prop :=
  List.Forall₂ Frame.Alike c c'

/-- A context is like itself. -/
theorem Alike.rfl {c : Context} : Alike c c := by
  induction c with
  | nil => exact .nil
  | cons f c ih => exact .cons ⟨by rfl, ⟨by rfl, by rfl⟩, by rfl, by rfl⟩ ih

/-- Contexts that are like one and the same context in between are alike. -/
theorem Alike.trans {c c' c'' : Context} (h : Alike c c') (h' : Alike c' c'') : Alike c c'' := by
  induction h generalizing c'' with
  | nil => exact h'
  | cons hf _ ih =>
    cases h' with
    | cons hf' h' =>
      refine .cons ⟨hf'.id_eq.trans hf.id_eq, hf.label.trans hf'.label, ?_, ?_⟩ (ih h')
      · exact hf'.left_eq.trans hf.left_eq
      · exact hf'.right_eq.trans hf.right_eq

/-- Changing scopes leaves the operators of a context as they are. -/
theorem Alike.ops_eq {c c' : Context} (h : Alike c c') : ops c' = ops c := by
  induction h with
  | nil => rfl
  | cons hf _ ih => rw [ops_cons, ops_cons, hf.label.op_eq, ih]

/-- Refreshing a context changes its scopes at most. -/
theorem alike_refresh (c : Context) (s : Branch) : Alike c (c.refresh s) := by
  induction c generalizing s with
  | nil => exact .nil
  | cons f c ih => exact .cons ⟨by rfl, ⟨by rfl, by rfl⟩, by rfl, by rfl⟩ (ih _)

end Context

/-- A rule changes nothing but scopes in the context of the branch it rewrites. -/
theorem Rule.Rewrites.alike {r : Rule} {c c' : Context} {s s' : Branch}
    (h : r.Rewrites c s c' s') : c.Alike c' := by
  cases h with
  | eliminate => exact c.alike_refresh s'
  | belowJoin | belowFilter | push | simplify => exact .rfl

/-- A rule that does not replace its anchor leaves the context alone. -/
theorem Rule.Rewrites.context_eq {r : Rule} {c c' : Context} {s s' : Branch}
    (h : r.Rewrites c s c' s') (hr : r.replacesAnchor = false) : c' = c := by
  cases h with
  | belowJoin | belowFilter | push | simplify => rfl
  | eliminate => exact absurd hr.symm Bool.false_ne_true

/-- A rule that does not replace its anchor leaves it in its slot. -/
theorem Rule.Rewrites.top_eq {r : Rule} {c c' : Context} {s s' : Branch}
    (h : r.Rewrites c s c' s') (hr : r.replacesAnchor = false) : s'.top = s.top := by
  cases h with
  | belowJoin h => cases h; rfl
  | belowFilter h => cases h; rfl
  | push | eliminate | simplify => exact absurd hr.symm Bool.false_ne_true

namespace Optimizer

/-- The rules an optimizer runs. -/
def Runs (o : Optimizer) (r : Rule) : Prop :=
  r ∈ o.replacingRules ∨ r ∈ o.narrowingRules

/-- Only the replacing rules of the optimizer put another node into the slot of their anchor. -/
structure Sorted (o : Optimizer) : Prop where
  replacing : ∀ r ∈ o.replacingRules, r.replacesAnchor = true
  narrowing : ∀ r ∈ o.narrowingRules, r.replacesAnchor = false

/-- A rule of the optimizer, applied at a node of the plan `p`, changes it to the plan `q`. -/
def Changes (o : Optimizer) (p q : Plan) : Prop :=
  ∃ r id res, o.Runs r ∧ p.Reachable id ∧ r.apply p id = .ok res ∧ res.changed = true ∧ res.plan = q

/-- Rules of the optimizer, applied one after the other, lead from one plan to another. -/
abbrev Leads (o : Optimizer) : Plan → Plan → Prop :=
  Relation.ReflTransGen o.Changes

/-- From the state `s`, in which the branch `t` stands in the context `c`, a run has gone on to the
state `s'`, in which `t'` stands in `c'` instead. -/
structure Goes (o : Optimizer) (rest : NodeId → Option Node) (s : Optimized) (c : Context)
    (t : Branch) (s' : Optimized) (c' : Context) (t' : Branch) : Prop where
  alike : c.Alike c'
  steps : Branch.Steps o.Runs (c.plug t) (c'.plug t')
  leads : o.Leads s.plan s'.plan
  shows : s'.plan.Shows (c'.plug t') rest

variable {o : Optimizer} {rest : NodeId → Option Node} {c c' c'' : Context} {t t' t'' : Branch}
  {s s' s'' : Optimized}

/-- A run that has not gone on yet is where it was. -/
theorem Goes.refl (h : s.plan.Shows (c.plug t) rest) : o.Goes rest s c t s c t :=
  ⟨.rfl, .refl, .refl, h⟩

/-- A run may go on from where it has come to. -/
theorem Goes.trans (h : o.Goes rest s c t s' c' t') (h' : o.Goes rest s' c' t' s'' c'' t'') :
    o.Goes rest s c t s'' c'' t'' :=
  ⟨h.alike.trans h'.alike, h.steps.trans h'.steps, h.leads.trans h'.leads, h'.shows⟩

/-! ## One slot -/

/-- At the branch `t` in the context `c`, a rule takes a run from the state `s` to the state `s'`, in
which `t'` stands in `c'` instead. -/
structure Fires (r : Rule) (rest : NodeId → Option Node) (s : Optimized) (c : Context) (t : Branch)
    (s' : Optimized) (c' : Context) (t' : Branch) : Prop where
  anchors : r.anchorsAt t = true
  rewrites : r.Rewrites c t c' t'
  changes : ∃ res, r.apply s.plan t.top = .ok res ∧ res.changed = true ∧ res.plan = s'.plan
  shows : s'.plan.Shows (c'.plug t') rest

/-- A run goes on when one of the rules of its optimizer fires. -/
theorem Goes.of_fires {r : Rule} (hr : o.Runs r) (h : s.plan.Shows (c.plug t) rest)
    (hfires : Fires r rest s c t s' c' t') : o.Goes rest s c t s' c' t' := by
  obtain ⟨res, hres, hchanged, hplan⟩ := hfires.changes
  have hreachable := h.reachable_iff.2 (c.top_mem_ids_plug t)
  exact ⟨hfires.rewrites.alike, .single (.rewrite hr hfires.rewrites),
    .single ⟨r, t.top, res, hr, hreachable, hres, hchanged, hplan⟩, hfires.shows⟩

/-- A rule that is tried at a branch and reports a change has been applied. -/
theorem tryRule_of_changed (h : s.plan.Shows (c.plug t) rest) {r : Rule}
    (hanchor : r.anchorsAt t = true) {res : RuleResult} (hres : r.apply s.plan t.top = .ok res)
    (hchanged : res.changed = true) {b : Branch} (hshows : res.plan.Shows b rest) :
    ∃ s', o.tryRule t.top r s = .ok (some res.node, s') ∧ s'.plan = res.plan := by
  obtain ⟨before, hbefore⟩ := h.exists_explain
  obtain ⟨after, hafter⟩ := hshows.exists_explain
  let entries : List TraceEntry :=
    if o.traces then [⟨r.name, t.top, before, after, true⟩] else []
  refine ⟨⟨res.plan, s.applied + 1, s.trace ++ entries⟩, ?_, rfl⟩
  rw [tryRule, r.isAnchor_eq h.has_plug, ok_bind]
  cases htraces : o.traces <;>
    simp [entries, htraces, hanchor, hbefore, hres, hafter, hchanged]

/-- A rule that is tried at a branch rewrites it or does nothing. -/
theorem tryRule_shows (h : s.plan.Shows (c.plug t) rest) (r : Rule) :
    (o.tryRule t.top r s = .ok (none, s) ∧ r.Rests s.plan t) ∨
      ∃ c' t' s', o.tryRule t.top r s = .ok (some t'.top, s') ∧ Fires r rest s c t s' c' t' := by
  by_cases hanchor : r.anchorsAt t = true
  · obtain ⟨res, hres, rfl | ⟨c', t', hrewrites, hinst⟩⟩ := r.apply_shows h
    · refine .inl ⟨?_, fun _ => hres⟩
      obtain ⟨before, hbefore⟩ := h.exists_explain
      rw [tryRule, r.isAnchor_eq h.has_plug, ok_bind]
      cases htraces : o.traces <;> simp [hanchor, hbefore, hres, RuleResult.unchanged]
    · obtain ⟨s', hs', hplan⟩ := o.tryRule_of_changed h hanchor hres hinst.changed_eq hinst.shows
      rw [hinst.node_eq] at hs'
      exact .inr ⟨c', t', s', hs', hanchor, hrewrites, ⟨res, hres, hinst.changed_eq, hplan.symm⟩,
        hplan ▸ hinst.shows⟩
  · refine .inl ⟨?_, fun h => absurd h hanchor⟩
    rw [Bool.not_eq_true] at hanchor
    rw [tryRule, r.isAnchor_eq h.has_plug, ok_bind, hanchor]
    rfl

/-- Rules that are tried at a branch do nothing, or one of them rewrites it. -/
theorem tryRules_shows (h : s.plan.Shows (c.plug t) rest) (rules : List Rule) :
    (o.tryRules t.top rules s = .ok (none, s) ∧ ∀ r ∈ rules, r.Rests s.plan t) ∨
      ∃ r ∈ rules, ∃ c' t' s', o.tryRules t.top rules s = .ok (some t'.top, s') ∧
        Fires r rest s c t s' c' t' := by
  induction rules with
  | nil => exact .inl ⟨rfl, fun _ hr => absurd hr List.not_mem_nil⟩
  | cons r rules ih =>
    rw [tryRules]
    rcases o.tryRule_shows h r with ⟨heq, hrests⟩ | ⟨c', t', s', heq, hfires⟩
    · rw [heq, ok_bind]
      rcases ih with ⟨hnone, hall⟩ | ⟨r', hr', hfired⟩
      · exact .inl ⟨hnone, List.forall_mem_cons.2 ⟨hrests, hall⟩⟩
      · exact .inr ⟨r', List.mem_cons_of_mem r hr', hfired⟩
    · rw [heq, ok_bind]
      exact .inr ⟨r, List.mem_cons_self, c', t', s', rfl, hfires⟩

/-- Below nodes with the given operators, the rules that may replace their anchor have fired in a
slot, one after the other. -/
inductive Settles (o : Optimizer) (ops : List Operator) : Branch → Branch → Prop
  | rest {t : Branch} : Settles o ops t t
  | fire {r : Rule} {c c' : Context} {t t' t'' : Branch} (hops : c.ops = ops)
      (hr : r ∈ o.replacingRules) (hv : t.label.vacuous = false) (h : r.Rewrites c t c' t')
      (hsettles : Settles o ops t' t'') : Settles o ops t t''

/-- Rules that fire in a slot do not make the walk below it deeper. -/
theorem Settles.descent_le {ops : List Operator} (h : o.Settles ops t t') (projected : Bool) :
    t'.descent projected ≤ t.descent projected := by
  induction h with
  | rest => exact Nat.le_refl _
  | fire _ _ _ hrewrites _ ih => exact Nat.le_trans ih (hrewrites.descent_le projected)

/-- No rule fires in the slot that a node occupies, or the node is known to produce no rows. -/
def Stable (o : Optimizer) (id : NodeId) (s : Optimized) : Prop :=
  (∃ n, s.plan.get? id = some n ∧ n.vacuous = true) ∨
    o.tryRules id o.replacingRules s = .ok (none, s)

/-- Nothing more happens at a branch: its uppermost node is known to produce no rows, or the rules that
may replace it rest there. -/
inductive Calm (o : Optimizer) (t : Branch) : Prop
  | vacuous (hv : t.label.vacuous = true) : Calm o t
  | rests {p : Plan} {c : Context} {rest : NodeId → Option Node} (h : p.Shows (c.plug t) rest)
      (hrests : ∀ r ∈ o.replacingRules, r.Rests p t) : Calm o t

/-- The rules that may replace the node in a stable slot rest there, unless it is marked. -/
theorem Stable.rests (h : o.Stable t.top s) (hshows : s.plan.Shows (c.plug t) rest)
    (hv : t.label.vacuous = false) : ∀ r ∈ o.replacingRules, r.Rests s.plan t := by
  rcases h with ⟨n, hget, hvacuous⟩ | hidle
  · obtain rfl := Option.some.inj (hshows.has_plug.get?_top.symm.trans hget)
    exact absurd (hv.symm.trans hvacuous) Bool.false_ne_true
  · rcases o.tryRules_shows hshows o.replacingRules with
      ⟨-, hrests⟩ | ⟨r, -, c', t', s', heq, -⟩
    · exact hrests
    · -- A rule that fires would have put a node into the slot.
      have hfound := congrArg Prod.fst (Except.ok.inj (heq.symm.trans hidle))
      exact absurd hfound (Option.some_ne_none _)

/-- A stable slot holds a branch at which nothing more happens. -/
theorem Stable.calm (h : o.Stable t.top s) (hshows : s.plan.Shows (c.plug t) rest) : o.Calm t := by
  cases hv : t.label.vacuous with
  | true => exact .vacuous hv
  | false => exact .rests hshows (h.rests hshows hv)

/-- A slot becomes stable if it is given more rounds than rules can fire there. -/
theorem stabilizeWithin_goes (ho : o.Sorted) (h : s.plan.Shows (c.plug t) rest) {rounds : Nat}
    (hrounds : t.rounds < rounds) :
    ∃ c' t' s', o.stabilizeWithin rounds t.top s = .ok (t'.top, s') ∧
      o.Goes rest s c t s' c' t' ∧ o.Settles c.ops t t' ∧ o.Stable t'.top s' := by
  induction rounds generalizing c t s with
  | zero => exact absurd hrounds (Nat.not_lt_zero _)
  | succ rounds ih =>
    rw [stabilizeWithin, h.has_plug.node_top, ok_bind, Label.node_vacuous]
    by_cases hv : t.label.vacuous = true
    · rw [if_pos hv]
      exact ⟨c, t, s, rfl, .refl h, .rest, .inl ⟨_, h.has_plug.get?_top, hv⟩⟩
    rw [if_neg hv]
    rw [Bool.not_eq_true] at hv
    rcases o.tryRules_shows h o.replacingRules with
      ⟨heq, -⟩ | ⟨r, hr, c₁, t₁, s₁, heq, hfires⟩
    · rw [heq, ok_bind]
      exact ⟨c, t, s, rfl, .refl h, .rest, .inr heq⟩
    · have hlt := hfires.rewrites.rounds_lt (ho.replacing r hr) hv
      obtain ⟨c', t', s', hrun, hgoes, hsettles, hstable⟩ := ih hfires.shows (by omega)
      refine ⟨c', t', s', ?_, (Goes.of_fires (.inl hr) h hfires).trans hgoes, ?_, hstable⟩
      · rw [heq, ok_bind]
        exact hrun
      · rw [hfires.rewrites.alike.ops_eq] at hsettles
        exact .fire rfl hr hv hfires.rewrites hsettles

/-- A branch has at most as many nodes as the store has positions. -/
theorem length_ids_le {p : Plan} (h : p.Shows (c.plug t) rest) :
    t.ids.length ≤ p.nodes.size := by
  have hle := (h.splits.of_perm (c.entries_plug t)).length_le
  rw [List.length_append] at hle
  rw [← t.map_fst_entries c.parent?, List.length_map]
  omega

/-- A slot becomes stable within the rounds that the size of the store allows. -/
theorem stabilize_goes (ho : o.Sorted) (h : s.plan.Shows (c.plug t) rest) :
    ∃ c' t' s', o.stabilize t.top s = .ok (t'.top, s') ∧ o.Goes rest s c t s' c' t' ∧
      o.Settles c.ops t t' ∧ o.Stable t'.top s' := by
  apply stabilizeWithin_goes ho h
  have hsize := length_ids_le h
  have hrounds := t.rounds_le
  rw [roundLimit]
  omega

/-! ## The branches of a node -/

/-- What is done to each branch of a node is done to all of them, one after the other. -/
theorem foldlM_goes {f : Optimized → NodeId → Except Plan.Fault Optimized} {ops : List Operator}
    {b : Branch} {Q : Branch → Prop} {R : Branch → Branch → Prop}
    (hf : ∀ {c t s}, Context.ops c = ops → Branch.Steps o.Runs b (c.plug t) → Q t →
      s.plan.Shows (c.plug t) rest →
        ∃ c' t' s', f s t.top = .ok s' ∧ o.Goes rest s c t s' c' t' ∧ R t t')
    {id : NodeId} {l : Label} (hops : l.op :: c.ops = ops) (done : List Branch) {bs : List Branch}
    (hbs : ∀ b ∈ bs, Q b) (hsteps : Branch.Steps o.Runs b (c.plug (.node id l (done ++ bs))))
    (h : s.plan.Shows (c.plug (.node id l (done ++ bs))) rest) :
    ∃ c' l' bs' s', (bs.map Branch.top).foldlM f s = .ok s' ∧ l.Alike l' ∧
      List.Forall₂ R bs bs' ∧
      o.Goes rest s c (.node id l (done ++ bs)) s' c' (.node id l' (done ++ bs')) := by
  induction bs generalizing c l done s with
  | nil => exact ⟨c, l, [], s, rfl, ⟨rfl, rfl⟩, .nil, .refl h⟩
  | cons t bs ih =>
    obtain ⟨c₁, t', s₁, hrun, hgoes, hR⟩ :=
      hf (c := ⟨id, l, done, bs⟩ :: c) hops hsteps (hbs t List.mem_cons_self) h
    have hops₁ := hgoes.alike.ops_eq
    -- The frame of the node is still there, with the same branches.
    obtain ⟨⟨id₁, l₁, left, right⟩, c₂, hframe, hcontext, rfl⟩ :=
      List.forall₂_cons_left_iff.1 hgoes.alike
    obtain ⟨rfl, hl, rfl, rfl⟩ := hframe
    have h₁ := hgoes.shows
    have hsteps₁ := hsteps.trans hgoes.steps
    rw [Context.plug_cons, Frame.fill, List.append_cons] at h₁ hsteps₁
    obtain ⟨c', l', bs', s', hrest, hl', hbs', hgoes'⟩ :=
      ih (hops₁.trans hops) (left ++ [t']) (fun x hx => hbs x (List.mem_cons_of_mem t hx)) hsteps₁ h₁
    rw [List.append_assoc, List.append_assoc] at hgoes'
    refine ⟨c', l', t' :: bs', s', ?_, hl.trans hl', .cons hR hbs', ?_⟩
    · rw [List.map_cons, List.foldlM_cons, hrun, ok_bind, hrest]
    · exact Goes.trans ⟨hcontext, hgoes.steps, hgoes.leads, hgoes.shows⟩ hgoes'

/-- The slots of all branches of a node become stable, and nothing more happens at their branches.
-/
theorem stabilizeAll_goes (ho : o.Sorted) {id : NodeId} {l : Label} {bs : List Branch}
    (h : s.plan.Shows (c.plug (.node id l bs)) rest) :
    ∃ c' l' bs' s', o.stabilizeAll (bs.map Branch.top) s = .ok s' ∧ l.Alike l' ∧
      List.Forall₂ (fun b b' => o.Settles (l.op :: c.ops) b b' ∧ o.Calm b') bs bs' ∧
      o.Goes rest s c (.node id l bs) s' c' (.node id l' bs') := by
  refine foldlM_goes (Q := fun _ => True) ?_ rfl [] (fun _ _ => trivial) .refl h
  intro c t s hops _ _ h
  obtain ⟨c', t', s', hrun, hgoes, hsettles, hstable⟩ := stabilize_goes ho h
  exact ⟨c', t', s', by rw [hrun, map_ok], hgoes, hops ▸ hsettles, hstable.calm hgoes.shows⟩

/-! ## The walk down -/

/-- The rules that leave the node of a walk in its slot are tried: none fires, or one of them does. -/
inductive Narrows (o : Optimizer) (c : Context) : Branch → Branch → Prop
  | stay {p : Plan} {rest : NodeId → Option Node} {t : Branch} (h : p.Shows (c.plug t) rest)
      (hrests : ∀ r ∈ o.narrowingRules, r.Rests p t) : Narrows o c t t
  | fire {r : Rule} {t t' : Branch} (hr : r ∈ o.narrowingRules) (h : r.Rewrites c t c t')
      (hanchor : r.anchorsAt t = true) : Narrows o c t t'

/-- Trying the rules that leave a node in its slot comes to an end and makes the walk no deeper. -/
theorem narrow_goes (ho : o.Sorted) (h : s.plan.Shows (c.plug t) rest) :
    ∃ t' s' found, o.tryRules t.top o.narrowingRules s = .ok (found, s') ∧
      o.Goes rest s c t s' c t' ∧ o.Narrows c t t' ∧ t'.top = t.top ∧
      ∀ projected, t'.descent projected ≤ t.descent projected := by
  rcases o.tryRules_shows h o.narrowingRules with
    ⟨heq, hrests⟩ | ⟨r, hr, c', t', s', heq, hfires⟩
  · exact ⟨t, s, none, heq, .refl h, .stay h hrests, rfl, fun _ => Nat.le_refl _⟩
  · have hreplaces := ho.narrowing r hr
    obtain rfl := hfires.rewrites.context_eq hreplaces
    exact ⟨t', s', some t'.top, heq, .of_fires (.inr hr) h hfires,
      .fire hr hfires.rewrites hfires.anchors, hfires.rewrites.top_eq hreplaces,
      hfires.rewrites.descent_le⟩

/-- What is done to the branch `t` before the walk goes down: the slots below its uppermost node are
made stable, which gives `t₁`, and then that is narrowed to `t₂`. -/
structure Opens (o : Optimizer) (c : Context) (t t₁ t₂ : Branch) : Prop where
  vacuous : t.label.vacuous = false
  top_eq : t₁.top = t.top
  label : t.label.Alike t₁.label
  settles : List.Forall₂ (o.Settles (t.label.op :: c.ops)) t.branches t₁.branches
  narrows : o.Narrows c t₁ t₂
  calm : ∀ b ∈ t₁.branches, o.Calm b

/-- A contract for the walk down in a run that starts from the tree `b`.  Below nodes with certain
operators, a branch satisfies `Pre` before the walk gets there, and `Post` relates it to what the walk
leaves of it. -/
structure Visits (o : Optimizer) (b : Branch) (Pre : List Operator → Branch → Prop)
    (Post : List Operator → Branch → Branch → Prop) : Prop where
  skip : ∀ {ops t}, Pre ops t → t.label.vacuous = true → Post ops t t
  enter : ∀ {c t t₁ t₂}, Branch.Steps o.Runs b (c.plug t₁) → Pre c.ops t → o.Opens c t t₁ t₂ →
    ∀ x ∈ t₂.branches, Pre (t₂.label.op :: c.ops) x
  leave : ∀ {c t t₁ t₂ l bs}, Branch.Steps o.Runs b (c.plug t₁) → Pre c.ops t → o.Opens c t t₁ t₂ →
    t₂.label.Alike l → List.Forall₂ (Post (t₂.label.op :: c.ops)) t₂.branches bs →
      Post c.ops t (.node t₂.top l bs)

/-- The walk down from a branch comes to an end if it is given the depth it may need, and it keeps its
contract. -/
theorem descendWithin_goes (ho : o.Sorted) {b : Branch} {Pre : List Operator → Branch → Prop}
    {Post : List Operator → Branch → Branch → Prop} (hvisits : o.Visits b Pre Post)
    {projected : Bool} (h : s.plan.Shows (c.plug t) rest) (hsteps : Branch.Steps o.Runs b (c.plug t))
    (hpre : Pre c.ops t) {depth : Nat} (hdepth : t.descent projected ≤ depth) :
    ∃ c' t' s', o.descendWithin depth t.top s = .ok s' ∧ o.Goes rest s c t s' c' t' ∧
      Post c.ops t t' := by
  induction depth generalizing c t s projected with
  | zero => exact absurd (t.descent_pos projected) (by omega)
  | succ depth ih =>
    obtain ⟨id, l, bs⟩ := t
    have hid : s.plan.node id = .ok (l.node c.parent? (bs.map Branch.top)) := h.has_plug.node_top
    rw [Branch.top_node, descendWithin, hid, ok_bind, Label.node_vacuous, Label.node_children]
    by_cases hv : l.vacuous = true
    · rw [if_pos hv]
      exact ⟨c, _, s, rfl, .refl h, hvisits.skip hpre hv⟩
    rw [if_neg hv]
    obtain ⟨c₁, l₁, bs₁, s₁, hstable, hl₁, hbs₁, hgoes₁⟩ := stabilizeAll_goes ho h
    obtain ⟨t₂, s₂, found, hnarrow, hgoes₂, hnarrows, htop₂, hdescent₂⟩ :=
      narrow_goes ho hgoes₁.shows
    obtain ⟨id₂, l₂, bs₂⟩ := t₂
    obtain rfl : id₂ = id := htop₂
    have hid₂ : s₂.plan.node id₂ = .ok (l₂.node c₁.parent? (bs₂.map Branch.top)) :=
      hgoes₂.shows.has_plug.node_top
    -- No rule has made the branch deeper, so the depth left is enough for what is below by now.
    have hdescent : (Branch.node id₂ l₂ bs₂).descent projected ≤ depth + 1 := by
      have hkind : l₁.kind = l.kind := by rw [Label.kind, Label.kind, hl₁.op_eq]
      have hle := Branch.descent_node_le projected id₂ hkind
        (hbs₁.imp fun _ _ hb => hb.1.descent_le _)
      exact Nat.le_trans (hdescent₂ projected) (Nat.le_trans hle hdepth)
    have hsteps₁ := hsteps.trans hgoes₁.steps
    have hops₁ : c₁.ops = c.ops := hgoes₁.alike.ops_eq
    rw [← hops₁] at hpre hbs₁ ⊢
    have hopens : o.Opens c₁ (.node id₂ l bs) (.node id₂ l₁ bs₁) (.node id₂ l₂ bs₂) := by
      refine ⟨Bool.eq_false_iff.2 hv, rfl, hl₁, hbs₁.imp fun _ _ hb => hb.1, hnarrows, fun b hb => ?_⟩
      obtain ⟨_, -, -, hcalm⟩ := exists_mem_of_forall₂ hbs₁ b hb
      exact hcalm
    have hbelow : ∀ b ∈ bs₂, Pre (l₂.op :: c₁.ops) b ∧
        b.descent (l₂.kind == .projection) ≤ depth := by
      intro b hb
      have hlt := Branch.descent_lt_of_mem id₂ l₂ hb projected
      exact ⟨hvisits.enter hsteps₁ hpre hopens b hb, by omega⟩
    obtain ⟨c', l', bs', s', hrun, hl', hbs', hgoes⟩ :=
      foldlM_goes (o := o) (f := fun s child => o.descendWithin depth child s)
        (R := Post (l₂.op :: c₁.ops))
        (fun hops hb hQ h => by
          obtain ⟨c', t', s', hrun, hgoes, hpost⟩ := ih h hb (hops ▸ hQ.1) hQ.2
          exact ⟨c', t', s', hrun, hgoes, hops ▸ hpost⟩)
        rfl [] hbelow (hsteps₁.trans hgoes₂.steps) hgoes₂.shows
    refine ⟨c', .node id₂ l' bs', s', ?_, (hgoes₁.trans hgoes₂).trans hgoes,
      hvisits.leave hsteps₁ hpre hopens hl' hbs'⟩
    rw [hstable, ok_bind]
    simp only [Branch.top_node] at hnarrow
    rw [hnarrow, ok_bind]
    simp only [hid₂, ok_bind, Label.node_children, hrun]

/-! ## The whole run -/

/-- The walk down from a node has depth enough. -/
theorem descent_le_depthLimit {p : Plan} (h : p.Shows (c.plug t) rest) (projected : Bool) :
    t.descent projected ≤ depthLimit p := by
  have hle := t.descent_le projected
  have hsize := length_ids_le h
  rw [depthLimit]
  omega

/-- A run on a plan that is a tree comes to an end, the rules lead from one tree to the other, and the
walk down from the root, once its slot is calm, keeps its contract. -/
theorem exists_transform_of_calm (ho : o.Sorted) {p : Plan} {b : Branch}
    {Pre : List Operator → Branch → Prop} {Post : List Operator → Branch → Branch → Prop}
    (hvisits : o.Visits b Pre Post) (h : p.Shows b rest)
    (hpre : ∀ t, o.Settles [] b t → o.Calm t → Pre [] t) :
    ∃ t b' s', o.transform p = .ok s' ∧ o.Goes rest (.start p) [] b s' [] b' ∧ o.Settles [] b t ∧
      Post [] t b' := by
  obtain ⟨c₁, t₁, s₁, hstable, hgoes₁, hsettles, hcalm⟩ :=
    stabilize_goes (c := []) (s := .start p) ho h
  obtain rfl := List.forall₂_nil_left_iff.1 hgoes₁.alike
  have hdepth : t₁.descent false ≤ depthLimit p := by
    have hle := hsettles.descent_le false
    have hb := descent_le_depthLimit (c := []) h false
    omega
  obtain ⟨c₂, t₂, s₂, hdescend, hgoes₂, hpost⟩ :=
    descendWithin_goes ho hvisits hgoes₁.shows hgoes₁.steps
      (hpre t₁ hsettles (hcalm.calm hgoes₁.shows)) hdepth
  obtain rfl := List.forall₂_nil_left_iff.1 hgoes₂.alike
  refine ⟨t₁, t₂, s₂, ?_, hgoes₁.trans hgoes₂, hsettles, hpost⟩
  rw [transform, h.root_eq]
  show (o.stabilize b.top (.start p) >>= fun r => o.descendWithin (depthLimit p) r.1 r.2) = _
  rw [hstable, ok_bind, hdescend]

/-- The same for a contract that does not ask for a calm slot. -/
theorem exists_transform_of_visits (ho : o.Sorted) {p : Plan} {b : Branch}
    {Pre : List Operator → Branch → Prop} {Post : List Operator → Branch → Branch → Prop}
    (hvisits : o.Visits b Pre Post) (h : p.Shows b rest)
    (hpre : ∀ t, o.Settles [] b t → Pre [] t) :
    ∃ t b' s', o.transform p = .ok s' ∧ o.Goes rest (.start p) [] b s' [] b' ∧ o.Settles [] b t ∧
      Post [] t b' :=
  exists_transform_of_calm ho hvisits h fun t ht _ => hpre t ht

/-- The contract that promises nothing. -/
theorem visits_trivial (o : Optimizer) (b : Branch) :
    o.Visits b (fun _ _ => True) fun _ _ _ => True where
  skip _ _ := trivial
  enter _ _ _ _ _ := trivial
  leave _ _ _ _ _ := trivial

/-- A run on a plan that is a tree comes to an end, and the rules lead from one tree to the other. -/
theorem exists_transform (ho : o.Sorted) {p : Plan} {b : Branch} (h : p.Shows b rest) :
    ∃ b' s', o.transform p = .ok s' ∧ s'.plan.Shows b' rest ∧ Branch.Steps o.Runs b b' := by
  obtain ⟨-, b', s', hrun, hgoes, -⟩ :=
    exists_transform_of_visits ho (visits_trivial o b) h fun _ _ => trivial
  exact ⟨b', s', hrun, hgoes.shows, hgoes.steps⟩

/-- The rules of a set are sorted by whether they replace their anchor. -/
theorem sorted_ofRules (rules : RuleSet) (validates traces : Bool) :
    (ofRules rules validates traces).Sorted where
  replacing r hr := (List.mem_filter.1 hr).2
  narrowing r hr := by simpa using (List.mem_filter.1 hr).2

/-- The optimizer runs the rules of the set that may replace their anchor in every slot. -/
theorem mem_replacingRules_ofRules {rules : RuleSet} {validates traces : Bool} {r : Rule}
    (hr : r ∈ rules.rules) (hreplaces : r.replacesAnchor = true) :
    r ∈ (ofRules rules validates traces).replacingRules := by
  have hall : r ∈ Rule.all := by cases r <;> decide
  exact List.mem_filter.2 ⟨List.mem_filter.2 ⟨hall, List.contains_iff_mem.2 hr⟩, hreplaces⟩

/-- An optimizer runs only rules of the set it was made for. -/
theorem runs_ofRules {rules : RuleSet} {validates traces : Bool} {r : Rule}
    (h : (ofRules rules validates traces).Runs r) : r ∈ rules.rules := by
  have hmem : ∀ {P : Rule → Bool}, r ∈ (Rule.all.filter (rules.contains ·)).filter P →
      r ∈ rules.rules := by
    intro P hr
    exact List.contains_iff_mem.1 (List.mem_filter.1 (List.mem_filter.1 hr).1).2
  exact h.elim hmem hmem

end Optimizer

end QueryPlan
