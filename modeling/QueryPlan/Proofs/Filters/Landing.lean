import QueryPlan.Proofs.Filters.Labels
import QueryPlan.Proofs.Optimizer.Still
import QueryPlan.Proofs.Valid.Tree

/-!
# Where a filter lands

An optimizer that pushes predicates down only moves the filters of a plan.  If there is just one filter,
and joins and scans are all there is below it, a run carries it down as far as the rule pushes it.  At each
join it sinks by one application of the rule, in the slot that the walk makes stable before it goes down.

Main results:

- Definition `PredicatePushdown.Lands`: where a filter ends up.
- Theorem `PredicatePushdown.exists_lands`: it does so with what is left of its scope there.
- Theorem `Optimizer.OnlyPushesFilters.exists_transform`: a run carries it there.
-/

namespace QueryPlan

/-- Above a branch there is nothing, or one node that is no filter and produces rows. -/
def Context.NearRoot (d : Context) : Prop :=
  d = [] ∨ ∃ root m, d = [⟨root, m, [], []⟩] ∧ m.kind ≠ .filter ∧ m.vacuous = false

namespace PredicatePushdown

/-! ## Where a filter lands -/

/-- The filter at `id`, with a label and above a branch, sinks as long as the rule pushes it. -/
inductive Lands (id : NodeId) : Label → Branch → Branch → Prop
  | stay {l : Label} {b : Branch} (h : ∀ s', ¬ Pushes (.node id l [b]) s') :
      Lands id l b (.node id l [b])
  | sink {join : NodeId} {l m : Label} {left right : List Branch} {b b' : Branch} {scope : AliasSet}
      (hpush : Pushes (.node id l [.node join m (left ++ b :: right)])
        (.node join m (left ++ .node id { l with scope } [b] :: right)))
      (h : Lands id { l with scope } b b') :
      Lands id l (.node join m (left ++ b :: right)) (.node join m (left ++ b' :: right))

/-- What is pushed is a filter. -/
theorem Pushes.filter {s s' : Branch} (h : Pushes s s') : s.kind = .filter := by
  cases h with
  | push hl => simp [Label.kind, hl, Operator.kind]

/-- A scope that is cut down to a branch and then to a part of it is cut down to the part. -/
theorem scope_telescopes {scope tables outer inner : AliasSet} (h : ∀ a ∈ inner, a ∈ outer) :
    (((scope.inter outer).union tables).inter inner).union tables =
      (scope.inter inner).union tables := by
  apply AliasSet.ext_mem
  intro a
  have ha := h a
  simp only [AliasSet.mem_union, AliasSet.mem_inter]
  tauto

/-- A filter lands above a branch onto which it was pushed, with what the branch scans of its scope and
what it refers to, or above the branch where it has been, with its own scope. -/
theorem exists_lands (id : NodeId) {l : Label} {f : Filter} (hl : l.op = .filter f) (b : Branch) :
    ∃ (c : Context) (s : Branch) (l' : Label), b = c.plug s ∧
      Lands id l b (c.plug (.node id l' [s])) ∧ (∀ s', ¬ Pushes (.node id l' [s]) s') ∧
      l'.op = l.op ∧
      (c = [] ∧ l' = l ∨ c ≠ [] ∧ (∀ a ∈ f.tables, a ∈ s.tables) ∧
        l' = { l with scope := (l.scope.inter s.tables).union f.tables }) := by
  induction b generalizing l with
  | node join m js ih =>
    by_cases hpushes : ∃ s', Pushes (.node id l [.node join m js]) s'
    · obtain ⟨s', hpush⟩ := hpushes
      cases hpush with
      | @push _ _ _ _ g cond left right b hl' hm hne hb hothers =>
        obtain rfl : f = g := Operator.filter.inj (hl.symm.trans hl')
        have hmem : b ∈ left ++ b :: right := List.mem_append_right _ List.mem_cons_self
        obtain ⟨c, s, l', rfl, hlands, hrests, hop, hlabel⟩ := ih b hmem
          (l := { l with scope := (l.scope.inter b.tables).union f.tables }) hl
        refine ⟨c ++ [⟨join, m, left, right⟩], s, l', by rw [Context.plug_append]; rfl, ?_, hrests,
          hop, .inr ⟨by simp, ?_⟩⟩
        · rw [Context.plug_append]
          exact .sink (.push hl hm hne hb hothers) hlands
        · rcases hlabel with ⟨rfl, rfl⟩ | ⟨-, hserves, rfl⟩
          · exact ⟨AliasSet.subset_iff.1 hb, rfl⟩
          · refine ⟨hserves, ?_⟩
            have hinner : ∀ a ∈ s.tables, a ∈ (c.plug s).tables := by
              intro a ha
              rw [Branch.mem_tables] at ha ⊢
              exact (c.scans_sublist_plug s).subset ha
            rw [scope_telescopes hinner]
    · rw [not_exists] at hpushes
      exact ⟨[], _, l, rfl, .stay hpushes, hpushes, rfl, .inl ⟨rfl, rfl⟩⟩

variable {p : Plan} {c : Context} {t t' : Branch} {rest : NodeId → Option Node}

/-- Where a filter can be pushed, the rule is tried. -/
theorem Pushes.anchorsAt (h : Pushes t t') : Rule.predicatePushdown.anchorsAt t = true := by
  cases h with
  | push hl hm => simp [Rule.anchorsAt, Branch.isFilterOverJoin, Label.kind, hl, hm, Operator.kind]

/-- The rule rests where no filter can be pushed. -/
theorem rests_of_not_pushes (h : p.Shows (c.plug t) rest) (hno : ∀ t', ¬ Pushes t t') :
    Rule.predicatePushdown.Rests p t := by
  intro _
  obtain ⟨res, hres, rfl | ⟨t', ht, -⟩⟩ := apply_shows h
  · exact hres
  · exact absurd ht (hno t')

end PredicatePushdown

/-! ## The run -/

namespace Optimizer

open PredicatePushdown

/-- The optimizer runs predicate pushdown and no other rule. -/
structure OnlyPushesFilters (o : Optimizer) : Prop where
  replacing : o.replacingRules = [.predicatePushdown]
  narrowing : o.narrowingRules = []

variable {o : Optimizer} {rest : NodeId → Option Node} {c : Context} {t t' : Branch} {s : Optimized}

/-- The optimizer that is made for predicate pushdown alone runs no other rule. -/
theorem onlyPushesFilters_ofRules (validates traces : Bool) :
    (ofRules (.ofList [.predicatePushdown]) validates traces).OnlyPushesFilters :=
  ⟨rfl, rfl⟩

namespace OnlyPushesFilters

/-- Where no filter can be pushed, such an optimizer has nothing to do. -/
theorem rests (ho : o.OnlyPushesFilters) {p : Plan} (h : p.Shows (c.plug t) rest)
    (hno : ∀ t', ¬ Pushes t t') : ∀ r ∈ o.replacingRules, r.Rests p t := by
  rw [ho.replacing, List.forall_mem_singleton]
  exact rests_of_not_pushes h hno

/-- A walk leaves a branch alone in which there is no filter. -/
theorem leaves (ho : o.OnlyPushesFilters) {p : Plan} (h : p.Shows (c.plug t) rest)
    (ht : t.All (·.kind ≠ .filter)) : o.Leaves p t := by
  induction ht generalizing c with
  | @intro id l bs _ hbs ih =>
    refine .node (fun b hb => ?_) (by simp [ho.narrowing]) fun b hb => ?_
    · obtain ⟨c', hb'⟩ := exists_shows_of_mem h hb
      exact ho.rests hb' fun t' hpush => (hbs b hb).label hpush.filter
    · obtain ⟨c', hb'⟩ := exists_shows_of_mem h hb
      exact ih b hb hb'

/-- In the slot of a filter that is pushed, the rule is applied once. -/
theorem exists_stabilize (ho : o.OnlyPushesFilters) (h : s.plan.Shows (c.plug t) rest)
    (hv : t.label.vacuous = false) (hpush : Pushes t t') :
    ∃ s', o.stabilize t.top s = .ok (t'.top, s') ∧ s'.plan.Shows (c.plug t') rest ∧
      s'.plan.nodes.size = s.plan.nodes.size := by
  obtain ⟨q, hq, hshows, hsize⟩ := apply_pushes h hpush
  obtain ⟨s', hs', rfl⟩ :=
    o.tryRule_of_changed (r := .predicatePushdown) h hpush.anchorsAt hq rfl hshows
  have hno : ∀ t'', ¬ Pushes t' t'' := by
    intro t'' hpush'
    have hkind := hpush'.filter
    cases hpush with
    | push _ hm => simp [Label.kind, hm, Operator.kind] at hkind
  have htried : o.tryRules t.top o.replacingRules s = .ok (some t'.top, s') := by
    rw [ho.replacing, tryRules, hs']
    rfl
  have hstable := stabilizeWithin_of_rests hshows (ho.rests hshows hno)
  refine ⟨s', ?_, hshows, hsize⟩
  rw [stabilize, roundLimit, stabilizeWithin, h.has_plug.node_top, ok_bind, Label.node_vacuous, hv,
    htried]
  exact hstable _

/-- A walk down from a node of whose branches only one has a filter. -/
theorem descendWithin_through (ho : o.OnlyPushesFilters) {id : NodeId} {l : Label}
    {left right : List Branch} {x t b : Branch} {s₁ s₂ : Optimized} {depth : Nat}
    (h : s.plan.Shows (c.plug (.node id l (left ++ x :: right))) rest) (hv : l.vacuous = false)
    (hsiblings : ∀ y ∈ left ++ right, y.All (·.kind ≠ .filter) ∧ y.height ≤ depth)
    (hstable : o.stabilize x.top s = .ok (t.top, s₁))
    (h₁ : s₁.plan.Shows (c.plug (.node id l (left ++ t :: right))) rest)
    (hdescend : o.descendWithin depth t.top s₁ = .ok s₂)
    (h₂ : s₂.plan.Shows (c.plug (.node id l (left ++ b :: right))) rest) :
    o.descendWithin (depth + 1) id s = .ok s₂ := by
  have hid : s.plan.node id = .ok (l.node c.parent? ((left ++ x :: right).map Branch.top)) :=
    h.has_plug.node_top
  have hid₁ : s₁.plan.node id = .ok (l.node c.parent? ((left ++ t :: right).map Branch.top)) :=
    h₁.has_plug.node_top
  -- The other branches are left alone, whichever branch stands beside them.
  have hrest : ∀ {s : Optimized} {x : Branch},
      s.plan.Shows (c.plug (.node id l (left ++ x :: right))) rest → ∀ y ∈ left ++ right,
        Prod.snd <$> o.stabilize y.top s = .ok s ∧ o.descendWithin depth y.top s = .ok s := by
    intro s x h y hy
    obtain ⟨hnone, hdepth⟩ := hsiblings y hy
    obtain ⟨c', hc'⟩ := exists_shows_of_mem h (((List.sublist_cons_self x right).append_left left).subset hy)
    refine ⟨?_, descendWithin_of_leaves (ho.leaves hc' hnone) hc' hdepth⟩
    rw [stabilize_of_rests hc' (ho.rests hc' fun _ hpush => hnone.label hpush.filter), map_ok]
  have hall : o.stabilizeAll ((left ++ x :: right).map Branch.top) s = .ok s₁ := by
    rw [List.map_append, List.map_cons, stabilizeAll]
    refine foldlM_middle (List.forall_mem_map.2 fun y hy => ?_) (by rw [hstable, map_ok])
      (List.forall_mem_map.2 fun y hy => ?_)
    · exact (hrest h y (List.mem_append_left _ hy)).1
    · exact (hrest h₁ y (List.mem_append_right _ hy)).1
  rw [descendWithin, hid, ok_bind, Label.node_vacuous, hv, Label.node_children, hall, ho.narrowing]
  simp only [Bool.false_eq_true, if_false, ok_bind, tryRules, hid₁, Label.node_children]
  rw [List.map_append, List.map_cons]
  refine foldlM_middle (List.forall_mem_map.2 fun y hy => ?_) hdescend
    (List.forall_mem_map.2 fun y hy => ?_)
  · exact (hrest h₁ y (List.mem_append_left _ hy)).2
  · exact (hrest h₂ y (List.mem_append_right _ hy)).2

/-- A filter is carried to where it lands: its slot is made stable, and then the walk goes down from what
has taken its place. -/
theorem stabilize_descend_of_lands (ho : o.OnlyPushesFilters) {id : NodeId} {l : Label}
    {b b' : Branch} (hlands : Lands id l b b') (hv : l.vacuous = false)
    (hb : b.All fun l => l.kind ≠ .filter ∧ l.vacuous = false)
    (h : s.plan.Shows (c.plug (.node id l [b])) rest) {depth : Nat} (hdepth : b.height < depth) :
    ∃ t s₁ s₂, o.stabilize id s = .ok (t.top, s₁) ∧ s₁.plan.Shows (c.plug t) rest ∧
      o.descendWithin depth t.top s₁ = .ok s₂ ∧ s₂.plan.Shows (c.plug b') rest ∧
      s₂.plan.nodes.size = s.plan.nodes.size := by
  induction hlands generalizing c s depth with
  | @stay l b hno =>
    have hbranch : s.plan.Shows (Context.plug (⟨id, l, [], []⟩ :: c) b) rest := h
    have hnone : b.All (·.kind ≠ .filter) := hb.mono fun _ hl => hl.1
    have hleaves : o.Leaves s.plan (.node id l [b]) := by
      refine .node ?_ (by simp [ho.narrowing]) ?_
      · rw [List.forall_mem_singleton]
        exact ho.rests hbranch fun _ hpush => hnone.label hpush.filter
      · rw [List.forall_mem_singleton]
        exact ho.leaves hbranch hnone
    refine ⟨_, s, s, stabilize_of_rests h (ho.rests h hno), h,
      descendWithin_of_leaves hleaves h ?_, h, rfl⟩
    obtain ⟨depth, rfl⟩ := Nat.exists_eq_add_one.2 (Nat.zero_lt_of_lt hdepth)
    exact Branch.height_node_le (List.forall_mem_singleton.2 (Nat.le_of_lt_succ hdepth))
  | @sink join l m left right b b' scope hpush hlands ih =>
    obtain ⟨s₁, hstable, h₁, hsize₁⟩ := ho.exists_stabilize h hv hpush
    obtain ⟨hm, hbs⟩ := Branch.all_node_iff.1 hb
    obtain ⟨hsiblings, hb⟩ := forall_mem_middle.1 hbs
    obtain ⟨depth, rfl⟩ := Nat.exists_eq_add_one.2 (Nat.zero_lt_of_lt hdepth)
    have hlt : ∀ y ∈ left ++ b :: right, y.height < depth := by
      intro y hy
      have hy' := Branch.height_lt_of_mem join m hy
      omega
    obtain ⟨hheights, hheight⟩ := forall_mem_middle.1 hlt
    obtain ⟨t, s₂, s₃, hstable', h₂, hdescend, h₃, hsize₃⟩ :=
      ih (c := ⟨join, m, left, right⟩ :: c) hv hb h₁ hheight
    refine ⟨_, s₁, s₃, hstable, h₁, ?_, h₃, hsize₃.trans hsize₁⟩
    exact ho.descendWithin_through h₁ hm.2
      (fun y hy => ⟨(hsiblings y hy).mono fun _ hl => hl.1, (hheights y hy).le⟩) hstable' h₂ hdescend h₃

/-- A run carries a filter at the root of a plan, or directly below the root, to where it lands. -/
theorem exists_transform (ho : o.OnlyPushesFilters) {p : Plan} {d : Context} (hd : d.NearRoot)
    {id : NodeId} {l : Label} {b b' : Branch} (hlands : Lands id l b b') (hv : l.vacuous = false)
    (hb : b.All fun l => l.kind ≠ .filter ∧ l.vacuous = false)
    (h : p.Shows (d.plug (.node id l [b])) rest) :
    ∃ s', o.transform p = .ok s' ∧ s'.plan.Shows (d.plug b') rest ∧
      s'.plan.nodes.size = p.nodes.size := by
  have hheight : b.height < p.nodes.size := by
    have hle := (Branch.node id l [b]).height_le_length_ids
    have hlt := Branch.height_lt_of_mem id l (List.mem_singleton.2 (Eq.refl b))
    have hsize := length_ids_le h
    omega
  rcases hd with rfl | ⟨root, m, rfl, hm, hmv⟩
  · have hdepth : b.height < depthLimit p := by
      rw [depthLimit]
      omega
    obtain ⟨t, s₁, s₂, hstable, -, hdescend, h₂, hsize⟩ :=
      ho.stabilize_descend_of_lands (s := .start p) hlands hv hb h hdepth
    refine ⟨s₂, ?_, h₂, hsize⟩
    rw [transform, h.root_eq]
    show (o.stabilize id (.start p) >>= fun r => o.descendWithin (depthLimit p) r.1 r.2) = _
    rw [hstable, ok_bind, hdescend]
  · have hdepth : b.height < 4 * p.nodes.size + 3 := by omega
    obtain ⟨t, s₁, s₂, hstable, h₁, hdescend, h₂, hsize⟩ :=
      ho.stabilize_descend_of_lands (s := .start p) hlands hv hb h hdepth
    have hroot : p.Shows (Context.plug [] (.node root m ([] ++ .node id l [b] :: []))) rest := h
    have hslot : o.stabilize root (.start p) = .ok (root, .start p) :=
      stabilize_of_rests (s := .start p) hroot (ho.rests hroot fun _ hpush => hm hpush.filter)
    refine ⟨s₂, ?_, h₂, hsize⟩
    rw [transform, h.root_eq]
    show (o.stabilize root (.start p) >>= fun r => o.descendWithin (depthLimit p) r.1 r.2) = _
    rw [hslot, ok_bind]
    exact ho.descendWithin_through (s := .start p) hroot hmv (by simp) hstable h₁ hdescend h₂

end OnlyPushesFilters

end Optimizer

end QueryPlan
