import QueryPlan.Proofs.Rule.Basic
import QueryPlan.Rule.PredicatePushdown

/-!
# Predicate pushdown on trees

A filter above a join changes places with it and ends up above the one branch of the join that scans
all tables the filter refers to.

Main results:

- Definition `PredicatePushdown.Pushes`: what the rule does to a branch.
- Theorem `PredicatePushdown.apply_shows`: the rule does that or leaves the plan alone.
-/

namespace QueryPlan.PredicatePushdown

/-- What predicate pushdown does to a branch: the filter moves onto the only branch of the join that
serves it. -/
inductive Pushes : Branch → Branch → Prop
  | push {id join : NodeId} {l m : Label} {f : Filter} {cond : Join} {left right : List Branch}
      {b : Branch} (hl : l.op = .filter f) (hm : m.op = .join cond)
      (hne : f.tables.isEmpty = false) (hb : f.tables.subset b.tables = true)
      (hothers : ∀ x ∈ left ++ right, f.tables.subset x.tables = false) :
      Pushes (.node id l [.node join m (left ++ b :: right)])
        (.node join m (left ++
          .node id { l with scope := (l.scope.inter b.tables).union f.tables } [b] :: right))

/-- The branches of a join that serve a filter. -/
theorem servingBranches_eq {p : Plan} {parent : Option NodeId} {bs : List Branch}
    (h : ∀ b ∈ bs, p.Has parent b) (tables : AliasSet) :
    servingBranches p (bs.map Branch.top) tables =
      .ok ((bs.filter fun b => tables.subset b.tables).map fun b => (b.top, b.tables)) := by
  have hscanned : (bs.map Branch.top).mapM
      (fun branch => do return (branch, ← p.reachable branch)) =
        .ok (bs.map fun b => (b.top, b.tables)) := by
    apply mapM_map_ok
    intro b hb
    rw [(h b hb).reachable_eq]
    rfl
  rw [servingBranches, hscanned, ok_bind, pure_eq_ok, List.filter_map]
  rfl

/-- The edits that carry a filter below a join. -/
theorem push_shows {p : Plan} {c : Context} {rest : NodeId → Option Node} {id join : NodeId}
    {l m : Label} {left right : List Branch} {b : Branch}
    (h : p.Shows (c.plug (.node id l [.node join m (left ++ b :: right)])) rest)
    (scope : AliasSet) :
    ∃ q₁ q₂ q₃, p.replace id join = .ok q₁ ∧ q₁.placeAbove id b.top = .ok q₂ ∧
      q₂.setScope id scope = .ok q₃ ∧
      q₃.Shows (c.plug (.node join m (left ++ .node id { l with scope } [b] :: right))) rest ∧
      q₃.nodes.size = p.nodes.size := by
  have hs := h.splits
  rw [← List.append_nil (Branch.entries none _)] at hs
  obtain ⟨q₁, hq₁, h₁, hroot₁, hsize₁⟩ :=
    hs.replace_below (d := []) (f := ⟨id, l, [], []⟩) (n := .node join m (left ++ b :: right))
      h.root_eq
  obtain ⟨q₂, hq₂, h₂, hroot₂, hsize₂⟩ :=
    h₁.placeAbove (c := ⟨join, m, left, right⟩ :: c) (o := b) hroot₁
  rw [List.append_nil] at h₂
  have hgraft : Branch.graft (Frame.close ⟨id, l, [], []⟩) b = .node id l [b] := rfl
  rw [Context.plug_nil, hgraft] at h₂ hroot₂
  obtain ⟨q₃, hq₃, h₃, hsize₃⟩ :=
    Plan.Shows.setScope (c := ⟨join, m, left, right⟩ :: c) (s := .node id l [b]) ⟨hroot₂, h₂⟩ scope
  exact ⟨q₁, q₂, q₃, hq₁, hq₂, hq₃, h₃, by rw [hsize₃, hsize₂, hsize₁]⟩

/-- Predicate pushdown where the filter is served. -/
theorem apply_pushes {p : Plan} {c : Context} {rest : NodeId → Option Node} {s s' : Branch}
    (h : p.Shows (c.plug s) rest) (hs : Pushes s s') :
    ∃ q, apply p s.top = .ok (.replaced q s'.top) ∧ q.Shows (c.plug s') rest ∧
      q.nodes.size = p.nodes.size := by
  cases hs with
  | @push id join l m f cond left right b hl hm hne hb hothers =>
    have hj : p.Has (some id) (.node join m (left ++ b :: right)) :=
      h.has_plug.branch (List.mem_singleton.2 rfl)
    have hid : p.node id = .ok (l.node c.parent? [join]) := h.has_plug.node_top
    have hjoin : p.node join = .ok (m.node (some id) ((left ++ b :: right).map Branch.top)) :=
      hj.node_top
    have hkind : (m.kind != .join) = false := by
      rw [Label.kind, hm]
      rfl
    have hserving : (left ++ b :: right).filter (fun x => f.tables.subset x.tables) = [b] := by
      have hnone : ∀ x ∈ left ++ right, ¬ f.tables.subset x.tables = true :=
        fun x hx => Bool.eq_false_iff.1 (hothers x hx)
      rw [List.forall_mem_append] at hnone
      rw [List.filter_append, List.filter_eq_nil_iff.2 hnone.1, List.nil_append, List.filter_cons,
        if_pos hb, List.filter_eq_nil_iff.2 hnone.2]
    obtain ⟨q₁, q₂, q₃, hq₁, hq₂, hq₃, h₃, hsize⟩ :=
      push_shows h ((l.scope.inter b.tables).union f.tables)
    refine ⟨q₃, ?_, h₃, hsize⟩
    rw [Branch.top_node, apply, hid]
    simp only [ok_bind, Label.node_op, hl, Label.onlyChild?_node_singleton, hjoin, Label.node_kind,
      Label.node_children, Label.node_scope, hkind, hne, Bool.or_self, Bool.false_eq_true, if_false,
      servingBranches_eq (fun x hx => hj.branch hx) f.tables, hserving, List.map_cons, List.map_nil,
      hq₁, hq₂, hq₃, pure_eq_ok, Branch.top_node]

/-- Predicate pushdown at a filter above a join. -/
theorem apply_filter_join {p : Plan} {c : Context} {rest : NodeId → Option Node} {id join : NodeId}
    {l m : Label} {f : Filter} {js : List Branch}
    (h : p.Shows (c.plug (.node id l [.node join m js])) rest) (hl : l.op = .filter f) :
    ∃ res, apply p id = .ok res ∧ (res = .unchanged p id ∨
      ∃ s', Pushes (.node id l [.node join m js]) s' ∧ res.Installs p c s' rest) := by
  by_cases hs : ∃ s', Pushes (.node id l [.node join m js]) s'
  · obtain ⟨s', hs⟩ := hs
    obtain ⟨q, hq, hshows, hsize⟩ := apply_pushes h hs
    exact ⟨_, hq, .inr ⟨s', hs, .replaced hshows (Nat.le_of_eq hsize.symm)⟩⟩
  have hj : p.Has (some id) (.node join m js) := h.has_plug.branch (List.mem_singleton.2 rfl)
  have hid : p.node id = .ok (l.node c.parent? [join]) := h.has_plug.node_top
  have hjoin : p.node join = .ok (m.node (some id) (js.map Branch.top)) := hj.node_top
  refine ⟨.unchanged p id, ?_, .inl rfl⟩
  rw [apply, hid]
  simp only [ok_bind, Label.node_op, hl, Label.onlyChild?_node_singleton, hjoin, Label.node_kind,
    Label.node_children, servingBranches_eq (fun b hb => hj.branch hb) f.tables]
  split
  · rfl
  rename_i hcond
  rw [Bool.or_eq_true, not_or, bne_iff_ne, not_not, Bool.not_eq_true] at hcond
  obtain ⟨hm, hne⟩ := hcond
  -- A single branch that serves the filter would be pushed onto.
  match hserving : js.filter fun b => f.tables.subset b.tables with
  | [] | _ :: _ :: _ => rw [hserving]; rfl
  | [b] =>
    obtain ⟨left, right, rfl, hleft, hb, hright⟩ := List.filter_eq_cons_iff.1 hserving
    obtain ⟨cond, hcond⟩ := Operator.exists_join_of_kind hm
    refine absurd ⟨_, .push hl hcond hne hb ?_⟩ hs
    intro x hx
    rcases List.mem_append.1 hx with hx | hx
    · exact Bool.eq_false_iff.2 (hleft x hx)
    · exact Bool.eq_false_iff.2 (List.filter_eq_nil_iff.1 hright x hx)

/-- Predicate pushdown at the top of a branch. -/
theorem apply_shows {p : Plan} {c : Context} {s : Branch} {rest : NodeId → Option Node}
    (h : p.Shows (c.plug s) rest) :
    ∃ res, apply p s.top = .ok res ∧
      (res = .unchanged p s.top ∨ ∃ s', Pushes s s' ∧ res.Installs p c s' rest) := by
  obtain ⟨id, l, bs⟩ := s
  have hid : p.node id = .ok (l.node c.parent? (bs.map Branch.top)) := h.has_plug.node_top
  match bs, hop : l.op with
  | [.node join m js], .filter f => exact apply_filter_join h hop
  | [], _ | _ :: _ :: _, _ | [_], .scan _ | [_], .projection _ | [_], .join _ =>
    refine ⟨.unchanged p id, ?_, .inl rfl⟩
    rw [Branch.top_node, apply, hid]
    simp only [ok_bind, Label.node_op, hop, List.map_cons, List.map_nil, Node.onlyChild?,
      Label.node_children, pure_eq_ok]

/-- The rule is tried at filters above a join. -/
theorem isAnchor_eq {p : Plan} {parent : Option NodeId} {b : Branch} (h : p.Has parent b) :
    isAnchor p b.top = .ok b.isFilterOverJoin :=
  h.isFilterOverJoin_eq

end QueryPlan.PredicatePushdown
