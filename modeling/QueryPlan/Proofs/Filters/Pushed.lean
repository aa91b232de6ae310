import QueryPlan.Proofs.Filters.Sinking

/-!
# The move of predicate pushdown

A filter above a join is pushed exactly if it refers to a table and just one branch of the join scans all
tables it refers to.  Then it sinks onto that branch, and the rest of the store stays as it is.

Main results:

- Definition `Plan.Serves`: tables are scanned in a branch.
- Theorem `PredicatePushdown.exists_pushes_iff`: when there is a branch to push onto.
- Theorem `PredicatePushdown.apply_exact`: when a plan is changed, and what it is then.
-/

namespace QueryPlan

namespace Plan

/-- All the given tables are scanned in the branch at a node. -/
def Serves (p : Plan) (id : NodeId) (tables : AliasSet) : Prop :=
  ∃ scanned, p.reachable id = .ok scanned ∧ ∀ a ∈ tables, a ∈ scanned

/-- A node serves the tables that its branch scans. -/
theorem Has.serves_iff {p : Plan} {parent : Option NodeId} {b : Branch} (h : p.Has parent b)
    {tables : AliasSet} : p.Serves b.top tables ↔ ∀ a ∈ tables, a ∈ b.tables := by
  simp [Serves, h.reachable_eq]

end Plan

namespace PredicatePushdown

variable {p : Plan} {c : Context} {rest : NodeId → Option Node}

/-- There is a branch to push a filter onto exactly if the filter refers to a table and just one branch
serves it. -/
theorem exists_pushes_iff {id join : NodeId} {l m : Label} {f : Filter} {cond : Join}
    {js : List Branch} (h : p.Shows (c.plug (.node id l [.node join m js])) rest)
    (hl : l.op = .filter f) (hm : m.op = .join cond) :
    (∃ s', Pushes (.node id l [.node join m js]) s') ↔
      (∃ a, a ∈ f.tables) ∧ ∃! b, b ∈ js.map Branch.top ∧ p.Serves b f.tables := by
  have hj : p.Has (some id) (.node join m js) := h.has_plug.branch (List.mem_singleton.2 rfl)
  have hserves : ∀ b ∈ js, p.Serves b.top f.tables ↔ f.tables.subset b.tables = true := by
    intro b hb
    rw [(hj.branch hb).serves_iff, AliasSet.subset_iff]
  constructor
  · rintro ⟨s', hs⟩
    cases hs with
    | @push _ _ _ _ g _ left right b hl' _ hne hb hothers =>
      obtain rfl : f = g := Operator.filter.inj (hl.symm.trans hl')
      have hmem : b ∈ left ++ b :: right := List.mem_append_right _ List.mem_cons_self
      refine ⟨AliasSet.isEmpty_eq_false_iff.1 hne, b.top,
        ⟨List.mem_map_of_mem hmem, (hserves b hmem).2 hb⟩, ?_⟩
      rintro y ⟨hy, hyserves⟩
      obtain ⟨x, hx, rfl⟩ := List.mem_map.1 hy
      by_cases hxb : x ∈ left ++ right
      · have hserved := (hserves x hx).1 hyserves
        rw [hothers x hxb] at hserved
        exact absurd hserved Bool.false_ne_true
      · simp_all
  · rintro ⟨hsome, y, ⟨hy, hyserves⟩, honly⟩
    obtain ⟨b, hb, rfl⟩ := List.mem_map.1 hy
    obtain ⟨left, right, rfl⟩ := List.append_of_mem hb
    refine ⟨_, .push hl hm (AliasSet.isEmpty_eq_false_iff.2 hsome) ((hserves b hb).1 hyserves) ?_⟩
    intro x hx
    obtain ⟨hleft, hright⟩ := Plan.Splits.top_not_mem_siblings
      (f := ⟨join, m, left, right⟩) (c := ⟨id, l, [], []⟩ :: c) (s := b) h.splits_append_nil
    have hmem : x ∈ left ++ b :: right := by
      rw [List.mem_append] at hx
      rw [List.mem_append, List.mem_cons]
      tauto
    by_contra hserved
    rw [Bool.not_eq_false] at hserved
    have htop : x.top = b.top :=
      honly x.top ⟨List.mem_map_of_mem hmem, (hserves x hmem).2 hserved⟩
    rcases List.mem_append.1 hx with hx | hx
    · exact hleft (htop ▸ List.mem_map_of_mem hx)
    · exact hright (htop ▸ List.mem_map_of_mem hx)

/-- The nodes of a plan in which a filter has moved onto a branch of the join below it. -/
theorem pushed_eq {q : Plan} {id join : NodeId} {l m : Label} {left right : List Branch} {b : Branch}
    {scope : AliasSet} (h : p.Shows (c.plug (.node id l [.node join m (left ++ b :: right)])) rest)
    (hq : q.Shows (c.plug (.node join m (left ++ .node id { l with scope } [b] :: right))) rest)
    (hsize : q.nodes.size = p.nodes.size) (hrest : Linked rest) :
    q = p.sink ⟨id, join, b.top, scope⟩ ∧ q.slot? join = p.slot? id ∧
      q.get? join = some (m.node c.parent? (left.map Branch.top ++ id :: right.map Branch.top)) ∧
      q.get? id = some (Label.node { l with scope } (some join) [b.top]) ∧
      q.get? b.top = some (b.label.node (some id) (b.branches.map Branch.top)) := by
  have hfilter : q.Shows
      (Context.plug (⟨join, m, left, right⟩ :: c) (.node id { l with scope } [b])) rest := hq
  have hbranch : q.Shows
      (Context.plug (⟨id, { l with scope }, [], []⟩ :: ⟨join, m, left, right⟩ :: c) b) rest := hq
  have hjoin := hq.has_plug.get?_top
  rw [Branch.top_node, Branch.label_node, Branch.branches_node, List.map_append, List.map_cons,
    Branch.top_node] at hjoin
  refine ⟨?_, hq.slot?_eq.trans h.slot?_eq.symm, hjoin, hfilter.has_plug.get?_top,
    hbranch.has_plug.get?_top⟩
  exact Plan.Shows.eq_sink (f := ⟨join, m, left, right⟩) (c := []) h hq hsize hrest

/-- A filter whose child is a join, as a branch of the tree. -/
theorem exists_plug_filter_join {b : Branch} (h : p.Shows b rest) {id join : NodeId} {n j : Node}
    {f : Filter} (hid : p.Reachable id) (hget : p.get? id = some n) (hop : n.op = .filter f)
    (hchild : n.children = [join]) (hjoin : p.get? join = some j) (hkind : j.kind = .join) :
    ∃ (c : Context) (l m : Label) (cond : Join) (js : List Branch),
      b = c.plug (.node id l [.node join m js]) ∧ l.op = .filter f ∧ m.op = .join cond ∧
        n = l.node c.parent? [join] ∧ j = m.node (some id) (js.map Branch.top) := by
  obtain ⟨c, ⟨x, l, bs⟩, rfl, rfl⟩ := Branch.exists_plug_of_mem_ids (h.reachable_iff.1 hid)
  obtain rfl := Option.some.inj (h.has_plug.get?_top.symm.trans hget)
  obtain ⟨⟨y, m, js⟩, rfl, rfl⟩ := List.map_eq_singleton_iff.1 hchild
  have hj : p.Has (some x) (.node y m js) := h.has_plug.branch (List.mem_singleton.2 rfl)
  obtain rfl := Option.some.inj (hj.get?_top.symm.trans hjoin)
  obtain ⟨cond, hm⟩ := Operator.exists_join_of_kind hkind
  exact ⟨c, l, m, cond, js, rfl, hop, hm, rfl, rfl⟩

/-- Predicate pushdown at a reachable filter above a join changes a plan exactly if the filter refers to a
table and just one branch of the join scans all tables it refers to.  Then the join takes the place of the
filter, the filter takes the place of the branch, with the branch as its only child and with a scope that
is made of what the branch scans of the old one and of what the filter refers to, and no other node is
changed but the one that lists the join now. -/
theorem apply_exact (hvalid : p.validate = .ok ()) {id join : NodeId} {n j : Node} {f : Filter}
    (hid : p.Reachable id) (hget : p.get? id = some n) (hop : n.op = .filter f)
    (hchild : n.children = [join]) (hjoin : p.get? join = some j) (hkind : j.kind = .join) :
    ∃ res, apply p id = .ok res ∧
      (res.plan ≠ p ↔
        (∃ a, a ∈ f.tables) ∧ ∃! b, b ∈ j.children ∧ p.Serves b f.tables) ∧
      (res.plan ≠ p → ∃ left b right m scanned,
        j.children = left ++ b :: right ∧ p.get? b = some m ∧ p.reachable b = .ok scanned ∧
        (∀ a ∈ f.tables, a ∈ scanned) ∧
        res.plan = p.sink ⟨id, join, b, (n.scope.inter scanned).union f.tables⟩ ∧
        res.plan.slot? join = p.slot? id ∧
        res.plan.get? join = some { j with parent := n.parent, children := left ++ id :: right } ∧
        res.plan.get? id = some { n with
          parent := some join
          children := [b]
          scope := (n.scope.inter scanned).union f.tables } ∧
        res.plan.get? b = some { m with parent := some id }) := by
  obtain ⟨t, rest, hsound⟩ := Plan.validate_eq_ok_iff.1 hvalid
  obtain ⟨c, l, m, cond, js, rfl, hl, hm, rfl, rfl⟩ :=
    exists_plug_filter_join hsound.shows hid hget hop hchild hjoin hkind
  have hshows := hsound.shows
  have hiff := exists_pushes_iff hshows hl hm
  by_cases hpushes : ∃ s', Pushes (.node id l [.node join m js]) s'
  · obtain ⟨s', hs⟩ := hpushes
    obtain ⟨q, hq, hshows', hsize⟩ := apply_pushes hshows hs
    have hne : q ≠ p := by
      rintro rfl
      exact hs.ne (Context.plug_injective (hshows'.eq_of_shows hshows))
    refine ⟨_, hq, iff_of_true hne (hiff.1 ⟨s', hs⟩), fun _ => ?_⟩
    cases hs with
    | @push _ _ _ _ g _ left right b hl' _ _ hb =>
      obtain rfl : f = g := Operator.filter.inj (hl.symm.trans hl')
      have hbranch : p.Shows (Context.plug (⟨join, m, left, right⟩ :: ⟨id, l, [], []⟩ :: c) b) rest :=
        hshows
      obtain ⟨hsink, hslot, hjoin', hfilter', hbranch'⟩ :=
        pushed_eq hshows hshows' hsize hsound.linked
      exact ⟨left.map Branch.top, b.top, right.map Branch.top, _, b.tables, by simp,
        hbranch.has_plug.get?_top, hbranch.has_plug.reachable_eq, AliasSet.subset_iff.1 hb, hsink, hslot,
        hjoin', hfilter', hbranch'⟩
  · obtain ⟨res, hres, rfl | ⟨s', hs, -⟩⟩ := apply_shows hshows
    · exact ⟨_, hres, iff_of_false (not_not.2 rfl) (fun h => hpushes (hiff.2 h)), absurd rfl⟩
    · exact absurd ⟨s', hs⟩ hpushes

/-- The theorem applies to a filter whose table is scanned in one of two branches. -/
theorem apply_exact_filteredJoin :
    ∃ n j f, Plan.filteredJoin.validate = .ok () ∧ Plan.filteredJoin.Reachable 3 ∧
      Plan.filteredJoin.get? 3 = some n ∧ n.op = .filter f ∧ n.children = [2] ∧
      Plan.filteredJoin.get? 2 = some j ∧ j.kind = .join ∧
      ∃ res, apply Plan.filteredJoin 3 = .ok res ∧
        (res.plan ≠ Plan.filteredJoin ↔
          (∃ a, a ∈ f.tables) ∧ ∃! b, b ∈ j.children ∧ Plan.filteredJoin.Serves b f.tables) := by
  have hvalid : Plan.filteredJoin.validate = .ok () := by cbv
  have hid : Plan.filteredJoin.Reachable 3 := .child (.root rfl) rfl (List.mem_singleton.2 rfl)
  obtain ⟨res, hres, hiff, -⟩ := apply_exact hvalid hid rfl rfl rfl rfl rfl
  exact ⟨_, _, _, hvalid, hid, rfl, rfl, rfl, rfl, rfl, res, hres, hiff⟩

end PredicatePushdown

end QueryPlan
