import QueryPlan.Proofs.Filters.Landing
import QueryPlan.Proofs.Filters.Pushed
import QueryPlan.Proofs.Forest.Cycles
import QueryPlan.Proofs.Rows.Runs

/-!
# The lowest place that serves a filter

If no alias is scanned twice, the nodes that serve a filter stand on one path down from it, and the filter
lands above the last of them.

Main results:

- Definition `Plan.IsLowest`: the last node below another one that serves some tables.
- Definition `Plan.HasLoneFilter`: a plan with one filter above joins and scans.
- Theorem `Plan.Shows.isLowest`: what the lowest place that serves some tables is in a tree.
- Theorem `Optimizer.filter_sinks`: a lone filter sinks to the lowest place that serves it.
-/

namespace QueryPlan

namespace Plan

/-- Of the nodes below `id`, the node `low` is the lowest that serves the tables: every other one that
serves them stands above it. -/
structure IsLowest (p : Plan) (id : NodeId) (tables : AliasSet) (low : NodeId) : Prop where
  below : p.Ancestor id low
  serves : p.Serves low tables
  lowest : ∀ x, p.Ancestor id x → p.Serves x tables → x = low ∨ p.Ancestor x low

/-- The filter `f` stands at `id`, above the node `top`, with nothing above it but perhaps a projection
at the root, and with only joins and scans below it, and all nodes are known to produce rows. -/
structure HasLoneFilter (p : Plan) (id : NodeId) (n : Node) (f : Filter) (top : NodeId) : Prop where
  get?_id : p.get? id = some n
  op : n.op = .filter f
  child : n.children = [top]
  nearRoot : p.root = some id ∨ ∃ root r columns, p.root = some root ∧ p.get? root = some r ∧
    r.op = .projection columns ∧ r.children = [id]
  below : ∀ x m, p.Ancestor id x → p.get? x = some m → m.kind = .join ∨ m.kind = .scan
  unmarked : ∀ x m, p.Reachable x → p.get? x = some m → m.vacuous = false

variable {p : Plan} {rest : NodeId → Option Node} {c d : Context} {s : Branch} {tables : AliasSet}
  {x : NodeId}

/-! ## Places that serve tables -/

/-- Whatever serves some tables stands in branches that do. -/
theorem Shows.mem_tables_of_serves (h : p.Shows (c.plug s) rest) (hx : x ∈ s.ids)
    (hserves : p.Serves x tables) : ∀ a ∈ tables, a ∈ s.tables := by
  obtain ⟨e, t, rfl, rfl⟩ := Branch.exists_plug_of_mem_ids hx
  rw [← Context.plug_append] at h
  intro a ha
  have hmem := h.has_plug.serves_iff.1 hserves a ha
  rw [Branch.mem_tables] at hmem ⊢
  exact (e.scans_sublist_plug t).subset hmem

/-- If no alias is scanned twice, then beside a branch that serves some tables nothing else serves
them. -/
theorem Shows.ancestor_of_serves (h : p.Shows (c.plug s) rest) (hnodup : (c.plug s).scans.Nodup)
    (hsome : ∃ a, a ∈ tables) (hs : ∀ a ∈ tables, a ∈ s.tables) (hx : x ∈ c.ids)
    (hserves : p.Serves x tables) : p.Ancestor x s.top := by
  obtain ⟨f, hf, hxf⟩ := List.mem_flatMap.1 hx
  rcases List.mem_cons.1 hxf with rfl | hxf
  · exact h.ancestor_iff.2 ⟨f, hf, rfl⟩
  obtain ⟨y, hy, hxy⟩ := List.mem_flatMap.1 hxf
  obtain ⟨c₁, c₂, rfl⟩ := List.append_of_mem hf
  rw [Context.plug_append, Context.plug_cons] at h hnodup
  -- The branch with the node, and the branch in which `s` stands, hang below the same node.
  have hfill := (Context.scans_sublist_plug c₂ _).nodup hnodup
  rw [Frame.fill, Branch.scans_node] at hfill
  have hfill' := (List.sublist_append_right _ _).nodup hfill
  obtain ⟨c', hc'⟩ := Optimizer.exists_shows_of_mem h (b := y)
    (((List.sublist_cons_self _ f.right).append_left f.left).subset hy)
  obtain ⟨a, ha⟩ := hsome
  have has : a ∈ (Context.plug c₁ s).tables := by
    have hmem := hs a ha
    rw [Branch.mem_tables] at hmem ⊢
    exact (Context.scans_sublist_plug c₁ s).subset hmem
  exact absurd (hc'.mem_tables_of_serves hxy hserves a ha)
    (Branch.scans_disjoint f.left f.right hfill' hy a has)

/-- A branch that serves some tables is the lowest place that does, if none of the branches directly below
it does and no alias is scanned twice. -/
theorem Shows.isLowest {id : NodeId} {l : Label}
    (h : p.Shows (d.plug (.node id l [c.plug s])) rest) (hrest : Linked rest)
    (hnodup : (d.plug (.node id l [c.plug s])).scans.Nodup) (hsome : ∃ a, a ∈ tables)
    (hs : ∀ a ∈ tables, a ∈ s.tables) (hbelow : ∀ b ∈ s.branches, ∃ a ∈ tables, a ∉ b.tables) :
    p.IsLowest id tables s.top := by
  have hplug : d.plug (.node id l [c.plug s]) = Context.plug (c ++ ⟨id, l, [], []⟩ :: d) s := by
    rw [Context.plug_append]
    rfl
  have hids : ∀ x, p.Ancestor id x ↔ x ∈ (c.plug s).ids := by
    intro x
    have hiff := h.ancestor_top_iff (x := x) hrest
    simpa using hiff
  have hs' : p.Shows (Context.plug (c ++ ⟨id, l, [], []⟩ :: d) s) rest := hplug ▸ h
  refine ⟨(hids s.top).2 (c.top_mem_ids_plug s), hs'.has_plug.serves_iff.2 hs, fun x hx hserves => ?_⟩
  rcases List.mem_append.1 ((c.ids_plug s).mem_iff.1 ((hids x).1 hx)) with hx | hx
  · left
    obtain ⟨y, k, bs⟩ := s
    rw [Branch.ids_node, List.mem_cons] at hx
    refine hx.resolve_right fun hx => ?_
    obtain ⟨b, hb, hx⟩ := List.mem_flatMap.1 hx
    obtain ⟨c', hc'⟩ := Optimizer.exists_shows_of_mem hs' hb
    obtain ⟨a, ha, hnot⟩ := hbelow b hb
    exact hnot (hc'.mem_tables_of_serves hx hserves a ha)
  · right
    refine hs'.ancestor_of_serves (hplug ▸ hnodup) hsome hs ?_ hserves
    rw [Context.ids, List.flatMap_append]
    exact List.mem_append_left _ hx

end Plan

namespace PredicatePushdown

/-- If no alias is scanned twice, a filter that is not pushed stands above a branch no part of which
serves it. -/
theorem exists_not_mem_of_not_pushes {id : NodeId} {l : Label} {f : Filter} {s : Branch}
    (hl : l.op = .filter f) (hsome : ∃ a, a ∈ f.tables) (hs : s.kind = .join ∨ s.kind = .scan)
    (hvalid : s.Valid) (hnodup : s.scans.Nodup) (hno : ∀ s', ¬ Pushes (.node id l [s]) s') :
    ∀ b ∈ s.branches, ∃ a ∈ f.tables, a ∉ b.tables := by
  obtain ⟨join, m, js⟩ := s
  intro b hb
  rcases hs with hs | hs
  · obtain ⟨cond, hm⟩ := Operator.exists_join_of_kind hs
    obtain ⟨left, right, rfl⟩ := List.append_of_mem hb
    by_contra hserves
    push Not at hserves
    refine hno _ (.push hl hm (AliasSet.isEmpty_eq_false_iff.2 hsome) (AliasSet.subset_iff.2 hserves)
      fun x hx => ?_)
    rw [Branch.scans_node] at hnodup
    obtain ⟨a, ha⟩ := hsome
    have hnot := Branch.scans_disjoint left right ((List.sublist_append_right _ _).nodup hnodup) hx a
      (hserves a ha)
    exact Bool.eq_false_iff.2 fun hsubset => hnot (AliasSet.subset_iff.1 hsubset a ha)
  · obtain rfl : js = [] := hvalid.branches_scan hs
    exact absurd hb List.not_mem_nil

end PredicatePushdown

/-! ## The run -/

/-- A lone filter in the tree of its plan. -/
theorem Plan.HasLoneFilter.exists_plug {p : Plan} {t : Branch} {rest : NodeId → Option Node}
    {id top : NodeId} {n : Node} {f : Filter} (hlone : p.HasLoneFilter id n f top)
    (h : p.Shows t rest) :
    ∃ d l b, t = Context.plug d (.node id l [b]) ∧ d.NearRoot ∧
      n = l.node d.parent? [top] ∧ b.top = top ∧ l.op = .filter f ∧ l.vacuous = false ∧
      b.All fun l => (l.kind = .join ∨ l.kind = .scan) ∧ l.vacuous = false := by
  obtain ⟨d, ⟨y, l, bs⟩, rfl, hd, rfl⟩ : ∃ d s, t = Context.plug d s ∧ d.NearRoot ∧ s.top = id := by
    rcases hlone.nearRoot with hroot | ⟨root, r, columns, hroot, hget, hop, hchild⟩
    · exact ⟨[], t, rfl, .inl rfl, Option.some.inj (h.root_eq.symm.trans hroot)⟩
    · obtain ⟨y, m, bs⟩ := t
      obtain rfl : y = root := Option.some.inj (h.root_eq.symm.trans hroot)
      have hv := hlone.unmarked y r (.root hroot) hget
      obtain rfl := Option.some.inj (h.has.get?_top.symm.trans hget)
      obtain ⟨s, rfl, htop⟩ := List.map_eq_singleton_iff.1 hchild
      have hkind : m.kind ≠ .filter := by
        have hop : m.op = .projection columns := hop
        simp [Label.kind, hop, Operator.kind]
      exact ⟨[⟨y, m, [], []⟩], s, rfl, .inr ⟨y, m, rfl, hkind, hv⟩, htop⟩
  have hget := h.has_plug.get?_top
  obtain rfl := Option.some.inj (hget.symm.trans hlone.get?_id)
  obtain ⟨b, rfl, rfl⟩ := List.map_eq_singleton_iff.1 hlone.child
  refine ⟨d, l, b, rfl, hd, rfl, rfl, hlone.op, ?_, Branch.all_of_forall_plug ?_⟩
  · exact hlone.unmarked y _ (h.reachable_iff.2 (Context.top_mem_ids_plug d _)) hget
  · rintro c s rfl
    have hs : p.Shows (Context.plug (c ++ ⟨y, l, [], []⟩ :: d) s) rest := by
      rwa [Context.plug_append]
    have habove : p.Ancestor y s.top :=
      hs.ancestor_iff.2 ⟨_, List.mem_append_right _ List.mem_cons_self, rfl⟩
    exact ⟨hlone.below s.top _ habove hs.has_plug.get?_top,
      hlone.unmarked s.top _ (hs.reachable_iff.2 (Context.top_mem_ids_plug _ s)) hs.has_plug.get?_top⟩

namespace Optimizer

open PredicatePushdown

/-- A lone filter sinks to the lowest place that serves it.  If that is the node below it, the plan stays
as it is.  Otherwise the filter sinks there, nothing else in the store changes, and its scope is what is
scanned there of the old one, together with the tables it refers to. -/
theorem filter_sinks {p : Plan} {id top : NodeId} {n : Node} {f : Filter}
    (hvalid : p.validate = .ok ()) (hlone : p.HasLoneFilter id n f top)
    (hdistinct : p.DistinctAliases) (hsome : ∃ a, a ∈ f.tables) (hserves : p.Serves top f.tables)
    (validates traces : Bool) :
    ∃ out low scanned k,
      (ofRules (.ofList [.predicatePushdown]) validates traces).optimize p = .ok out ∧
      p.IsLowest id f.tables low ∧ p.reachable low = .ok scanned ∧
      out.plan.get? id = some k ∧ k.children = [low] ∧
      (low = top → out.plan = p) ∧
      (low ≠ top → k.scope = (n.scope.inter scanned).union f.tables ∧
        out.plan = p.sink ⟨id, top, low, k.scope⟩) := by
  obtain ⟨t, rest, hsound⟩ := Plan.validate_eq_ok_iff.1 hvalid
  have ho := onlyPushesFilters_ofRules validates traces
  obtain ⟨d, l, b, rfl, hd, rfl, rfl, hl, hv, hb⟩ := hlone.exists_plug hsound.shows
  obtain ⟨c, s, l', rfl, hlands, hno, hop, hlabel⟩ := exists_lands id hl b
  have hshows := hsound.shows
  obtain ⟨out, hrun, hout, hsize⟩ := ho.exists_transform hd hlands hv
    (hb.mono fun _ hl => ⟨by rcases hl.1 with h | h <;> simp [h], hl.2⟩) hshows
  obtain ⟨b', out', hrun', hsound', -⟩ :=
    exists_sound_transform (sorted_ofRules (.ofList [.predicatePushdown]) validates traces) hsound
  obtain rfl : out = out' := Except.ok.inj (hrun.symm.trans hrun')
  have hs : p.Shows (Context.plug (c ++ ⟨id, l, [], []⟩ :: d) s) rest := by
    rwa [Context.plug_append]
  have hout' : out.plan.Shows (Context.plug (c ++ d) (.node id l' [s])) rest := by
    rwa [Context.plug_append]
  have hserved : ∀ a ∈ f.tables, a ∈ s.tables := by
    rcases hlabel with ⟨rfl, -⟩ | ⟨-, hserved, -⟩
    · exact hs.has_plug.serves_iff.1 hserves
    · exact hserved
  have hnodup := hshows.nodup_scans hdistinct
  have hscans := (Context.scans_sublist_plug _ s).nodup (hs.nodup_scans hdistinct)
  have hbranch : (c.plug s).Valid := hsound.valid.of_plug.branch (List.mem_singleton.2 rfl)
  have hbelow := exists_not_mem_of_not_pushes (hop.trans hl) hsome hb.of_plug.label.1 hbranch.of_plug
    hscans hno
  refine ⟨out, s.top, s.tables, _, optimize_eq_of_transform hsound hrun hsound',
    hshows.isLowest hsound.linked hnodup hsome hserved hbelow, hs.has_plug.reachable_eq,
    hout'.has_plug.get?_top, rfl, fun htop => ?_, fun htop => ?_⟩
  · rcases hlabel with ⟨rfl, rfl⟩ | ⟨hc, -⟩
    · exact hshows.eq_of_size hout hsize
    · obtain ⟨g, c, rfl⟩ := List.exists_cons_of_ne_nil hc
      have hids := (List.nodup_append.1 ((d.ids_plug _).nodup_iff.1 hshows.nodup_ids)).1
      rw [Branch.ids_node, List.nodup_cons] at hids
      have hids' := (Branch.ids_sublist_of_mem (List.mem_singleton.2 rfl)).nodup hids.2
      exact absurd htop (Context.top_ne_top_plug hids')
  · rcases hlabel with ⟨rfl, -⟩ | ⟨hc, -, rfl⟩
    · exact absurd rfl htop
    · obtain ⟨g, c, rfl⟩ := List.exists_cons_of_ne_nil hc
      exact ⟨rfl, hshows.eq_sink hout hsize hsound.linked⟩

end Optimizer

/-- In the store of this plan, every node stands before the one above it. -/
theorem Plan.lt_of_ancestor_filteredJoin {x y : NodeId} (h : filteredJoin.Ancestor x y) : y < x := by
  have hstep : ∀ {x y}, filteredJoin.IsParent x y → y < x := by
    rintro x y ⟨n, hget, hparent⟩
    have hlt : y < 5 := lt_size_of_get? hget
    interval_cases y
    all_goals
      obtain rfl := Option.some.inj hget
      cases hparent <;> decide
  induction h with
  | single h => exact hstep h
  | tail _ h ih => exact (hstep h).trans ih

namespace Optimizer

/-- The filter on one of two joined scans sinks to the scan. -/
theorem filter_sinks_filteredJoin :
    Plan.filteredJoin.validate = .ok () ∧
    ∃ n f, Plan.filteredJoin.HasLoneFilter 3 n f 2 ∧ Plan.filteredJoin.DistinctAliases ∧
      (∃ a, a ∈ f.tables) ∧ Plan.filteredJoin.Serves 2 f.tables ∧
      ∃ out, (ofRules (.ofList [.predicatePushdown]) true true).optimize Plan.filteredJoin = .ok out ∧
        out.plan = Plan.filteredJoin.sink ⟨3, 2, 0, .singleton "a"⟩ := by
  have hvalid : Plan.filteredJoin.validate = .ok () := by cbv
  have hdistinct : Plan.filteredJoin.DistinctAliases :=
    Plan.distinctAliases_of_scannedTables ["a", "b"] rfl (by cbv) (by decide)
  obtain ⟨n, f, hlone, hscope, htables⟩ : ∃ n f, Plan.filteredJoin.HasLoneFilter 3 n f 2 ∧
      n.scope = .singleton "a" ∧ f.tables = .singleton "a" := by
    refine ⟨_, _, ⟨rfl, rfl, rfl, .inr ⟨4, _, _, rfl, rfl, rfl, rfl⟩, ?_, ?_⟩, rfl, by decide⟩
    · intro x m hx hget
      have hlt := Plan.lt_of_ancestor_filteredJoin hx
      interval_cases x <;> obtain rfl := Option.some.inj hget <;> decide
    · intro x m _ hget
      have hlt : x < 5 := Plan.lt_size_of_get? hget
      interval_cases x <;> obtain rfl := Option.some.inj hget <;> rfl
  have hsome : ∃ a, a ∈ f.tables := ⟨"a", htables ▸ AliasSet.mem_singleton.2 rfl⟩
  have htop : Plan.filteredJoin.reachable 2 = .ok (.ofList ["a", "b"]) := by cbv
  have hlow : Plan.filteredJoin.reachable 0 = .ok (.singleton "a") := by cbv
  have hserves : ∀ {x scanned}, Plan.filteredJoin.reachable x = .ok scanned → "a" ∈ scanned →
      Plan.filteredJoin.Serves x f.tables := by
    intro x scanned hx ha
    refine ⟨scanned, hx, fun b hb => ?_⟩
    rw [htables, AliasSet.mem_singleton] at hb
    exact hb ▸ ha
  obtain ⟨out, low, scanned, k, hout, hlowest, hscanned, -, -, -, hmoved⟩ :=
    filter_sinks hvalid hlone hdistinct hsome (hserves htop (by decide)) true true
  obtain rfl : 0 = low := by
    have habove : Plan.filteredJoin.Ancestor 3 2 := .single ⟨_, rfl, rfl⟩
    refine (hlowest.lowest 0 (.tail habove ⟨_, rfl, rfl⟩) (hserves hlow (by decide))).resolve_right ?_
    intro h
    exact Nat.not_lt_zero low (Plan.lt_of_ancestor_filteredJoin h)
  obtain rfl := Except.ok.inj (hlow.symm.trans hscanned)
  obtain ⟨hk, hsink⟩ := hmoved (by decide)
  rw [hk, hscope, htables] at hsink
  exact ⟨hvalid, n, f, hlone, hdistinct, hsome, hserves htop (by decide), out, hout, hsink⟩

end Optimizer

end QueryPlan
