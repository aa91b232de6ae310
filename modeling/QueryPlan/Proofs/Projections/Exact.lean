import QueryPlan.Proofs.Forest.Cycles
import QueryPlan.Proofs.Projections.Pushed
import QueryPlan.Proofs.Valid.Runs

/-!
# Projections carry what is read

A plan in which nothing but the root is a projection gets its other projections from the rules.  Each
of them ends up with the columns that are read between it and the next projection above it, and no
others.  What the walk relies on is that it narrows a branch only after all slots above it have become
stable; the rules that still work further down take tables away that nobody reads.

Main results:

- Definition `Branch.Ready`: what the walk finds when it comes to a node.
- Definition `Branch.Exact`: what it leaves, that all projections are exact.
- Theorem `Optimizer.visits_exact`: the walk turns the one into the other.
- Definition `Plan.CarriesRead`: a projection has the columns read above it, said of the links.
- Theorem `Optimizer.projections_exact`: the projections of the plan that a run gives.
-/

namespace QueryPlan

namespace Branch

/-- Below nodes with the given operators, the uppermost node is exact if it is a projection, and all
that is below it is ready to be narrowed. -/
structure Ready (ops : List Operator) (b : Branch) : Prop where
  exactly : ∀ columns, b.label.op = .projection columns → ops ≠ [] → Exactly ops columns b
  clean : ∀ columns, b.label.op = .projection columns → ∀ x ∈ b.branches, x.Clean
  pushed : ∀ x ∈ b.branches, x.Pushed (b.label.op :: ops)

/-- Below nodes with the given operators, all projections of a branch are exact, unless one of them is
the root. -/
inductive Exact : List Operator → Branch → Prop
  | node {ops : List Operator} {id : NodeId} {l : Label} {bs : List Branch}
      (hexact : ∀ columns, l.op = .projection columns → ops ≠ [] →
        Exactly ops columns (.node id l bs))
      (hbs : ∀ b ∈ bs, b.Exact (l.op :: ops)) : Exact ops (.node id l bs)

variable {ops : List Operator} {b : Branch}

/-- A branch whose projections have been pushed down is ready. -/
theorem Pushed.ready (h : Pushed ops b) : b.Ready ops := by
  cases h with
  | clean h =>
    obtain ⟨id, l, bs⟩ := b
    obtain ⟨hl, hbs⟩ := clean_node_iff.1 h
    exact ⟨fun columns hop => absurd hop (hl columns), fun _ _ => hbs, fun x hx => .clean (hbs x hx)⟩
  | @projection _ id l columns bs hl hexact hbs =>
    refine ⟨fun columns' hop => ?_, fun _ _ => hbs, fun x hx => .clean (hbs x hx)⟩
    obtain rfl := Operator.projection.inj (hl.symm.trans hop)
    exact hexact
  | @filter _ id l f b hl _ hb =>
    have hproj : ∀ columns, l.op ≠ .projection columns := by simp [hl]
    refine ⟨fun columns hop => absurd hop (hproj columns),
      fun columns hop => absurd hop (hproj columns), fun x hx => ?_⟩
    rwa [List.mem_singleton.1 hx]

/-- A branch whose projections have been pushed down has exact ones only. -/
theorem Pushed.exact (h : Pushed ops b) : b.Exact ops := by
  induction b generalizing ops with
  | node id l bs ih =>
    have hready := h.ready
    exact .node hready.exactly fun b hb => ih b hb (hready.pushed b hb)

/-- All projections of a branch that is ready are exact, so the walk may skip it. -/
theorem Ready.exact (h : b.Ready ops) : b.Exact ops := by
  obtain ⟨id, l, bs⟩ := b
  exact .node h.exactly fun x hx => (h.pushed x hx).exact

/-- In a branch with exact projections, the one on top is exact unless it is the root. -/
theorem Exact.exactly {columns : ColumnSet} (h : b.Exact ops) (hop : b.label.op = .projection columns)
    (hne : ops ≠ []) : Exactly ops columns b := by
  cases h with
  | node hexact => exact hexact columns hop hne

/-- A part of a branch with exact projections has exact projections below all that is above it. -/
theorem Exact.of_plug {c : Context} (h : (c.plug b).Exact ops) : b.Exact (c.ops ++ ops) := by
  induction c generalizing b with
  | nil => exact h
  | cons f c ih =>
    cases ih (b := f.fill b) h with
    | node _ hbs => exact hbs b (List.mem_append_right _ List.mem_cons_self)

end Branch

/-! ## Narrowing below a projection -/

namespace ProjectionPushdown

/-- A branch of a join below a projection is narrowed to what it is asked for. -/
theorem BelowJoin.exactly_neededColumns {ops : List Operator} {op op' : Operator} {j : Join}
    {columns : ColumnSet} (hop : op = .projection columns) (hop' : op' = .join j) (b : Branch) :
    Branch.Exactly (op' :: op :: ops) (neededColumns j.columns columns b) b where
  projects := ⟨columns, by simp [hop]⟩
  mem_iff x := by
    simp only [Asked, hop, hop', Operator.columns, Operator.projection?, true_and, reduceCtorEq,
      false_and, or_false, mem_neededColumns]
    exact and_comm

/-- A branch of a filter below a projection is narrowed to what it is asked for. -/
theorem BelowFilter.exactly_union {ops : List Operator} {id filter : NodeId} {l m : Label}
    {columns : ColumnSet} {f : Filter} {b : Branch} (hl : l.op = .projection columns)
    (hm : m.op = .filter f) (hvalid : (Branch.node id l [.node filter m [b]]).Valid) :
    Branch.Exactly (m.op :: l.op :: ops) (columns.union f.columns) b where
  projects := ⟨columns, by simp [hl]⟩
  mem_iff x := by
    have hcolumns := hvalid.columns_single (by rw [hl]; rfl)
    have hcondition := (hvalid.branch List.mem_cons_self).columns_single (by rw [hm]; rfl)
    rw [Branch.tables_single (by rw [hm]; rfl), hl] at hcolumns
    rw [hm] at hcondition
    have htable : x ∈ columns ∨ x ∈ f.columns → x.table ∈ b.tables :=
      fun hx => hx.elim (hcolumns x) (hcondition x)
    simp only [Asked, hl, hm, Operator.columns, Operator.projection?, true_and, reduceCtorEq,
      false_and, or_false, ColumnSet.mem_union]
    tauto

end ProjectionPushdown

/-- Below a projection that a rule has narrowed at, everything is ready if there were no other
projections before. -/
theorem Rule.Rewrites.ready {r : Rule} {c c' : Context} {s s' : Branch}
    (h : r.Rewrites c s c' s') (hr : r.replacesAnchor = false) (hs : s.Valid)
    (hclean : ∀ b ∈ s.branches, b.Clean) (ops : List Operator) :
    ∀ b ∈ s'.branches, b.Ready (s'.label.op :: ops) := by
  cases h with
  | push | eliminate | simplify => exact absurd hr.symm (by decide)
  | belowJoin h =>
    cases h with
    | @push id join l m columns j bs bs' hl hm hbs =>
      have hbelow := (Branch.clean_node_iff.1 (hclean _ List.mem_cons_self)).2
      intro b hb
      rw [List.mem_singleton.1 hb]
      refine ⟨fun _ hop => absurd (hm.symm.trans hop) (by simp),
        fun _ hop => absurd (hm.symm.trans hop) (by simp), fun b' hb' => ?_⟩
      obtain ⟨b, hb, ⟨rfl, -⟩ | hnarrows⟩ := exists_mem_of_forall₂ hbs b' hb'
      · exact .clean (hbelow b' hb)
      · exact hnarrows.pushed (hbelow b hb)
          (ProjectionPushdown.BelowJoin.exactly_neededColumns hl hm b)
  | belowFilter h =>
    cases h with
    | @push id filter l m columns f b b' hl hm hnarrows =>
      have hbelow := (Branch.clean_node_iff.1 (hclean _ List.mem_cons_self)).2
      intro t ht
      rw [List.mem_singleton.1 ht]
      refine ⟨fun _ hop => absurd (hm.symm.trans hop) (by simp),
        fun _ hop => absurd (hm.symm.trans hop) (by simp), fun x hx => ?_⟩
      rw [List.mem_singleton.1 hx]
      exact hnarrows.pushed (hbelow b List.mem_cons_self)
        (ProjectionPushdown.BelowFilter.exactly_union hl hm hs)

/-! ## The walk -/

namespace Optimizer

variable {o : Optimizer} {c : Context} {t t₁ t₂ b : Branch}

/-- What the walk does to a branch before it goes down takes no table away that is read there or
above. -/
theorem Opens.drops (ho : o.Sorted) (h : o.Opens c t t₁ t₂) (ht : t.Valid) :
    Branch.Drops (t.label.op :: c.ops) t t₂ := by
  obtain ⟨id, l, bs⟩ := t
  obtain ⟨id₁, l₁, bs₁⟩ := t₁
  have hl : l.Alike l₁ := h.label
  have hbs := (List.forall₂_and_left _ _).2 ⟨fun b hb => ht.branch hb, h.settles⟩
  have hdrops : Branch.Drops (l.op :: c.ops) (.node id l bs) (.node id₁ l₁ bs₁) :=
    .node hl (hbs.imp fun _ _ hb => (hb.2.valid_drops hb.1).2)
  cases h.narrows with
  | stay => exact hdrops
  | fire hr hrewrites =>
    obtain ⟨-, -, -, hscans⟩ := hrewrites.exists_projection (ho.narrowing _ hr)
    exact hdrops.trans (.of_scans_eq hscans)

/-- It leaves branches that are ready for the walk. -/
theorem Opens.ready (ho : o.Sorted) (h : o.Opens c t t₁ t₂) (ht₁ : t₁.Valid) (ht : t.Ready c.ops) :
    ∀ x ∈ t₂.branches, x.Ready (t₂.label.op :: c.ops) := by
  have hop := h.label.op_eq
  cases h.narrows with
  | stay =>
    intro x hx
    obtain ⟨b, hb, hsettles⟩ := exists_mem_of_forall₂ h.settles x hx
    rw [hop]
    exact (hsettles.pushed ho (ht.pushed b hb)).ready
  | fire hr hrewrites =>
    have hreplaces := ho.narrowing _ hr
    obtain ⟨columns, hprojection, -⟩ := hrewrites.exists_projection hreplaces
    refine hrewrites.ready hreplaces ht₁ (fun x hx => ?_) c.ops
    obtain ⟨b, hb, hsettles⟩ := exists_mem_of_forall₂ h.settles x hx
    exact hsettles.clean ho (ht.clean columns (hop.symm.trans hprojection) b hb)

/-- What is done before the walk goes down leaves a valid branch. -/
theorem Opens.valid (h : o.Opens c t t₁ t₂) (ht₁ : t₁.Valid) : t₂.Valid := by
  cases h.narrows with
  | stay => exact ht₁
  | fire _ hrewrites => exact (hrewrites.valid_drops ht₁).1

/-- The walk down from a branch that is ready leaves exact projections. -/
theorem visits_exact (ho : o.Sorted) (hb : b.Valid) :
    o.Visits b (fun ops t => t.Valid ∧ t.Ready ops)
      fun ops t t' => t'.Exact ops ∧ t.Drops ops t' where
  skip hpre _ := ⟨hpre.2.exact, .of_scans_eq rfl⟩
  enter {c t t₁ t₂} hsteps hpre hopens x hx := by
    have ht₁ := (hsteps.valid hb).of_plug
    obtain ⟨id₂, l₂, bs₂⟩ := t₂
    exact ⟨(hopens.valid ht₁).branch hx, hopens.ready ho ht₁ hpre.2 x hx⟩
  leave {c t t₁ t₂ l bs} _ hpre hopens hl hbs := by
    have hop := (hopens.alike ho).op_eq
    have hdrops := hopens.drops ho hpre.1
    obtain ⟨id₂, l₂, bs₂⟩ := t₂
    have hop₂ : l₂.op = t.label.op := hop
    have hbelow : Branch.Drops (t.label.op :: c.ops) (.node id₂ l₂ bs₂) (.node id₂ l bs) :=
      .node hl (hop₂ ▸ hbs.imp fun _ _ h => h.2)
    have hall := hdrops.trans hbelow
    refine ⟨.node (fun columns hcolumns hne => ?_) fun x hx => ?_,
      hall.mono (List.subset_cons_self _ _)⟩
    · -- The projection was exact, and the walk took no table away that it reads.
      have hprojection : t.label.op = .projection columns :=
        hop.symm.trans (hl.op_eq.symm.trans hcolumns)
      exact (hpre.2.exactly columns hprojection hne).of_drops (hprojection ▸ hall)
    · obtain ⟨_, -, hexact, -⟩ := exists_mem_of_forall₂ hbs x hx
      rw [hl.op_eq]
      exact hexact

end Optimizer

/-! ## The nodes above a projection -/

/-- In a context with a projection, those columns are asked for that the nearest one names or that a
node below it names. -/
theorem Context.exists_nearest {c : Context} {columns : ColumnSet}
    (h : Operator.projection columns ∈ c.ops) :
    ∃ (d e : Context) (f : Frame) (above : ColumnSet), c = d ++ f :: e ∧ f.label.op = .projection above ∧
      (∀ g ∈ d, g.label.op.projection? = none) ∧
      ∀ x, Asked (ops c) x ↔ x ∈ above ∨ ∃ g ∈ d, x ∈ g.label.op.columns := by
  induction c with
  | nil => exact absurd h List.not_mem_nil
  | cons g c ih =>
    match hg : g.label.op.projection? with
    | some above =>
      have hop := Operator.projection?_eq_some_iff.1 hg
      refine ⟨[], c, g, above, rfl, hop, fun _ hmem => absurd hmem List.not_mem_nil, fun x => ?_⟩
      rw [Context.ops_cons, asked_projection hop]
      simp
    | none =>
      have hmem : Operator.projection columns ∈ ops c := by
        rw [ops_cons, List.mem_cons] at h
        refine h.resolve_left fun heq => ?_
        rw [← heq] at hg
        exact Option.some_ne_none columns hg
      obtain ⟨d, e, f, above, rfl, hf, hd, hasked⟩ := ih hmem
      refine ⟨g :: d, e, f, above, rfl, hf, List.forall_mem_cons.2 ⟨hg, hd⟩, fun x => ?_⟩
      rw [Context.ops_cons, Asked, hasked, List.exists_mem_cons_iff]
      tauto

namespace Plan

variable {p : Plan} {b : Branch} {rest : NodeId → Option Node}

/-- The node `a` is the nearest projection above the node `id`. -/
structure NearestProjection (p : Plan) (a id : NodeId) (columns : ColumnSet) : Prop where
  ancestor : p.Ancestor a id
  projection : ∃ n, p.get? a = some n ∧ n.op = .projection columns
  nearest : ∀ y n, p.Ancestor a y → p.Ancestor y id → p.get? y = some n → n.op.projection? = none

/-- At the node `id`, columns are carried on that are read between it and the nearest projection above
it, and no others: of the tables scanned below, they are those that this projection names or that a
node strictly between the two names. -/
def CarriesRead (p : Plan) (id : NodeId) (columns : ColumnSet) : Prop :=
  ∃ a above tables, p.NearestProjection a id above ∧ p.scannedTables id = .ok tables ∧
    ∀ x, x ∈ columns ↔ x.table ∈ tables ∧ (x ∈ above ∨
      ∃ y n, p.Ancestor a y ∧ p.Ancestor y id ∧ p.get? y = some n ∧ x ∈ n.op.columns)

/-- The store holds the nodes above a branch. -/
theorem Shows.exists_get?_of_mem {c : Context} {s : Branch} (h : p.Shows (c.plug s) rest) {f : Frame}
    (hf : f ∈ c) : ∃ n, p.get? f.id = some n ∧ n.op = f.label.op := by
  obtain ⟨d, e, rfl⟩ := List.append_of_mem hf
  rw [Context.plug_append] at h
  have hfill : p.Shows (Context.plug e (f.fill (Context.plug d s))) rest := h
  exact ⟨_, hfill.has_plug.get?_top, rfl⟩

/-- An exact projection of a tree carries what is read there. -/
theorem Shows.carriesRead {c : Context} {s : Branch} (h : p.Shows (c.plug s) rest)
    {columns : ColumnSet} (hexact : Branch.Exactly c.ops columns s) :
    p.CarriesRead s.top columns := by
  obtain ⟨columns', hmem⟩ := hexact.projects
  obtain ⟨d, e, f, above, rfl, hf, hd, hasked⟩ := Context.exists_nearest hmem
  have hbetween : ∀ {y n}, p.Ancestor f.id y → p.Ancestor y s.top → p.get? y = some n →
      ∃ g ∈ d, g.id = y ∧ n.op = g.label.op := by
    intro y n hfy hys hget
    obtain ⟨g, hg, rfl⟩ := h.between_iff.1 ⟨hfy, hys⟩
    obtain ⟨m, hm, hop⟩ := h.exists_get?_of_mem (List.mem_append_left _ hg)
    obtain rfl := Option.some.inj (hm.symm.trans hget)
    exact ⟨g, hg, rfl, hop⟩
  obtain ⟨n, hget, hop⟩ := h.exists_get?_of_mem (List.mem_append_right d List.mem_cons_self)
  refine ⟨f.id, above, s.scans, ⟨?_, ⟨n, hget, hop.trans hf⟩, ?_⟩, h.has_plug.scannedTables_eq, ?_⟩
  · exact h.ancestor_iff.2 ⟨f, List.mem_append_right d List.mem_cons_self, rfl⟩
  · intro y n hfy hys hget
    obtain ⟨g, hg, -, hop⟩ := hbetween hfy hys hget
    rw [hop, hd g hg]
  · intro x
    rw [hexact.mem_iff, hasked, Branch.mem_tables]
    refine and_congr_right fun _ => or_congr_right ?_
    constructor
    · rintro ⟨g, hg, hx⟩
      obtain ⟨hfg, hgs⟩ := h.between_iff.2 ⟨g, hg, rfl⟩
      obtain ⟨n, hget, hop⟩ := h.exists_get?_of_mem (List.mem_append_left _ hg)
      exact ⟨g.id, n, hfg, hgs, hget, hop ▸ hx⟩
    · rintro ⟨y, n, hfy, hys, hget, hx⟩
      obtain ⟨g, hg, -, hop⟩ := hbetween hfy hys hget
      exact ⟨g, hg, hop ▸ hx⟩

/-- A tree in which only the root may be a projection has pushed projections. -/
theorem Shows.pushed_of_root (h : p.Shows b rest)
    (hroot : ∀ id n columns, p.get? id = some n → n.op = .projection columns → p.root = some id) :
    b.Pushed [] := by
  obtain ⟨id, l, bs⟩ := b
  have hclean : ∀ x ∈ bs, x.Clean := by
    intro x hx columns hmem
    obtain ⟨⟨y, n⟩, hentry, hop⟩ := (Branch.mem_ops_iff (some id)).1 hmem
    have hy : y ∈ bs.flatMap Branch.ids := by
      refine List.mem_flatMap.2 ⟨x, hx, ?_⟩
      rw [← Branch.map_fst_entries (some id)]
      exact List.mem_map_of_mem hentry
    have hget : p.get? y = some n := by
      refine h.splits.get?_entry y n ?_
      rw [Branch.entries_node]
      exact List.mem_cons_of_mem _ (List.mem_flatMap.2 ⟨x, hx, hentry⟩)
    have htop := hroot y n columns hget hop
    rw [h.root_eq] at htop
    obtain rfl : id = y := Option.some.inj htop
    have hnodup := h.nodup_ids
    rw [Branch.ids_node, List.nodup_cons] at hnodup
    exact hnodup.1 hy
  match hl : l.op.projection? with
  | some columns =>
    have hop := Operator.projection?_eq_some_iff.1 hl
    exact .projection hop (fun hne => absurd rfl hne) hclean
  | none =>
    refine .clean (Branch.clean_node_iff.2 ⟨fun columns hop => ?_, hclean⟩)
    rw [hop] at hl
    exact Option.some_ne_none columns hl

end Plan

namespace Optimizer

/-- If nothing but the root of a plan is a projection, then every projection but the root of the plan
that a run gives has a projection above it and carries exactly the columns that are read up there. -/
theorem projections_exact {p : Plan} (hvalid : p.validate = .ok ())
    (hroot : ∀ id n columns, p.get? id = some n → n.op = .projection columns → p.root = some id)
    (rules : RuleSet) (validates traces : Bool) :
    ∃ out, (ofRules rules validates traces).optimize p = .ok out ∧
      ∀ id n columns, out.plan.get? id = some n → n.op = .projection columns →
        out.plan.root ≠ some id → out.plan.CarriesRead id columns := by
  obtain ⟨b, rest, hsound⟩ := Plan.validate_eq_ok_iff.1 hvalid
  have ho := sorted_ofRules rules validates traces
  have hpushed := hsound.shows.pushed_of_root hroot
  obtain ⟨t, b', out, hrun, hgoes, -, hexact, -⟩ :=
    exists_transform_of_visits ho (visits_exact ho hsound.valid) hsound.shows fun t ht =>
      ⟨(ht.valid_drops hsound.valid).1, (ht.pushed ho hpushed).ready⟩
  have hshows : out.plan.Shows b' rest := hgoes.shows
  have hsound' : out.plan.Sound b' rest :=
    ⟨hshows, hgoes.steps.valid hsound.valid, hsound.linked⟩
  refine ⟨out, optimize_eq_of_transform hsound hrun hsound', fun id n columns hget hop hne => ?_⟩
  rcases hshows.get?_eq_or id with ⟨c, s, rfl, rfl, hs⟩ | ⟨-, hrest⟩
  · obtain rfl := Option.some.inj (hs.symm.trans hget)
    have hne' : c.ops ≠ [] := by
      intro hnil
      obtain rfl : c = [] := List.map_eq_nil_iff.1 hnil
      exact hne hshows.root_eq
    refine hshows.carriesRead (Branch.Exact.exactly ?_ hop hne')
    rw [← List.append_nil c.ops]
    exact hexact.of_plug
  · -- Beside the tree nothing has changed, and there the plan had no projection.
    have hoff : rest id = some n := hrest.symm.trans hget
    have htop := hroot id n columns (hsound.shows.get?_of_rest hoff) hop
    rw [hsound.shows.root_eq] at htop
    obtain rfl := Option.some.inj htop
    rw [hsound.shows.rest_eq_none b.top_mem_ids] at hoff
    exact absurd hoff.symm (Option.some_ne_none n)

/-- The theorem applies to a projection above a filter above a join. -/
theorem projections_exact_filteredJoin :
    Plan.filteredJoin.validate = .ok () ∧
    (∀ id n columns, Plan.filteredJoin.get? id = some n → n.op = .projection columns →
      Plan.filteredJoin.root = some id) ∧
    ∃ out, (ofRules .all true false).optimize Plan.filteredJoin = .ok out ∧
      ∀ id n columns, out.plan.get? id = some n → n.op = .projection columns →
        out.plan.root ≠ some id → out.plan.CarriesRead id columns := by
  have hvalid : Plan.filteredJoin.validate = .ok () := by cbv
  have hroot : ∀ id n columns, Plan.filteredJoin.get? id = some n →
      n.op = .projection columns → Plan.filteredJoin.root = some id := by
    intro id n columns hget hop
    obtain ⟨rfl, -⟩ := Plan.eq_of_projection_filteredJoin hget hop
    rfl
  exact ⟨hvalid, hroot, projections_exact hvalid hroot .all true false⟩

end Optimizer

end QueryPlan
