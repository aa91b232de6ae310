import QueryPlan.Proofs.Projections.Narrow
import QueryPlan.Proofs.Rows.Contract

/-!
# Projections that have been pushed down

The nodes above a branch ask it for columns: those they name themselves and, up to the nearest
projection, those they are asked for.  A projection that was pushed down lists the columns it is asked
for of the tables below it, and stands below filters that name nothing else.  The rules that may
replace their anchor keep it that way: such a filter can go, and take its columns with it, without a
difference to what is asked for below, and so can a table that nothing above reads.

Main results:

- Definitions `Asked` and `Branch.Exactly`: which columns are asked for, and a projection to those.
- Definition `Branch.Pushed`: a branch with at most one projection, an exact one below filters.
- Theorem `Branch.Exactly.of_drops`: an exact projection stays exact when unread tables go.
- Theorem `Optimizer.Settles.pushed`: making a slot stable keeps its branch in this form.
- Theorem `ProjectionPushdown.BelowJoin.NarrowsBelow.pushed`: narrowing brings a branch into it.
-/

namespace QueryPlan

/-! ## Columns asked for -/

/-- Nodes with the given operators, nearest first, ask for a column: one of them names it, and no
projection stands below that one. -/
def Asked : List Operator → Column → Prop
  | [], _ => False
  | op :: ops, x => x ∈ op.columns ∨ (op.projection? = none ∧ Asked ops x)

/-- Below a projection, the columns of the projection are asked for, whatever is above it. -/
theorem asked_projection {op : Operator} {ops : List Operator} {columns : ColumnSet} {x : Column}
    (hop : op = .projection columns) : Asked (op :: ops) x ↔ x ∈ columns := by
  simp [Asked, hop, Operator.columns, Operator.projection?]

/-- A filter that names only columns asked for above asks for nothing more. -/
theorem asked_filter {op : Operator} {ops : List Operator} {f : Filter} (hop : op = .filter f)
    (hasked : ∀ x ∈ f.columns, Asked ops x) (x : Column) : Asked (op :: ops) x ↔ Asked ops x := by
  simp only [Asked, hop, Operator.columns, Operator.projection?, true_and, or_iff_right_iff_imp]
  exact hasked x

/-- Two lists of operators ask for the same columns.  The second one has a projection if the first one
has, and it is empty if the first one is. -/
structure AsksAlike (ops ops' : List Operator) : Prop where
  asked : ∀ x, Asked ops x ↔ Asked ops' x
  ne_nil : ops' ≠ [] → ops ≠ []
  projects : ∀ columns, Operator.projection columns ∈ ops →
    ∃ columns', Operator.projection columns' ∈ ops'

/-- The same columns are asked for by the same operators. -/
theorem AsksAlike.refl (ops : List Operator) : AsksAlike ops ops :=
  ⟨fun _ => Iff.rfl, id, fun columns h => ⟨columns, h⟩⟩

/-- One more operator on both sides leaves the same columns asked for. -/
theorem AsksAlike.cons {ops ops' : List Operator} (h : AsksAlike ops ops') (op : Operator) :
    AsksAlike (op :: ops) (op :: ops') where
  asked x := by rw [Asked, Asked, h.asked x]
  ne_nil _ := List.cons_ne_nil op ops
  projects columns hmem := by
    rcases List.mem_cons.1 hmem with rfl | hmem
    · exact ⟨columns, List.mem_cons_self⟩
    · obtain ⟨columns', hmem'⟩ := h.projects columns hmem
      exact ⟨columns', List.mem_cons_of_mem op hmem'⟩

namespace Branch

/-- Below nodes with the given operators, among which is a projection, the columns are those asked for
of the tables the branch scans. -/
structure Exactly (ops : List Operator) (columns : ColumnSet) (b : Branch) : Prop where
  projects : ∃ columns', Operator.projection columns' ∈ ops
  mem_iff : ∀ x, x ∈ columns ↔ x.table ∈ b.tables ∧ Asked ops x

/-- There is no projection in the branch. -/
def Clean (b : Branch) : Prop :=
  ∀ columns, Operator.projection columns ∉ b.ops

/-- Below nodes with the given operators, a branch has no projection, or a single one, that stands at
the top or below filters that name only columns asked for.  It is exact, unless it is the root. -/
inductive Pushed : List Operator → Branch → Prop
  | clean {ops : List Operator} {b : Branch} (h : b.Clean) : Pushed ops b
  | projection {ops : List Operator} {id : NodeId} {l : Label} {columns : ColumnSet}
      {bs : List Branch} (hl : l.op = .projection columns)
      (hexact : ops ≠ [] → Exactly ops columns (.node id l bs)) (hbs : ∀ b ∈ bs, b.Clean) :
      Pushed ops (.node id l bs)
  | filter {ops : List Operator} {id : NodeId} {l : Label} {f : Filter} {b : Branch}
      (hl : l.op = .filter f) (hasked : ∀ x ∈ f.columns, Asked ops x) (hb : Pushed (l.op :: ops) b) :
      Pushed ops (.node id l [b])

variable {ops ops' : List Operator} {id : NodeId} {l l' : Label} {b b' b'' : Branch}
  {bs bs' : List Branch} {columns : ColumnSet}

/-- A node with branches is clean if it is no projection and its branches are clean. -/
theorem clean_node_iff :
    (node id l bs).Clean ↔ (∀ columns, l.op ≠ .projection columns) ∧ ∀ b ∈ bs, b.Clean := by
  simp only [Clean, ops_node, List.mem_cons, List.mem_flatMap, not_or, not_exists, not_and]
  constructor
  · exact fun h => ⟨fun columns heq => (h columns).1 heq.symm, fun b hb columns => (h columns).2 b hb⟩
  · exact fun h columns => ⟨fun heq => h.1 columns heq.symm, fun b hb => h.2 b hb columns⟩

/-- The branches of a clean node are clean. -/
theorem Clean.of_mem (h : (node id l bs).Clean) (hb : b ∈ bs) : b.Clean :=
  (clean_node_iff.1 h).2 b hb

/-- Marking a branch puts no projection in. -/
theorem Clean.mark (h : b.Clean) : b.mark.Clean := by
  rwa [Clean, ops_mark]

/-- Being exact depends on what is asked for and on the tables scanned. -/
theorem Exactly.congr (h : Exactly ops columns b) (hops : AsksAlike ops ops')
    (htables : b'.tables = b.tables) : Exactly ops' columns b' where
  projects := by
    obtain ⟨columns', hmem⟩ := h.projects
    exact hops.projects columns' hmem
  mem_iff x := by rw [h.mem_iff, hops.asked, htables]

/-- A branch may be put below other nodes that ask for the same columns. -/
theorem Pushed.congr (h : Pushed ops b) (hops : AsksAlike ops ops') : Pushed ops' b := by
  induction h generalizing ops' with
  | clean h => exact .clean h
  | projection hl hexact hbs =>
    exact .projection hl (fun hne => (hexact (hops.ne_nil hne)).congr hops rfl) hbs
  | filter hl hasked _ ih =>
    exact .filter hl (fun x hx => (hops.asked x).1 (hasked x hx)) (ih (hops.cons _))

/-- Marking a branch keeps it pushed. -/
theorem Pushed.mark (h : Pushed ops b) : Pushed ops b.mark := by
  induction h with
  | clean h => exact .clean h.mark
  | @projection ops id l columns bs hl hexact hbs =>
    have htables := tables_eq_of_scans (scans_mark (node id l bs))
    rw [mark_node] at htables ⊢
    refine .projection hl (fun hne => (hexact hne).congr (.refl ops) htables) ?_
    exact List.forall_mem_map.2 fun b hb => (hbs b hb).mark
  | filter hl hasked _ ih =>
    rw [mark_node]
    exact .filter hl hasked ih

/-- There is no projection below a join or another node that is neither a projection nor a filter. -/
theorem Pushed.clean_of_op (h : Pushed ops (node id l bs)) (hproj : l.op.projection? = none)
    (hfilter : l.op.filter? = none) : (node id l bs).Clean := by
  cases h with
  | clean h => exact h
  | projection hl => simp [hl, Operator.projection?] at hproj
  | filter hl => simp [hl, Operator.filter?] at hfilter

/-- There is no projection below a filter above a join. -/
theorem Pushed.clean_of_filter {f : Filter} {j : Join} (h : Pushed ops (node id l [b]))
    (hl : l.op = .filter f) (hb : b.label.op = .join j) : (node id l [b]).Clean := by
  cases h with
  | clean h => exact h
  | projection hl' => exact absurd (hl.symm.trans hl') (by simp)
  | filter _ _ hpushed =>
    obtain ⟨id', m, js⟩ := b
    have hm : m.op = .join j := hb
    refine clean_node_iff.2 ⟨by simp [hl], fun x hx => ?_⟩
    rw [List.mem_singleton.1 hx]
    exact hpushed.clean_of_op (by rw [hm]; rfl) (by rw [hm]; rfl)

/-- What is asked for below a filter does not change when the filter forgets columns, or goes. -/
theorem asksAlike_filter {f f' : Filter} (hl : l.op = .filter f) (hl' : l'.op = .filter f')
    (hasked : ∀ x ∈ f.columns, Asked ops x) (hsub : ∀ x ∈ f'.columns, x ∈ f.columns) :
    AsksAlike (l.op :: ops) (l'.op :: ops) where
  asked x := by
    rw [asked_filter hl hasked, asked_filter hl' fun x hx => hasked x (hsub x hx)]
  ne_nil _ := List.cons_ne_nil _ _
  projects columns hmem := by
    rw [hl] at hmem
    exact ⟨columns, List.mem_cons_of_mem _ ((List.mem_cons.1 hmem).resolve_left (by simp))⟩

/-- Below a filter that names only columns asked for, the same columns are asked for as above it. -/
theorem asksAlike_filter_cons {f : Filter} (hl : l.op = .filter f)
    (hasked : ∀ x ∈ f.columns, Asked ops x) : AsksAlike (l.op :: ops) ops where
  asked x := asked_filter hl hasked x
  ne_nil _ := List.cons_ne_nil _ _
  projects columns hmem := by
    rw [hl] at hmem
    exact ⟨columns, (List.mem_cons.1 hmem).resolve_left (by simp)⟩

/-- The filter at the top may forget columns. -/
theorem Pushed.refilter {f f' : Filter} (h : Pushed ops (node id l bs)) (hl : l.op = .filter f)
    (hl' : l'.op = .filter f') (hsub : ∀ x ∈ f'.columns, x ∈ f.columns) :
    Pushed ops (node id l' bs) := by
  cases h with
  | clean h => exact .clean (clean_node_iff.2 ⟨by simp [hl'], (clean_node_iff.1 h).2⟩)
  | projection hl'' => exact absurd (hl.symm.trans hl'') (by simp)
  | filter hl'' hasked hb =>
    obtain rfl := Operator.filter.inj (hl.symm.trans hl'')
    exact .filter hl' (fun x hx => hasked x (hsub x hx)) (hb.congr (asksAlike_filter hl hl' hasked hsub))

/-- The filter at the top may go. -/
theorem Pushed.of_filter {f : Filter} (h : Pushed ops (node id l [b])) (hl : l.op = .filter f) :
    Pushed ops b := by
  cases h with
  | clean h => exact .clean (h.of_mem (List.mem_singleton.2 rfl))
  | projection hl' => exact absurd (hl.symm.trans hl') (by simp)
  | filter hl' hasked hb =>
    obtain rfl := Operator.filter.inj (hl.symm.trans hl')
    exact hb.congr (asksAlike_filter_cons hl hasked)

end Branch

/-! ## Tables that go -/

/-- The branch `b'` scans no table but those of `b`, and nodes with the given operators name no column
of a table it has lost. -/
structure Branch.Drops (ops : List Operator) (b b' : Branch) : Prop where
  subset : ∀ a ∈ b'.tables, a ∈ b.tables
  unread : ∀ a ∈ b.tables, a ∉ b'.tables → ∀ op ∈ ops, ∀ x ∈ op.columns, x.table ≠ a

namespace Branch

variable {ops ops' : List Operator} {id id' : NodeId} {l l' : Label} {b b' b'' : Branch}
  {bs bs' : List Branch} {columns : ColumnSet}

/-- A branch with the same scans has lost no table. -/
theorem Drops.of_scans_eq (h : b'.scans = b.scans) : Drops ops b b' where
  subset _ ha := tables_eq_of_scans h ▸ ha
  unread _ ha hlost := absurd (tables_eq_of_scans h ▸ ha) hlost

/-- Tables may be lost one after the other. -/
theorem Drops.trans (h : Drops ops b b') (h' : Drops ops b' b'') : Drops ops b b'' where
  subset a ha := h.subset a (h'.subset a ha)
  unread a ha hlost := by
    by_cases ha' : a ∈ b'.tables
    · exact h'.unread a ha' hlost
    · exact h.unread a ha ha'

/-- Tables that none of some operators reads are read by none of fewer operators. -/
theorem Drops.mono (h : Drops ops b b') (hops : ops' ⊆ ops) : Drops ops' b b' where
  subset := h.subset
  unread a ha hlost op hop := h.unread a ha hlost op (hops hop)

/-- A node loses the tables that its branches lose. -/
theorem Drops.node (hl : l.Alike l') (hbs : List.Forall₂ (Drops ops) bs bs') :
    Drops ops (node id l bs) (node id' l' bs') where
  subset a ha := by
    rw [mem_tables_node] at ha ⊢
    rcases ha with ha | ⟨b', hb', ha⟩
    · exact .inl (hl.op_eq ▸ ha)
    · obtain ⟨b, hb, hdrops⟩ := exists_mem_of_forall₂ hbs b' hb'
      exact .inr ⟨b, hb, hdrops.subset a ha⟩
  unread a ha hlost := by
    rw [mem_tables_node] at ha hlost
    rcases ha with ha | ⟨b, hb, ha⟩
    · exact absurd (.inl (hl.op_eq.symm ▸ ha)) hlost
    · obtain ⟨b', hb', hdrops⟩ := exists_mem_of_forall₂_left hbs b hb
      exact hdrops.unread a ha fun ha' => hlost (.inr ⟨b', hb', ha'⟩)

/-- An exact projection stays exact when tables go that it does not name. -/
theorem Exactly.of_drops (h : Exactly ops columns b)
    (hdrops : Drops (.projection columns :: ops) b b') : Exactly ops columns b' where
  projects := h.projects
  mem_iff x := by
    rw [h.mem_iff]
    refine ⟨fun hx => ⟨?_, hx.2⟩, fun hx => ⟨hdrops.subset _ hx.1, hx.2⟩⟩
    -- The projection itself would have read the table.
    by_contra hlost
    exact hdrops.unread _ hx.1 hlost _ List.mem_cons_self x ((h.mem_iff x).2 hx) rfl

end Branch

/-! ## What the rules do -/

/-- A join is eliminated only if nothing above reads the table that goes. -/
theorem JoinElimination.Eliminates.drops {c : Context} {s kept : Branch} (h : Eliminates c s kept)
    (hs : s.Valid) : Branch.Drops c.ops s kept := by
  obtain ⟨table, htables, hreads⟩ := h.exists_table hs
  refine ⟨fun a ha => (htables a).2 (.inl ha), fun a ha hlost op hop => ?_⟩
  obtain rfl := ((htables a).1 ha).resolve_left hlost
  obtain ⟨f, hf, rfl⟩ := List.mem_map.1 hop
  exact Context.table_ne_of_reads hreads hf

namespace Rule.Rewrites

variable {r : Rule} {c c' : Context} {s s' : Branch}

/-- A rule gives a valid branch for a valid branch, and all tables that go are unread above. -/
theorem valid_drops (h : r.Rewrites c s c' s') (hs : s.Valid) :
    s'.Valid ∧ Branch.Drops c.ops s s' := by
  cases h with
  | belowJoin h => exact ⟨h.valid hs, .of_scans_eq h.scans_eq⟩
  | belowFilter h => exact ⟨h.valid hs, .of_scans_eq h.scans_eq⟩
  | push h => exact ⟨h.valid hs, .of_scans_eq h.scans_eq⟩
  | eliminate h => exact ⟨h.valid hs, h.drops hs⟩
  | simplify h => exact ⟨h.valid hs, .of_scans_eq h.scans_eq⟩

/-- A rule that may replace its anchor puts no projection in. -/
theorem clean (h : r.Rewrites c s c' s') (hr : r.replacesAnchor = true) (hs : s.Clean) :
    s'.Clean := by
  cases h with
  | belowJoin | belowFilter => exact absurd hr (by decide)
  | push h => exact fun columns hmem => hs columns (h.ops_subset hmem)
  | eliminate h =>
    obtain ⟨f, d, rfl⟩ := h.exists_plug
    exact fun columns hmem => hs columns (Context.ops_subset_plug hmem)
  | simplify h =>
    cases h with
    | remove => exact hs.of_mem (List.mem_singleton.2 rfl)
    | refute => exact (Branch.clean_node_iff.2 ⟨by simp, (Branch.clean_node_iff.1 hs).2⟩).mark
    | fold => exact Branch.clean_node_iff.2 ⟨by simp, (Branch.clean_node_iff.1 hs).2⟩

/-- A rule that may replace its anchor leaves pushed projections pushed. -/
theorem pushed (h : r.Rewrites c s c' s') (hr : r.replacesAnchor = true) {ops : List Operator}
    (hs : Branch.Pushed ops s) : Branch.Pushed ops s' := by
  -- Only the simplification of a filter may find a projection below.
  have hclean : s.Clean → Branch.Pushed ops s' := fun hs => .clean (h.clean hr hs)
  cases h with
  | belowJoin | belowFilter => exact absurd hr (by decide)
  | push h =>
    cases h with
    | push hl hm => exact hclean (hs.clean_of_filter hl hm)
  | eliminate h =>
    cases h with
    | byJoin hl => exact hclean (hs.clean_of_op (by rw [hl]; rfl) (by rw [hl]; rfl))
    | byFilter hl hm => exact hclean (hs.clean_of_filter hl hm)
  | simplify h =>
    cases h with
    | remove hl => exact hs.of_filter hl
    | refute hl =>
      refine (Branch.Pushed.refilter hs hl (by exact rfl) ?_).mark
      exact fun _ hx => hx
    | fold hl =>
      refine hs.refilter hl rfl fun x hx => ?_
      exact (PredicateSimplification.mem_withPredicate_columns.1 hx).1

end Rule.Rewrites

namespace Optimizer.Settles

variable {o : Optimizer} {ops : List Operator} {t t' : Branch}

/-- While a slot is made stable, its branch stays valid and loses only tables that nothing above
reads. -/
theorem valid_drops (h : o.Settles ops t t') (ht : t.Valid) :
    t'.Valid ∧ Branch.Drops ops t t' := by
  induction h with
  | rest => exact ⟨ht, .of_scans_eq rfl⟩
  | fire hops _ _ hrewrites _ ih =>
    obtain ⟨hvalid, hdrops⟩ := hrewrites.valid_drops ht
    obtain ⟨hvalid', hdrops'⟩ := ih hvalid
    exact ⟨hvalid', (hops ▸ hdrops).trans hdrops'⟩

/-- While a slot is made stable, no projection is put in. -/
theorem clean (ho : o.Sorted) (h : o.Settles ops t t') (ht : t.Clean) : t'.Clean := by
  induction h with
  | rest => exact ht
  | fire _ hr _ hrewrites _ ih => exact ih (hrewrites.clean (ho.replacing _ hr) ht)

/-- While a slot is made stable, pushed projections stay pushed. -/
theorem pushed (ho : o.Sorted) (h : o.Settles ops t t') {ops' : List Operator}
    (ht : Branch.Pushed ops' t) : Branch.Pushed ops' t' := by
  induction h with
  | rest => exact ht
  | fire _ hr _ hrewrites _ ih => exact ih (hrewrites.pushed (ho.replacing _ hr) ht)

end Optimizer.Settles

namespace ProjectionPushdown

variable {needed : ColumnSet} {ops : List Operator} {b b' : Branch}

/-- Narrowing a branch without projections puts an exact projection above it, if it is narrowed to what
it is asked for. -/
theorem Narrows.pushed (h : Narrows needed b b') (hb : b.Clean)
    (hexact : Branch.Exactly ops needed b) : Branch.Pushed ops b' := by
  cases h with
  | inPlace hl => exact absurd hl ((Branch.clean_node_iff.1 hb).1 _)
  | insert =>
    refine .projection rfl (fun _ => hexact.congr (.refl ops) ?_) ?_
    · exact Branch.tables_single rfl
    · exact fun x hx => List.mem_singleton.1 hx ▸ hb

/-- The filters that are passed name nothing but what is asked for. -/
theorem BelowJoin.NarrowsBelow.pushed (h : NarrowsBelow needed b b') (hb : b.Clean)
    (hexact : Branch.Exactly ops needed b) : Branch.Pushed ops b' := by
  induction h generalizing ops with
  | here h => exact h.pushed hb hexact
  | @pass id l f b b' hl _ _ hsub _ ih =>
    have hasked : ∀ x ∈ f.columns, Asked ops x := fun x hx =>
      ((hexact.mem_iff x).1 (ColumnSet.subset_iff.1 hsub x hx)).2
    have htables : (Branch.node id l [b]).tables = b.tables := Branch.tables_single (by rw [hl]; rfl)
    refine .filter hl hasked (ih (hb.of_mem (List.mem_singleton.2 rfl)) ?_)
    obtain ⟨columns', hmem⟩ := hexact.projects
    refine ⟨⟨columns', List.mem_cons_of_mem _ hmem⟩, fun x => ?_⟩
    rw [hexact.mem_iff, asked_filter hl hasked, htables]

end ProjectionPushdown

end QueryPlan
