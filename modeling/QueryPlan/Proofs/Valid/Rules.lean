import QueryPlan.Proofs.Rule.Catalogue
import QueryPlan.Proofs.Valid.Tree

/-!
# Rules keep trees valid

Every rule but join elimination leaves the scanned tables of the branch it rewrites as they are, so
nothing changes for the nodes above.  Join elimination drops one table, which nothing above reads.

Main results:

- Theorem `Rule.Rewrites.scans_eq`: rules that eliminate no join leave the scans as they are.
- Theorem `JoinElimination.Eliminates.exists_scans`: what join elimination drops of them.
- Theorem `Rule.Rewrites.valid`: a rule turns a valid tree into a valid tree.
- Theorem `Branch.Steps.valid`: and so does a sequence of rules.
-/

namespace QueryPlan

namespace ColumnSet

/-- An empty set has no columns. -/
theorem not_mem_of_isEmpty {s : ColumnSet} (h : s.isEmpty = true) (x : Column) : x ∉ s := by
  intro hx
  rw [isEmpty, List.isEmpty_iff] at h
  exact List.not_mem_nil (h ▸ hx : x ∈ ([] : List Column))

end ColumnSet

namespace Branch

/-- A branch that is marked scans the same tables. -/
theorem scans_mark (b : Branch) : b.mark.scans = b.scans := by
  induction b with
  | node id l bs ih =>
    rw [mark_node, scans_node, scans_node, List.flatMap_map, List.flatMap_congr ih]

/-- A valid branch may be marked. -/
theorem Valid.mark {b : Branch} (h : b.Valid) : b.mark.Valid := by
  induction b with
  | node id l bs ih =>
    have hscans := scans_mark (node id l bs)
    rw [mark_node] at hscans ⊢
    refine .intro ?_ fun b hb => ?_
    · rw [tables_eq_of_scans hscans, List.length_map]
      exact { h.fits with }
    · obtain ⟨t, ht, rfl⟩ := List.mem_map.1 hb
      exact ih t ht (h.branch ht)

/-- A branch of a valid node reaches the columns of a node that has no other branch. -/
theorem Valid.columns_single {id : NodeId} {l : Label} {b : Branch} (h : (node id l [b]).Valid)
    (hl : l.op.scannedTable? = none) : ∀ x ∈ l.op.columns, x.table ∈ b.tables := by
  have htables : (node id l [b]).tables = b.tables := tables_single hl
  rw [← htables]
  exact h.fits.columns

end Branch

namespace PredicateSimplification

/-- A filter with another predicate carries the columns it carried, except for those that are
dropped. -/
theorem mem_withPredicate_columns {f : Filter} {predicate : Expr} {x : Column} :
    x ∈ (withPredicate f predicate).columns ↔ x ∈ f.columns ∧ x ∉ droppedColumns f predicate := by
  unfold withPredicate
  by_cases h : (droppedColumns f predicate).isEmpty = true
  · simp [h, ColumnSet.not_mem_of_isEmpty h]
  · simp [h]

/-- Of its foreign columns, too, a filter with another predicate loses those that are dropped. -/
theorem mem_withPredicate_foreign {f : Filter} {predicate : Expr} {x : Column} :
    x ∈ (withPredicate f predicate).foreign ↔ x ∈ f.foreign ∧ x ∉ droppedColumns f predicate := by
  unfold withPredicate
  by_cases h : (droppedColumns f predicate).isEmpty = true
  · simp [h, ColumnSet.not_mem_of_isEmpty h]
  · simp [h]

/-- No scan is lost or added when a filter is simplified. -/
theorem Simplifies.scans_eq {s s' : Branch} (h : Simplifies s s') : s'.scans = s.scans := by
  cases h with
  | remove hl => exact (Branch.scans_single (by rw [hl]; rfl)).symm
  | refute hl =>
    rw [Branch.scans_mark, Branch.scans_node, Branch.scans_node, hl]
    rfl
  | fold hl =>
    rw [Branch.scans_node, Branch.scans_node, hl]
    rfl

/-- A valid filter is simplified to a valid branch. -/
theorem Simplifies.valid {s s' : Branch} (h : Simplifies s s') (hs : s.Valid) : s'.Valid := by
  have hscans := h.scans_eq
  cases h with
  | remove => exact hs.branch (List.mem_singleton.2 rfl)
  | @refute id l f bs hl =>
    have hkind : l.kind = .filter := by rw [Label.kind, hl]; rfl
    have hfits := hs.fits
    have harity := hfits.arity
    rw [hkind] at harity
    apply Branch.Valid.mark
    rw [Branch.scans_mark] at hscans
    refine .intro ?_ fun b hb => hs.branch hb
    rw [Branch.tables_eq_of_scans hscans]
    refine ⟨harity, fun _ => hfits.filterScope hkind, fun hne => absurd rfl hne, ?_, ?_⟩
    · have hcolumns := hfits.columns
      rw [hl] at hcolumns
      exact hcolumns
    · have hforeign := hfits.foreign
      rw [hl] at hforeign
      exact hforeign
  | @fold id l f bs hl =>
    have hkind : l.kind = .filter := by rw [Label.kind, hl]; rfl
    have hfits := hs.fits
    have harity := hfits.arity
    rw [hkind] at harity
    have hcolumns := hfits.columns
    have hforeign := hfits.foreign
    rw [hl] at hcolumns hforeign
    refine .intro ?_ fun b hb => hs.branch hb
    rw [Branch.tables_eq_of_scans hscans]
    refine ⟨harity, fun _ a ha => ?_, fun hne => absurd rfl hne, fun x hx => ?_,
      fun x hx => ?_⟩
    · exact hfits.filterScope hkind a (AliasSet.mem_diff.1 ha).1
    · exact hcolumns x (mem_withPredicate_columns.1 hx).1
    · obtain ⟨hx, hkept⟩ := mem_withPredicate_foreign.1 hx
      exact mem_withPredicate_columns.2 ⟨hforeign x hx, hkept⟩

end PredicateSimplification

namespace PredicatePushdown

/-- No scan is lost or added when a filter is pushed below a join. -/
theorem Pushes.scans_eq {s s' : Branch} (h : Pushes s s') : s'.scans = s.scans := by
  cases h with
  | push hl hm => simp [hl, hm, Operator.scannedTable?]

/-- A filter is pushed below a join into a valid branch. -/
theorem Pushes.valid {s s' : Branch} (h : Pushes s s') (hs : s.Valid) : s'.Valid := by
  have hscans := h.scans_eq
  cases h with
  | @push id join l m f cond left right b hl hm hne hb =>
    have hkind : l.kind = .filter := by rw [Label.kind, hl]; rfl
    have hsub := AliasSet.subset_iff.1 hb
    have hjoin := hs.branch (List.mem_singleton.2 rfl)
    have hfilter : (Branch.node id
        { l with scope := (l.scope.inter b.tables).union f.tables } [b]).Valid := by
      refine .intro ?_ fun t ht => ?_
      · rw [Branch.tables_single (by rw [hl]; rfl)]
        refine ⟨by rw [← hs.fits.arity]; rfl, fun _ a ha => ?_, fun h => absurd hkind h,
          fun x hx => ?_, hs.fits.foreign⟩
        · rcases AliasSet.mem_union.1 ha with ha | ha
          · exact (AliasSet.mem_inter.1 ha).2
          · exact hsub a ha
        · apply hsub
          have hx' : x ∈ l.op.columns := hx
          rw [hl] at hx'
          exact AliasSet.mem_union.2 (.inl (ColumnSet.mem_tables.2 ⟨x, hx', rfl⟩))
      · obtain rfl := List.mem_singleton.1 ht
        exact hjoin.branch (by simp)
    have hothers := (forall_mem_middle.1 fun x hx => hjoin.branch hx).1
    refine .intro ?_ (forall_mem_middle.2 ⟨hothers, hfilter⟩)
    have hfits := hjoin.fits
    rw [Branch.tables_eq_of_scans hscans, Branch.tables_single (by rw [hl]; rfl)]
    simpa using hfits

end PredicatePushdown

namespace ProjectionPushdown

/-- No scan is lost or added when a branch is narrowed. -/
theorem Narrows.scans_eq {needed : ColumnSet} {b b' : Branch} (h : Narrows needed b b') :
    b'.scans = b.scans := by
  cases h with
  | inPlace hl =>
    rw [Branch.scans_node, Branch.scans_node, hl]
    rfl
  | insert => exact Branch.scans_single rfl

/-- A valid branch can be narrowed to columns of its own tables. -/
theorem Narrows.valid {needed : ColumnSet} {b b' : Branch} (h : Narrows needed b b')
    (hb : b.Valid) (hneeded : ∀ x ∈ needed, x.table ∈ b.tables) : b'.Valid := by
  have hscans := h.scans_eq
  cases h with
  | @inPlace id l present bs hl =>
    have hkind : l.kind = .projection := by rw [Label.kind, hl]; rfl
    have hfits := hb.fits
    have harity := hfits.arity
    rw [hkind] at harity
    have hcolumns := hfits.columns
    rw [hl] at hcolumns
    have hne : l.kind ≠ .filter := by rw [hkind]; decide
    refine .intro ?_ fun t ht => hb.branch ht
    rw [Branch.tables_eq_of_scans hscans]
    refine ⟨harity, fun h => absurd h (by simp [Label.kind, Operator.kind]), fun _ => hfits.otherScope hne,
      fun x hx => hcolumns x (ColumnSet.mem_inter.1 hx).1, fun x hx => ?_⟩
    exact absurd hx (ColumnSet.not_mem_empty x)
  | insert fresh =>
    refine .intro ?_ fun t ht => ?_
    · rw [Branch.tables_eq_of_scans hscans]
      exact ⟨rfl, fun h => absurd h (by simp [Label.kind, Operator.kind]), fun _ => rfl, hneeded,
        fun x hx => absurd hx (ColumnSet.not_mem_empty x)⟩
    · obtain rfl := List.mem_singleton.1 ht
      exact hb

namespace BelowJoin

/-- No scan is lost or added when a branch is narrowed below filters. -/
theorem NarrowsBelow.scans_eq {needed : ColumnSet} {b b' : Branch} (h : NarrowsBelow needed b b') :
    b'.scans = b.scans := by
  induction h with
  | here h => exact h.scans_eq
  | pass hl _ _ _ _ ih => rw [Branch.scans_single (by rw [hl]; rfl),
      Branch.scans_single (by rw [hl]; rfl), ih]

/-- A valid branch can be narrowed to columns of its own tables below filters, too. -/
theorem NarrowsBelow.valid {needed : ColumnSet} {b b' : Branch} (h : NarrowsBelow needed b b')
    (hb : b.Valid) (hneeded : ∀ x ∈ needed, x.table ∈ b.tables) : b'.Valid := by
  induction h with
  | here h => exact h.valid hb hneeded
  | @pass id l f b b' hl hv hjoin hsub hbelow ih =>
    have hnone : l.op.scannedTable? = none := by rw [hl]; rfl
    have htables : (Branch.node id l [b]).tables = b.tables := Branch.tables_single hnone
    have hscans : (Branch.node id l [b']).scans = (Branch.node id l [b]).scans := by
      rw [Branch.scans_single hnone, Branch.scans_single hnone, hbelow.scans_eq]
    refine .intro ?_ fun t ht => ?_
    · rw [Branch.tables_eq_of_scans hscans]
      exact hb.fits
    · obtain rfl := List.mem_singleton.1 ht
      exact ih (hb.branch (List.mem_singleton.2 rfl)) (htables ▸ hneeded)

/-- No scan is lost or added in a branch of a join, whether it is narrowed or stays. -/
theorem Narrowed.scans_eq {condition columns : ColumnSet} {b b' : Branch}
    (h : Narrowed condition columns b b') : b'.scans = b.scans := by
  rcases h with ⟨rfl, -⟩ | h
  · rfl
  · exact h.scans_eq

/-- A valid branch of a join stays valid, whether it is narrowed or stays. -/
theorem Narrowed.valid {condition columns : ColumnSet} {b b' : Branch}
    (h : Narrowed condition columns b b') (hb : b.Valid) : b'.Valid := by
  rcases h with ⟨rfl, -⟩ | h
  · exact hb
  · exact h.valid hb fun _ hx => (mem_neededColumns.1 hx).2

/-- All branches of a join together keep their scans. -/
theorem scans_forall₂ {condition columns : ColumnSet} {bs bs' : List Branch}
    (h : List.Forall₂ (Narrowed condition columns) bs bs') :
    bs'.flatMap Branch.scans = bs.flatMap Branch.scans :=
  Branch.flatMap_scans_congr (h.imp fun _ _ hb => hb.scans_eq)

/-- All branches of a join stay valid. -/
theorem valid_forall₂ {condition columns : ColumnSet} {bs bs' : List Branch}
    (h : List.Forall₂ (Narrowed condition columns) bs bs') (hbs : ∀ b ∈ bs, b.Valid) :
    ∀ b ∈ bs', b.Valid := by
  intro b' hb'
  obtain ⟨b, hb, hnarrowed⟩ := exists_mem_of_forall₂ h b' hb'
  exact hnarrowed.valid (hbs b hb)

/-- No scan is lost or added when a projection is pushed below a join. -/
theorem Pushes.scans_eq {s s' : Branch} (h : Pushes s s') : s'.scans = s.scans := by
  cases h with
  | push hl hm hbs => simp [scans_forall₂ hbs]

/-- A projection is pushed below a join into a valid branch. -/
theorem Pushes.valid {s s' : Branch} (h : Pushes s s') (hs : s.Valid) : s'.Valid := by
  have hscans := h.scans_eq
  cases h with
  | @push id join l m columns j bs bs' hl hm hbs =>
    have hjoin := hs.branch (List.mem_singleton.2 rfl)
    refine .intro ?_ fun t ht => ?_
    · rw [Branch.tables_eq_of_scans hscans]
      exact hs.fits
    · obtain rfl := List.mem_singleton.1 ht
      refine .intro ?_ (valid_forall₂ hbs fun b hb => hjoin.branch hb)
      have hfits := hjoin.fits
      have hbelow : (Branch.node join m bs').scans = (Branch.node join m bs).scans := by
        rw [Branch.scans_node, Branch.scans_node, scans_forall₂ hbs]
      rw [← hbs.length_eq, Branch.tables_eq_of_scans hbelow]
      exact hfits

end BelowJoin

namespace BelowFilter

/-- No scan is lost or added when a projection is pushed below a filter. -/
theorem Pushes.scans_eq {s s' : Branch} (h : Pushes s s') : s'.scans = s.scans := by
  cases h with
  | push hl hm hb => simp [hb.scans_eq]

/-- A projection is pushed below a filter into a valid branch. -/
theorem Pushes.valid {s s' : Branch} (h : Pushes s s') (hs : s.Valid) : s'.Valid := by
  have hscans := h.scans_eq
  cases h with
  | @push id filter l m columns f b b' hl hm hb =>
    have hl' : l.op.scannedTable? = none := by rw [hl]; rfl
    have hm' : m.op.scannedTable? = none := by rw [hm]; rfl
    have hfilter := hs.branch (List.mem_singleton.2 rfl)
    have hcolumns := hs.columns_single hl'
    have hcondition := hfilter.columns_single hm'
    rw [Branch.tables_single hm', hl] at hcolumns
    rw [hm] at hcondition
    have hb' : b'.Valid := by
      refine hb.valid (hfilter.branch (List.mem_singleton.2 rfl)) fun x hx => ?_
      rcases ColumnSet.mem_union.1 hx with hx | hx
      · exact hcolumns x hx
      · exact hcondition x hx
    refine .intro ?_ fun t ht => ?_
    · rw [Branch.tables_eq_of_scans hscans]
      exact hs.fits
    · obtain rfl := List.mem_singleton.1 ht
      refine .intro ?_ fun t ht => ?_
      · have hfits := hfilter.fits
        rw [Branch.tables_single hm'] at hfits ⊢
        rwa [Branch.tables_eq_of_scans hb.scans_eq]
      · obtain rfl := List.mem_singleton.1 ht
        exact hb'

end BelowFilter

end ProjectionPushdown

namespace JoinElimination

/-- A branch that is a scan below projections scans that one table, once. -/
theorem scans_eq_of_soleTable {b : Branch} {table : String} (h : b.soleTable? = some table)
    (hb : b.Valid) : b.scans = [table] := by
  induction b with
  | node id l bs ih =>
    obtain ⟨op, scope, vacuous⟩ := l
    cases op with
    | scan t =>
      obtain rfl : bs = [] := hb.branches_scan rfl
      rw [Branch.soleTable?] at h
      obtain rfl := Option.some.inj h
      simp [Operator.scannedTable?]
    | projection columns =>
      obtain ⟨b, rfl⟩ := hb.branches_filter (.inr rfl)
      rw [Branch.soleTable?] at h
      rw [Branch.scans_single rfl]
      exact ih b (List.mem_singleton.2 rfl) h (hb.branch (List.mem_singleton.2 rfl))
    | filter | join => simp [Branch.soleTable?] at h

/-- A branch with a sole table reaches this table only. -/
theorem mem_tables_of_soleTable {b : Branch} {table a : String} (h : b.soleTable? = some table)
    (hb : b.Valid) : a ∈ b.tables ↔ a = table := by
  rw [Branch.mem_tables, scans_eq_of_soleTable h hb, List.mem_singleton]

/-- What two branches scan if one of them scans a single table. -/
theorem Sides.scans_eq {left right kept other : Branch} {table : String}
    (h : Sides left right kept other) (hother : other.scans = [table]) :
    [left, right].flatMap Branch.scans = kept.scans ++ [table] ∨
      [left, right].flatMap Branch.scans = table :: kept.scans := by
  rcases h with ⟨rfl, rfl⟩ | ⟨rfl, rfl⟩
  · exact .inl (by simp [hother])
  · exact .inr (by simp [hother])

/-- What is eliminated scans what is kept and, before or after it, one table that nothing above
reads. -/
theorem Eliminates.exists_scans {c : Context} {s kept : Branch} (h : Eliminates c s kept)
    (hs : s.Valid) :
    ∃ table, (s.scans = kept.scans ++ [table] ∨ s.scans = table :: kept.scans) ∧
      c.projects = true ∧ c.reads table = false := by
  cases h with
  | @byJoin id l j left right kept other table hl hside hdet hprojects hreads =>
    refine ⟨table, ?_, hprojects, hreads⟩
    have hother := hs.branch (hside.mem_iff.2 (.inr rfl))
    rw [Branch.scans_node, hl]
    exact hside.scans_eq (scans_eq_of_soleTable hdet.soleTable hother)
  | @byFilter id join l m f j left right kept other foreign key hl hm hside hdet hprojects
      hreads =>
    refine ⟨key.table, ?_, hprojects, hreads⟩
    have hother := (hs.branch (List.mem_singleton.2 rfl)).branch (hside.mem_iff.2 (.inr rfl))
    rw [Branch.scans_single (by rw [hl]; rfl), Branch.scans_node, hm]
    exact hside.scans_eq (scans_eq_of_soleTable hdet.soleTable hother)

/-- What is eliminated has the tables of what is kept and one that nothing above reads. -/
theorem Eliminates.exists_table {c : Context} {s kept : Branch} (h : Eliminates c s kept)
    (hs : s.Valid) :
    ∃ table, (∀ a, a ∈ s.tables ↔ a ∈ kept.tables ∨ a = table) ∧ c.reads table = false := by
  obtain ⟨table, hscans, -, hreads⟩ := h.exists_scans hs
  refine ⟨table, fun a => ?_, hreads⟩
  rw [Branch.mem_tables, Branch.mem_tables]
  rcases hscans with hscans | hscans
  · simp [hscans]
  · simp [hscans, or_comm]

/-- A branch that is kept is valid. -/
theorem Eliminates.valid {c : Context} {s kept : Branch} (h : Eliminates c s kept)
    (hs : s.Valid) : kept.Valid := by
  obtain ⟨f, d, rfl⟩ := h.exists_plug
  exact Branch.Valid.of_plug (c := f :: d) hs

end JoinElimination

/-- Rules that eliminate no join leave the scans as they are. -/
theorem Rule.Rewrites.scans_eq {r : Rule} {c c' : Context} {s s' : Branch}
    (h : r.Rewrites c s c' s') (hr : r ≠ .joinElimination) :
    (c'.plug s').scans = (c.plug s).scans := by
  cases h with
  | belowJoin h => exact Context.scans_plug_congr h.scans_eq c
  | belowFilter h => exact Context.scans_plug_congr h.scans_eq c
  | push h => exact Context.scans_plug_congr h.scans_eq c
  | eliminate => exact absurd rfl hr
  | simplify h => exact Context.scans_plug_congr h.scans_eq c

/-- A rule turns a valid tree into a valid tree. -/
theorem Rule.Rewrites.valid {r : Rule} {c c' : Context} {s s' : Branch}
    (h : r.Rewrites c s c' s') (hvalid : (c.plug s).Valid) : (c'.plug s').Valid := by
  have hs := hvalid.of_plug
  cases h with
  | belowJoin h =>
    exact hvalid.plug_congr (h.valid hs) (Branch.tables_eq_of_scans h.scans_eq)
  | belowFilter h =>
    exact hvalid.plug_congr (h.valid hs) (Branch.tables_eq_of_scans h.scans_eq)
  | push h => exact hvalid.plug_congr (h.valid hs) (Branch.tables_eq_of_scans h.scans_eq)
  | simplify h => exact hvalid.plug_congr (h.valid hs) (Branch.tables_eq_of_scans h.scans_eq)
  | eliminate h =>
    obtain ⟨table, htables, hreads⟩ := h.exists_table hs
    exact hvalid.plug_refresh (h.valid hs) (fun a ha => (htables a).1 ha) hreads

/-- Rules applied one after the other turn a valid tree into a valid tree. -/
theorem Branch.Steps.valid {rules : Rule → Prop} {b b' : Branch} (h : Steps rules b b')
    (hb : b.Valid) : b'.Valid := by
  refine h.preserves (fun hstep hvalid => ?_) hb
  cases hstep with
  | rewrite _ hrewrites => exact hrewrites.valid hvalid

end QueryPlan
