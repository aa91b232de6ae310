import QueryPlan.Plan.Scope
import QueryPlan.Plan.Structure
import QueryPlan.Proofs.Edit
import QueryPlan.Proofs.Rule.JoinElimination

/-!
# Valid trees

What validation asks of a tree: every node has the branches its operator needs, its scope agrees with
the tables scanned below it, and its columns belong to such tables.

Main results:

- Theorem `Branch.Valid.plug_congr`: a valid branch that scans the same tables may be put in the place
  of another one.
- Theorem `Branch.Valid.plug_refresh`: a table that the context does not read may disappear, if the
  scopes of the context are refreshed.
-/

namespace QueryPlan

/-- A node with so many branches that scan the given tables is in order. -/
structure Label.Fits (l : Label) (arity : Nat) (tables : AliasSet) : Prop where
  arity : l.kind.allowsArity arity = true
  filterScope : l.kind = .filter → ∀ a ∈ l.scope, a ∈ tables
  otherScope : l.kind ≠ .filter → l.scope = tables
  columns : ∀ x ∈ l.op.columns, x.table ∈ tables
  foreign : ∀ x ∈ l.op.foreign, x ∈ l.op.columns

namespace Branch

/-- Every node of the branch is in order. -/
inductive Valid : Branch → Prop
  | intro {id : NodeId} {l : Label} {bs : List Branch}
      (hfits : l.Fits bs.length (node id l bs).tables) (hbranches : ∀ b ∈ bs, b.Valid) :
      Valid (node id l bs)

/-- The top of a valid branch is in order. -/
theorem Valid.fits {id : NodeId} {l : Label} {bs : List Branch} (h : (node id l bs).Valid) :
    l.Fits bs.length (node id l bs).tables := by
  cases h with
  | intro hfits hbranches => exact hfits

/-- The branches of a valid node are valid. -/
theorem Valid.branch {id : NodeId} {l : Label} {bs : List Branch} (h : (node id l bs).Valid)
    {b : Branch} (hb : b ∈ bs) : b.Valid := by
  cases h with
  | intro hfits hbranches => exact hbranches b hb

/-- A branch is valid if its top is in order and all branches below are valid. -/
theorem valid_node_iff {id : NodeId} {l : Label} {bs : List Branch} :
    (node id l bs).Valid ↔ l.Fits bs.length (node id l bs).tables ∧ ∀ b ∈ bs, b.Valid :=
  ⟨fun h => ⟨h.fits, fun _ hb => h.branch hb⟩, fun h => .intro h.1 h.2⟩

/-- The branches of a valid node by the kind of its operator. -/
theorem Valid.branches_filter {id : NodeId} {l : Label} {bs : List Branch}
    (h : (node id l bs).Valid) (hl : l.kind = .filter ∨ l.kind = .projection) : ∃ b, bs = [b] := by
  have harity := h.fits.arity
  apply List.length_eq_one_iff.1
  rcases hl with hl | hl <;> simpa [hl, Operator.Kind.allowsArity] using harity

/-- A valid scan has no branches. -/
theorem Valid.branches_scan {id : NodeId} {l : Label} {bs : List Branch}
    (h : (node id l bs).Valid) (hl : l.kind = .scan) : bs = [] := by
  have harity := h.fits.arity
  simpa [hl, Operator.Kind.allowsArity] using harity

/-- The tables of a branch are determined by its scans. -/
theorem tables_eq_of_scans {b b' : Branch} (h : b.scans = b'.scans) : b.tables = b'.tables := by
  rw [tables, tables, h]

/-- A branch reaches the tables that it scans. -/
theorem mem_tables {b : Branch} {a : String} : a ∈ b.tables ↔ a ∈ b.scans :=
  AliasSet.mem_ofList

/-- A node that scans nothing itself scans what its only branch scans. -/
theorem scans_single {id : NodeId} {l : Label} {b : Branch} (hl : l.op.scannedTable? = none) :
    (node id l [b]).scans = b.scans := by
  simp [hl]

/-- A node that scans nothing itself reaches what its only branch reaches. -/
theorem tables_single {id : NodeId} {l : Label} {b : Branch} (hl : l.op.scannedTable? = none) :
    (node id l [b]).tables = b.tables :=
  tables_eq_of_scans (scans_single hl)

end Branch

namespace Frame

/-- A filled frame reaches what its node scans, what the branch reaches and what the siblings reach.
-/
theorem mem_tables_fill {f : Frame} {b : Branch} {a : String} :
    a ∈ (f.fill b).tables ↔
      f.label.op.scannedTable? = some a ∨ a ∈ b.tables ∨ ∃ x ∈ f.siblings, a ∈ x.tables := by
  rw [fill, Branch.mem_tables_node]
  simp only [List.mem_append, List.mem_cons, siblings]
  constructor
  · rintro (h | ⟨x, hx | rfl | hx, ha⟩)
    · exact .inl h
    · exact .inr (.inr ⟨x, .inl hx, ha⟩)
    · exact .inr (.inl ha)
    · exact .inr (.inr ⟨x, .inr hx, ha⟩)
  · rintro (h | h | ⟨x, hx | hx, ha⟩)
    · exact .inl h
    · exact .inr ⟨b, .inr (.inl rfl), h⟩
    · exact .inr ⟨x, .inl hx, ha⟩
    · exact .inr ⟨x, .inr (.inr hx), ha⟩

/-- If one branch of a node loses at most one table, the node does, too. -/
theorem lose_fill {s s' : Branch} {table : String}
    (hlose : ∀ a ∈ s.tables, a ∈ s'.tables ∨ a = table) (f : Frame) :
    ∀ a ∈ (f.fill s).tables, a ∈ (f.fill s').tables ∨ a = table := by
  intro a ha
  rw [mem_tables_fill] at ha ⊢
  rcases ha with ha | ha | ha
  · exact .inl (.inl ha)
  · exact (hlose a ha).imp_left fun ha => .inr (.inl ha)
  · exact .inl (.inr (.inr ha))

/-- A filled frame is valid if its node is in order, all siblings are valid and the branch is valid.
-/
theorem valid_fill_iff {f : Frame} {b : Branch} :
    (f.fill b).Valid ↔
      f.label.Fits (f.siblings.length + 1) (f.fill b).tables ∧ (∀ x ∈ f.siblings, x.Valid) ∧
        b.Valid := by
  have hlen : (f.left ++ b :: f.right).length = f.siblings.length + 1 := by
    simp only [siblings, List.length_append, List.length_cons]
    omega
  rw [fill, Branch.valid_node_iff, hlen, forall_mem_middle, siblings]

end Frame

namespace Branch.Valid

variable {c : Context} {s s' : Branch}

/-- A branch of a valid tree is valid. -/
theorem of_plug (h : (c.plug s).Valid) : s.Valid := by
  induction c generalizing s with
  | nil => exact h
  | cons f c ih => exact (Frame.valid_fill_iff.1 (ih h)).2.2

/-- No node above a branch is a scan. -/
theorem scannedTable?_eq_none (h : (c.plug s).Valid) :
    ∀ f ∈ c, f.label.op.scannedTable? = none := by
  induction c generalizing s with
  | nil => exact fun f hf => absurd hf List.not_mem_nil
  | cons f c ih =>
    rw [List.forall_mem_cons]
    refine ⟨?_, ih h⟩
    have hf : (f.fill s).Valid := of_plug (c := c) h
    cases hop : f.label.op with
    | scan table =>
      have hbelow := hf.branches_scan (by rw [Label.kind, hop]; rfl)
      exact absurd hbelow (by simp)
    | filter | projection | join => rfl

/-- A valid branch that scans the same tables may be put in the place of another one. -/
theorem plug_congr (h : (c.plug s).Valid) (hs' : s'.Valid) (ht : s'.tables = s.tables) :
    (c.plug s').Valid := by
  induction c generalizing s s' with
  | nil => exact hs'
  | cons f c ih =>
    obtain ⟨hfits, hsiblings, -⟩ := Frame.valid_fill_iff.1 (of_plug (c := c) h)
    have htables : (f.fill s').tables = (f.fill s).tables := by
      apply AliasSet.ext_mem
      intro a
      rw [Frame.mem_tables_fill, Frame.mem_tables_fill, ht]
    exact ih h (Frame.valid_fill_iff.2 ⟨htables ▸ hfits, hsiblings, hs'⟩) htables

/-- A node above a branch has a refreshed scope that is in order again, if the node reads no table
that has disappeared. -/
theorem fits_refresh {f : Frame} {table : String} (h : (f.fill s).Valid)
    (hlose : ∀ a ∈ s.tables, a ∈ s'.tables ∨ a = table)
    (hreads : (f.label.op.columnsRead.any (·.isOf table)) = false) :
    (f.label.refresh (f.fill s').tables).Fits (f.siblings.length + 1) (f.fill s').tables := by
  obtain ⟨hfits, -, -⟩ := Frame.valid_fill_iff.1 h
  refine ⟨hfits.arity, fun hk a ha => ?_, fun hk => ?_, fun x hx => ?_, hfits.foreign⟩
  · have hk' : f.label.kind = .filter := hk
    have hscope : (f.label.refresh (f.fill s').tables).scope =
        f.label.scope.inter (f.fill s').tables := by
      simp only [Label.refresh, Plan.refreshedScope, Label.node_kind, hk', Label.node_scope]
    rw [hscope, AliasSet.mem_inter] at ha
    exact ha.2
  · have hk' : f.label.kind ≠ .filter := hk
    have harity := hfits.arity
    have hscan : f.label.kind ≠ .scan := by
      intro hs
      rw [hs] at harity
      simp [Operator.Kind.allowsArity] at harity
    simp only [Label.refresh, Plan.refreshedScope, Label.node_kind]
    cases hkind : f.label.kind with
    | scan => exact absurd hkind hscan
    | filter => exact absurd hkind hk'
    | projection | join => rfl
  · have hkeep := Frame.lose_fill hlose f x.table (hfits.columns x hx)
    exact hkeep.resolve_right (Operator.table_ne_of_not_read hreads x hx)

/-- A table that the context does not read may disappear, if the scopes of the context are
refreshed. -/
theorem plug_refresh {table : String} (h : (c.plug s).Valid) (hs' : s'.Valid)
    (hlose : ∀ a ∈ s.tables, a ∈ s'.tables ∨ a = table) (hreads : c.reads table = false) :
    ((c.refresh s').plug s').Valid := by
  induction c generalizing s s' with
  | nil => exact hs'
  | cons f c ih =>
    have hf : (f.fill s).Valid := of_plug (c := c) h
    rw [Context.reads, List.any_cons, Bool.or_eq_false_iff] at hreads
    obtain ⟨-, hsiblings, -⟩ := Frame.valid_fill_iff.1 hf
    -- Refreshing a scope changes no scan, so the nodes above may as well look at the new node.
    have hscans := f.scans_fill_refresh s'
    have htables := Branch.tables_eq_of_scans hscans
    rw [Context.refresh_cons, Context.plug_cons, Context.refresh_congr hscans.symm]
    refine ih (s := f.fill s) h (Frame.valid_fill_iff.2 ⟨?_, hsiblings, hs'⟩) ?_ hreads.2
    · rw [htables]
      exact fits_refresh hf hlose hreads.1
    · rw [htables]
      exact Frame.lose_fill hlose f

end Branch.Valid

end QueryPlan
