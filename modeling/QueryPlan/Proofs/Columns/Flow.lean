import QueryPlan.Proofs.Optimizer.Run
import QueryPlan.Proofs.Valid.Tree

/-!
# The flow of columns

A node that reads a column relies on what is below it: on the way down to the scan of the column's
table, the first projection has to list the column.  Projections further down are the concern of
that first one, which reads the column itself.

Main results:

- Definition `Plan.ColumnsFlow`: no projection drops a column that a node above it reads.
- Theorem `Plan.Shows.columnsFlow_iff`: this is a property of the tree of a plan.
- Theorem `Branch.Relays.flows_plug`: a branch may be replaced by another one that carries the same
  columns of the tables it scans.
-/

namespace QueryPlan

namespace Plan

/-- A projection of the given columns is the first one met on a way down from a node to a scan of a
table, the node included. -/
inductive FirstProjection (p : Plan) (table : String) : NodeId → ColumnSet → Prop
  | here {id : NodeId} {n : Node} {columns : ColumnSet} (hget : p.get? id = some n)
      (hop : n.op = .projection columns) : FirstProjection p table id columns
  | past {id child : NodeId} {n : Node} {tables : List String} {columns : ColumnSet}
      (hget : p.get? id = some n) (hop : n.op.projection? = none) (hchild : child ∈ n.children)
      (htables : p.scannedTables child = .ok tables) (htable : table ∈ tables)
      (hbelow : FirstProjection p table child columns) : FirstProjection p table id columns

/-- Every column that a reachable node reads is listed by the first projection, if there is one, on
the way down from the node through a child that scans the table of the column. -/
def ColumnsFlow (p : Plan) : Prop :=
  ∀ (id : NodeId) (n : Node) (x : Column) (child : NodeId) (tables : List String)
    (columns : ColumnSet), p.Reachable id → p.get? id = some n → x ∈ n.op.columns →
      child ∈ n.children → p.scannedTables child = .ok tables → x.table ∈ tables →
        p.FirstProjection x.table child columns → x ∈ columns

end Plan

namespace Branch

/-- The first projection on each way down to a scan of the column's table lists the column. -/
inductive Carries (x : Column) : Branch → Prop
  | projection {id : NodeId} {l : Label} {columns : ColumnSet} {bs : List Branch}
      (hl : l.op = .projection columns) (hx : x ∈ columns) : Carries x (node id l bs)
  | through {id : NodeId} {l : Label} {bs : List Branch} (hl : l.op.projection? = none)
      (hbs : ∀ b ∈ bs, x.table ∈ b.tables → b.Carries x) : Carries x (node id l bs)

/-- Those branches that scan the column's table carry the column. -/
def Serve (bs : List Branch) (x : Column) : Prop :=
  ∀ b ∈ bs, x.table ∈ b.tables → b.Carries x

/-- Every node of the branch finds the columns it reads in the branches below it. -/
inductive Flows : Branch → Prop
  | intro {id : NodeId} {l : Label} {bs : List Branch} (hreads : ∀ x ∈ l.op.columns, Serve bs x)
      (hbranches : ∀ b ∈ bs, b.Flows) : Flows (node id l bs)

section Node

variable {id : NodeId} {l : Label} {bs : List Branch} {x : Column}

/-- A projection carries the columns it lists and no others. -/
theorem carries_projection_iff {columns : ColumnSet} (hl : l.op = .projection columns) :
    (node id l bs).Carries x ↔ x ∈ columns := by
  constructor
  · intro h
    cases h with
    | projection hl' hx =>
      obtain rfl := Operator.projection.inj (hl.symm.trans hl')
      exact hx
    | through hl' => exact absurd (Operator.projection?_eq_some_iff.2 hl) (by simp [hl'])
  · exact .projection hl

/-- A node that is no projection carries what the branches below it serve. -/
theorem carries_through_iff (hl : l.op.projection? = none) :
    (node id l bs).Carries x ↔ Serve bs x := by
  constructor
  · intro h
    cases h with
    | projection hl' => exact absurd (Operator.projection?_eq_some_iff.2 hl') (by simp [hl])
    | through _ hbs => exact hbs
  · exact .through hl

/-- Whether a branch carries a column is read off its uppermost node and the branches below. -/
theorem carries_node_iff :
    (node id l bs).Carries x ↔
      match l.op.projection? with
      | some columns => x ∈ columns
      | none => Serve bs x := by
  split
  next hproj => exact carries_projection_iff (Operator.projection?_eq_some_iff.1 hproj)
  next hproj => exact carries_through_iff hproj

/-- Columns flow through a branch if its uppermost node finds what it reads and they flow below. -/
theorem flows_node_iff :
    (node id l bs).Flows ↔ (∀ x ∈ l.op.columns, Serve bs x) ∧ ∀ b ∈ bs, b.Flows := by
  constructor
  · intro h
    cases h with
    | intro hreads hbranches => exact ⟨hreads, hbranches⟩
  · exact fun h => .intro h.1 h.2

/-- The uppermost node of a branch through which columns flow finds what it reads. -/
theorem Flows.serve (h : (node id l bs).Flows) (hx : x ∈ l.op.columns) : Serve bs x :=
  (flows_node_iff.1 h).1 x hx

/-- Columns that flow through a branch flow through those below. -/
theorem Flows.branch (h : (node id l bs).Flows) {b : Branch} (hb : b ∈ bs) : b.Flows :=
  (flows_node_iff.1 h).2 b hb

/-- A node may read fewer columns. -/
theorem Flows.relabel (h : (node id l bs).Flows) {l' : Label}
    (hl' : ∀ x ∈ l'.op.columns, x ∈ l.op.columns) : (node id l' bs).Flows :=
  .intro (fun x hx => h.serve (hl' x hx)) fun _ hb => h.branch hb

end Node

/-- A single branch serves a column if it carries it or does not scan its table. -/
theorem serve_singleton {b : Branch} {x : Column} :
    Serve [b] x ↔ (x.table ∈ b.tables → b.Carries x) := by
  simp only [Serve, List.mem_singleton, forall_eq]

end Branch

namespace Frame

variable {f : Frame} {b : Branch}

/-- The branches below a node, apart from one of them. -/
theorem serve_iff {x : Column} :
    Branch.Serve (f.left ++ b :: f.right) x ↔ Branch.Serve f.siblings x ∧ Branch.Serve [b] x := by
  simp only [Branch.Serve, siblings, List.mem_append, List.mem_cons, List.not_mem_nil, or_false,
    or_imp, forall_and, forall_eq]
  tauto

/-- A node above a branch and its other branches, apart from the branch. -/
theorem flows_fill_iff :
    (f.fill b).Flows ↔ (∀ x ∈ f.label.op.columns, Branch.Serve f.siblings x ∧ Branch.Serve [b] x) ∧
      (∀ t ∈ f.siblings, t.Flows) ∧ b.Flows := by
  simp only [fill, Branch.flows_node_iff, serve_iff, siblings, List.mem_append, List.mem_cons,
    or_imp, forall_and, forall_eq]
  tauto

end Frame

namespace Branch

/-- Columns flow through every branch of a branch. -/
theorem Flows.of_plug {c : Context} {s : Branch} (h : (c.plug s).Flows) : s.Flows := by
  induction c generalizing s with
  | nil => exact h
  | cons f c ih => exact (Frame.flows_fill_iff.1 (ih h)).2.2

/-- Columns flow through a branch if each of its nodes finds what it reads. -/
theorem flows_of_forall_plug {b : Branch}
    (h : ∀ c s, b = Context.plug c s → ∀ x ∈ s.label.op.columns, Serve s.branches x) : b.Flows := by
  induction b with
  | node id l bs ih =>
    exact .intro (h [] _ rfl) fun b hb => ih b hb (forall_plug_of_mem h hb)

/-- In a tree through which columns flow, every node finds what it reads. -/
theorem Flows.serve_of_plug {c : Context} {s : Branch} (h : (c.plug s).Flows) {x : Column}
    (hx : x ∈ s.label.op.columns) : Serve s.branches x := by
  obtain ⟨id, l, bs⟩ := s
  exact h.of_plug.serve hx

/-! ## Replacing a branch -/

/-- The branch `b'` can take the place of `b`: it scans no other tables, and of the tables it scans
it carries the columns that `b` carries. -/
structure Relays (b b' : Branch) : Prop where
  tables : ∀ a ∈ b'.tables, a ∈ b.tables
  carries : ∀ x : Column, x.table ∈ b'.tables → b.Carries x → b'.Carries x

/-- A branch that takes the place of a replacement takes the place of the first one. -/
theorem Relays.trans {b b' b'' : Branch} (h : b.Relays b') (h' : b'.Relays b'') :
    b.Relays b'' where
  tables a ha := h.tables a (h'.tables a ha)
  carries x hx hb := h'.carries x hx (h.carries x (h'.tables _ hx) hb)

/-- Among branches that scan the same tables, one that carries more can take the place. -/
theorem Relays.of_tables_eq {b b' : Branch} (htables : b'.tables = b.tables)
    (h : ∀ x, b.Carries x → b'.Carries x) : b.Relays b' :=
  ⟨fun _ ha => htables ▸ ha, fun x _ => h x⟩

/-- A node that is no projection only passes on what its branches carry. -/
theorem relays_of_mem {id : NodeId} {l : Label} {bs : List Branch} (hl : l.op.projection? = none)
    {b : Branch} (hb : b ∈ bs) : (node id l bs).Relays b where
  tables _ ha := mem_tables_node.2 (.inr ⟨b, hb, ha⟩)
  carries _ hx h := (carries_through_iff hl).1 h b hb hx

/-- What a projection carries does not depend on what is below it. -/
theorem relays_of_projection {id : NodeId} {l : Label} {columns : ColumnSet} {bs bs' : List Branch}
    (hl : l.op = .projection columns)
    (htables : (node id l bs').tables = (node id l bs).tables) :
    (node id l bs).Relays (node id l bs') :=
  .of_tables_eq htables fun _ hx => .projection hl ((carries_projection_iff hl).1 hx)

variable {b b' : Branch} {f f' : Frame}

/-- A branch that can take the place of another one serves what that one serves. -/
theorem Relays.serve (h : b.Relays b') {x : Column} (hb : Serve [b] x) : Serve [b'] x := by
  rw [serve_singleton] at hb ⊢
  exact fun hx => h.carries x hx (hb (h.tables _ hx))

/-- A branch in the place of another one, with the same node above. -/
theorem Relays.fill (h : b.Relays b') (hf : f.Alike f') : (f.fill b).Relays (f'.fill b') where
  tables a := by
    rw [Frame.mem_tables_fill, Frame.mem_tables_fill, Frame.siblings, Frame.siblings,
      hf.label.op_eq, hf.left_eq, hf.right_eq]
    exact Or.imp_right (Or.imp_left (h.tables a))
  carries x _ hcarries := by
    have hop := hf.label.op_eq
    rw [Frame.fill] at hcarries
    rw [Frame.fill, hf.left_eq, hf.right_eq]
    cases hproj : f.label.op.projection? with
    | some columns =>
      have hl := Operator.projection?_eq_some_iff.1 hproj
      rw [carries_projection_iff hl] at hcarries
      exact .projection (hop.trans hl) hcarries
    | none =>
      rw [carries_through_iff hproj, Frame.serve_iff] at hcarries
      rw [carries_through_iff (hop ▸ hproj), Frame.serve_iff]
      exact ⟨hcarries.1, h.serve hcarries.2⟩

/-- A branch may be replaced by another one that carries the same columns of the tables it scans. -/
theorem Relays.flows_plug {c c' : Context} (h : b.Relays b') (hc : c.Alike c')
    (hflow : (c.plug b).Flows) (hb' : b'.Flows) : (c'.plug b').Flows := by
  induction hc generalizing b b' with
  | nil => exact hb'
  | @cons f f' c c' hf _ ih =>
    obtain ⟨hserve, hsiblings, -⟩ := Frame.flows_fill_iff.1 (Flows.of_plug (c := c) hflow)
    refine ih (h.fill hf) hflow (Frame.flows_fill_iff.2 ?_)
    rw [Frame.siblings, hf.left_eq, hf.right_eq, hf.label.op_eq]
    exact ⟨fun x hx => ⟨(hserve x hx).1, h.serve (hserve x hx).2⟩, hsiblings, hb'⟩

end Branch

/-! ## The flow in a plan -/

namespace Plan

variable {p : Plan} {b : Branch} {rest : NodeId → Option Node}

/-- What a branch carries is what the first projections below list. -/
theorem Has.carries_iff {parent : Option NodeId} (h : p.Has parent b) {x : Column} :
    b.Carries x ↔ ∀ columns, p.FirstProjection x.table b.top columns → x ∈ columns := by
  induction b generalizing parent with
  | node id l bs ih =>
    have hget := h.get?_top
    simp only [Branch.top_node, Branch.label_node, Branch.branches_node] at hget ⊢
    cases hproj : l.op.projection? with
    | some columns =>
      have hl := Operator.projection?_eq_some_iff.1 hproj
      rw [Branch.carries_projection_iff hl]
      constructor
      · intro hx columns' hfirst
        cases hfirst with
        | here hget' hop =>
          obtain rfl := Option.some.inj (hget.symm.trans hget')
          obtain rfl := Operator.projection.inj (hl.symm.trans hop)
          exact hx
        | past hget' hop =>
          obtain rfl := Option.some.inj (hget.symm.trans hget')
          exact absurd hop (by simp [hproj])
      · exact fun hall => hall columns (.here hget hl)
    | none =>
      rw [Branch.carries_through_iff hproj]
      constructor
      · intro hbelow columns hfirst
        cases hfirst with
        | here hget' hop =>
          obtain rfl := Option.some.inj (hget.symm.trans hget')
          exact absurd (Operator.projection?_eq_some_iff.2 hop) (by simp [hproj])
        | @past _ child _ tables _ hget' hop hchild htables htable hfirst =>
          obtain rfl := Option.some.inj (hget.symm.trans hget')
          obtain ⟨t, ht, rfl⟩ := List.mem_map.1 hchild
          have hhas := h.branch ht
          obtain rfl := Except.ok.inj (hhas.scannedTables_eq.symm.trans htables)
          exact (ih t ht hhas).1 (hbelow t ht (Branch.mem_tables.2 htable)) columns hfirst
      · intro hall t ht htable
        have hhas := h.branch ht
        refine (ih t ht hhas).2 fun columns hfirst => hall columns ?_
        exact .past hget hproj (List.mem_map_of_mem ht) hhas.scannedTables_eq
          (Branch.mem_tables.1 htable) hfirst

/-- Columns flow through a plan if they flow through its tree. -/
theorem Shows.columnsFlow_iff (h : p.Shows b rest) : p.ColumnsFlow ↔ b.Flows := by
  constructor
  · intro hflow
    refine Branch.flows_of_forall_plug fun c s hs x hx t ht htable => ?_
    subst hs
    have hhas := h.has_plug (c := c)
    have hid := h.reachable_iff.2 (Context.top_mem_ids_plug c s)
    obtain ⟨id, l, bs⟩ := s
    refine (hhas.branch ht).carries_iff.2 fun columns hfirst => ?_
    exact hflow _ _ x t.top _ columns hid hhas.get?_top hx (List.mem_map_of_mem ht)
      (hhas.branch ht).scannedTables_eq (Branch.mem_tables.1 htable) hfirst
  · intro hflow id n x child tables columns hid hget hx hchild htables htable hfirst
    obtain ⟨c, s, rfl, rfl⟩ := Branch.exists_plug_of_mem_ids (h.reachable_iff.1 hid)
    have hhas := h.has_plug (c := c)
    obtain rfl := Option.some.inj (hhas.get?_top.symm.trans hget)
    obtain ⟨t, ht, rfl⟩ := List.mem_map.1 hchild
    obtain ⟨id, l, bs⟩ := s
    have hbranch := hhas.branch ht
    obtain rfl := Except.ok.inj (hbranch.scannedTables_eq.symm.trans htables)
    have hserve := Branch.Flows.serve_of_plug hflow hx
    exact hbranch.carries_iff.1 (hserve t ht (Branch.mem_tables.2 htable)) columns hfirst

end Plan

end QueryPlan
