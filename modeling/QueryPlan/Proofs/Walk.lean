import QueryPlan.Proofs.Store

/-!
# Walks along a branch

A walk over the store that starts at the top of a branch comes back with what the tree of that
branch says.  In particular it meets no hole and comes to an end.

Main results:

- Theorems `Plan.Has.preorder_eq`, `Plan.Has.scannedTables_eq` and `Plan.Has.reachable_eq`: the
  walks that list the nodes and the tables of a branch.
- Theorem `Plan.Shows.exists_explain`: a plan that shows a tree can be drawn.
- Theorem `Plan.Shows.reachable_iff`: the nodes reachable from the root are those of the tree.
-/

namespace QueryPlan

namespace Plan

/-- The store holds a branch whose uppermost node records the given parent. -/
structure Has (p : Plan) (parent : Option NodeId) (b : Branch) : Prop where
  get?_entry : ∀ x n, (x, n) ∈ b.entries parent → p.get? x = some n
  height_le : b.height ≤ p.nodes.size

/-- The plan is the tree `b`; the store may also hold the nodes of `rest`. -/
structure Shows (p : Plan) (b : Branch) (rest : NodeId → Option Node) : Prop where
  root_eq : p.root = some b.top
  splits : p.Splits (b.entries none) rest

/-- A node is reachable if it is the root or a child of a reachable node. -/
inductive Reachable (p : Plan) : NodeId → Prop
  | root {id : NodeId} : p.root = some id → Reachable p id
  | child {id child : NodeId} {n : Node} :
      Reachable p id → p.get? id = some n → child ∈ n.children → Reachable p child

/-- The entries of the store contain those of a branch. -/
theorem Splits.has {p : Plan} {es es' : List (NodeId × Node)} {rest : NodeId → Option Node}
    {parent : Option NodeId} {b : Branch} (h : p.Splits es rest)
    (hes : es.Perm (b.entries parent ++ es')) : p.Has parent b where
  get?_entry x n hx := h.get?_entry x n (hes.mem_iff.2 (List.mem_append_left _ hx))
  height_le := by
    have hlen := hes.length_eq
    rw [List.length_append] at hlen
    calc
      b.height ≤ b.ids.length := b.height_le_length_ids
      _ = (b.entries parent).length := by rw [← b.map_fst_entries parent, List.length_map]
      _ ≤ p.nodes.size := by
        have hle := h.length_le
        omega

/-- The store holds a branch of any tree it holds. -/
theorem Splits.has_plug {p : Plan} {es : List (NodeId × Node)} {rest : NodeId → Option Node}
    {c : Context} {b : Branch} (h : p.Splits ((c.plug b).entries none ++ es) rest) :
    p.Has c.parent? b :=
  h.has (((c.entries_plug b).append_right es).trans (by rw [List.append_assoc]))

/-- The store of a plan that shows a tree holds this tree. -/
theorem Shows.has {p : Plan} {b : Branch} {rest : NodeId → Option Node} (h : p.Shows b rest) :
    p.Has none b :=
  h.splits.has (by rw [List.append_nil])

/-- A branch of the tree in its context. -/
theorem Shows.has_plug {p : Plan} {c : Context} {b : Branch} {rest : NodeId → Option Node}
    (h : p.Shows (c.plug b) rest) : p.Has c.parent? b :=
  h.splits.has (c.entries_plug b)

namespace Has

variable {p : Plan} {parent : Option NodeId} {b : Branch}

/-- The uppermost node of a branch stands in the store, with its links. -/
theorem get?_top (h : p.Has parent b) :
    p.get? b.top = some (b.label.node parent (b.branches.map Branch.top)) := by
  apply h.get?_entry
  rw [Branch.entries_eq_cons]
  exact List.mem_cons_self

/-- The uppermost node of a branch is found in the store. -/
theorem node_top (h : p.Has parent b) :
    p.node b.top = .ok (b.label.node parent (b.branches.map Branch.top)) :=
  node_of_get? h.get?_top

/-- With a branch the store holds the branches below it. -/
theorem branch {id : NodeId} {l : Label} {bs : List Branch} (h : p.Has parent (.node id l bs))
    {b : Branch} (hb : b ∈ bs) : p.Has (some id) b where
  get?_entry x n hx := by
    apply h.get?_entry
    rw [Branch.entries_node]
    exact List.mem_cons_of_mem _ (List.mem_flatMap.2 ⟨b, hb, hx⟩)
  height_le := Nat.le_trans (Nat.le_of_lt (Branch.height_lt_of_mem _ _ hb)) h.height_le

/-! ## Walks down -/

/-- A walk that may go as deep as a branch is high lists the positions of the branch. -/
theorem preorderWithin_eq (h : p.Has parent b) {depth : Nat} (hd : b.height ≤ depth) :
    p.preorderWithin depth b.top = .ok b.ids := by
  induction b generalizing parent depth with
  | node id l bs ih =>
    obtain ⟨depth, rfl⟩ : ∃ d, depth = d + 1 :=
      Nat.exists_eq_add_one.2 (Nat.lt_of_lt_of_le (Branch.height_pos _) hd)
    have hbelow : (bs.map Branch.top).mapM (p.preorderWithin depth) = .ok (bs.map Branch.ids) := by
      apply mapM_map_ok
      intro b hb
      have hlt := Branch.height_lt_of_mem id l hb
      exact ih b hb (h.branch hb) (by omega)
    rw [preorderWithin, h.node_top]
    simp only [ok_bind, Branch.label_node, Branch.branches_node, Label.node_children, hbelow,
      pure_eq_ok, Branch.top_node, Branch.ids_node, List.flatMap_def]

/-- The walk from the top of a branch lists its positions in preorder. -/
theorem preorder_eq (h : p.Has parent b) : p.preorder b.top = .ok b.ids :=
  h.preorderWithin_eq (Nat.le_trans h.height_le (Nat.le_succ _))

/-- The tables scanned from the top of a branch are those the tree scans, in the same order. -/
theorem scannedTables_eq (h : p.Has parent b) : p.scannedTables b.top = .ok b.scans := by
  have hget : ∀ e ∈ b.entries parent,
      ((p.get? e.1).bind fun n => n.op.scannedTable?) = e.2.op.scannedTable? := by
    intro e he
    rw [h.get?_entry e.1 e.2 he, Option.bind_some]
  rw [scannedTables, h.preorder_eq, ok_bind, pure_eq_ok, Branch.scans_eq_filterMap parent,
    ← Branch.map_fst_entries parent, List.filterMap_map]
  exact congrArg _ (List.filterMap_congr hget)

/-- The tables reachable from the top of a branch are those of the tree. -/
theorem reachable_eq (h : p.Has parent b) : p.reachable b.top = .ok b.tables := by
  rw [reachable, h.scannedTables_eq]
  rfl

/-- A branch can be outlined to its full height. -/
theorem exists_outlineWithin (h : p.Has parent b) {depth : Nat} (hd : b.height ≤ depth) :
    ∃ o, p.outlineWithin depth b.top = .ok o := by
  induction b generalizing parent depth with
  | node id l bs ih =>
    obtain ⟨depth, rfl⟩ : ∃ d, depth = d + 1 :=
      Nat.exists_eq_add_one.2 (Nat.lt_of_lt_of_le (Branch.height_pos _) hd)
    have hbelow : ∃ os, (bs.map Branch.top).mapM (p.outlineWithin depth) = .ok os := by
      have hone : ∀ b ∈ bs, ∃ o, p.outlineWithin depth b.top = .ok o := by
        intro b hb
        have hlt := Branch.height_lt_of_mem id l hb
        exact ih b hb (h.branch hb) (by omega)
      choose! o ho using hone
      exact ⟨_, mapM_map_ok ho⟩
    obtain ⟨os, hos⟩ := hbelow
    rw [outlineWithin, h.node_top]
    simp only [ok_bind, Branch.label_node, Branch.branches_node, Label.node_children, hos,
      pure_eq_ok, Except.ok.injEq, exists_eq']

end Has

/-- A plan whose store holds the entries of a tree at different positions is that tree. -/
theorem shows_of_get? {p : Plan} {b : Branch} (hroot : p.root = some b.top) (hnodup : b.ids.Nodup)
    (hget : ∀ e ∈ b.entries none, p.get? e.1 = some e.2) :
    p.Shows b fun x => if x ∈ b.ids then none else p.get? x := by
  refine ⟨hroot, ?_, fun x n hx => hget (x, n) hx, fun x hx => ?_, fun x hx => ?_⟩
  · rwa [Branch.map_fst_entries]
  · rw [Branch.map_fst_entries] at hx
    exact if_pos hx
  · rw [Branch.map_fst_entries] at hx
    exact (if_neg hx).symm

namespace Shows

variable {p : Plan} {b : Branch} {rest : NodeId → Option Node}

/-- A plan that shows a tree can be drawn. -/
theorem exists_explain (h : p.Shows b rest) : ∃ text, p.explain = .ok text := by
  obtain ⟨o, ho⟩ := h.has.exists_outlineWithin (Nat.le_trans h.has.height_le (Nat.le_succ _))
  refine ⟨o.render, ?_⟩
  rw [explain, h.root_eq]
  show Text.Outline.render <$> p.outlineWithin p.walkLimit b.top = _
  rw [show p.walkLimit = p.nodes.size + 1 from rfl, ho]
  rfl

/-- The positions of a tree that a plan shows are different. -/
theorem nodup_ids (h : p.Shows b rest) : b.ids.Nodup := by
  rw [← b.map_fst_entries none]
  exact h.splits.distinct

/-- The nodes reachable from the root are those of the tree. -/
theorem reachable_iff (h : p.Shows b rest) {x : NodeId} : p.Reachable x ↔ x ∈ b.ids := by
  constructor
  · intro hx
    induction hx with
    | root hroot =>
      rw [h.root_eq] at hroot
      exact Option.some.inj hroot ▸ b.top_mem_ids
    | @child id child n _ hget hchild ih =>
      obtain ⟨c, s, rfl, rfl⟩ := Branch.exists_plug_of_mem_ids ih
      rw [h.has_plug.get?_top] at hget
      obtain rfl := Option.some.inj hget
      obtain ⟨t, ht, rfl⟩ := List.mem_map.1 hchild
      rw [(c.ids_plug s).mem_iff]
      apply List.mem_append_left
      cases s with
      | node id l bs => simpa using Or.inr ⟨t, ht, t.top_mem_ids⟩
  · intro hx
    obtain ⟨c, s, rfl, rfl⟩ := Branch.exists_plug_of_mem_ids hx
    clear hx
    induction c generalizing s with
    | nil => exact .root h.root_eq
    | cons f c ih =>
      have hf := ih (f.fill s) h
      have hnode := Has.get?_top (b := f.fill s) (h.has_plug (c := c))
      refine .child hf hnode ?_
      simp [Frame.fill]

end Shows

end Plan

end QueryPlan
