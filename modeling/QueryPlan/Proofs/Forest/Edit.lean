import QueryPlan.Plan.Build
import QueryPlan.Plan.Edit
import QueryPlan.Proofs.Edit
import QueryPlan.Proofs.Forest.Basic

/-!
# Edits of forests

Each edit of a forest, made where it is meant to be made, has a result, and the result is a forest.
Edits that change labels leave the trees in shape.  The others take a branch out of its tree, which
leaves it as a tree of its own, put a tree into the place of a branch, or put a node above trees.

Main results:

- Theorems `Plan.IsForest.detach` and `Plan.IsForest.replace`: moving branches.
- Theorems `Plan.IsForest.placeAbove`, `Plan.IsForest.insertAbove`, `Plan.IsForest.discardBranch` and
  `Plan.IsForest.bypass`: the edits made of these.
- Theorem `Plan.IsForest.attach`: building.
- Theorem `Plan.unclaimed_of_free`: what is put below a new node was in nobody's use.
-/

namespace QueryPlan.Plan

/-- A node that can be put below a new one: it is there, records no parent and is not the root. -/
def Free (p : Plan) (x : NodeId) : Prop :=
  (∃ n, p.get? x = some n ∧ n.parent = none) ∧ p.root ≠ some x

/-- A free node is there. -/
theorem Free.isSome_get? {p : Plan} {x : NodeId} (h : p.Free x) : (p.get? x).isSome = true := by
  obtain ⟨⟨n, hget, -⟩, -⟩ := h
  rw [hget]
  rfl

/-- When the nodes are put below the next new node one after the other, each of them is there and
records no parent when its turn comes. -/
def Unclaimed (p : Plan) (children : List NodeId) : Prop :=
  ∀ left x right, children = left ++ x :: right → ∃ q n,
    left.foldlM (fun q child => q.update child ({ · with parent := some p.nodes.size })) p = .ok q ∧
      q.get? x = some n ∧ n.parent = none

/-- Changing some nodes that are there leaves all others as they are. -/
theorem exists_foldlM_update {p : Plan} {l : List NodeId} (hl : ∀ x ∈ l, (p.get? x).isSome = true)
    (f : Node → Node) :
    ∃ q, l.foldlM (fun q x => q.update x f) p = .ok q ∧ ∀ y ∉ l, q.get? y = p.get? y := by
  induction l generalizing p with
  | nil => exact ⟨p, rfl, fun _ _ => rfl⟩
  | cons x l ih =>
    obtain ⟨n, hget⟩ := Option.isSome_iff_exists.1 (hl x List.mem_cons_self)
    obtain ⟨q, hq, hothers⟩ := ih (p := p.modify x f) fun y hy => by
      rw [get?_modify]
      split
      · rw [Option.isSome_map]
        exact hl y (List.mem_cons_of_mem x hy)
      · exact hl y (List.mem_cons_of_mem x hy)
    refine ⟨q, ?_, fun y hy => ?_⟩
    · rw [List.foldlM_cons, update_of_get? hget, ok_bind, hq]
    · obtain ⟨hyx, hyl⟩ := not_or.1 (mt List.mem_cons.2 hy)
      rw [hothers y hyl, get?_modify, if_neg (Ne.symm hyx)]

/-- Different free nodes are unclaimed: none is taken before its turn comes. -/
theorem unclaimed_of_free {p : Plan} {children : List NodeId} (hnodup : children.Nodup)
    (hfree : ∀ x ∈ children, p.Free x) : p.Unclaimed children := by
  rintro left x right rfl
  have hx : x ∉ left := fun hx =>
    (List.nodup_append.1 hnodup).2.2 x hx x List.mem_cons_self rfl
  obtain ⟨q, hq, hothers⟩ := exists_foldlM_update (p := p) (l := left)
    (fun y hy => (hfree y (List.mem_append_left _ hy)).isSome_get?)
    ({ · with parent := some p.nodes.size })
  obtain ⟨⟨n, hget, hparent⟩, -⟩ := hfree x (List.mem_append_right _ List.mem_cons_self)
  exact ⟨q, n, hq, (hothers x hx).trans hget, hparent⟩

namespace IsForest

variable {p q : Plan} {ts : List Branch} {c : Context} {s n : Branch} {x : NodeId}

/-- No position occurs twice in a forest. -/
theorem nodup_ids (h : p.IsForest ts) : (ts.flatMap Branch.ids).Nodup := by
  rw [← Branch.map_fst_flatMap_entries none]
  exact h.splits.distinct

/-- The first tree shares no node with the others. -/
theorem not_mem_of_mem_ids (h : p.IsForest (n :: ts)) (hx : x ∈ n.ids) :
    x ∉ ts.flatMap Branch.ids := by
  have hnodup := h.nodup_ids
  rw [List.flatMap_cons, List.nodup_append] at hnodup
  exact fun hx' => hnodup.2.2 x hx x hx' rfl

/-- The top of each tree of a forest is among its positions. -/
theorem mem_ids_of_mem_tops (hx : x ∈ ts.map Branch.top) : x ∈ ts.flatMap Branch.ids :=
  (Branch.map_top_sublist ts).subset hx

/-- The top of a branch in a forest is there. -/
theorem isSome_get?_top (h : p.IsForest (c.plug s :: ts)) : (p.get? s.top).isSome = true := by
  rw [h.get?_top]
  rfl

/-- The first tree changes, but not its uppermost node. -/
theorem of_splits {b b' : Branch} (h : p.IsForest (b :: ts)) (hroot : q.root = p.root)
    (htop : b'.top = b.top)
    (hq : q.Splits (b'.entries none ++ ts.flatMap (Branch.entries none)) fun _ => none) :
    q.IsForest (b' :: ts) where
  splits := hq
  root hr := by
    have hr' := h.root (hroot ▸ hr)
    rwa [List.map_cons, ← htop, ← List.map_cons] at hr'

/-! ## Changing labels -/

/-- A node that records no parent may become the root. -/
theorem setRoot (h : p.IsForest (c.plug s :: ts)) {m : Node} (hget : p.get? s.top = some m)
    (hparent : m.parent = none) : (p.setRoot s.top).IsForest (c.plug s :: ts) where
  splits := h.splits.withRoot (some s.top)
  root {r} hr := by
    obtain rfl := h.eq_nil_of_parent hget hparent
    obtain rfl : s.top = r := Option.some.inj hr
    exact List.mem_cons_self

/-- A node of a forest may get another operator. -/
theorem setOp (h : p.IsForest (c.plug s :: ts)) (op : Operator) :
    (p.setOp s.top op).IsForest (c.plug (s.relabel { s.label with op }) :: ts) :=
  h.of_splits rfl (Context.top_plug_congr (s.top_relabel _))
    (Splits.relabel h.splits _ _ fun _ _ => rfl)

/-- A node of a forest may get another scope. -/
theorem setScope (h : p.IsForest (c.plug s :: ts)) (scope : AliasSet) :
    ∃ q, p.setScope s.top scope = .ok q ∧
      q.IsForest (c.plug (s.relabel { s.label with scope }) :: ts) := by
  obtain ⟨q, hq, h₁, hroot, -⟩ := Splits.setScope h.splits scope
  exact ⟨q, hq, h.of_splits hroot (Context.top_plug_congr (s.top_relabel _)) h₁⟩

/-- In a forest, the scopes of a node and of those above it can be refreshed. -/
theorem refreshScopes (h : p.IsForest (c.plug s :: ts)) :
    ∃ q, p.refreshScopes s.top = .ok q ∧
      q.IsForest ((c.refresh s).plug s.refresh :: ts) := by
  obtain ⟨q, hq, h₁, hroot, -⟩ := Splits.refreshScopes h.splits
  refine ⟨q, hq, h.of_splits hroot ?_ h₁⟩
  rw [Context.top_plug_refresh]
  exact Context.top_plug_congr (s.top_relabel _)

/-- In a forest, a branch can be marked. -/
theorem markVacuous (h : p.IsForest (c.plug s :: ts)) :
    ∃ q, p.markVacuous s.top = .ok q ∧ q.IsForest (c.plug s.mark :: ts) := by
  obtain ⟨q, hq, h₁, hroot, -⟩ := Splits.markVacuous h.splits
  exact ⟨q, hq, h.of_splits hroot (Context.top_plug_congr s.top_mark) h₁⟩

/-! ## Moving branches -/

/-- A branch that is detached becomes a tree of its own, apart from the root.  No node is lost. -/
theorem detach (h : p.IsForest (c.plug s :: ts)) :
    ∃ q ts', p.detach s.top = .ok q ∧ q.IsForest (s :: ts') ∧ q.root ≠ some s.top ∧
      ((c.plug s :: ts).flatMap Branch.ids).Perm ((s :: ts').flatMap Branch.ids) := by
  cases c with
  | nil =>
    have hnode : p.node s.top = .ok (s.label.node none (s.branches.map Branch.top)) :=
      h.has_plug.node_top
    by_cases hroot : p.root = some s.top
    · refine ⟨{ p with root := none }, ts, ?_, ⟨h.splits.withRoot none, ?_⟩,
        (Option.some_ne_none _).symm, .refl _⟩
      · rw [Plan.detach, hnode]
        exact congrArg Except.ok (if_pos hroot)
      · exact fun hr => absurd hr (Option.some_ne_none _).symm
    · refine ⟨p, ts, ?_, h, hroot, .refl _⟩
      rw [Plan.detach, hnode]
      exact congrArg Except.ok (if_neg hroot)
  | cons f c =>
    obtain ⟨q, hq, h₁, hroot, -⟩ := Splits.detach h.splits
    have hforest : q.IsForest (Context.plug c f.close :: s :: ts) := by
      refine ⟨h₁, fun {r} hr => ?_⟩
      have hr' := h.root (hroot ▸ hr)
      rw [List.map_cons, ← Context.top_plug_close] at hr'
      exact (List.mem_cons.1 hr').elim (fun e => e ▸ List.mem_cons_self)
        fun hr' => List.mem_cons_of_mem _ (List.mem_cons_of_mem _ hr')
    have hswap := hforest.of_perm (List.Perm.swap s (Context.plug c f.close) ts)
    refine ⟨q, Context.plug c f.close :: ts, hq, hswap, fun hr => ?_, ?_⟩
    · -- The root is the top of another tree: it was the top of one before.
      have hr' := h.root (hroot ▸ hr)
      rw [List.map_cons, ← Context.top_plug_close, ← List.map_cons] at hr'
      exact hswap.not_mem_of_mem_ids s.top_mem_ids (mem_ids_of_mem_tops hr')
    · simp only [List.flatMap_cons, ← List.append_assoc]
      exact (Context.ids_plug_close f c s).append_right _

/-- A branch takes the place of another one that does not stand in it.  What it has replaced becomes a
tree of its own, apart from the root. -/
theorem replace (h : p.IsForest (c.plug n :: ts)) {old : NodeId}
    (hold : (p.get? old).isSome = true) (hnot : old ∉ n.ids) :
    ∃ (q : Plan) (d : Context) (o : Branch) (ts' : List Branch), o.top = old ∧
      p.replace old n.top = .ok q ∧ q.IsForest (d.plug n :: o :: ts') ∧ q.root ≠ some o.top := by
  obtain ⟨q, ts₁, hq, h₁, hroot₁, hids⟩ := h.detach
  have hmem : old ∈ ts₁.flatMap Branch.ids := by
    have hmem := hids.mem_iff.1 (h.mem_ids_iff.2 hold)
    rw [List.flatMap_cons, List.mem_append] at hmem
    exact hmem.resolve_left hnot
  obtain ⟨t, ht, hmem⟩ := List.mem_flatMap.1 hmem
  obtain ⟨d, o, rfl, rfl⟩ := Branch.exists_plug_of_mem_ids hmem
  obtain ⟨left, right, rfl⟩ := List.append_of_mem ht
  have hperm : (n :: (left ++ d.plug o :: right)).Perm (d.plug o :: n :: (left ++ right)) :=
    (List.Perm.cons n List.perm_middle).trans (List.Perm.swap _ _ _)
  have h₂ := h₁.of_perm hperm
  obtain ⟨r, hr, h₃, hroot₃, -⟩ := Splits.seat h₂.splits
  have hne : o.top ≠ n.top := fun e => hnot (e ▸ n.top_mem_ids)
  -- The root is the top of a tree other than the one that was replaced.
  have hroot : ∀ x, r.root = some x →
      x = (d.plug n).top ∨ x ∈ (left ++ right).map Branch.top := by
    intro x hx
    rw [hroot₃] at hx
    split at hx
    · exact .inl (Option.some.inj hx).symm
    · rename_i hother
      have hx' := h₂.root hx
      rw [List.map_cons, List.map_cons, List.mem_cons, List.mem_cons] at hx'
      rcases hx' with rfl | rfl | hx'
      · exact absurd hx hother
      · exact absurd hx hroot₁
      · exact .inr hx'
  have h₄ : r.IsForest (d.plug n :: o :: (left ++ right)) := by
    refine ⟨h₃, fun {x} hx => ?_⟩
    rw [List.map_cons, List.map_cons, List.mem_cons, List.mem_cons]
    exact (hroot x hx).imp_right .inr
  refine ⟨r, d, o, left ++ right, rfl, ?_, h₄, fun hx => ?_⟩
  · rw [replace_eq hne, hq, ok_bind, hr]
  · have hlone := h₄.of_perm (List.Perm.swap _ _ _)
    apply hlone.not_mem_of_mem_ids o.top_mem_ids
    apply mem_ids_of_mem_tops
    rw [List.map_cons, List.mem_cons]
    exact hroot o.top hx

/-- A branch takes the place of another one that does not stand in it, and the other one becomes its
last branch. -/
theorem placeAbove (h : p.IsForest (c.plug n :: ts)) {target : NodeId}
    (htarget : (p.get? target).isSome = true) (hnot : target ∉ n.ids) :
    ∃ q ts', p.placeAbove n.top target = .ok q ∧ q.IsForest ts' := by
  obtain ⟨q, d, o, ts₁, rfl, hq, h₁, hroot₁⟩ := h.replace htarget hnot
  obtain ⟨q₂, r, hq₂, hr, h₂, hroot₂, -⟩ := Splits.graft h₁.splits
  refine ⟨r, d.plug (n.graft o) :: ts₁, ?_, h₂, fun {x} hx => ?_⟩
  · rw [Plan.placeAbove, hq]
    simp only [ok_bind, hq₂, hr]
  · rw [hroot₂] at hx
    have hx' := h₁.root hx
    rw [List.map_cons, List.map_cons, List.mem_cons, List.mem_cons] at hx'
    rw [List.map_cons, List.mem_cons, Context.top_plug_congr (n.top_graft o)]
    rcases hx' with hx' | rfl | hx'
    · exact .inl hx'
    · exact absurd hx hroot₁
    · exact .inr hx'

/-- A new node without children is a tree of its own. -/
theorem push (h : p.IsForest ts) (op : Operator) (scope : AliasSet) :
    (p.push op [] scope).IsForest (.node p.nodes.size ⟨op, scope, false⟩ [] :: ts) where
  splits := by
    rw [List.flatMap_cons, Branch.entries_node]
    exact Splits.push h.splits op [] scope
  root hr := List.mem_cons_of_mem _ (h.root hr)

/-- A new node takes the place of a branch, with the branch below it. -/
theorem insertAbove (h : p.IsForest (c.plug s :: ts)) (op : Operator) :
    ∃ id q ts', p.insertAbove s.top op = .ok (id, q) ∧ q.IsForest ts' := by
  have hpush := h.push op s.tables
  have hlt : s.top < p.nodes.size := lt_size_of_get? h.get?_top
  have hold : ((p.push op [] s.tables).get? s.top).isSome = true := by
    rw [get?_push, if_neg (Nat.ne_of_lt hlt)]
    exact h.isSome_get?_top
  have hnot : s.top ∉ (Branch.node p.nodes.size ⟨op, s.tables, false⟩ []).ids := by
    rw [Branch.ids_node, List.flatMap_nil, List.mem_singleton]
    exact Nat.ne_of_lt hlt
  obtain ⟨q, ts', hq, hforest⟩ := IsForest.placeAbove (c := []) hpush hold hnot
  refine ⟨p.nodes.size, q, ts', ?_, hforest⟩
  rw [Branch.top_node] at hq
  rw [Plan.insertAbove, h.has_plug.reachable_eq]
  simp only [ok_bind, hq, pure_eq_ok]

/-! ## Discarding -/

/-- A branch is discarded. -/
theorem discardBranch (h : p.IsForest (c.plug s :: ts)) :
    ∃ q ts', p.discardBranch s.top = .ok q ∧ q.IsForest ts' := by
  obtain ⟨q, ts', hq, h₁, hroot₁, -⟩ := h.detach
  obtain ⟨h₂, hroot₂, -⟩ := Splits.foldl_erase h₁.splits
  rw [Branch.map_fst_entries] at h₂ hroot₂
  refine ⟨_, ts', ?_, h₂, fun {x} hx => ?_⟩
  · rw [Plan.discardBranch, hq, ok_bind, (IsForest.has_plug (c := []) h₁).preorder_eq]
    rfl
  · rw [hroot₂] at hx
    refine (List.mem_cons.1 (h₁.root hx)).resolve_left ?_
    rintro rfl
    exact hroot₁ hx

/-- A node with one branch is bypassed.  Any other node stays as it is. -/
theorem bypass (h : p.IsForest (c.plug s :: ts)) :
    ∃ child q ts', p.bypass s.top = .ok (child, q) ∧ q.IsForest ts' := by
  obtain ⟨id, l, bs⟩ := s
  have hnode : p.node id = .ok (l.node c.parent? (bs.map Branch.top)) := h.has_plug.node_top
  rw [Branch.top_node, Plan.bypass, hnode]
  rcases bs with _ | ⟨t, _ | ⟨t', bs⟩⟩
  · exact ⟨none, p, _, rfl, h⟩
  · have hplug : p.IsForest (Context.plug (⟨id, l, [], []⟩ :: c) t :: ts) := h
    have hnot : id ∉ t.ids := by
      have hnodup := h.nodup_ids
      rw [List.flatMap_cons] at hnodup
      have hs := ((c.ids_plug _).nodup_iff.1 (List.nodup_append.1 hnodup).1)
      have hs' := (List.nodup_append.1 hs).1
      rw [Branch.ids_node, List.flatMap_singleton, List.nodup_cons] at hs'
      exact hs'.1
    have hold : (p.get? id).isSome = true := h.isSome_get?_top
    obtain ⟨q, d, o, ts₁, rfl, hq, h₁, -⟩ := hplug.replace hold hnot
    obtain ⟨r, ts₂, hr, h₂⟩ :=
      IsForest.discardBranch (c := []) (h₁.of_perm (List.Perm.swap _ _ _))
    refine ⟨some t.top, r, ts₂, ?_, h₂⟩
    simp only [ok_bind, Node.onlyChild?, Label.node_children, List.map_cons, List.map_nil, hq,
      show q.discardBranch o.top = .ok r from hr, pure_eq_ok]
  · exact ⟨none, p, _, rfl, h⟩

/-! ## Building -/

/-- Some of the trees, picked by their tops. -/
theorem exists_perm_of_tops {children : List NodeId} (hnodup : children.Nodup)
    (hall : ∀ x ∈ children, x ∈ ts.map Branch.top) :
    ∃ bs ts', bs.map Branch.top = children ∧ ts.Perm (bs ++ ts') := by
  induction children generalizing ts with
  | nil => exact ⟨[], ts, rfl, .refl _⟩
  | cons x children ih =>
    obtain ⟨hx, hnodup'⟩ := List.nodup_cons.1 hnodup
    obtain ⟨b, hb, rfl⟩ := List.mem_map.1 (hall x List.mem_cons_self)
    obtain ⟨left, right, rfl⟩ := List.append_of_mem hb
    have hrest : ∀ y ∈ children, y ∈ (left ++ right).map Branch.top := by
      intro y hy
      have hy' := hall y (List.mem_cons_of_mem _ hy)
      rw [(List.perm_middle.map _).mem_iff, List.map_cons, List.mem_cons] at hy'
      exact hy'.resolve_left fun e => hx (e ▸ hy)
    obtain ⟨bs, ts', hbs, hperm⟩ := ih hnodup' hrest
    exact ⟨b :: bs, ts', by rw [List.map_cons, hbs], List.perm_middle.trans (hperm.cons b)⟩

/-- The tops of trees that can be put below a new node. -/
theorem mem_tops_of_free (h : p.IsForest ts) (hx : p.Free x) : x ∈ ts.map Branch.top := by
  obtain ⟨⟨m, hget, hparent⟩, -⟩ := hx
  obtain ⟨c, s, ts', rfl, hts, hplug⟩ := h.exists_plug (by rw [hget]; rfl)
  obtain rfl := hplug.eq_nil_of_parent hget hparent
  rw [(hts.map _).mem_iff]
  exact List.mem_cons_self

/-- A new node is put above trees, none of which hangs from the root. -/
theorem attach (h : p.IsForest ts) (op : Operator) {children : List NodeId} (scope : AliasSet)
    (hnodup : children.Nodup) (hfree : ∀ x ∈ children, p.Free x) :
    ∃ id q ts', p.attach op children scope = .ok (id, q) ∧ q.IsForest ts' := by
  obtain ⟨bs, ts', rfl, hts⟩ :=
    exists_perm_of_tops hnodup fun x hx => h.mem_tops_of_free (hfree x hx)
  have h₀ := (h.of_perm hts).splits
  rw [List.flatMap_append] at h₀
  obtain ⟨q, hq, h₁, hroot₁, -⟩ := h₀.attach op scope
  refine ⟨p.nodes.size, q, .node p.nodes.size ⟨op, scope, false⟩ bs :: ts', hq, h₁,
    fun {r} hr => ?_⟩
  have hr' : p.root = some r := hroot₁ ▸ hr
  have hmem := (h.of_perm hts).root hr'
  rw [List.map_append, List.mem_append] at hmem
  exact List.mem_cons_of_mem _ (hmem.resolve_left fun hx => (hfree r hx).2 hr')

/-- A new scan is a tree of its own. -/
theorem scan (h : p.IsForest ts) (table : String) :
    ∃ id q ts', p.scan table = .ok (id, q) ∧ q.IsForest ts' :=
  h.attach _ _ List.nodup_nil fun _ hx => absurd hx List.not_mem_nil

/-- A filter can be put above a free node of a forest. -/
theorem filter (h : p.IsForest ts) (hx : p.Free x) (f : Filter) :
    ∃ id q ts', p.filter x f = .ok (id, q) ∧ q.IsForest ts' :=
  h.attach _ _ (List.nodup_singleton x) fun _ hy => List.mem_singleton.1 hy ▸ hx

/-- The tables scanned below a node that is there. -/
theorem exists_reachable (h : p.IsForest ts) (hx : (p.get? x).isSome = true) :
    ∃ tables, p.reachable x = .ok tables := by
  obtain ⟨c, s, ts', rfl, -, hplug⟩ := h.exists_plug hx
  exact ⟨s.tables, hplug.has_plug.reachable_eq⟩

/-- A projection can be put above a free node of a forest. -/
theorem project (h : p.IsForest ts) (hx : p.Free x) (columns : ColumnSet) :
    ∃ id q ts', p.project x columns = .ok (id, q) ∧ q.IsForest ts' := by
  obtain ⟨scope, hscope⟩ := h.exists_reachable hx.isSome_get?
  rw [Plan.project, hscope]
  exact h.attach _ _ (List.nodup_singleton x) fun _ hy => List.mem_singleton.1 hy ▸ hx

/-- A join can be put above free nodes of a forest that differ from each other. -/
theorem join (h : p.IsForest ts) {children : List NodeId} (hnodup : children.Nodup)
    (hfree : ∀ x ∈ children, p.Free x) (j : Join) :
    ∃ id q ts', p.join children j = .ok (id, q) ∧ q.IsForest ts' := by
  have hscope : ∀ x, ∃ tables, x ∈ children → p.reachable x = .ok tables := by
    intro x
    by_cases hx : x ∈ children
    · obtain ⟨tables, htables⟩ := h.exists_reachable (hfree x hx).isSome_get?
      exact ⟨tables, fun _ => htables⟩
    · exact ⟨.empty, fun hx' => absurd hx' hx⟩
  choose scope hscope using hscope
  have hscopes := mapM_map_ok (i := id) hscope
  rw [List.map_id] at hscopes
  rw [Plan.join, hscopes]
  exact h.attach _ _ hnodup hfree

end IsForest

end QueryPlan.Plan
