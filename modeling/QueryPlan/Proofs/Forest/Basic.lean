import Mathlib.Data.Fintype.EquivFin
import Mathlib.Logic.Relation
import Mathlib.Order.RelClasses
import QueryPlan.Proofs.Valid.Structure

/-!
# Plans as forests

A plan that is being built or edited is no tree yet: the store holds several trees side by side, and
at most one of them hangs from the root.  This can be said of the links alone, node by node, or of the
trees.  Links are what callers see; trees are what edits are described by.

Main results:

- Definition `Plan.WellLinked`: links are mutual, and nobody is its own ancestor.
- Definition `Plan.IsForest`: the store holds trees and nothing else.
- Theorem `Plan.wellLinked_iff`: the one is the other.
-/

namespace QueryPlan.Plan

variable {p : Plan} {ts : List Branch} {c : Context} {s : Branch} {x y : NodeId} {n : Node}

/-- The node `y` records `x` as its parent. -/
def IsParent (p : Plan) (x y : NodeId) : Prop :=
  ∃ n, p.get? y = some n ∧ n.parent = some x

/-- The chain of recorded parents leads from `y` to `x`, in one step or more. -/
abbrev Ancestor (p : Plan) : NodeId → NodeId → Prop :=
  Relation.TransGen p.IsParent

/-- The links of a plan are sound: the root is there and records no parent, a listed child is there and
records the node that lists it, no node is listed twice, a recorded parent is there and lists the
node that records it, and no chain of parents comes back to where it started. -/
structure WellLinked (p : Plan) : Prop where
  root : ∀ {r}, p.root = some r → ∃ n, p.get? r = some n ∧ n.parent = none
  child : ∀ {x n}, p.get? x = some n → ∀ y ∈ n.children, ∃ m, p.get? y = some m ∧ m.parent = some x
  listed : p.listedChildren.Nodup
  parent : ∀ {x n}, p.get? x = some n → ∀ y, n.parent = some y → ∃ m, p.get? y = some m ∧
    x ∈ m.children
  acyclic : ∀ x, ¬ p.Ancestor x x

/-- The store holds the given trees and nothing else, and the root is the top of one of them. -/
structure IsForest (p : Plan) (ts : List Branch) : Prop where
  splits : p.Splits (ts.flatMap (Branch.entries none)) fun _ => none
  root : ∀ {r}, p.root = some r → r ∈ ts.map Branch.top

/-- There are no nodes outside that could be linked wrongly. -/
theorem linked_none : Linked fun _ => none where
  child hx := absurd hx.symm (Option.some_ne_none _)
  parent hx := absurd hx.symm (Option.some_ne_none _)
  nodup hx := absurd hx.symm (Option.some_ne_none _)

namespace IsForest

/-- It does not matter in which order the trees of a forest are given. -/
theorem of_perm {ts' : List Branch} (h : p.IsForest ts) (hts : ts.Perm ts') : p.IsForest ts' where
  splits := h.splits.of_perm (hts.flatMap_right _)
  root hr := (hts.map _).mem_iff.1 (h.root hr)

/-- The positions of a forest are those where the store has a node. -/
theorem mem_ids_iff (h : p.IsForest ts) : x ∈ ts.flatMap Branch.ids ↔ (p.get? x).isSome = true := by
  rcases h.splits.get?_eq_or x with ⟨c, s, ts', hts, rfl, hget⟩ | ⟨hx, hget⟩
  · rw [hget, (hts.flatMap_right Branch.ids).mem_iff, List.flatMap_cons, List.mem_append]
    exact iff_of_true (.inl (Context.top_mem_ids_plug c s)) rfl
  · rw [hget]
    exact iff_of_false hx Bool.false_ne_true

/-- A node that is there stands in a context, in one of the trees. -/
theorem exists_plug (h : p.IsForest ts) (hx : (p.get? x).isSome = true) :
    ∃ c s ts', s.top = x ∧ ts.Perm (Context.plug c s :: ts') ∧ p.IsForest (c.plug s :: ts') := by
  rcases h.splits.get?_eq_or x with ⟨c, s, ts', hts, rfl, -⟩ | ⟨-, hget⟩
  · exact ⟨c, s, ts', rfl, hts, h.of_perm hts⟩
  · rw [hget] at hx
    exact absurd hx Bool.false_ne_true

/-- The plan holds every branch of its trees. -/
theorem has_plug (h : p.IsForest (c.plug s :: ts)) : p.Has c.parent? s :=
  h.splits.has_plug

/-- The node on top of a branch records what the context above has for it. -/
theorem get?_top (h : p.IsForest (c.plug s :: ts)) :
    p.get? s.top = some (s.label.node c.parent? (s.branches.map Branch.top)) :=
  h.has_plug.get?_top

/-- A node that records no parent is the top of its tree. -/
theorem eq_nil_of_parent (h : p.IsForest (c.plug s :: ts)) (hget : p.get? s.top = some n)
    (hparent : n.parent = none) : c = [] := by
  obtain rfl := Option.some.inj (h.get?_top.symm.trans hget)
  cases c with
  | nil => rfl
  | cons f c => exact absurd hparent (Option.some_ne_none f.id)

/-! ## Ancestors -/

/-- A node that stands in a context has the node at the top of the context as an ancestor. -/
theorem ancestor_plug {d : Context} (h : p.IsForest (c.plug (d.plug s) :: ts)) (hd : d ≠ []) :
    p.Ancestor (d.plug s).top s.top := by
  induction d generalizing s with
  | nil => exact absurd rfl hd
  | cons f d ih =>
    have hplug : p.IsForest (Context.plug (f :: (d ++ c)) s :: ts) := by
      rwa [← List.cons_append, Context.plug_append]
    have hparent : p.IsParent f.id s.top := ⟨_, hplug.get?_top, rfl⟩
    cases d with
    | nil => exact .single hparent
    | cons g d => exact .tail (ih (s := f.fill s) h (List.cons_ne_nil g d)) hparent

/-- The top of a branch is an ancestor of all other nodes of the branch. -/
theorem ancestor_of_mem_ids (h : p.IsForest (c.plug s :: ts)) (hx : x ∈ s.ids) (hne : x ≠ s.top) :
    p.Ancestor s.top x := by
  obtain ⟨d, t, rfl, rfl⟩ := Branch.exists_plug_of_mem_ids hx
  apply h.ancestor_plug
  rintro rfl
  exact hne rfl

end IsForest

/-- The number of nodes that a walk from a node goes over. -/
def walkLength (p : Plan) (x : NodeId) : Nat :=
  match p.preorder x with
  | .ok ids => ids.length
  | .error _ => 0

/-- The walk from the top of a branch goes over all nodes of the branch. -/
theorem Has.walkLength_eq {parent : Option NodeId} (h : p.Has parent s) :
    p.walkLength s.top = s.ids.length := by
  rw [walkLength, h.preorder_eq]

namespace IsForest

/-- The walk from a parent is longer than the walk from its child. -/
theorem walkLength_lt (h : p.IsForest ts) (hxy : p.IsParent x y) :
    p.walkLength y < p.walkLength x := by
  obtain ⟨n, hget, hparent⟩ := hxy
  obtain ⟨c, s, ts', rfl, -, hplug⟩ := h.exists_plug (by rw [hget]; rfl)
  obtain rfl := Option.some.inj (hplug.get?_top.symm.trans hget)
  cases c with
  | nil => exact absurd hparent.symm (Option.some_ne_none x)
  | cons f c =>
    obtain rfl := Option.some.inj hparent
    have hf : p.Has (Context.parent? c) (f.fill s) := hplug.has_plug (c := c)
    have hlen := (Context.ids_plug [f] s).length_eq
    rw [hplug.has_plug.walkLength_eq, ← f.top_fill s, hf.walkLength_eq]
    rw [List.length_append, Context.ids_cons, List.length_cons] at hlen
    change (f.fill s).ids.length = _ at hlen
    omega

/-- The walk from an ancestor is longer than the walk from a node below it. -/
theorem walkLength_lt_of_ancestor (h : p.IsForest ts) (hxy : p.Ancestor x y) :
    p.walkLength y < p.walkLength x := by
  induction hxy with
  | single hparent => exact h.walkLength_lt hparent
  | tail _ hparent ih => exact Nat.lt_trans (h.walkLength_lt hparent) ih

/-- The links of a forest are sound. -/
theorem wellLinked (h : p.IsForest ts) : p.WellLinked := by
  have hlinks := h.splits.links_mutual linked_none
  refine ⟨fun {r} hr => ?_, hlinks.child, ?_, hlinks.parent, fun x hx => ?_⟩
  · obtain ⟨t, ht, rfl⟩ := List.mem_map.1 (h.root hr)
    obtain ⟨left, right, rfl⟩ := List.append_of_mem ht
    have htop := IsForest.get?_top (c := []) (h.of_perm List.perm_middle)
    exact ⟨_, htop, rfl⟩
  · exact (listedChildren_nodup_iff hlinks.child).2 fun _ _ hx => hlinks.nodup hx
  · exact Nat.lt_irrefl _ (h.walkLength_lt_of_ancestor hx)

end IsForest

namespace WellLinked

/-- If the links of a plan are sound, every child belongs to the node that lists it. -/
theorem owned (h : p.WellLinked) : p.Owned :=
  ⟨h.child, fun hx => (listedChildren_nodup_iff h.child).1 h.listed _ _ hx⟩

/-- What holds of the nodes without a parent, and of the children of each node it holds of, holds of
all nodes. -/
theorem climb (h : p.WellLinked) {motive : NodeId → Prop}
    (top : ∀ x n, p.get? x = some n → n.parent = none → motive x)
    (step : ∀ x n y, p.get? x = some n → y ∈ n.children → motive x → motive y) :
    ∀ x n, p.get? x = some n → motive x := by
  -- Nobody is its own ancestor, so among finitely many positions the way up comes to an end.
  let above (i j : Fin p.nodes.size) : Prop := p.Ancestor i j
  have : IsTrans _ above := ⟨fun _ _ _ hij hjk => hij.trans hjk⟩
  have : Std.Irrefl above := ⟨fun i hi => h.acyclic i hi⟩
  have hwf : WellFounded above := Finite.wellFounded_of_trans_of_irrefl above
  have hall : ∀ i : Fin p.nodes.size, ∀ n, p.get? i = some n → motive i := by
    intro i
    induction i using hwf.induction with
    | _ i ih =>
      intro n hget
      cases hparent : n.parent with
      | none => exact top i n hget hparent
      | some y =>
        obtain ⟨m, hm, hmem⟩ := h.parent hget y hparent
        have hy := ih ⟨y, lt_size_of_get? hm⟩ (.single ⟨n, hget, hparent⟩) m hm
        exact step y m i hm hmem hy
  exact fun x n hget => hall ⟨x, lt_size_of_get? hget⟩ n hget

end WellLinked

/-- The nodes that record no parent. -/
def tops (p : Plan) : List NodeId :=
  (p.live.filter fun e => e.2.parent.isNone).map Prod.fst

/-- The nodes on top are those that are there and record no parent. -/
theorem mem_tops : x ∈ p.tops ↔ ∃ n, p.get? x = some n ∧ n.parent = none := by
  simp [tops]

/-- No node is on top twice. -/
theorem nodup_tops : p.tops.Nodup := by
  have hlive : (p.live.map Prod.fst).Nodup := List.pairwise_map.2 pairwise_live
  exact (List.filter_sublist.map Prod.fst).nodup hlive

/-- The children of a node of a tree that the store holds are nodes of the tree. -/
theorem mem_ids_of_child {t : Branch} (ht : ∀ e ∈ t.entries none, p.get? e.1 = some e.2)
    (hx : x ∈ t.ids) (hget : p.get? x = some n) (hy : y ∈ n.children) : y ∈ t.ids := by
  obtain ⟨c, s, rfl, rfl⟩ := Branch.exists_plug_of_mem_ids hx
  have hentry := ht (s.top, s.label.node c.parent? (s.branches.map Branch.top)) (by
    rw [(c.entries_plug s).mem_iff, Branch.entries_eq_cons]
    exact List.mem_append_left _ List.mem_cons_self)
  obtain rfl := Option.some.inj (hentry.symm.trans hget)
  obtain ⟨id, l, bs⟩ := s
  rw [(c.ids_plug _).mem_iff, Branch.ids_node]
  exact List.mem_append_left _ (List.mem_cons_of_mem _ ((Branch.map_top_sublist bs).subset hy))

/-- A plan whose links are sound is a forest: each node that records no parent is the top of a tree,
and every other node is reached from one of them. -/
theorem WellLinked.exists_isForest (h : p.WellLinked) : ∃ ts, p.IsForest ts := by
  have hstart : p.Frontier [] p.tops := .start nodup_tops fun x hx => mem_tops.1 hx
  obtain ⟨ts, htops, hholds, hnodup, -⟩ :=
    hstart.exists_branches h.owned (Nat.le_add_left p.nodes.size _)
  have hentries : ∀ t ∈ ts, ∀ e ∈ t.entries none, p.get? e.1 = some e.2 := by
    intro t ht
    obtain ⟨parent, htop, hentries⟩ := (hholds t ht).exists_top
    obtain ⟨n, hn, hnone⟩ := mem_tops.1 (htops ▸ List.mem_map_of_mem ht)
    obtain rfl := Option.some.inj (htop.symm.trans hn)
    obtain rfl : parent = none := hnone
    exact hentries
  have hall : ∀ x n, p.get? x = some n → x ∈ ts.flatMap Branch.ids := by
    refine h.climb (fun x n hx hnone => ?_) fun x n y hx hy hmem => ?_
    · have hx' : x ∈ ts.map Branch.top := htops ▸ mem_tops.2 ⟨n, hx, hnone⟩
      exact (Branch.map_top_sublist ts).subset hx'
    · obtain ⟨t, ht, hmem⟩ := List.mem_flatMap.1 hmem
      exact List.mem_flatMap.2 ⟨t, ht, mem_ids_of_child (hentries t ht) hmem hx hy⟩
  refine ⟨ts, ⟨?_, fun x n hx => ?_, fun _ _ => rfl, fun x hx => ?_⟩, fun {r} hr => ?_⟩
  · rwa [Branch.map_fst_flatMap_entries]
  · obtain ⟨t, ht, hx⟩ := List.mem_flatMap.1 hx
    exact hentries t ht (x, n) hx
  · rw [Branch.map_fst_flatMap_entries] at hx
    cases hget : p.get? x with
    | none => rfl
    | some n => exact absurd (hall x n hget) hx
  · rw [htops]
    exact mem_tops.2 (h.root hr)

/-- The links of a plan are sound exactly if the plan is a forest. -/
theorem wellLinked_iff : p.WellLinked ↔ ∃ ts, p.IsForest ts :=
  ⟨WellLinked.exists_isForest, fun ⟨_, h⟩ => h.wellLinked⟩

end QueryPlan.Plan
