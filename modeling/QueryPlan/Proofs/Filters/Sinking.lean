import QueryPlan.Proofs.Rule.Reports

/-!
# A node sinks

Predicate pushdown relinks a filter twice: the join below it takes its place, and then it takes the place
of a branch of the join.  What this comes to can be said for every node of the store by itself, and for a
filter that sinks below several joins as well: the node below the filter takes its place, the filter takes
the place of the node it ends up above, and nothing else changes but the scope of the filter.

Main results:

- Definition `Plan.sink`: the plan with a node further down, all nodes of the store being relinked at once.
- Theorem `Plan.Shows.eq_sink`: it is the plan that shows the tree with the node further down.
-/

namespace QueryPlan

/-- How a node of a plan sinks. -/
structure Sinking where
  /-- The node that sinks. -/
  id : NodeId
  /-- Its only child, which takes its place. -/
  upper : NodeId
  /-- The node further down whose place it takes, its only child from then on. -/
  lower : NodeId
  /-- The scope it gets. -/
  scope : AliasSet

namespace Sinking

variable (m : Sinking)

/-- What is listed where `y` was listed. -/
def successor (y : NodeId) : NodeId :=
  if y = m.id then m.upper else if y = m.lower then m.id else y

/-- A position at which no node is relinked. -/
def Avoids (x : NodeId) : Prop :=
  x ≠ m.id ∧ x ≠ m.upper ∧ x ≠ m.lower

end Sinking

namespace Plan

/-- The parent that a node records. -/
def parent? (p : Plan) (x : NodeId) : Option NodeId :=
  (p.get? x).bind Node.parent

/-- The node at `x` after a node of the plan has sunk. -/
def relinked (p : Plan) (m : Sinking) (x : NodeId) (n : Node) : Node :=
  if x = m.id then { n with parent := p.parent? m.lower, children := [m.lower], scope := m.scope }
  else { n with
    parent := if x = m.upper then p.parent? m.id else if x = m.lower then some m.id else n.parent
    children := n.children.map m.successor }

/-- The plan in which a node has sunk. -/
def sink (p : Plan) (m : Sinking) : Plan where
  nodes := p.nodes.mapIdx fun x => Option.map (p.relinked m x)
  root := if p.root = some m.id then some m.upper else p.root

/-- Every node of the plan is relinked when one sinks, and no other node comes in. -/
theorem get?_sink (p : Plan) (m : Sinking) (x : NodeId) :
    (p.sink m).get? x = (p.get? x).map (p.relinked m x) := by
  rw [get?, get?, sink, Array.getElem?_mapIdx]
  cases p.nodes[x]? <;> rfl

end Plan

section Relinked

variable {p : Plan} {m : Sinking}

namespace Sinking

/-- A node is listed as before unless it is the one that sinks or the one above which it lands. -/
theorem successor_eq_self {y : NodeId} (hid : y ≠ m.id) (hlower : y ≠ m.lower) :
    m.successor y = y := by
  rw [successor, if_neg hid, if_neg hlower]

/-- A list of nodes stays as it is if neither of these two is in it. -/
theorem map_successor_eq_self {ys : List NodeId} (h : ∀ y ∈ ys, y ≠ m.id ∧ y ≠ m.lower) :
    ys.map m.successor = ys :=
  (List.map_congr_left fun y hy => successor_eq_self (h y hy).1 (h y hy).2).trans (List.map_id ys)

/-- The tops of branches without relinked nodes are listed as before. -/
theorem map_successor_tops {bs : List Branch} (h : ∀ x ∈ bs.flatMap Branch.ids, m.Avoids x) :
    (bs.map Branch.top).map m.successor = bs.map Branch.top := by
  refine map_successor_eq_self fun y hy => ?_
  have havoids := h y ((Branch.map_top_sublist bs).subset hy)
  exact ⟨havoids.1, havoids.2.2⟩

/-- The entries of a store, every node being relinked. -/
def relink (p : Plan) (m : Sinking) (es : List (NodeId × Node)) : List (NodeId × Node) :=
  es.map fun e => (e.1, p.relinked m e.1 e.2)

/-- Relinking moves no node to another position. -/
theorem map_fst_relink (es : List (NodeId × Node)) :
    (m.relink p es).map Prod.fst = es.map Prod.fst := by
  simp [relink]

end Sinking

/-- A node stays as it is if it is not relinked and lists no node that is. -/
theorem Plan.relinked_eq_self {x : NodeId} {n : Node} (hx : m.Avoids x)
    (hchildren : ∀ y ∈ n.children, y ≠ m.id ∧ y ≠ m.lower) : p.relinked m x n = n := by
  obtain ⟨hid, hupper, hlower⟩ := hx
  simp [relinked, hid, hupper, hlower, Sinking.map_successor_eq_self hchildren]

/-- A node that does not sink keeps its label. -/
theorem Plan.relinked_node {x : NodeId} {l : Label} {parent : Option NodeId}
    {children : List NodeId} (hx : x ≠ m.id) :
    p.relinked m x (l.node parent children) =
      l.node (if x = m.upper then p.parent? m.id else if x = m.lower then some m.id else parent)
        (children.map m.successor) := by
  rw [relinked, if_neg hx]
  rfl

/-- A branch in which no node is relinked stays as it is. -/
theorem Branch.relink_entries {b : Branch} (h : ∀ x ∈ b.ids, m.Avoids x) (parent : Option NodeId) :
    m.relink p (b.entries parent) = b.entries parent := by
  induction b generalizing parent with
  | node x l bs ih =>
    rw [ids_node, List.forall_mem_cons] at h
    obtain ⟨hx, hbs⟩ := h
    have hhead : p.relinked m x (l.node parent (bs.map top)) = l.node parent (bs.map top) := by
      rw [Plan.relinked_node hx.1, if_neg hx.2.1, if_neg hx.2.2, Sinking.map_successor_tops hbs]
    rw [entries_node, Sinking.relink, List.map_cons, List.map_flatMap, hhead]
    exact congrArg _ (List.flatMap_congr fun b hb => ih b hb (fun y hy =>
      hbs y (List.mem_flatMap.2 ⟨b, hb, hy⟩)) (some x))

/-- Branches in which no node is relinked stay as they are. -/
theorem Branch.relink_flatMap_entries {bs : List Branch} (h : ∀ x ∈ bs.flatMap ids, m.Avoids x)
    (parent : Option NodeId) :
    m.relink p (bs.flatMap (entries parent)) = bs.flatMap (entries parent) := by
  rw [Sinking.relink, List.map_flatMap]
  exact List.flatMap_congr fun b hb => relink_entries (fun y hy =>
    h y (List.mem_flatMap.2 ⟨b, hb, hy⟩)) parent

/-- In the entry of a node above a branch, at most the branch is relinked. -/
theorem Frame.relinked_node {f : Frame} {parent : Option NodeId} {hole : NodeId} (hf : f.id ≠ m.id)
    (hsiblings : ∀ x ∈ f.siblings.flatMap Branch.ids, m.Avoids x) :
    p.relinked m f.id
        (f.label.node parent (f.left.map Branch.top ++ hole :: f.right.map Branch.top)) =
      f.label.node
        (if f.id = m.upper then p.parent? m.id else if f.id = m.lower then some m.id else parent)
        (f.left.map Branch.top ++ m.successor hole :: f.right.map Branch.top) := by
  rw [siblings, List.flatMap_append, List.forall_mem_append] at hsiblings
  rw [Plan.relinked_node hf, List.map_append, List.map_cons, Sinking.map_successor_tops hsiblings.1,
    Sinking.map_successor_tops hsiblings.2]

/-- Around a branch, only the branch itself is relinked. -/
theorem Context.relink_entries {d : Context} (h : ∀ x ∈ d.ids, m.Avoids x) (hole : NodeId) :
    m.relink p (d.entries hole) = d.entries (m.successor hole) := by
  induction d generalizing hole with
  | nil => rfl
  | cons f d ih =>
    rw [ids_cons, List.forall_mem_cons, List.forall_mem_append] at h
    obtain ⟨hf, hsiblings, hd⟩ := h
    have hrest := ih hd f.id
    rw [Sinking.successor_eq_self hf.1 hf.2.2] at hrest
    have hbelow := Branch.relink_flatMap_entries (p := p) hsiblings (some f.id)
    rw [Sinking.relink] at hrest hbelow
    rw [entries, entries, Sinking.relink, List.map_cons, List.map_append, hrest, hbelow,
      Frame.relinked_node hf.1 hsiblings, if_neg hf.2.1, if_neg hf.2.2]

/-- Above the branch that the node is put onto, the node is taken out, and the nearest of the nodes above
lists it instead of the branch. -/
theorem Context.relink_entries_above {c d : Context} {f : Frame} {l : Label} {s : Branch}
    (hnodup : (ids (f :: (c ++ ⟨m.id, l, [], []⟩ :: d))).Nodup)
    (hlower : m.lower ∉ ids (f :: (c ++ ⟨m.id, l, [], []⟩ :: d)))
    (hupper : (plug (f :: c) s).top = m.upper) (hparent : p.parent? m.id = d.parent?)
    (hole : NodeId) :
    (m.relink p (entries (f :: (c ++ ⟨m.id, l, [], []⟩ :: d)) hole)).Perm
      ((m.id, Label.node { l with scope := m.scope } (p.parent? m.lower) [m.lower]) ::
        entries (f :: (c ++ d)) (m.successor hole)) := by
  induction c generalizing f hole s with
  | nil =>
    have hupper : f.id = m.upper := hupper
    obtain ⟨hf, hsiblings, hd⟩ := nodup_ids_cons hnodup
    simp only [List.nil_append, ids_cons, Frame.siblings, List.append_nil, List.flatMap_nil,
      List.mem_cons, List.mem_append, not_or, List.nodup_cons] at hf hd hsiblings hlower
    have havoids : ∀ x ∈ f.siblings.flatMap Branch.ids, m.Avoids x := fun x hx =>
      ⟨(hsiblings x hx).2.1, hupper ▸ (hsiblings x hx).1, fun heq => hlower.2.1 (heq ▸ hx)⟩
    have hbelow := Branch.relink_flatMap_entries (p := p) havoids (some f.id)
    have havoids' : ∀ x ∈ d.ids, m.Avoids x := fun x hx =>
      ⟨fun heq => hd.1 (heq ▸ hx), fun heq => hf.2 (hupper ▸ heq ▸ hx),
        fun heq => hlower.2.2.2 (heq ▸ hx)⟩
    have habove := relink_entries (p := p) havoids' m.id
    have hsuccessor : m.successor m.id = f.id := by simp [Sinking.successor, hupper]
    have hnode : p.relinked m m.id (l.node d.parent? [f.id]) =
        Label.node { l with scope := m.scope } (p.parent? m.lower) [m.lower] := by
      rw [Plan.relinked, if_pos rfl]
      rfl
    have hnone : Frame.siblings ⟨m.id, l, [], []⟩ = [] := rfl
    rw [hsuccessor] at habove
    simp only [Sinking.relink] at hbelow habove ⊢
    simp only [List.nil_append, entries, List.map_cons, List.map_append, List.map_nil, hbelow, habove,
      Frame.relinked_node hf.1 havoids, if_pos hupper, hparent, hnode, hnone, List.flatMap_nil]
    exact (List.Perm.cons _ List.perm_middle).trans (List.Perm.swap _ _ _)
  | cons g c ih =>
    obtain ⟨hf, hsiblings, hd⟩ := nodup_ids_cons hnodup
    have hmem : m.id ∈ ids (g :: c ++ ⟨m.id, l, [], []⟩ :: d) := by simp [ids]
    have htop : m.upper ∈ ids (g :: c ++ ⟨m.id, l, [], []⟩ :: d) := by
      rw [ids, List.flatMap_append]
      exact List.mem_append_left _ (hupper ▸ top_plug_mem_ids g c (f.fill s))
    rw [ids_cons, List.mem_cons, List.mem_append, not_or, not_or] at hlower
    have havoids : ∀ x ∈ f.siblings.flatMap Branch.ids, m.Avoids x := fun x hx =>
      ⟨fun heq => (hsiblings x hx).2 (heq ▸ hmem), fun heq => (hsiblings x hx).2 (heq ▸ htop),
        fun heq => hlower.2.1 (heq ▸ hx)⟩
    have hid : f.id ≠ m.id := fun heq => hf (heq ▸ hmem)
    have hne : f.id ≠ m.upper := fun heq => hf (heq ▸ htop)
    have hbelow := Branch.relink_flatMap_entries (p := p) havoids (some f.id)
    have habove := ih (s := f.fill s) hd hlower.2.2 hupper f.id
    rw [Sinking.successor_eq_self hid (Ne.symm hlower.1)] at habove
    simp only [Sinking.relink] at hbelow habove ⊢
    rw [List.cons_append, entries, List.map_cons, List.map_append, hbelow,
      Frame.relinked_node hid havoids, if_neg hne, if_neg (Ne.symm hlower.1), List.cons_append, entries]
    exact ((habove.append_left _).trans List.perm_middle).cons _ |>.trans (List.Perm.swap _ _ _)

/-- The entries of a tree in which a node has sunk are those of the tree before, relinked. -/
theorem Context.relink_entries_plug {c d : Context} {f : Frame} {l : Label} {s : Branch}
    (hnodup : (plug (f :: (c ++ ⟨m.id, l, [], []⟩ :: d)) s).ids.Nodup) (hlower : s.top = m.lower)
    (hupper : (plug (f :: c) s).top = m.upper) (hparent : p.parent? m.id = d.parent?)
    (hparent' : p.parent? m.lower = some f.id) :
    (m.relink p ((plug (f :: (c ++ ⟨m.id, l, [], []⟩ :: d)) s).entries none)).Perm
      ((plug (⟨m.id, { l with scope := m.scope }, [], []⟩ :: f :: (c ++ d)) s).entries none) := by
  have hnodup' := (ids_plug _ s).nodup_iff.1 hnodup
  obtain ⟨hs, habove, hdisjoint⟩ := List.nodup_append.1 hnodup'
  have hid : m.id ∈ ids (f :: (c ++ ⟨m.id, l, [], []⟩ :: d)) := by simp [ids]
  have htop : m.upper ∈ ids (f :: (c ++ ⟨m.id, l, [], []⟩ :: d)) := by
    rw [← List.cons_append, ids, List.flatMap_append]
    exact List.mem_append_left _ (hupper ▸ top_plug_mem_ids f c s)
  have hnot : m.lower ∉ ids (f :: (c ++ ⟨m.id, l, [], []⟩ :: d)) := fun hmem =>
    hdisjoint m.lower (hlower ▸ s.top_mem_ids) m.lower hmem rfl
  have hlist := relink_entries_above (p := p) habove hnot hupper hparent m.lower
  obtain ⟨x, k, bs⟩ := s
  obtain rfl : x = m.lower := hlower
  rw [Branch.ids_node, List.nodup_cons] at hs
  have havoids : ∀ x ∈ bs.flatMap Branch.ids, m.Avoids x := by
    intro x hx
    have hx' : x ∈ (Branch.node m.lower k bs).ids := by
      rw [Branch.ids_node]
      exact List.mem_cons_of_mem _ hx
    exact ⟨hdisjoint x hx' m.id hid, hdisjoint x hx' m.upper htop, fun heq => hs.1 (heq ▸ hx)⟩
  have hne : m.lower ≠ m.id := fun heq => hnot (heq ▸ hid)
  have hne' : m.lower ≠ m.upper := fun heq => hnot (heq ▸ htop)
  have hsuccessor : m.successor m.lower = m.id := by simp [Sinking.successor, hne]
  have hhead : p.relinked m m.lower (k.node (some f.id) (bs.map Branch.top)) =
      k.node (some m.id) (bs.map Branch.top) := by
    rw [Plan.relinked_node hne, if_neg hne', if_pos rfl, Sinking.map_successor_tops havoids]
  have hbelow := Branch.relink_flatMap_entries (p := p) havoids (some m.lower)
  rw [hsuccessor, hparent'] at hlist
  rw [Sinking.relink] at hbelow
  refine (((entries_plug _ _).map _).trans ?_).trans (entries_plug _ _).symm
  rw [List.map_append]
  refine (List.Perm.append_left _ hlist).trans ?_
  rw [parent?_cons, parent?_cons, Branch.entries_node, Branch.entries_node, List.map_cons, hhead, hbelow]
  exact .refl _

end Relinked

namespace Plan.Shows

variable {p q : Plan} {rest : NodeId → Option Node}

/-- The top of a branch records the node above it. -/
theorem parent?_eq {c : Context} {s : Branch} (h : p.Shows (c.plug s) rest) :
    p.parent? s.top = c.parent? := by
  rw [parent?, h.has_plug.get?_top]
  rfl

/-- If another branch takes the place of the whole tree, its uppermost node becomes the root. -/
theorem root_eq_of_plug {d : Context} {t t' : Branch} (h : p.Shows (d.plug t) rest)
    (hq : q.Shows (d.plug t') rest) :
    q.root = if p.root = some t.top then some t'.top else p.root := by
  rw [hq.root_eq, h.root_eq]
  cases d with
  | nil => rw [Context.plug_nil, Context.plug_nil, if_pos rfl]
  | cons g d =>
    have hne := Context.top_ne_top_plug h.nodup_ids
    rw [if_neg fun heq => hne (Option.some.inj heq).symm, Context.top_plug_cons g d t' t]

/-- A plan in which a node stands further down is the plan in which it has sunk. -/
theorem eq_sink {f : Frame} {c d : Context} {id : NodeId} {l : Label} {s : Branch} {scope : AliasSet}
    (h : p.Shows (d.plug (.node id l [Context.plug (f :: c) s])) rest)
    (hq : q.Shows (d.plug (Context.plug (f :: c) (.node id { l with scope } [s]))) rest)
    (hsize : q.nodes.size = p.nodes.size) (hrest : Linked rest) :
    q = p.sink ⟨id, (Context.plug (f :: c) s).top, s.top, scope⟩ := by
  have hparent : p.parent? id = d.parent? := h.parent?_eq
  have hid := h.rest_eq_none (d.top_mem_ids_plug (.node id l [Context.plug (f :: c) s]))
  have hupper := h.rest_eq_none
    (Context.top_mem_ids_plug (⟨id, l, [], []⟩ :: d) (Context.plug (f :: c) s))
  have hroot := h.root_eq_of_plug hq
  rw [Context.top_plug_cons f c _ s] at hroot
  have hsunk : d.plug (.node id l [Context.plug (f :: c) s]) =
      Context.plug (f :: (c ++ ⟨id, l, [], []⟩ :: d)) s := by
    rw [← List.cons_append, Context.plug_append]
    rfl
  have hput : d.plug (Context.plug (f :: c) (.node id { l with scope } [s])) =
      Context.plug (⟨id, { l with scope }, [], []⟩ :: f :: (c ++ d)) s := by
    rw [← List.cons_append, ← List.cons_append, Context.plug_append]
    rfl
  rw [hsunk] at h
  rw [hput] at hq
  have hlower := h.rest_eq_none (Context.top_mem_ids_plug _ s)
  let m : Sinking := ⟨id, (Context.plug (f :: c) s).top, s.top, scope⟩
  have hentries := Context.relink_entries_plug (p := p) (m := m) h.nodup_ids rfl rfl hparent
    h.parent?_eq
  refine ext_get? hroot (by rw [hsize, sink, Array.size_mapIdx]) fun x => ?_
  rw [get?_sink]
  by_cases hx : x ∈ ((Context.plug (f :: (c ++ ⟨id, l, [], []⟩ :: d)) s).entries none).map Prod.fst
  · obtain ⟨⟨x, n⟩, he, rfl⟩ := List.mem_map.1 hx
    rw [h.splits.get?_entry x n he, Option.map_some]
    exact hq.splits.get?_entry x _ (hentries.mem_iff.1 (List.mem_map_of_mem he))
  · have hids := (hentries.map Prod.fst).mem_iff (a := x)
    rw [Sinking.map_fst_relink] at hids
    rw [hq.splits.get?_rest x fun hmem => hx (hids.2 hmem), h.splits.get?_rest x hx]
    cases hn : rest x with
    | none => rfl
    | some n =>
      -- Nothing outside the tree is relinked, and nothing outside lists a node of the tree.
      have houtside : ∀ y k, rest y = some k → m.Avoids y := by
        intro y k hk
        refine ⟨?_, ?_, ?_⟩ <;> rintro rfl
        · exact Option.some_ne_none k (hk.symm.trans hid)
        · exact Option.some_ne_none k (hk.symm.trans hupper)
        · exact Option.some_ne_none k (hk.symm.trans hlower)
      rw [Option.map_some, relinked_eq_self (houtside x n hn) fun y hy => ?_]
      obtain ⟨k, hk, -⟩ := hrest.child hn y hy
      exact ⟨(houtside y k hk).1, (houtside y k hk).2.2⟩

end Plan.Shows

end QueryPlan
