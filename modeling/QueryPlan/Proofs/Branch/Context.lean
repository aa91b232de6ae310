import QueryPlan.Proofs.Branch.Basic

/-!
# Branches in context

A branch that is a part of a larger one stands in a context: the nodes above it, each with its other
branches.  The context of a node lists its ancestors from the nearest one up.  A rule changes one
branch and leaves its context alone, so statements about whole plans are carried up along contexts.

Main results:

- Theorem `Context.entries_plug`: the entries of a branch in context are its own and those of the
  context.
- Theorem `Context.scans_plug_congr`: what a branch in context scans depends on the scans of the
  branch alone.
- Theorem `Branch.exists_plug_of_mem_ids`: every node of a branch stands in a context.
-/

namespace QueryPlan

/-- A node with all its branches but one. -/
structure Frame where
  id : NodeId
  label : Label
  /-- The branches before the missing one. -/
  left : List Branch
  /-- The branches after the missing one. -/
  right : List Branch

namespace Frame

/-- Puts a branch in the place of the missing one. -/
def fill (f : Frame) (b : Branch) : Branch :=
  .node f.id f.label (f.left ++ b :: f.right)

/-- The node without the missing branch. -/
def close (f : Frame) : Branch :=
  .node f.id f.label (f.left ++ f.right)

/-- The branches that are not missing. -/
def siblings (f : Frame) : List Branch :=
  f.left ++ f.right

/-- A filled frame keeps its node at the top. -/
@[simp]
theorem top_fill (f : Frame) (b : Branch) : (f.fill b).top = f.id :=
  rfl

end Frame

/-- The nodes above a branch, nearest first. -/
abbrev Context := List Frame

namespace Context

/-- Puts a branch into its context. -/
def plug : Context → Branch → Branch
  | [], b => b
  | f :: c, b => plug c (f.fill b)

/-- The parent of a branch in a context. -/
def parent? (c : Context) : Option NodeId :=
  c.head?.map Frame.id

/-- The positions of the nodes of a context. -/
def ids (c : Context) : List NodeId :=
  c.flatMap fun f => f.id :: f.siblings.flatMap Branch.ids

/-- The nodes of a context around a branch whose uppermost node stands at `hole`. -/
def entries : Context → NodeId → List (NodeId × Node)
  | [], _ => []
  | f :: c, hole =>
    (f.id, f.label.node (parent? c) (f.left.map Branch.top ++ hole :: f.right.map Branch.top)) ::
      (f.siblings.flatMap (Branch.entries (some f.id)) ++ entries c f.id)

/-- An empty context adds nothing to a branch. -/
@[simp]
theorem plug_nil (b : Branch) : plug [] b = b :=
  rfl

/-- A context is plugged from the nearest node up. -/
@[simp]
theorem plug_cons (f : Frame) (c : Context) (b : Branch) : plug (f :: c) b = plug c (f.fill b) :=
  rfl

/-- A branch is plugged into two contexts one after the other. -/
@[simp]
theorem plug_append (c d : Context) (b : Branch) : plug (c ++ d) b = plug d (plug c b) := by
  induction c generalizing b with
  | nil => rfl
  | cons f c ih => exact ih (f.fill b)

/-- A branch in the empty context has no parent. -/
@[simp]
theorem parent?_nil : parent? [] = none :=
  rfl

/-- The parent of a branch is the nearest node of its context. -/
@[simp]
theorem parent?_cons (f : Frame) (c : Context) : parent? (f :: c) = some f.id :=
  rfl

/-- The empty context has no positions. -/
@[simp]
theorem ids_nil : ids [] = [] :=
  rfl

/-- The positions of a context are those of its nearest node, of the branches beside it and of the
rest. -/
@[simp]
theorem ids_cons (f : Frame) (c : Context) :
    ids (f :: c) = f.id :: (f.siblings.flatMap Branch.ids ++ ids c) :=
  rfl

/-- The entries of a context stand at its positions. -/
@[simp]
theorem map_fst_entries (c : Context) (hole : NodeId) : (entries c hole).map Prod.fst = ids c := by
  induction c generalizing hole with
  | nil => rfl
  | cons f c ih => simp [entries, ih]

/-- Within a context that is not empty, the uppermost node is one of the context. -/
theorem top_plug_cons (f : Frame) (c : Context) (b b' : Branch) :
    (plug (f :: c) b).top = (plug (f :: c) b').top := by
  induction c generalizing f b b' with
  | nil => rfl
  | cons g c ih => exact ih g (f.fill b) (f.fill b')

/-- The entries of a branch in context are its own and those of the context. -/
theorem entries_plug (c : Context) (b : Branch) :
    ((plug c b).entries none).Perm (b.entries (parent? c) ++ entries c b.top) := by
  induction c generalizing b with
  | nil => simp [entries]
  | cons f c ih =>
    refine (ih (f.fill b)).trans ?_
    simp only [Frame.fill, Branch.entries_node, Branch.top_node, entries, parent?_cons,
      List.map_append, List.map_cons, List.flatMap_append, List.flatMap_cons, Frame.siblings,
      List.cons_append, List.append_assoc]
    refine List.Perm.trans ?_ List.perm_middle.symm
    refine List.Perm.cons _ ?_
    rw [← List.append_assoc, ← List.append_assoc (b.entries _)]
    exact List.perm_append_comm.append_right _

/-- The positions of a branch in context are its own and those of the context. -/
theorem ids_plug (c : Context) (b : Branch) : (plug c b).ids.Perm (b.ids ++ ids c) := by
  have h := (entries_plug c b).map Prod.fst
  simpa using h

/-- The positions of a branch in context are its own and those of what is left without it. -/
theorem ids_plug_close (f : Frame) (c : Context) (b : Branch) :
    (plug (f :: c) b).ids.Perm (b.ids ++ (plug c f.close).ids) := by
  refine (ids_plug (f :: c) b).trans (List.Perm.append_left _ ?_)
  refine List.Perm.trans ?_ (ids_plug c f.close).symm
  rw [ids_cons, Frame.close, Branch.ids_node, Frame.siblings, List.cons_append]

/-- The top of a branch is a position of every tree the branch is a part of. -/
theorem top_mem_ids_plug (c : Context) (s : Branch) : s.top ∈ (c.plug s).ids :=
  (c.ids_plug s).mem_iff.2 (List.mem_append_left _ s.top_mem_ids)

/-- The positions of the nodes in a context differ. -/
theorem nodup_ids_cons {f : Frame} {c : Context} (h : (ids (f :: c)).Nodup) :
    f.id ∉ ids c ∧ (∀ x ∈ f.siblings.flatMap Branch.ids, x ≠ f.id ∧ x ∉ ids c) ∧ (ids c).Nodup := by
  rw [ids_cons, List.nodup_cons, List.mem_append, List.nodup_append] at h
  obtain ⟨hf, -, hc, hdisjoint⟩ := h
  refine ⟨fun hmem => hf (.inr hmem), fun x hx => ⟨fun heq => hf (.inl (heq ▸ hx)), fun hmem => ?_⟩, hc⟩
  exact hdisjoint x hx x hmem rfl

/-- The uppermost node of a tree is one of the nodes above any branch further down. -/
theorem top_plug_mem_ids (f : Frame) (c : Context) (s : Branch) :
    (plug (f :: c) s).top ∈ ids (f :: c) := by
  induction c generalizing f s with
  | nil => exact List.mem_cons_self
  | cons g c ih =>
    rw [ids_cons]
    exact List.mem_cons_of_mem _ (List.mem_append_right _ (ih g (f.fill s)))

/-- The uppermost node of a tree is not the uppermost node of a branch further down. -/
theorem top_ne_top_plug {f : Frame} {c : Context} {s : Branch}
    (h : (plug (f :: c) s).ids.Nodup) : s.top ≠ (plug (f :: c) s).top := by
  have hdisjoint := (List.nodup_append.1 ((ids_plug (f :: c) s).nodup_iff.1 h)).2.2
  exact hdisjoint s.top s.top_mem_ids _ (top_plug_mem_ids f c s)

/-! ## Scans in context -/

/-- What a branch in context scans depends on the scans of the branch alone. -/
theorem scans_plug_congr {b b' : Branch} (h : b.scans = b'.scans) (c : Context) :
    (plug c b).scans = (plug c b').scans := by
  induction c generalizing b b' with
  | nil => exact h
  | cons f c ih => exact ih (by simp [Frame.fill, h])

/-- A branch scans no more than any larger branch it is a part of. -/
theorem scans_sublist_plug (c : Context) (b : Branch) : b.scans.Sublist (plug c b).scans := by
  induction c generalizing b with
  | nil => exact .refl _
  | cons f c ih =>
    refine List.Sublist.trans ?_ (ih (f.fill b))
    rw [Frame.fill, Branch.scans_node]
    refine List.Sublist.trans ?_ (List.sublist_append_right _ _)
    rw [List.flatMap_append, List.flatMap_cons]
    exact (List.sublist_append_left _ _).trans (List.sublist_append_right _ _)

end Context

namespace Branch

/-- A branch directly below a node stands in the frame of that node. -/
theorem exists_fill_of_mem (id : NodeId) (l : Label) {bs : List Branch} {b : Branch}
    (hb : b ∈ bs) : ∃ f : Frame, f.id = id ∧ f.label = l ∧ node id l bs = f.fill b := by
  obtain ⟨left, right, rfl⟩ := List.append_of_mem hb
  exact ⟨⟨id, l, left, right⟩, rfl, rfl, rfl⟩

/-- What stands in a branch stands in the node above it, too. -/
theorem exists_plug_node (id : NodeId) (l : Label) {bs : List Branch} {c : Context} {s : Branch}
    (hb : c.plug s ∈ bs) : ∃ f, node id l bs = Context.plug (c ++ [f]) s := by
  obtain ⟨f, -, -, hf⟩ := exists_fill_of_mem id l hb
  refine ⟨f, ?_⟩
  rw [hf, Context.plug_append]
  rfl

/-- What holds of everything that stands in a node holds of everything that stands in its branches. -/
theorem forall_plug_of_mem {motive : Branch → Prop} {id : NodeId} {l : Label} {bs : List Branch}
    {b : Branch} (h : ∀ c s, node id l bs = Context.plug c s → motive s) (hb : b ∈ bs) :
    ∀ c s, b = Context.plug c s → motive s := by
  rintro c s rfl
  obtain ⟨f, hf⟩ := exists_plug_node id l hb
  exact h (c ++ [f]) s hf

/-- Every node of a branch stands in a context. -/
theorem exists_plug_of_mem_ids {b : Branch} {x : NodeId} (hx : x ∈ b.ids) :
    ∃ c s, b = Context.plug c s ∧ s.top = x := by
  induction b with
  | node id l bs ih =>
    rw [ids_node, List.mem_cons, List.mem_flatMap] at hx
    rcases hx with rfl | ⟨b, hb, hx⟩
    · exact ⟨[], node x l bs, rfl, rfl⟩
    · obtain ⟨c, s, rfl, htop⟩ := ih b hb hx
      obtain ⟨f, hf⟩ := exists_plug_node id l hb
      exact ⟨c ++ [f], s, hf, htop⟩

end Branch

end QueryPlan
