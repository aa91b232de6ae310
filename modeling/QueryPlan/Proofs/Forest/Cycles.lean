import Mathlib
import QueryPlan.Proofs.Forest.Basic
import QueryPlan.Proofs.Valid.Sound

/-!
# Cycles beside the tree

Validation looks at the links of every node, but it walks from the root only.  A node that the walk
does not meet passes if its links agree, and they can agree all the way around a cycle.  So a plan
that passes may hold more than its tree: rings of nodes, and what hangs below a ring.  Nothing else
escapes, since the way up from any other node ends at the root.

Main results:

- Theorem `Plan.Shows.not_ancestor_self`: no cycle lies above a node of the tree.
- Theorem `Plan.Shows.ancestor_top_iff`: the nodes that have a node of the tree above them.
- Theorem `Plan.exists_cycle_above`: a cycle lies above every other node.
- Theorem `Plan.reachable_iff_of_validate`: the reachable nodes of a plan that passes validation.
- Theorem `Plan.not_reachable_looseLoop`: there are plans that pass with an unreachable node.
-/

namespace QueryPlan.Plan

variable {p : Plan} {c : Context} {s : Branch} {rest : NodeId → Option Node} {x y : NodeId} {n : Node}

/-! ## The way up in a tree -/

/-- The parent of a branch in a tree is the next node of its context. -/
theorem Shows.isParent_iff (h : p.Shows (c.plug s) rest) :
    p.IsParent x s.top ↔ c.parent? = some x := by
  simp [IsParent, h.has_plug.get?_top]

/-- The ancestors of a branch in a tree are the nodes above it. -/
theorem Shows.ancestor_iff (h : p.Shows (c.plug s) rest) :
    p.Ancestor x s.top ↔ ∃ f ∈ c, f.id = x := by
  induction c generalizing s with
  | nil => simp [Relation.TransGen.tail'_iff, h.isParent_iff]
  | cons f c ih =>
    have habove : p.Ancestor x f.id ↔ ∃ g ∈ c, g.id = x := ih (s := f.fill s) h
    have hstep : p.Ancestor x s.top ↔ f.id = x ∨ p.Ancestor x f.id := by
      rw [← Relation.reflTransGen_iff_eq_or_transGen]
      simp [Relation.TransGen.tail'_iff, h.isParent_iff]
    rw [hstep, habove, List.exists_mem_cons_iff]

/-- The ancestors of a branch in a tree are among the positions of its context. -/
theorem Shows.mem_ids_of_ancestor (h : p.Shows (c.plug s) rest) (hx : p.Ancestor x s.top) :
    x ∈ c.ids := by
  obtain ⟨f, hf, rfl⟩ := h.ancestor_iff.1 hx
  exact List.mem_flatMap.2 ⟨f, hf, List.mem_cons_self⟩

/-- No cycle lies above a node of a tree. -/
theorem Shows.not_ancestor_self (h : p.Shows (c.plug s) rest) : ¬ p.Ancestor s.top s.top := by
  intro hcycle
  have hnodup := (c.ids_plug s).nodup_iff.1 h.nodup_ids
  exact (List.nodup_append.1 hnodup).2.2 s.top s.top_mem_ids s.top (h.mem_ids_of_ancestor hcycle) rfl

/-- The nodes strictly between a branch in a tree and a node above it. -/
theorem Shows.between_iff {d e : Context} {f : Frame}
    (h : p.Shows (Context.plug (d ++ f :: e) s) rest) :
    (p.Ancestor f.id x ∧ p.Ancestor x s.top) ↔ ∃ g ∈ d, g.id = x := by
  have hf : p.Shows (Context.plug e (f.fill (d.plug s))) rest := by
    rwa [Context.plug_append] at h
  constructor
  · rintro ⟨hfx, hxs⟩
    obtain ⟨g, hg, rfl⟩ := h.ancestor_iff.1 hxs
    rcases List.mem_append.1 hg with hg | hg
    · exact ⟨g, hg, rfl⟩
    rcases List.mem_cons.1 hg with rfl | hg
    · exact absurd hfx hf.not_ancestor_self
    · exact absurd (hfx.trans (hf.ancestor_iff.2 ⟨g, hg, rfl⟩)) hf.not_ancestor_self
  · rintro ⟨g, hg, rfl⟩
    refine ⟨?_, h.ancestor_iff.2 ⟨g, List.mem_append_left _ hg, rfl⟩⟩
    obtain ⟨d₁, d₂, rfl⟩ := List.append_of_mem hg
    have hg' : p.Shows (Context.plug (d₂ ++ f :: e) (g.fill (Context.plug d₁ s))) rest := by
      rwa [List.append_assoc, Context.plug_append] at h
    exact hg'.ancestor_iff.2 ⟨f, List.mem_append_right _ List.mem_cons_self, rfl⟩

/-- A node above a node of a tree is a node of the tree. -/
theorem Shows.mem_ids_of_above {b : Branch} (h : p.Shows b rest) (hx : x ∈ b.ids)
    (hy : Relation.ReflTransGen p.IsParent y x) : y ∈ b.ids := by
  obtain ⟨c, s, rfl, rfl⟩ := Branch.exists_plug_of_mem_ids hx
  rcases Relation.reflTransGen_iff_eq_or_transGen.1 hy with heq | habove
  · exact heq ▸ hx
  · exact (c.ids_plug s).mem_iff.2 (List.mem_append_right _ (h.mem_ids_of_ancestor habove))

/-- The nodes that have a node of the tree as an ancestor are the nodes below it. -/
theorem Shows.ancestor_top_iff (h : p.Shows (c.plug s) rest) (hrest : Linked rest) :
    p.Ancestor s.top x ↔ x ∈ s.branches.flatMap Branch.ids := by
  have hchild : ∀ {y z m}, p.IsParent y z → p.get? y = some m → z ∈ m.children := by
    rintro y z m ⟨n, hget, hparent⟩ hm
    obtain ⟨m', hm', hmem⟩ := (h.splits_singleton.links_mutual hrest).parent hget y hparent
    obtain rfl := Option.some.inj (hm.symm.trans hm')
    exact hmem
  -- A branch below stands in the frame of the node.
  have hbelow : ∀ {d : Context} {t : Branch}, d.plug t ∈ s.branches →
      ∃ f : Frame, f.id = s.top ∧ p.Shows (Context.plug (d ++ f :: c) t) rest := by
    intro d t hb
    obtain ⟨id, l, bs⟩ := s
    obtain ⟨f, hf, -, heq⟩ := Branch.exists_fill_of_mem id l hb
    exact ⟨f, hf, by rwa [Context.plug_append, Context.plug_cons, ← heq]⟩
  constructor
  · intro hx
    induction hx with
    | single hparent =>
      exact (Branch.map_top_sublist _).subset (hchild hparent h.has_plug.get?_top)
    | @tail y z _ hparent ih =>
      obtain ⟨b, hb, hy⟩ := List.mem_flatMap.1 ih
      obtain ⟨d, t, rfl, rfl⟩ := Branch.exists_plug_of_mem_ids hy
      obtain ⟨f, -, hf⟩ := hbelow hb
      have hz : z ∈ t.ids := by
        have hmem := (Branch.map_top_sublist _).subset (hchild hparent hf.has_plug.get?_top)
        cases t
        rw [Branch.ids_node]
        exact List.mem_cons_of_mem _ hmem
      exact List.mem_flatMap.2 ⟨_, hb, (d.ids_plug t).mem_iff.2 (List.mem_append_left _ hz)⟩
  · intro hx
    obtain ⟨b, hb, hx⟩ := List.mem_flatMap.1 hx
    obtain ⟨d, t, rfl, rfl⟩ := Branch.exists_plug_of_mem_ids hx
    obtain ⟨f, hid, hf⟩ := hbelow hb
    exact hf.ancestor_iff.2 ⟨f, List.mem_append_right _ List.mem_cons_self, hid⟩

/-! ## The way up outside the tree -/

/-- A cycle lies above every node outside the tree: its parents stand outside, too, and there are
only finitely many positions. -/
theorem exists_cycle_above (h : Linked rest)
    (hrest : ∀ {y m}, rest y = some m → p.get? y = some m) (hx : rest x = some n) :
    ∃ y, Relation.ReflTransGen p.IsParent y x ∧ p.Ancestor y y := by
  by_contra hnone
  -- Without a cycle, the nodes above `x` have a least one, but this one has a parent again.
  let Above := { i : Fin p.nodes.size // Relation.ReflTransGen p.IsParent i x }
  let lower (i j : Above) : Prop := p.Ancestor i.1 j.1
  have : IsTrans Above lower := ⟨fun _ _ _ hij hjk => hij.trans hjk⟩
  have : Std.Irrefl lower := ⟨fun i hi => hnone ⟨i.1, i.2, hi⟩⟩
  have hwf : WellFounded lower := Finite.wellFounded_of_trans_of_irrefl lower
  have hempty : ∀ i : Above, (rest i.1).isSome = true → False := by
    intro i
    induction i using hwf.induction with
    | _ i ih =>
      intro hi
      obtain ⟨m, hm⟩ := Option.isSome_iff_exists.1 hi
      obtain ⟨z, k, hparent, hk, -⟩ := h.parent hm
      have hz : p.IsParent z i.1 := ⟨m, hrest hm, hparent⟩
      have hlt : z < p.nodes.size := lt_size_of_get? (hrest hk)
      exact ih ⟨⟨z, hlt⟩, .head hz i.2⟩ (.single hz) (by simp [hk])
  exact hempty ⟨⟨x, lt_size_of_get? (hrest hx)⟩, .refl⟩ (by simp [hx])

/-! ## Plans that pass validation -/

/-- Of the nodes of a plan that passes validation, those are reachable that have no cycle above them.
All nodes are reachable, so that the store holds one tree and nothing else, exactly if no chain of
parents comes back to where it started. -/
theorem reachable_iff_of_validate (h : p.validate = .ok ()) :
    (∀ x n, p.get? x = some n →
      (p.Reachable x ↔ ¬ ∃ y, Relation.ReflTransGen p.IsParent y x ∧ p.Ancestor y y)) ∧
    ((∀ x n, p.get? x = some n → p.Reachable x) ↔ ∀ x, ¬ p.Ancestor x x) := by
  obtain ⟨b, rest, hsound⟩ := validate_eq_ok_iff.1 h
  have hshows := hsound.shows
  have hone : ∀ x n, p.get? x = some n →
      (p.Reachable x ↔ ¬ ∃ y, Relation.ReflTransGen p.IsParent y x ∧ p.Ancestor y y) := by
    intro x n hget
    rw [hshows.reachable_iff]
    constructor
    · rintro hx ⟨y, hyx, hcycle⟩
      obtain ⟨c, s, rfl, rfl⟩ := Branch.exists_plug_of_mem_ids (hshows.mem_ids_of_above hx hyx)
      exact hshows.not_ancestor_self hcycle
    · intro hnone
      by_contra hx
      rcases hshows.get?_eq_or x with ⟨c, s, rfl, rfl, -⟩ | ⟨-, hrest⟩
      · exact hx (Context.top_mem_ids_plug c s)
      · exact hnone (exists_cycle_above hsound.linked hshows.get?_of_rest (hrest ▸ hget))
  refine ⟨hone, fun hall x hcycle => ?_, fun hacyclic x n hget => ?_⟩
  · obtain ⟨y, _, n, hget, _⟩ := Relation.TransGen.tail'_iff.1 hcycle
    exact (hone x n hget).1 (hall x n hget) ⟨x, .refl, hcycle⟩
  · exact (hone x n hget).2 fun ⟨y, _, hcycle⟩ => hacyclic y hcycle

/-- A scan at the root, and beside it a projection that is its own parent and its own child. -/
def looseLoop : Plan where
  nodes := #[
    some ⟨.scan "a", none, [], .singleton "a", false⟩,
    some ⟨.projection .empty, some 1, [1], .empty, false⟩]
  root := some 0

/-- The scan is reachable, and the loop is not. -/
theorem reachable_iff_of_validate_looseLoop :
    looseLoop.validate = .ok () ∧ ¬ looseLoop.Reachable 1 ∧
      (looseLoop.Reachable 0 ↔
        ¬ ∃ y, Relation.ReflTransGen looseLoop.IsParent y 0 ∧ looseLoop.Ancestor y y) := by
  have hvalid : looseLoop.validate = .ok () := by cbv
  have hloop : looseLoop.IsParent 1 1 := ⟨_, rfl, rfl⟩
  have hreachable := (reachable_iff_of_validate hvalid).1
  refine ⟨hvalid, fun h => ?_, hreachable 0 _ rfl⟩
  exact (hreachable 1 _ rfl).1 h ⟨1, .refl, .single hloop⟩

/-- A plan can pass validation although one of its nodes cannot be reached from the root. -/
theorem not_reachable_looseLoop :
    looseLoop.validate = .ok () ∧ looseLoop.contains 1 = true ∧ ¬ looseLoop.Reachable 1 := by
  have hroot : ∀ x, looseLoop.Reachable x → x = 0 := by
    intro x hx
    induction hx with
    | root h => exact (Option.some.inj h).symm
    | child _ hget hchild ih =>
      subst ih
      obtain rfl := Option.some.inj hget
      exact absurd hchild List.not_mem_nil
  exact ⟨by cbv, rfl, fun h => absurd (hroot 1 h) (by decide)⟩

end QueryPlan.Plan
