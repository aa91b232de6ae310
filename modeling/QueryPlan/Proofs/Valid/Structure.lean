import QueryPlan.Proofs.Valid.Growth

/-!
# Plans whose links agree are trees

Validation first looks at the links of each node by itself.  If they agree, the nodes reachable from
the root form a tree, and the walk that follows can only find nodes with the wrong number of
children: it never meets a hole or a node twice.  The other nodes of the store link to each other
only.  Such nodes can be there: they lie on cycles, which no walk from the root meets.

Main results:

- Theorem `Plan.Agree.exists_shows`: a plan whose links agree is a tree.
- Theorem `Plan.Shows.structuralErrors_eq`: what validation says about the structure of such a plan.
- Theorem `Plan.structuralErrors_sound`: validation of the structure of any plan comes to an end, and
  what passes can be walked.
-/

namespace QueryPlan

/-- The nodes outside a tree link to each other, in both directions and without repetition. -/
structure Linked (rest : NodeId → Option Node) : Prop where
  child : ∀ {x n}, rest x = some n → ∀ y ∈ n.children, ∃ m, rest y = some m ∧ m.parent = some x
  parent : ∀ {x n}, rest x = some n → ∃ y m, n.parent = some y ∧ rest y = some m ∧ x ∈ m.children
  nodup : ∀ {x n}, rest x = some n → n.children.Nodup

namespace Branch

/-- The nodes with a wrong number of branches, in the order of the walk that looks for them: a node
before its branches, the last one of these first. -/
def arityErrors : Branch → List StructuralError
  | .node id label branches =>
    (if label.kind.allowsArity branches.length then []
      else [.invalidArity id label.kind branches.length]) ++
    (branches.map arityErrors).reverse.flatten

/-- The arity of a node is looked at before that of its branches, the last branch first. -/
theorem arityErrors_node (id : NodeId) (l : Label) (bs : List Branch) :
    (node id l bs).arityErrors =
      (if l.kind.allowsArity bs.length then [] else [.invalidArity id l.kind bs.length]) ++
        bs.reverse.flatMap arityErrors := by
  rw [arityErrors, ← List.map_reverse, List.flatMap_def]

/-- A node with its branches has no errors of arity if neither the node nor any branch has. -/
theorem arityErrors_node_eq_nil_iff {id : NodeId} {l : Label} {bs : List Branch} :
    (node id l bs).arityErrors = [] ↔
      l.kind.allowsArity bs.length = true ∧ ∀ b ∈ bs, b.arityErrors = [] := by
  rw [arityErrors_node, List.append_eq_nil_iff, List.flatMap_eq_nil_iff]
  simp

/-- If there are no errors of arity, the top of every branch has an allowed number of branches. -/
theorem allowsArity_of_plug {c : Context} {s : Branch} (h : (c.plug s).arityErrors = []) :
    s.label.kind.allowsArity s.branches.length = true := by
  have hs : s.arityErrors = [] := by
    induction c generalizing s with
    | nil => exact h
    | cons f c ih => exact (arityErrors_node_eq_nil_iff.1 (ih h)).2 s (by simp)
  cases s
  exact (arityErrors_node_eq_nil_iff.1 hs).1

/-- Nothing but errors of arity are collected. -/
theorem cycleDetected_not_mem_arityErrors (b : Branch) (x : NodeId) :
    .cycleDetected x ∉ b.arityErrors := by
  induction b with
  | node id l bs ih =>
    rw [arityErrors_node, List.mem_append, not_or]
    constructor
    · split <;> simp
    · rw [List.mem_flatMap]
      rintro ⟨b, hb, hx⟩
      exact ih b (List.mem_reverse.1 hb) hx

end Branch

namespace Plan

variable {p : Plan} {b : Branch} {rest : NodeId → Option Node}

/-! ## Links -/

namespace Splits

variable {ts : List Branch}

/-- One of the trees in the store, apart from the others. -/
theorem pick (h : p.Splits (ts.flatMap (Branch.entries none)) rest) {t : Branch} {ts' : List Branch}
    (hts : ts.Perm (t :: ts')) :
    p.Splits (t.entries none ++ ts'.flatMap (Branch.entries none)) rest := by
  rw [← List.flatMap_cons]
  exact h.of_perm (hts.flatMap_right _)

/-- The nodes of trees stand in contexts. -/
theorem get?_eq_or (h : p.Splits (ts.flatMap (Branch.entries none)) rest) (x : NodeId) :
    (∃ c s ts', ts.Perm (Context.plug c s :: ts') ∧ s.top = x ∧
        p.get? x = some (s.label.node c.parent? (s.branches.map Branch.top))) ∨
      (x ∉ ts.flatMap Branch.ids ∧ p.get? x = rest x) := by
  by_cases hx : x ∈ ts.flatMap Branch.ids
  · obtain ⟨t, ht, hx⟩ := List.mem_flatMap.1 hx
    obtain ⟨c, s, rfl, rfl⟩ := Branch.exists_plug_of_mem_ids hx
    obtain ⟨left, right, rfl⟩ := List.append_of_mem ht
    have hts : (left ++ c.plug s :: right).Perm (c.plug s :: (left ++ right)) := List.perm_middle
    exact .inl ⟨c, s, left ++ right, hts, rfl, (h.pick hts).has_plug.get?_top⟩
  · exact .inr ⟨hx, h.get?_rest x (by rwa [Branch.map_fst_flatMap_entries])⟩

/-- A position of one of the trees is not outside them. -/
theorem rest_eq_none (h : p.Splits (ts.flatMap (Branch.entries none)) rest) {x : NodeId}
    (hx : x ∈ ts.flatMap Branch.ids) : rest x = none :=
  h.apart x (by rwa [Branch.map_fst_flatMap_entries])

/-- A node outside the trees is in the store. -/
theorem get?_of_rest (h : p.Splits (ts.flatMap (Branch.entries none)) rest) {x : NodeId} {n : Node}
    (hx : rest x = some n) : p.get? x = some n := by
  by_cases hmem : x ∈ ts.flatMap Branch.ids
  · rw [h.rest_eq_none hmem] at hx
    exact absurd hx.symm (Option.some_ne_none n)
  · rw [h.get?_rest x (by rwa [Branch.map_fst_flatMap_entries]), hx]

/-- The branches of a node have different tops. -/
theorem nodup_tops {es : List (NodeId × Node)} {c : Context} {s : Branch}
    (h : p.Splits ((c.plug s).entries none ++ es) rest) : (s.branches.map Branch.top).Nodup := by
  have hplug := h.distinct
  rw [List.map_append, Branch.map_fst_entries] at hplug
  have hids := (c.ids_plug s).nodup_iff.1 (List.nodup_append.1 hplug).1
  have hs := (List.nodup_append.1 hids).1
  obtain ⟨id, l, bs⟩ := s
  rw [Branch.ids_node, List.nodup_cons] at hs
  exact (Branch.map_top_sublist bs).nodup hs.2

/-- The links of trees are mutual if those of the other nodes are. -/
theorem links_mutual (h : p.Splits (ts.flatMap (Branch.entries none)) rest) (hrest : Linked rest) :
    p.Mutual where
  child := by
    intro x n hx y hy
    rcases h.get?_eq_or x with ⟨c, s, ts', hts, rfl, hs⟩ | ⟨-, heq⟩
    · obtain rfl := Option.some.inj (hs.symm.trans hx)
      obtain ⟨t, ht, rfl⟩ := List.mem_map.1 hy
      obtain ⟨id, l, bs⟩ := s
      have htop := ((h.pick hts).has_plug.branch ht).get?_top
      exact ⟨_, htop, rfl⟩
    · obtain ⟨m, hm, hparent⟩ := hrest.child (heq ▸ hx) y hy
      exact ⟨m, h.get?_of_rest hm, hparent⟩
  parent := by
    intro x n hx y hy
    rcases h.get?_eq_or x with ⟨c, s, ts', hts, rfl, hs⟩ | ⟨-, heq⟩
    · obtain rfl := Option.some.inj (hs.symm.trans hx)
      cases c with
      | nil => exact absurd hy.symm (Option.some_ne_none y)
      | cons f c =>
        obtain rfl := Option.some.inj hy
        have hf := Has.get?_top (b := f.fill s) ((h.pick hts).has_plug (c := c))
        exact ⟨_, hf, by simp [Frame.fill]⟩
    · obtain ⟨y', m, hy', hm, hmem⟩ := hrest.parent (heq ▸ hx)
      obtain rfl := Option.some.inj (hy'.symm.trans hy)
      exact ⟨m, h.get?_of_rest hm, hmem⟩
  nodup := by
    intro x n hx
    rcases h.get?_eq_or x with ⟨c, s, ts', hts, rfl, hs⟩ | ⟨-, heq⟩
    · exact Option.some.inj (hs.symm.trans hx) ▸ (h.pick hts).nodup_tops
    · exact hrest.nodup (heq ▸ hx)

end Splits

namespace Shows

/-- The tree of a plan is the only one. -/
theorem splits_singleton (h : p.Shows b rest) : p.Splits ([b].flatMap (Branch.entries none)) rest := by
  rw [List.flatMap_singleton]
  exact h.splits

/-- The nodes of a tree stand in contexts. -/
theorem get?_eq_or (h : p.Shows b rest) (x : NodeId) :
    (∃ c s, b = Context.plug c s ∧ s.top = x ∧
        p.get? x = some (s.label.node c.parent? (s.branches.map Branch.top))) ∨
      (x ∉ b.ids ∧ p.get? x = rest x) := by
  rcases h.splits_singleton.get?_eq_or x with ⟨c, s, ts, hts, hx, hget⟩ | ⟨hx, hget⟩
  · exact .inl ⟨c, s, (List.cons.inj (List.singleton_perm.1 hts)).1, hx, hget⟩
  · exact .inr ⟨by rwa [List.flatMap_singleton] at hx, hget⟩

/-- A position of the tree is not outside it. -/
theorem rest_eq_none (h : p.Shows b rest) {x : NodeId} (hx : x ∈ b.ids) : rest x = none :=
  h.splits_singleton.rest_eq_none (by rwa [List.flatMap_singleton])

/-- A node outside the tree is in the store. -/
theorem get?_of_rest (h : p.Shows b rest) {x : NodeId} {n : Node} (hx : rest x = some n) :
    p.get? x = some n :=
  h.splits_singleton.get?_of_rest hx

/-- Plans with the same tree, beside the same other nodes, are equal if their stores are of the same
size. -/
theorem eq_of_size {q : Plan} (h : p.Shows b rest) (hq : q.Shows b rest)
    (hsize : q.nodes.size = p.nodes.size) : q = p := by
  refine ext_get? (hq.root_eq.trans h.root_eq.symm) hsize fun x => ?_
  rcases h.get?_eq_or x with ⟨c, s, rfl, rfl, -⟩ | ⟨hx, hrest⟩
  · exact hq.has_plug.get?_top.trans h.has_plug.get?_top.symm
  · rcases hq.get?_eq_or x with ⟨c, s, rfl, rfl, -⟩ | ⟨-, hrest'⟩
    · exact absurd (Context.top_mem_ids_plug c s) hx
    · exact hrest'.trans hrest.symm

/-- The links of a tree agree if those of the other nodes do. -/
theorem agree (h : p.Shows b rest) (hrest : Linked rest) : p.Agree b.top where
  toMutual := h.splits_singleton.links_mutual hrest
  root_of_none := by
    intro x n hx hnone
    rcases h.get?_eq_or x with ⟨c, s, rfl, rfl, hs⟩ | ⟨-, heq⟩
    · obtain rfl := Option.some.inj (hs.symm.trans hx)
      cases c with
      | nil => rfl
      | cons f c => exact absurd hnone (Option.some_ne_none _)
    · obtain ⟨y, m, hy, -⟩ := hrest.parent (heq ▸ hx)
      exact absurd (hy.symm.trans hnone) (Option.some_ne_none y)
  none_of_root := by
    intro n hn
    rw [h.has.get?_top] at hn
    exact Option.some.inj hn ▸ rfl

/-- If all links agree, those of the nodes outside the tree stay outside. -/
theorem linked_of_agree (h : p.Shows b rest) (hp : p.Agree b.top) : Linked rest where
  child := by
    intro x n hx y hy
    obtain ⟨m, hm, hparent⟩ := hp.child (h.get?_of_rest hx) y hy
    rcases h.get?_eq_or y with ⟨c, s, rfl, rfl, hs⟩ | ⟨-, heq⟩
    · -- A node of the tree records a parent in the tree.
      rw [hs] at hm
      obtain rfl := Option.some.inj hm
      cases c with
      | nil => exact absurd hparent.symm (Option.some_ne_none x)
      | cons f c =>
        obtain rfl := Option.some.inj hparent
        rw [← f.top_fill s, h.rest_eq_none (Context.top_mem_ids_plug c (f.fill s))] at hx
        exact absurd hx.symm (Option.some_ne_none n)
    · exact ⟨m, heq ▸ hm, hparent⟩
  parent := by
    intro x n hx
    have hget := h.get?_of_rest hx
    cases hparent : n.parent with
    | none =>
      rw [hp.root_of_none hget hparent, h.rest_eq_none b.top_mem_ids] at hx
      exact absurd hx.symm (Option.some_ne_none n)
    | some y =>
      obtain ⟨m, hm, hmem⟩ := hp.parent hget y hparent
      refine ⟨y, m, rfl, ?_, hmem⟩
      rcases h.get?_eq_or y with ⟨c, s, rfl, rfl, hs⟩ | ⟨-, heq⟩
      · -- A node of the tree lists nodes of the tree.
        rw [hs] at hm
        obtain rfl := Option.some.inj hm
        obtain ⟨t, ht, rfl⟩ := List.mem_map.1 hmem
        obtain ⟨f, -, -, hf⟩ := Branch.exists_fill_of_mem s.top s.label ht
        have hs' : s = f.fill t := by
          rw [← hf]
          cases s
          rfl
        rw [hs'] at h
        rw [h.rest_eq_none (Context.top_mem_ids_plug (f :: c) t)] at hx
        exact absurd hx.symm (Option.some_ne_none n)
      · exact heq ▸ hm
  nodup := fun hx => hp.nodup (h.get?_of_rest hx)

end Shows

/-- A plan whose links agree is a tree, and the other nodes link to each other only. -/
theorem Agree.exists_shows {root : NodeId} {n : Node} (hp : p.Agree root)
    (hroot : p.root = some root) (hget : p.get? root = some n) :
    ∃ b rest, p.Shows b rest ∧ Linked rest := by
  have hstart : p.Frontier [] [root] := by
    refine .start (List.nodup_singleton root) fun x hx => ?_
    obtain rfl := List.mem_singleton.1 hx
    exact ⟨n, hget, hp.none_of_root hget⟩
  obtain ⟨bs, htops, hholds, hnodup, -⟩ :=
    hstart.exists_branches hp.toOwned (Nat.le_add_left p.nodes.size _)
  obtain ⟨b, rfl⟩ : ∃ b, bs = [b] := by
    apply List.length_eq_one_iff.1
    simpa using congrArg List.length htops
  obtain rfl : b.top = root := by simpa using htops
  rw [List.flatMap_singleton] at hnodup
  obtain ⟨parent, htop, hentries⟩ := (hholds b List.mem_cons_self).exists_top
  obtain rfl : parent = none := hp.none_of_root htop
  have hshows := shows_of_get? hroot hnodup hentries
  exact ⟨b, _, hshows, hshows.linked_of_agree hp⟩

/-! ## Shape -/

/-- The walk over branches of a tree meets every node once and finds their errors of arity. -/
theorem shapeErrorsWithin_eq {steps : Nat} {visited : List NodeId} {bs : List Branch}
    (hbs : ∀ b ∈ bs, ∃ parent, p.Has parent b) (hnodup : (bs.flatMap Branch.ids).Nodup)
    (hnew : ∀ x ∈ bs.flatMap Branch.ids, x ∉ visited)
    (hsteps : (bs.flatMap Branch.ids).length ≤ steps) :
    p.shapeErrorsWithin steps visited (bs.map Branch.top) =
      .ok (bs.flatMap Branch.arityErrors) := by
  induction steps generalizing visited bs with
  | zero =>
    cases bs with
    | nil => rw [List.map_nil, shapeErrorsWithin, List.flatMap_nil]
    | cons b bs =>
      obtain ⟨id, l, cs⟩ := b
      simp at hsteps
  | succ steps ih =>
    cases bs with
    | nil => rw [List.map_nil, shapeErrorsWithin, List.flatMap_nil]
    | cons b bs =>
      obtain ⟨parent, hhas⟩ := hbs b List.mem_cons_self
      obtain ⟨id, l, cs⟩ := b
      have hperm : ((cs.reverse ++ bs).flatMap Branch.ids).Perm
          (cs.flatMap Branch.ids ++ bs.flatMap Branch.ids) := by
        rw [List.flatMap_append]
        exact (cs.reverse_perm.flatMap_right _).append_right _
      rw [List.flatMap_cons, Branch.ids_node, List.cons_append] at hnodup hnew hsteps
      rw [List.nodup_cons] at hnodup
      have hid : visited.contains id = false := by
        rw [List.contains_eq_mem, decide_eq_false_iff_not]
        exact hnew id List.mem_cons_self
      have hnode : p.node id = .ok (l.node parent (cs.map Branch.top)) := hhas.node_top
      suffices hbelow : p.shapeErrorsWithin steps (id :: visited)
          ((cs.reverse ++ bs).map Branch.top) =
            .ok ((cs.reverse ++ bs).flatMap Branch.arityErrors) by
        rw [List.map_append, List.map_reverse] at hbelow
        rw [List.map_cons, Branch.top_node, shapeErrorsWithin, hid, hnode, List.flatMap_cons,
          Branch.arityErrors_node, List.append_assoc, ← List.flatMap_append]
        simp only [Bool.false_eq_true, if_false, ok_bind, Label.node_children, hbelow,
          Label.node_kind, List.length_map, pure_eq_ok]
        split <;> rfl
      apply ih
      · intro t ht
        rcases List.mem_append.1 ht with ht | ht
        · have ht' := List.mem_reverse.1 ht
          exact ⟨some id, hhas.branch ht'⟩
        · exact hbs t (List.mem_cons_of_mem _ ht)
      · exact hperm.nodup_iff.2 hnodup.2
      · intro x hx hvisited
        have hx' := hperm.mem_iff.1 hx
        rcases List.mem_cons.1 hvisited with rfl | hvisited
        · exact hnodup.1 hx'
        · exact hnew x (List.mem_cons_of_mem _ hx') hvisited
      · rw [hperm.length_eq]
        exact Nat.le_of_succ_le_succ hsteps

/-- The walk over a tree from its root. -/
theorem Shows.shapeErrors_eq (h : p.Shows b rest) :
    p.shapeErrorsWithin p.walkLimit [] [b.top] = .ok b.arityErrors := by
  have hsteps : b.ids.length ≤ p.walkLimit := by
    rw [← b.map_fst_entries none, List.length_map]
    exact Nat.le_trans h.splits.length_le (Nat.le_succ _)
  rw [← List.map_singleton, ← List.flatMap_singleton Branch.arityErrors b]
  refine shapeErrorsWithin_eq (fun t ht => ⟨none, ?_⟩) ?_ (fun x _ => List.not_mem_nil) ?_
  · exact List.mem_singleton.1 ht ▸ h.has
  · rw [List.flatMap_singleton]
    exact h.nodup_ids
  · rwa [List.flatMap_singleton]

/-- A walk that reports no node met twice has met none, and no hole. -/
theorem isAcyclicWithin_of_shape {steps : Nat} {visited pending : List NodeId}
    {errors : List StructuralError} (h : p.shapeErrorsWithin steps visited pending = .ok errors)
    (hno : ∀ x, .cycleDetected x ∉ errors) : p.isAcyclicWithin steps visited pending = true := by
  induction steps generalizing visited pending errors with
  | zero =>
    cases pending with
    | nil => rw [isAcyclicWithin]
    | cons id pending => simp [shapeErrorsWithin] at h
  | succ steps ih =>
    cases pending with
    | nil => rw [isAcyclicWithin]
    | cons id pending =>
      rw [shapeErrorsWithin] at h
      rw [isAcyclicWithin]
      split at h
      · obtain rfl := Except.ok.inj h
        exact absurd List.mem_cons_self (hno id)
      · rename_i hid
        obtain ⟨n, hnode, h⟩ := bind_eq_ok.1 h
        obtain ⟨found, hrest, h⟩ := bind_eq_ok.1 h
        rw [if_neg hid, get?_of_node hnode]
        refine ih hrest fun x hx => hno x ?_
        split at h
        · exact Except.ok.inj h ▸ hx
        · exact Except.ok.inj h ▸ List.mem_cons_of_mem _ hx

/-! ## Both checks -/

/-- No check of links reports that a node was met twice. -/
theorem cycleDetected_not_mem_linkErrors (p : Plan) (root x : NodeId) (n : Node) :
    .cycleDetected x ∉ p.linkErrors root n := by
  simp only [linkErrors, List.mem_append, List.mem_flatMap, not_or, not_exists, not_and]
  refine ⟨⟨?_, fun e _ => ?_⟩, ?_⟩
  · unfold rootLinkErrors
    split <;> simp
  · simp only [nodeLinkErrors, List.mem_append, List.mem_filterMap, Option.mem_toList, not_or,
      not_exists, not_and]
    constructor
    · intro child _
      unfold childLinkError?
      repeat' split
      all_goals simp
    · unfold parentLinkError?
      repeat' split
      all_goals simp
  · simp only [ownershipErrors, List.mem_filterMap, not_exists, not_and]
    intro id _
    split <;> simp

/-- What validation says about the structure of a tree: which nodes have the wrong number of
children. -/
theorem Shows.structuralErrors_eq (h : p.Shows b rest) (hrest : Linked rest) :
    p.structuralErrors = .ok b.arityErrors := by
  have hlinks := (linkErrors_eq_nil_iff h.has.get?_top).2 (h.agree hrest)
  rw [structuralErrors, h.root_eq]
  simp only [h.has.get?_top, hlinks, h.shapeErrors_eq]

/-- What validation says about the structure of a plan that is no tree. -/
theorem structuralErrors_cases (p : Plan) :
    (∃ b rest, p.Shows b rest ∧ Linked rest) ∨
      ∃ errors, p.structuralErrors = .ok errors ∧ errors ≠ [] ∧
        ∀ x, .cycleDetected x ∉ errors := by
  cases hroot : p.root with
  | none => exact .inr ⟨_, by rw [structuralErrors, hroot], by simp, by simp⟩
  | some root =>
    cases hget : p.get? root with
    | none => exact .inr ⟨[.emptyPlan], by simp [structuralErrors, hroot, hget], by simp, by simp⟩
    | some n =>
      cases hlinks : p.linkErrors root n with
      | nil => exact .inl (((linkErrors_eq_nil_iff hget).1 hlinks).exists_shows hroot hget)
      | cons e errors =>
        refine .inr ⟨e :: errors, ?_, List.cons_ne_nil e errors, fun x => ?_⟩
        · rw [structuralErrors, hroot]
          simp only [hget, hlinks]
        · rw [← hlinks]
          exact cycleDetected_not_mem_linkErrors p root x n

/-- The plans with a sound structure are the trees whose operators have the branches they need. -/
theorem structuralErrors_eq_nil_iff :
    p.structuralErrors = .ok [] ↔
      ∃ b rest, p.Shows b rest ∧ Linked rest ∧ b.arityErrors = [] := by
  constructor
  · intro h
    rcases structuralErrors_cases p with ⟨b, rest, hshows, hrest⟩ | ⟨errors, herrors, hne, -⟩
    · rw [hshows.structuralErrors_eq hrest] at h
      exact ⟨b, rest, hshows, hrest, Except.ok.inj h⟩
    · exact absurd (Except.ok.inj (herrors.symm.trans h)) hne
  · rintro ⟨b, rest, hshows, hrest, harity⟩
    rw [hshows.structuralErrors_eq hrest, harity]

/-- Every node of a tree but the uppermost is listed once, by the node that it records. -/
theorem Shows.listed_once (h : p.Shows b rest) (hrest : Linked rest) {x : NodeId} {n : Node}
    (hget : p.get? x = some n) (hx : x ≠ b.top) :
    p.listedChildren.count x = 1 ∧
      ∃ y m, n.parent = some y ∧ p.get? y = some m ∧ x ∈ m.children := by
  have hp := h.agree hrest
  cases hparent : n.parent with
  | none => exact absurd (hp.root_of_none hget hparent) hx
  | some y =>
    obtain ⟨m, hm, hmem⟩ := hp.parent hget y hparent
    have hlisted : x ∈ p.listedChildren := List.mem_flatMap.2 ⟨(y, m), mem_live.2 hm, hmem⟩
    have hnodup := (listedChildren_nodup_iff hp.child).2 fun _ _ hx => hp.nodup hx
    exact ⟨List.count_eq_one_of_mem hnodup hlisted, y, m, rfl, hm, hmem⟩

/-- Whatever the links of a plan are, validation of its structure comes to an end and never finds a
cycle.  If nothing is wrong, the test for cycles is passed, and the nodes reachable from the root form
a tree: the walk from the root comes to an end and lists each of them once, and each of them but the
root is listed once in the whole plan, by the node that it records as its parent. -/
theorem structuralErrors_sound (p : Plan) :
    ∃ errors, p.structuralErrors = .ok errors ∧ (∀ x, .cycleDetected x ∉ errors) ∧
      (errors = [] → p.isAcyclic = true ∧ ∃ root ids, p.root = some root ∧
        p.preorder root = .ok ids ∧ ids.Nodup ∧ (∀ x, x ∈ ids ↔ p.Reachable x) ∧
        ∀ x ∈ ids, ∃ n, p.get? x = some n ∧
          (x ≠ root → p.listedChildren.count x = 1 ∧
            ∃ y m, n.parent = some y ∧ p.get? y = some m ∧ x ∈ m.children)) := by
  rcases structuralErrors_cases p with ⟨b, rest, hshows, hrest⟩ | ⟨errors, herrors, hne, hno⟩
  · have herrors := hshows.structuralErrors_eq hrest
    have hno := b.cycleDetected_not_mem_arityErrors
    refine ⟨b.arityErrors, herrors, hno, fun _ => ⟨?_, b.top, b.ids, hshows.root_eq,
      hshows.has.preorder_eq, hshows.nodup_ids, fun x => hshows.reachable_iff.symm, ?_⟩⟩
    · rw [isAcyclic, hshows.root_eq]
      exact isAcyclicWithin_of_shape hshows.shapeErrors_eq hno
    · intro x hx
      obtain ⟨c, s, rfl, rfl⟩ := Branch.exists_plug_of_mem_ids hx
      exact ⟨_, hshows.has_plug.get?_top, hshows.listed_once hrest hshows.has_plug.get?_top⟩
  · exact ⟨errors, herrors, hno, fun hnil => absurd hnil hne⟩

end Plan

end QueryPlan
