import QueryPlan.Proofs.Forest.Slots

/-!
# Inserting a node and bypassing it

A node is inserted above another one by pushing it, putting it into the slot of the other one and
putting the other one below it.  It is bypassed by putting its only child into its slot and discarding
it.  Both are said node by node, for any plan with sound links, and from this it follows that bypassing
undoes inserting.  What walks from the root make of the two is read off the tree of the root.

Main results:

- Theorem `Plan.WellLinked.exists_insertAbove`: the plan after a node was inserted.
- Theorem `Plan.WellLinked.exists_bypass`: the plan after a node was bypassed.
- Theorem `Plan.WellLinked.bypass_insertAbove`: bypassing a node that was inserted undoes the insertion.
- Theorems `Plan.Shows.preorder_insertAbove` and `Plan.Shows.preorder_bypass`: what becomes of the walk
  from the root.
- Theorem `Plan.WellLinked.insertion_exact`: all of this together.
-/

namespace QueryPlan

/-- A first member other than the one that is replaced stays. -/
theorem replace_cons_of_ne {l : List NodeId} {a b c : NodeId} (h : c ≠ a) :
    (c :: l).replace a b = c :: l.replace a b := by
  rw [List.replace_cons, beq_false_of_ne h.symm]

/-- Replacing a member by something that did not occur can be undone. -/
theorem replace_replace {l : List NodeId} {a b : NodeId} (hb : b ∉ l) :
    (l.replace a b).replace b a = l := by
  induction l with
  | nil => rfl
  | cons c l ih =>
    rw [List.mem_cons, not_or] at hb
    by_cases hc : c = a
    · rw [hc, List.replace_cons_self, List.replace_cons_self]
    · rw [replace_cons_of_ne hc, replace_cons_of_ne (Ne.symm hb.1), ih hb.2]

/-- The positions before and after those of a branch in its context. -/
theorem Context.exists_ids_plug (c : Context) :
    ∃ left right, ∀ s, (c.plug s).ids = left ++ s.ids ++ right := by
  induction c with
  | nil => exact ⟨[], [], fun s => by simp⟩
  | cons f c ih =>
    obtain ⟨left, right, hids⟩ := ih
    refine ⟨left ++ f.id :: f.left.flatMap Branch.ids, f.right.flatMap Branch.ids ++ right,
      fun s => ?_⟩
    rw [plug_cons, hids, Frame.fill, Branch.ids_node]
    simp

namespace Plan

variable {p q : Plan} {target x y : NodeId} {m n t : Node} {op : Operator}

/-- A hole at the end of the store is no node. -/
theorem get?_hole (p : Plan) (x : NodeId) :
    ({ p with nodes := p.nodes.push none } : Plan).get? x = p.get? x := by
  by_cases hx : x = p.nodes.size
  · rw [hx, get?_size]
    simp [get?]
  · simp [get?, Array.getElem?_push, hx]

/-! ## The walk from the root -/

namespace Shows

variable {b : Branch} {rest : NodeId → Option Node}

/-- The walk from the root of a tree lists the positions of the tree. -/
theorem preorder_eq (h : p.Shows b rest) : p.preorder b.top = .ok b.ids :=
  h.has.preorder_eq

/-- A node that is inserted comes directly before the node below it. -/
theorem preorder_insertAbove (h : p.Shows b rest) (htarget : target ∈ b.ids) (op : Operator) :
    ∃ q root left right, p.insertAbove target op = .ok (p.nodes.size, q) ∧ q.root = some root ∧
      b.ids = left ++ target :: right ∧
      q.preorder root = .ok (left ++ p.nodes.size :: target :: right) := by
  obtain ⟨c, s, rfl, rfl⟩ := Branch.exists_plug_of_mem_ids htarget
  obtain ⟨q, hq, hsplits, hroot, -⟩ := h.splits_append_nil.insertAbove h.root_eq op
  rw [List.append_nil] at hsplits
  obtain ⟨left, right, hids⟩ := c.exists_ids_plug
  have hs : ∃ below, s.ids = s.top :: below := by
    obtain ⟨id, l, bs⟩ := s
    exact ⟨_, Branch.ids_node id l bs⟩
  obtain ⟨below, hbelow⟩ := hs
  refine ⟨q, _, left, below ++ right, hq, hroot, by simp [hids, hbelow], ?_⟩
  rw [Shows.preorder_eq ⟨hroot, hsplits⟩, hids]
  simp [hbelow]

/-- A node that is bypassed is left out. -/
theorem preorder_bypass (h : p.Shows b rest) (hx : x ∈ b.ids) (hn : p.get? x = some n)
    (hy : n.children = [y]) :
    ∃ q root left right, p.bypass x = .ok (some y, q) ∧ q.root = some root ∧
      b.ids = left ++ x :: right ∧ q.preorder root = .ok (left ++ right) := by
  obtain ⟨c, ⟨id, l, bs⟩, rfl, rfl⟩ := Branch.exists_plug_of_mem_ids hx
  obtain rfl := Option.some.inj (h.has_plug.get?_top.symm.trans hn)
  obtain ⟨s, rfl, rfl⟩ : ∃ s, bs = [s] ∧ s.top = y := by simpa using hy
  obtain ⟨q, hq, hshows, -⟩ := h.bypass
  obtain ⟨left, right, hids⟩ := c.exists_ids_plug
  refine ⟨q, _, left, s.ids ++ right, hq, hshows.root_eq, by simp [hids], ?_⟩
  rw [hshows.preorder_eq, hids, List.append_assoc]

end Shows

namespace WellLinked

/-- The tree that hangs from the root. -/
theorem exists_shows (h : p.WellLinked) {root : NodeId} (hroot : p.root = some root) :
    ∃ b rest, b.top = root ∧ p.Shows b rest := by
  obtain ⟨ts, hts⟩ := h.exists_isForest
  obtain ⟨b, hb, rfl⟩ := List.mem_map.1 (hts.root hroot)
  obtain ⟨left, right, rfl⟩ := List.append_of_mem hb
  have hfirst := hts.of_perm List.perm_middle
  refine ⟨b, _, rfl, shows_of_get? hroot ?_ fun e he => hfirst.splits.get?_entry e.1 e.2 ?_⟩
  · have hnodup := hfirst.nodup_ids
    rw [List.flatMap_cons] at hnodup
    exact (List.nodup_append.1 hnodup).1
  · rw [List.flatMap_cons]
    exact List.mem_append_left _ he

/-- A node that is reached from the root stands in its tree. -/
theorem exists_shows_of_reachable (h : p.WellLinked) (hx : p.Reachable x) :
    ∃ b rest, p.Shows b rest ∧ x ∈ b.ids := by
  have hroot : ∃ root, p.root = some root := by
    induction hx with
    | root hroot => exact ⟨_, hroot⟩
    | child _ _ _ ih => exact ih
  obtain ⟨root, hroot⟩ := hroot
  obtain ⟨b, rest, -, hshows⟩ := h.exists_shows hroot
  exact ⟨b, rest, hshows, hshows.reachable_iff.1 hx⟩

/-! ## Inserting -/

/-- A new node that nothing records as its parent is nobody's ancestor. -/
theorem not_ancestor (h : p.WellLinked) (hx : p.get? x = some n) (hchildren : n.children = []) :
    ¬ p.Ancestor x y := by
  intro habove
  obtain ⟨z, ⟨m, hz, hparent⟩, -⟩ := Relation.TransGen.head'_iff.1 habove
  obtain ⟨n', hn', hmem⟩ := h.parent hz x hparent
  obtain rfl := Option.some.inj (hx.symm.trans hn')
  rw [hchildren] at hmem
  exact List.not_mem_nil hmem

/-- Where links are sound, the root is not the position behind the store. -/
theorem root_ne_size (h : p.WellLinked) : p.root ≠ some p.nodes.size := by
  intro hroot
  obtain ⟨n, hn, -⟩ := h.root hroot
  exact Nat.lt_irrefl _ (lt_size_of_get? hn)

/-- Where links are sound, a new node that nothing links to may be put behind the store. -/
theorem exists_push (h : p.WellLinked) (op : Operator) (scope : AliasSet) :
    (p.push op [] scope).WellLinked := by
  obtain ⟨ts, hts⟩ := h.exists_isForest
  exact (hts.push op scope).wellLinked

/-- A node is inserted above another one. -/
theorem exists_insertAbove (h : p.WellLinked) (ht : p.get? target = some t) (op : Operator) :
    ∃ q scope, p.insertAbove target op = .ok (p.nodes.size, q) ∧
      q.nodes.size = p.nodes.size + 1 ∧
      q.root = (if p.root = some target then some p.nodes.size else p.root) ∧
      q.get? p.nodes.size = some ⟨op, t.parent, [target], scope, false⟩ ∧
      ∀ x, x ≠ p.nodes.size → q.get? x = (p.get? x).map fun m =>
        { m with
          parent := if x = target then some p.nodes.size else m.parent
          children :=
            if t.parent = some x then m.children.replace target p.nodes.size else m.children } := by
  obtain ⟨ts, hts⟩ := h.exists_isForest
  obtain ⟨scope, hscope⟩ := hts.exists_reachable (by rw [ht]; rfl)
  have hlt : target < p.nodes.size := lt_size_of_get? ht
  have hne : target ≠ p.nodes.size := Nat.ne_of_lt hlt
  have hpush := h.exists_push op scope
  have hnew : (p.push op [] scope).get? p.nodes.size = some ⟨op, none, [], scope, false⟩ := by
    rw [get?_push, if_pos rfl]
  have hold : ∀ x, x ≠ p.nodes.size → (p.push op [] scope).get? x = p.get? x := fun x hx => by
    rw [get?_push, if_neg hx]
  obtain ⟨q₁, hq₁, hsize₁, hroot₁, hget₁⟩ :=
    hpush.exists_replace ((hold target hne).trans ht) hnew hne (hpush.not_ancestor hnew rfl)
  have hnew₁ : q₁.get? p.nodes.size = some ⟨op, t.parent, [], scope, false⟩ := by
    rw [hget₁, hnew, Option.map_some, Reseating.node]
    simp
  obtain ⟨q₂, hq₂, hroot₂, hsize₂, hget₂⟩ :=
    exists_update hnew₁ fun n => { n with children := n.children ++ [target] }
  have ht₂ : ∃ t', q₂.get? target = some t' := by
    rw [hget₂, if_neg hne.symm, hget₁, hold target hne, ht]
    exact ⟨_, rfl⟩
  obtain ⟨t', ht'⟩ := ht₂
  obtain ⟨q₃, hq₃, hroot₃, hsize₃, hget₃⟩ := exists_update ht' ({ · with parent := some p.nodes.size })
  refine ⟨q₃, scope, ?_, ?_, ?_, ?_, fun x hx => ?_⟩
  · rw [insertAbove, hscope]
    simp only [ok_bind, placeAbove, hq₁, hq₂, hq₃, pure_eq_ok]
  · rw [hsize₃, hsize₂, hsize₁, size_push]
  · have hfresh : p.root ≠ some p.nodes.size := h.root_ne_size
    rw [hroot₃, hroot₂, hroot₁]
    exact congrArg _ (if_neg hfresh)
  · rw [hget₃, if_neg hne, hget₂, if_pos rfl, hnew₁]
    rfl
  · rw [hget₃, hget₂, if_neg (Ne.symm hx), hget₁, hold x hx]
    cases hm : p.get? x with
    | none => simp
    | some m =>
      have hchildren := hpush.filter_children hnew ((hold x hx).trans hm) (by simp)
      by_cases htx : target = x
      · subst htx
        simp [Reseating.node, hchildren]
      · simp [Reseating.node, hchildren, htx, Ne.symm htx, hx]

/-! ## Bypassing -/

/-- A node is bypassed. -/
theorem exists_bypass (h : p.WellLinked) (hn : p.get? x = some n) (hy : n.children = [y]) :
    ∃ q, p.bypass x = .ok (some y, q) ∧ q.nodes.size = p.nodes.size ∧
      q.root = (if p.root = some x then some y else p.root) ∧ q.get? x = none ∧
      ∀ z, z ≠ x → q.get? z = (p.get? z).map fun m =>
        { m with
          parent := if z = y then n.parent else m.parent
          children := if n.parent = some z then m.children.replace x y else m.children } := by
  obtain ⟨m, hm, hparent⟩ := h.child hn y (hy ▸ List.mem_singleton.2 rfl)
  have habove : p.IsParent x y := ⟨m, hm, hparent⟩
  have hne : x ≠ y := fun e => h.acyclic y (.single (e ▸ habove))
  obtain ⟨q, hq, hsize, hroot, hget⟩ :=
    h.exists_replace hn hm hne fun hbelow => h.acyclic x (.head habove hbelow)
  have hroot' : q.root = if p.root = some x then some y else p.root :=
    hroot.trans (congrArg _ (if_neg (h.root_ne hm hparent)))
  have hself : n.parent ≠ some x := fun e => h.acyclic x (.single ⟨n, hn, e⟩)
  have hx : q.get? x = some { n with parent := none, children := [] } := by
    rw [hget, hn]
    simp [Reseating.node, hne, hself, hparent, hy]
  have hdetach : q.detach x = .ok q := by
    have hleft : q.root ≠ some x := by
      rw [hroot']
      by_cases hp : p.root = some x <;> simp [hp, hne.symm]
    rw [detach_of_lone hx rfl, if_neg hleft]
  have hwalk : q.preorder x = .ok [x] := by
    rw [preorder, walkLimit, preorderWithin, node_of_get? hx]
    rfl
  refine ⟨q.erase x, ?_, (size_erase q x).trans hsize, hroot', ?_, fun z hz => ?_⟩
  · rw [Plan.bypass, node_of_get? hn]
    simp only [ok_bind, Node.onlyChild?, hy, hq, discardBranch, hdetach, hwalk, pure_eq_ok,
      List.foldl_cons, List.foldl_nil]
  · rw [get?_erase, if_pos rfl]
  · rw [get?_erase, if_neg hz.symm, hget]
    cases hm' : p.get? z with
    | none => rfl
    | some m' =>
      have hchildren := h.filter_children hm hm' (by simpa [hparent] using hz.symm)
      simp [Reseating.node, hchildren, hz]

/-- Bypassing a node that has just been inserted leaves the plan as it was, with one hole more. -/
theorem bypass_insertAbove (h : p.WellLinked) (ht : p.get? target = some t) {op : Operator}
    (hq : p.insertAbove target op = .ok (x, q)) :
    q.bypass x = .ok (some target, { p with nodes := p.nodes.push none }) := by
  obtain ⟨q', scope, hq', hsize, hroot, hnew, hget⟩ := h.exists_insertAbove ht op
  obtain ⟨rfl, rfl⟩ := Prod.mk.inj (Except.ok.inj (hq'.symm.trans hq))
  have hlinked : q'.WellLinked := by
    obtain ⟨r, hr, hlinked⟩ := h.exists_run (e := .insertAbove target op) (by rw [Edit.Allowed, ht]; rfl)
    obtain ⟨r', hr', rfl⟩ := map_eq_ok.1 hr
    obtain rfl := Except.ok.inj (hq.symm.trans hr')
    exact hlinked
  obtain ⟨r, hr, hsize', hroot', hgone, hget'⟩ := hlinked.exists_bypass hnew rfl
  rw [hr]
  congr 2
  have hne : target ≠ p.nodes.size := Nat.ne_of_lt (lt_size_of_get? ht)
  have hself : t.parent ≠ some target := fun e => h.acyclic target (.single ⟨t, ht, e⟩)
  refine ext_get? ?_ ?_ fun z => ?_
  · have hfresh := h.root_ne_size
    rw [hroot', hroot]
    by_cases hp : p.root = some target <;> simp [hp, hfresh]
  · rw [hsize', hsize]
    exact (Array.size_push none).symm
  · rw [get?_hole]
    by_cases hz : z = p.nodes.size
    · rw [hz, hgone, get?_size]
    · rw [hget' z hz, hget z hz]
      cases hm : p.get? z with
      | none => rfl
      | some m =>
        have hlisted : p.nodes.size ∉ m.children := fun hmem => by
          obtain ⟨k, hk, -⟩ := h.child hm _ hmem
          exact Nat.lt_irrefl _ (lt_size_of_get? hk)
        by_cases hzt : z = target
        · subst hzt
          obtain rfl := Option.some.inj (ht.symm.trans hm)
          simp [hself]
        · by_cases hzp : t.parent = some z
          · simp [hzt, hzp, replace_replace hlisted]
          · simp [hzt, hzp]

/-- The node that is inserted is new.  Bypassing it restores the root and all nodes; of the store, only
its length is different, since the position of the node is not used again. -/
theorem insertion_exact (h : p.WellLinked) :
    (∀ target op, p.contains target = true →
      ∃ q, p.insertAbove target op = .ok (p.nodes.size, q) ∧ p.contains p.nodes.size = false ∧
        q.contains p.nodes.size = true ∧
        (p.Reachable target → ∃ root root' left right, p.root = some root ∧
          p.preorder root = .ok (left ++ target :: right) ∧ q.root = some root' ∧
          q.preorder root' = .ok (left ++ p.nodes.size :: target :: right)) ∧
        q.bypass p.nodes.size = .ok (some target, { p with nodes := p.nodes.push none })) ∧
    (∀ x n y, p.Reachable x → p.get? x = some n → n.children = [y] →
      ∃ q root root' left right, p.bypass x = .ok (some y, q) ∧
        (∀ z, q.contains z = true ↔ p.contains z = true ∧ z ≠ x) ∧ p.root = some root ∧
        p.preorder root = .ok (left ++ x :: right) ∧ q.root = some root' ∧
        q.preorder root' = .ok (left ++ right)) ∧
    ∀ x n, p.get? x = some n → n.children.length ≠ 1 → p.bypass x = .ok (none, p) := by
  refine ⟨fun target op hlive => ?_, fun x n y hx hn hy => ?_, fun x n hn hlength => ?_⟩
  · obtain ⟨t, ht⟩ := Option.isSome_iff_exists.1 hlive
    obtain ⟨q, scope, hq, -, -, hnew, -⟩ := h.exists_insertAbove ht op
    refine ⟨q, hq, by rw [contains, get?_size]; rfl, by rw [contains, hnew]; rfl, fun hreach => ?_,
      h.bypass_insertAbove ht hq⟩
    obtain ⟨b, rest, hshows, hmem⟩ := h.exists_shows_of_reachable hreach
    obtain ⟨q', root, left, right, hq', hroot, hids, hwalk⟩ := hshows.preorder_insertAbove hmem op
    obtain rfl : q = q' := congrArg Prod.snd (Except.ok.inj (hq.symm.trans hq'))
    exact ⟨b.top, root, left, right, hshows.root_eq, hids ▸ hshows.preorder_eq, hroot, hwalk⟩
  · obtain ⟨b, rest, hshows, hmem⟩ := h.exists_shows_of_reachable hx
    obtain ⟨q, root, left, right, hq, hroot, hids, hwalk⟩ := hshows.preorder_bypass hmem hn hy
    obtain ⟨q', hq', -, -, hgone, hget⟩ := h.exists_bypass hn hy
    obtain rfl : q = q' := congrArg Prod.snd (Except.ok.inj (hq.symm.trans hq'))
    refine ⟨q, b.top, root, left, right, hq, fun z => ?_, hshows.root_eq,
      hids ▸ hshows.preorder_eq, hroot, hwalk⟩
    by_cases hz : z = x
    · simp [contains, hz, hgone]
    · simp [contains, hget z hz, hz]
  · have honly : n.onlyChild? = none := by
      unfold Node.onlyChild?
      split
      · rename_i child hchildren
        exact absurd (congrArg List.length hchildren) hlength
      · rfl
    rw [Plan.bypass, node_of_get? hn, ok_bind, honly]
    rfl

end WellLinked

/-- A projection is inserted above the last branch of the join, and bypassed again. -/
theorem insertion_exact_spareScan :
    spareScan.WellLinked ∧ spareScan.Reachable 1 ∧
    (∃ q root left right, spareScan.insertAbove 1 (.projection (.ofList [⟨"b", 1⟩])) = .ok (4, q) ∧
      q.root = some root ∧ [2, 0, 1] = left ++ 1 :: right ∧
      q.preorder root = .ok (left ++ 4 :: 1 :: right) ∧
      q.bypass 4 = .ok (some 1, { spareScan with nodes := spareScan.nodes.push none })) ∧
    spareScan.bypass 2 = .ok (none, spareScan) := by
  have hreach : spareScan.Reachable 1 := .child (.root rfl) rfl (by decide)
  obtain ⟨hinsert, -, hstays⟩ := WellLinked.insertion_exact wellLinked_spareScan
  obtain ⟨q, hq, -, -, hwalk, hbypass⟩ := hinsert 1 (.projection (.ofList [⟨"b", 1⟩])) rfl
  obtain ⟨root, root', left, right, hroot, hbefore, hroot', hafter⟩ := hwalk hreach
  obtain rfl : 2 = root := Option.some.inj hroot
  have hids : [2, 0, 1] = left ++ 1 :: right := Except.ok.inj hbefore
  exact ⟨wellLinked_spareScan, hreach, ⟨q, root', left, right, hq, hroot', hids, hafter, hbypass⟩,
    hstays 2 _ rfl (by decide)⟩

end Plan

end QueryPlan
