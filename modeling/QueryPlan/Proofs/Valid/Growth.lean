import QueryPlan.Proofs.Valid.Links

/-!
# Trees along links

A walk down the lists of children starts at nodes that record no parent.  If every child records the
node that lists it, the parent of a node that was met has been visited before, so the walk can meet
no node a second time: a child of the node it visits next would have been met below that very node.
What the walk goes over are trees.

Main results:

- Definition `Plan.Frontier`: what holds of the nodes that a walk has met.
- Theorem `Plan.Frontier.step`: it holds again when the next node is visited.
- Theorem `Plan.Frontier.exists_branches`: the pending nodes are the tops of trees.
-/

namespace QueryPlan.Plan

variable {p : Plan}

/-! ## The invariant of a walk -/

/-- The nodes visited and the nodes still pending are different nodes of the store, and those among
them that record a parent record a visited one. -/
structure Frontier (p : Plan) (visited pending : List NodeId) : Prop where
  nodup : (visited ++ pending).Nodup
  met : ∀ x ∈ visited ++ pending, ∃ n, p.get? x = some n ∧ ∀ y, n.parent = some y → y ∈ visited

namespace Frontier

variable {visited pending : List NodeId} {id : NodeId} {n : Node}

/-- A walk may start at different nodes that record no parent. -/
theorem start (hnodup : pending.Nodup)
    (h : ∀ x ∈ pending, ∃ n, p.get? x = some n ∧ n.parent = none) : p.Frontier [] pending where
  nodup := hnodup
  met x hx := by
    obtain ⟨n, hn, hparent⟩ := h x hx
    exact ⟨n, hn, fun y hy => absurd (hparent.symm.trans hy) (Option.some_ne_none y).symm⟩

/-- No child of the next node has been met. -/
theorem child_not_mem (h : p.Frontier visited (id :: pending)) (hp : p.Owned)
    (hget : p.get? id = some n) {c : NodeId} (hc : c ∈ n.children) :
    c ∉ visited ++ id :: pending := by
  intro hmet
  obtain ⟨m, hm, hparent⟩ := hp.child hget c hc
  obtain ⟨m', hm', hvisited⟩ := h.met c hmet
  obtain rfl := Option.some.inj (hm.symm.trans hm')
  -- The parent that the child records is the next node, which has not been visited.
  have hid := (List.nodup_append.1 h.nodup).2.2 id (hvisited id hparent) id List.mem_cons_self
  exact hid rfl

/-- The next node is visited, and its children are pending instead. -/
theorem step (h : p.Frontier visited (id :: pending)) (hp : p.Owned) (hget : p.get? id = some n) :
    p.Frontier (id :: visited) (n.children.reverse ++ pending) := by
  have hperm : (id :: visited ++ (n.children.reverse ++ pending)).Perm
      (n.children ++ (visited ++ id :: pending)) := by
    refine List.perm_iff_count.2 fun x => ?_
    simp only [List.count_append, List.count_cons, List.count_reverse]
    omega
  refine ⟨hperm.nodup_iff.2 ?_, fun x hx => ?_⟩
  · refine List.nodup_append.2 ⟨hp.nodup hget, h.nodup, fun c hc y hy heq => ?_⟩
    exact h.child_not_mem hp hget hc (heq ▸ hy)
  · rcases List.mem_append.1 (hperm.mem_iff.1 hx) with hc | hmet
    · obtain ⟨m, hm, hparent⟩ := hp.child hget x hc
      refine ⟨m, hm, fun y hy => ?_⟩
      obtain rfl := Option.some.inj (hparent.symm.trans hy)
      exact List.mem_cons_self
    · obtain ⟨m, hm, hvisited⟩ := h.met x hmet
      exact ⟨m, hm, fun y hy => List.mem_cons_of_mem id (hvisited y hy)⟩

/-- A walk has met at most as many nodes as the store has positions. -/
theorem length_le (h : p.Frontier visited pending) :
    (visited ++ pending).length ≤ p.nodes.size := by
  have hsub : visited ++ pending ⊆ List.range p.nodes.size := fun x hx => by
    obtain ⟨n, hn, -⟩ := h.met x hx
    exact List.mem_range.2 (lt_size_of_get? hn)
  simpa using (List.subperm_of_subset h.nodup hsub).length_le

end Frontier

/-! ## Growing trees -/

/-- The store holds a branch. -/
def Holds (p : Plan) (b : Branch) : Prop :=
  ∃ parent, ∀ e ∈ b.entries parent, p.get? e.1 = some e.2

/-- The node at the top of a branch that the store holds. -/
theorem Holds.exists_top {b : Branch} (h : p.Holds b) :
    ∃ parent, p.get? b.top = some (b.label.node parent (b.branches.map Branch.top)) ∧
      ∀ e ∈ b.entries parent, p.get? e.1 = some e.2 := by
  obtain ⟨parent, hentries⟩ := h
  refine ⟨parent, hentries (b.top, _) ?_, hentries⟩
  rw [Branch.entries_eq_cons]
  exact List.mem_cons_self

/-- A node holds a branch if the nodes it lists do. -/
theorem Owned.holds_node (hp : p.Owned) {id : NodeId} {n : Node} {bs : List Branch}
    (hget : p.get? id = some n) (htops : bs.map Branch.top = n.children)
    (hbs : ∀ b ∈ bs, p.Holds b) : p.Holds (.node id ⟨n.op, n.scope, n.vacuous⟩ bs) := by
  refine ⟨n.parent, fun e he => ?_⟩
  rw [Branch.entries_node, htops] at he
  rcases List.mem_cons.1 he with rfl | he
  · exact hget
  · obtain ⟨b, hb, he⟩ := List.mem_flatMap.1 he
    obtain ⟨parent, htop, hentries⟩ := (hbs b hb).exists_top
    -- The child records the node that lists it.
    obtain ⟨m, hm, hparent⟩ := hp.child hget b.top (htops ▸ List.mem_map_of_mem hb)
    obtain rfl := Option.some.inj (htop.symm.trans hm)
    rw [Label.node_parent] at hparent
    exact hentries e (hparent ▸ he)

/-- The pending nodes of a walk are the tops of trees, which share no node with each other and none
with the nodes visited before. -/
theorem Frontier.exists_branches {visited pending : List NodeId} {steps : Nat}
    (h : p.Frontier visited pending) (hp : p.Owned)
    (hsteps : p.nodes.size ≤ visited.length + steps) :
    ∃ bs : List Branch, bs.map Branch.top = pending ∧ (∀ b ∈ bs, p.Holds b) ∧
      (bs.flatMap Branch.ids).Nodup ∧ ∀ x ∈ bs.flatMap Branch.ids, x ∉ visited := by
  induction steps generalizing visited pending with
  | zero =>
    have hlen := h.length_le
    rw [List.length_append] at hlen
    obtain rfl : pending = [] := List.length_eq_zero_iff.1 (by omega)
    exact ⟨[], rfl, by simp, by simp, by simp⟩
  | succ steps ih =>
    cases pending with
    | nil => exact ⟨[], rfl, by simp, by simp, by simp⟩
    | cons id pending =>
      obtain ⟨n, hget, -⟩ := h.met id (by simp)
      obtain ⟨all, htops, hholds, hnodup, hnew⟩ :=
        ih (h.step hp hget) (by rw [List.length_cons]; omega)
      obtain ⟨rcs, bs, rfl, hrcs, hbs⟩ := List.map_eq_append_iff.1 htops
      have hcs : rcs.reverse.map Branch.top = n.children := by
        rw [List.map_reverse, hrcs, List.reverse_reverse]
      have hperm : ((rcs ++ bs).flatMap Branch.ids).Perm
          (rcs.reverse.flatMap Branch.ids ++ bs.flatMap Branch.ids) := by
        rw [List.flatMap_append]
        exact (rcs.reverse_perm.symm.flatMap_right _).append_right _
      refine ⟨.node id ⟨n.op, n.scope, n.vacuous⟩ rcs.reverse :: bs,
        by rw [List.map_cons, hbs]; rfl, ?_, ?_, ?_⟩
      · intro b hb
        rcases List.mem_cons.1 hb with rfl | hb
        · exact hp.holds_node hget hcs fun t ht =>
            hholds t (List.mem_append_left _ (List.mem_reverse.1 ht))
        · exact hholds b (List.mem_append_right _ hb)
      · rw [List.flatMap_cons, Branch.ids_node, List.cons_append, List.nodup_cons]
        refine ⟨fun hmem => ?_, hperm.nodup_iff.1 hnodup⟩
        exact hnew id (hperm.mem_iff.2 hmem) List.mem_cons_self
      · intro x hx
        rw [List.flatMap_cons, Branch.ids_node, List.cons_append] at hx
        rcases List.mem_cons.1 hx with rfl | hx
        · intro hvisited
          exact (List.nodup_append.1 h.nodup).2.2 x hvisited x List.mem_cons_self rfl
        · exact fun hv => hnew x (hperm.mem_iff.2 hx) (List.mem_cons_of_mem _ hv)

end QueryPlan.Plan
