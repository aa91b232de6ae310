import QueryPlan.Proofs.Optimizer.Run

/-!
# Walks that change nothing

Where no rule has anything to do, every slot is stable from the start, and a walk down leaves the plan as
it is.

Main results:

- Definition `Optimizer.Leaves`: no rule has anything to do where a walk down gets to.
- Theorem `Optimizer.stabilize_of_rests`: such a slot is stable from the start.
- Theorem `Optimizer.descendWithin_of_leaves`: such a walk ends in the state in which it starts.
-/

namespace QueryPlan.Optimizer

variable {o : Optimizer} {rest : NodeId → Option Node} {c : Context} {t : Branch} {s : Optimized}

/-- A loop none of whose steps changes the state does not change it. -/
theorem foldlM_eq_self {α σ ε : Type} {f : σ → α → Except ε σ} {l : List α} {s : σ}
    (h : ∀ a ∈ l, f s a = .ok s) : l.foldlM f s = .ok s := by
  induction l with
  | nil => rfl
  | cons a l ih =>
    rw [List.foldlM_cons, h a List.mem_cons_self, ok_bind]
    exact ih fun x hx => h x (List.mem_cons_of_mem a hx)

/-- A loop in which only one step changes the state. -/
theorem foldlM_middle {α σ ε : Type} {f : σ → α → Except ε σ} {left right : List α} {a : α} {s s' : σ}
    (hleft : ∀ x ∈ left, f s x = .ok s) (ha : f s a = .ok s') (hright : ∀ x ∈ right, f s' x = .ok s') :
    (left ++ a :: right).foldlM f s = .ok s' := by
  rw [List.foldlM_append, foldlM_eq_self hleft, ok_bind, List.foldlM_cons, ha, ok_bind,
    foldlM_eq_self hright]

/-- Rules that rest at a branch are tried in vain. -/
theorem tryRules_of_rests (h : s.plan.Shows (c.plug t) rest) {rules : List Rule}
    (hrests : ∀ r ∈ rules, r.Rests s.plan t) : o.tryRules t.top rules s = .ok (none, s) := by
  rcases o.tryRules_shows h rules with ⟨heq, -⟩ | ⟨r, hr, c', t', s', -, hfires⟩
  · exact heq
  · obtain ⟨res, hres, hchanged, -⟩ := hfires.changes
    rw [Except.ok.inj (hres.symm.trans (hrests r hr hfires.anchors))] at hchanged
    exact absurd hchanged Bool.false_ne_true

/-- A slot is stable from the start if no rule may replace its occupant. -/
theorem stabilizeWithin_of_rests (h : s.plan.Shows (c.plug t) rest)
    (hrests : ∀ r ∈ o.replacingRules, r.Rests s.plan t) (rounds : Nat) :
    o.stabilizeWithin (rounds + 1) t.top s = .ok (t.top, s) := by
  rw [stabilizeWithin, h.has_plug.node_top, ok_bind, tryRules_of_rests h hrests]
  split <;> rfl

/-- A slot is stable within its rounds if no rule may replace its occupant. -/
theorem stabilize_of_rests (h : s.plan.Shows (c.plug t) rest)
    (hrests : ∀ r ∈ o.replacingRules, r.Rests s.plan t) : o.stabilize t.top s = .ok (t.top, s) :=
  stabilizeWithin_of_rests h hrests _

/-- Wherever a walk down from a branch of the plan gets to, the rules rest. -/
inductive Leaves (o : Optimizer) (p : Plan) : Branch → Prop
  | skip {t : Branch} (hv : t.label.vacuous = true) : Leaves o p t
  | node {id : NodeId} {l : Label} {bs : List Branch}
      (hstable : ∀ b ∈ bs, ∀ r ∈ o.replacingRules, r.Rests p b)
      (hnarrow : ∀ r ∈ o.narrowingRules, r.Rests p (.node id l bs))
      (hbelow : ∀ b ∈ bs, Leaves o p b) : Leaves o p (.node id l bs)

/-- The branches of a node of a tree stand in the tree. -/
theorem exists_shows_of_mem {id : NodeId} {l : Label} {bs : List Branch} {p : Plan}
    (h : p.Shows (c.plug (.node id l bs)) rest) {b : Branch} (hb : b ∈ bs) :
    ∃ c' : Context, p.Shows (c'.plug b) rest := by
  obtain ⟨f, -, -, heq⟩ := Branch.exists_fill_of_mem id l hb
  exact ⟨f :: c, by rwa [Context.plug_cons, ← heq]⟩

/-- The slots of branches in which the rules rest are stable. -/
theorem stabilizeAll_of_rests {bs : List Branch}
    (h : ∀ b ∈ bs, ∃ c : Context, s.plan.Shows (c.plug b) rest)
    (hrests : ∀ b ∈ bs, ∀ r ∈ o.replacingRules, r.Rests s.plan b) :
    o.stabilizeAll (bs.map Branch.top) s = .ok s := by
  refine foldlM_eq_self (List.forall_mem_map.2 fun b hb => ?_)
  obtain ⟨c, hb'⟩ := h b hb
  rw [stabilize_of_rests hb' (hrests b hb), map_ok]

/-- A walk down leaves a plan alone in which the rules rest. -/
theorem descendWithin_of_leaves (hleaves : o.Leaves s.plan t) (h : s.plan.Shows (c.plug t) rest)
    {depth : Nat} (hdepth : t.height ≤ depth) : o.descendWithin depth t.top s = .ok s := by
  induction hleaves generalizing c depth with
  | @skip t hv =>
    obtain ⟨depth, rfl⟩ := Nat.exists_eq_add_one.2 (Nat.lt_of_lt_of_le t.height_pos hdepth)
    rw [descendWithin, h.has_plug.node_top, ok_bind, Label.node_vacuous, if_pos hv]
    rfl
  | @node id l bs hstable hnarrow _ ih =>
    obtain ⟨depth, rfl⟩ := Nat.exists_eq_add_one.2 (Nat.lt_of_lt_of_le (Branch.height_pos _) hdepth)
    have hid : s.plan.node id = .ok (l.node c.parent? (bs.map Branch.top)) := h.has_plug.node_top
    have hbranch : ∀ b ∈ bs, ∃ c' : Context, s.plan.Shows (c'.plug b) rest :=
      fun b hb => exists_shows_of_mem h hb
    have htried := tryRules_of_rests (o := o) h hnarrow
    rw [Branch.top_node] at htried ⊢
    rw [descendWithin, hid, ok_bind, Label.node_vacuous, Label.node_children]
    split
    · rfl
    rw [stabilizeAll_of_rests hbranch hstable, ok_bind, htried, ok_bind]
    simp only [hid, ok_bind, Label.node_children]
    refine foldlM_eq_self (List.forall_mem_map.2 fun b hb => ?_)
    obtain ⟨c', hb'⟩ := hbranch b hb
    have hlt := Branch.height_lt_of_mem id l hb
    exact ih b hb hb' (by omega)

/-- A run leaves a plan alone in which the rules rest. -/
theorem transform_of_leaves {p : Plan} {b : Branch} (h : p.Shows b rest)
    (hstable : ∀ r ∈ o.replacingRules, r.Rests p b) (hleaves : o.Leaves p b) :
    o.transform p = .ok (.start p) := by
  have hheight : b.height ≤ depthLimit p := by
    have hle := b.height_le_length_ids
    have hsize := length_ids_le (c := []) h
    rw [depthLimit]
    omega
  have hslot : o.stabilize b.top (.start p) = .ok (b.top, .start p) :=
    stabilize_of_rests (c := []) (s := .start p) h hstable
  have hdescend := descendWithin_of_leaves (c := []) (s := .start p) hleaves h hheight
  rw [transform, h.root_eq]
  show (o.stabilize b.top (.start p) >>= fun r => o.descendWithin (depthLimit p) r.1 r.2) = _
  rw [hslot, ok_bind, hdescend]

end QueryPlan.Optimizer
