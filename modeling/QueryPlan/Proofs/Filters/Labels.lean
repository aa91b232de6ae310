import QueryPlan.Proofs.Optimizer.Run

/-!
# Conditions on single nodes

A condition on what a node says, apart from its links, is asked of all nodes of a branch.  Putting
another branch in its place, marking it and narrowing below it each need little of the condition to
keep it everywhere.

Main results:

- Definition `Branch.All`: the condition holds of every node of a branch.
- Theorem `Branch.All.plug_alike`: one branch is replaced, and scopes change around it.
- Theorems `ProjectionPushdown.BelowJoin.Pushes.all` and `ProjectionPushdown.BelowFilter.Pushes.all`:
  rules that narrow keep conditions that admit projections.
- Theorem `PredicatePushdown.Pushes.all`: so does moving a filter, for conditions that bear it.
- Theorem `Plan.Shows.all_iff`: the condition, said of the reachable nodes of a plan.
-/

namespace QueryPlan

/-- What a node of a plan says, apart from its links. -/
def Node.label (n : Node) : Label :=
  ⟨n.op, n.scope, n.vacuous⟩

/-- The label of a node that was made from a label is this label. -/
@[simp]
theorem Label.label_node (l : Label) (parent : Option NodeId) (children : List NodeId) :
    (l.node parent children).label = l :=
  rfl

variable {P Q : Label → Prop}

namespace Branch

/-- Every node of the branch satisfies a condition. -/
inductive All (P : Label → Prop) : Branch → Prop
  | intro {id : NodeId} {l : Label} {bs : List Branch} (hl : P l) (hbs : ∀ b ∈ bs, b.All P) :
      All P (node id l bs)

variable {id : NodeId} {l : Label} {bs : List Branch} {b s s' : Branch} {c c' : Context}

/-- The uppermost node satisfies the condition. -/
theorem All.label (h : b.All P) : P b.label := by
  cases h with
  | intro hl => exact hl

/-- The nodes of every branch satisfy the condition. -/
theorem All.branch (h : (node id l bs).All P) : ∀ b ∈ bs, b.All P := by
  cases h with
  | intro _ hbs => exact hbs

/-- A condition holds everywhere in a branch if it holds on top and everywhere below. -/
theorem all_node_iff : (node id l bs).All P ↔ P l ∧ ∀ b ∈ bs, b.All P :=
  ⟨fun h => ⟨h.label, h.branch⟩, fun h => .intro h.1 h.2⟩

/-- What implies another condition at every node implies it everywhere in a branch. -/
theorem All.mono (h : b.All P) (hPQ : ∀ l, P l → Q l) : b.All Q := by
  induction b with
  | node id l bs ih => exact .intro (hPQ l h.label) fun b hb => ih b hb (h.branch b hb)

/-- A condition holds everywhere in a marked branch if it holds for every node with the mark. -/
theorem All.mark (h : b.All P) (hP : ∀ l, P l → Q { l with vacuous := true }) : b.mark.All Q := by
  induction b with
  | node id l bs ih =>
    rw [mark_node]
    refine .intro (hP l h.label) fun b hb => ?_
    obtain ⟨t, ht, rfl⟩ := List.mem_map.1 hb
    exact ih t ht (h.branch t ht)

/-- A condition holds everywhere in a branch if it holds wherever a branch stands in it. -/
theorem all_of_forall_plug (h : ∀ c s, b = Context.plug c s → P s.label) : b.All P := by
  induction b with
  | node id l bs ih => exact .intro (h [] _ rfl) fun b hb => ih b hb (forall_plug_of_mem h hb)

end Branch

/-- A condition holds everywhere in a filled frame if it holds at its node, in all siblings and in
the branch. -/
theorem Frame.all_fill_iff {f : Frame} {b : Branch} :
    (f.fill b).All P ↔ P f.label ∧ (∀ x ∈ f.siblings, x.All P) ∧ b.All P := by
  rw [fill, Branch.all_node_iff, forall_mem_middle, siblings]

namespace Branch.All

variable {s s' : Branch} {c c' : Context}

/-- What holds everywhere in a tree holds everywhere in a part of it. -/
theorem of_plug (h : (c.plug s).All P) : s.All P := by
  induction c generalizing s with
  | nil => exact h
  | cons f c ih => exact (Frame.all_fill_iff.1 (ih h)).2.2

/-- Another branch takes the place of one, and scopes change above it. -/
theorem plug_alike (h : (c.plug s).All P) (halike : c.Alike c')
    (hP : ∀ {l l' : Label}, l.Alike l' → P l → P l') (hs' : s'.All P) : (c'.plug s').All P := by
  induction halike generalizing s s' with
  | nil => exact hs'
  | @cons f f' c c' hf _ ih =>
    obtain ⟨hl, hsiblings, -⟩ := Frame.all_fill_iff.1 (of_plug (c := c) h)
    refine ih (s := f.fill s) h (Frame.all_fill_iff.2 ⟨hP hf.label hl, ?_, hs'⟩)
    rwa [Frame.siblings, hf.left_eq, hf.right_eq]

/-- Another branch takes the place of one. -/
theorem plug (h : (c.plug s).All P) (hs' : s'.All P) : (c.plug s').All P := by
  induction c generalizing s s' with
  | nil => exact hs'
  | cons f c ih =>
    obtain ⟨hl, hsiblings, -⟩ := Frame.all_fill_iff.1 (of_plug (c := c) h)
    exact ih (s := f.fill s) h (Frame.all_fill_iff.2 ⟨hl, hsiblings, hs'⟩)

end Branch.All

/-! ## Narrowing -/

/-- The condition does not look at the columns of a projection, and it holds of a new one. -/
structure Label.AdmitsProjections (P : Label → Prop) : Prop where
  setColumns : ∀ {l : Label} {columns columns' : ColumnSet}, l.op = .projection columns → P l →
    P { l with op := .projection columns' }
  insert : ∀ columns scope, P ⟨.projection columns, scope, false⟩

namespace ProjectionPushdown

variable {needed : ColumnSet} {b b' s s' : Branch}

/-- Narrowing a branch keeps a condition that admits projections. -/
theorem Narrows.all (h : Narrows needed b b') (hP : Label.AdmitsProjections P) (hb : b.All P) :
    b'.All P := by
  cases h with
  | inPlace hl => exact .intro (hP.setColumns hl hb.label) hb.branch
  | insert => exact .intro (hP.insert ..) (List.forall_mem_singleton.2 hb)

namespace BelowJoin

/-- Narrowing a branch below filters keeps a condition that admits projections. -/
theorem NarrowsBelow.all (h : NarrowsBelow needed b b') (hP : Label.AdmitsProjections P)
    (hb : b.All P) : b'.All P := by
  induction h with
  | here h => exact h.all hP hb
  | pass _ _ _ _ _ ih =>
    have hbelow := List.forall_mem_singleton.1 hb.branch
    exact .intro hb.label (List.forall_mem_singleton.2 (ih hbelow))

/-- A condition that admits projections is kept by a branch of a join, whether it is narrowed or
stays. -/
theorem Narrowed.all {condition columns : ColumnSet} (h : Narrowed condition columns b b')
    (hP : Label.AdmitsProjections P) (hb : b.All P) : b'.All P := by
  rcases h with ⟨rfl, -⟩ | h
  · exact hb
  · exact h.all hP hb

/-- Pushing a projection below a join keeps a condition that admits projections. -/
theorem Pushes.all (h : Pushes s s') (hP : Label.AdmitsProjections P) (hs : s.All P) :
    s'.All P := by
  cases h with
  | push hl hm hbs =>
    have hjoin := List.forall_mem_singleton.1 hs.branch
    refine .intro hs.label (List.forall_mem_singleton.2 (.intro hjoin.label fun b' hb' => ?_))
    obtain ⟨b, hb, hnarrowed⟩ := exists_mem_of_forall₂ hbs b' hb'
    exact hnarrowed.all hP (hjoin.branch b hb)

end BelowJoin

/-- Pushing a projection below a filter keeps a condition that admits projections. -/
theorem BelowFilter.Pushes.all (h : BelowFilter.Pushes s s') (hP : Label.AdmitsProjections P)
    (hs : s.All P) : s'.All P := by
  cases h with
  | push hl hm hb =>
    have hfilter := List.forall_mem_singleton.1 hs.branch
    have hbelow := hb.all hP (List.forall_mem_singleton.1 hfilter.branch)
    exact .intro hs.label
      (List.forall_mem_singleton.2 (.intro hfilter.label (List.forall_mem_singleton.2 hbelow)))

end ProjectionPushdown

/-! ## Moving filters -/

/-- A filter that moves onto a branch of a join keeps a condition that bears the change of its scope. -/
theorem PredicatePushdown.Pushes.all {s s' : Branch} (h : Pushes s s')
    (hP : ∀ {l : Label} {f : Filter}, l.op = .filter f → P l → ∀ tables : AliasSet,
      P { l with scope := (l.scope.inter tables).union f.tables }) (hs : s.All P) : s'.All P := by
  cases h with
  | @push id join l m f cond left right b hl hm =>
    have hjoin := List.forall_mem_singleton.1 hs.branch
    obtain ⟨hothers, hb⟩ := forall_mem_middle.1 hjoin.branch
    have hfilter := hP hl hs.label b.tables
    exact .intro hjoin.label
      (forall_mem_middle.2 ⟨hothers, .intro hfilter (List.forall_mem_singleton.2 hb)⟩)

/-! ## On plans -/

/-- A condition holds everywhere in a tree if it holds of all nodes that are reachable in the plan. -/
theorem Plan.Shows.all_iff {p : Plan} {b : Branch} {rest : NodeId → Option Node}
    (h : p.Shows b rest) :
    b.All P ↔ ∀ id n, p.Reachable id → p.get? id = some n → P n.label := by
  constructor
  · intro hall id n hid hget
    obtain ⟨c, s, rfl, rfl⟩ := Branch.exists_plug_of_mem_ids (h.reachable_iff.1 hid)
    obtain rfl := Option.some.inj (h.has_plug.get?_top.symm.trans hget)
    exact hall.of_plug.label
  · intro hnodes
    refine Branch.all_of_forall_plug ?_
    rintro c s rfl
    exact hnodes s.top _ (h.reachable_iff.2 (c.top_mem_ids_plug s)) h.has_plug.get?_top

end QueryPlan
