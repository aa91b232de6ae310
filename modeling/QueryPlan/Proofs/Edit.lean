import QueryPlan.Plan.Build
import QueryPlan.Plan.Edit
import QueryPlan.Proofs.Walk

/-!
# Edits of trees

The effect of each edit of a plan, told for trees: the store holds some trees side by side, one of
which hangs from the root, and an edit cuts a branch out of its context, puts a lone tree into the
place of a branch, or discards a lone tree.

Main results:

- Theorems `Plan.Splits.detach` and `Plan.Splits.seat`: cutting a branch out and putting another one
  in its place.
- Theorem `Plan.Splits.replace_below`: a branch takes the place of a node above it.
- Theorems `Plan.Splits.graft` and `Plan.Splits.placeAbove`: a lone tree takes the place of a branch,
  and the branch goes below it.
- Theorems `Plan.Splits.insertAbove`, `Plan.Splits.discardBranch` and `Plan.Shows.bypass`.
- Theorem `Plan.Splits.refreshScopes`: the scopes above a branch are those of the tables below.
- Theorem `Plan.Splits.markVacuous`: all nodes of a branch are marked.
-/

namespace QueryPlan

namespace Branch

/-- The branch with another one as its last branch. -/
def graft (b s : Branch) : Branch :=
  .node b.top b.label (b.branches ++ [s])

/-- The branch with another label at its top. -/
def relabel (b : Branch) (l : Label) : Branch :=
  .node b.top l b.branches

/-- A graft leaves the top where it is. -/
@[simp]
theorem top_graft (b s : Branch) : (b.graft s).top = b.top :=
  rfl

/-- A new label leaves the top where it is. -/
@[simp]
theorem top_relabel (b : Branch) (l : Label) : (b.relabel l).top = b.top :=
  rfl

/-- The branch with all its nodes marked as producing no rows. -/
def mark : Branch → Branch
  | .node id l branches => .node id { l with vacuous := true } (branches.map mark)

/-- A marked branch has a marked node above marked branches. -/
@[simp]
theorem mark_node (id : NodeId) (l : Label) (bs : List Branch) :
    (node id l bs).mark = node id { l with vacuous := true } (bs.map mark) := by
  rw [mark]

/-- Marks leave the top where it is. -/
@[simp]
theorem top_mark (b : Branch) : b.mark.top = b.top := by
  cases b
  simp

/-- The entries of a marked branch are the entries before, each marked. -/
theorem entries_mark (parent : Option NodeId) (b : Branch) :
    b.mark.entries parent = (b.entries parent).map fun e => (e.1, { e.2 with vacuous := true }) := by
  induction b generalizing parent with
  | node id l bs ih =>
    simp only [mark_node, entries_node, List.map_cons, List.map_map, List.flatMap_map,
      List.map_flatMap]
    rw [List.flatMap_congr fun b hb => ih b hb (some id)]
    have htops : bs.map (top ∘ mark) = bs.map top :=
      List.map_congr_left fun b _ => top_mark b
    rw [htops]
    rfl

end Branch

/-- The label with the scope it should have when `reachable` are the tables scanned below. -/
def Label.refresh (l : Label) (reachable : AliasSet) : Label :=
  { l with scope := Plan.refreshedScope (l.node none []) reachable }

/-- The node above a branch with a refreshed scope. -/
def Frame.refresh (f : Frame) (s : Branch) : Frame :=
  { f with label := f.label.refresh (f.fill s).tables }

/-- The branch with a refreshed scope at its top. -/
def Branch.refresh (s : Branch) : Branch :=
  s.relabel (s.label.refresh s.tables)

/-- A refreshed scope has no influence on what is scanned. -/
theorem Branch.scans_refresh (s : Branch) : s.refresh.scans = s.scans := by
  cases s
  simp [refresh, relabel, Label.refresh]

namespace Frame

/-- What a filled frame scans depends on the scans of the branch alone. -/
theorem scans_fill (f : Frame) {s s' : Branch} (h : s'.scans = s.scans) :
    (f.fill s').scans = (f.fill s).scans := by
  simp [fill, h]

/-- A refreshed frame scans what it scanned before. -/
theorem scans_fill_refresh (f : Frame) (s : Branch) :
    ((f.refresh s).fill s).scans = (f.fill s).scans :=
  (f.fill s).scans_refresh

/-- What is refreshed above a branch depends on its scans alone. -/
theorem refresh_fill (f : Frame) {s s' : Branch} (h : s'.scans = s.scans) :
    (f.fill s').refresh = (f.refresh s).fill s' := by
  rw [Branch.refresh, Branch.tables, f.scans_fill h]
  rfl

end Frame

namespace Context

/-- The nodes above a branch with refreshed scopes. -/
def refresh : Context → Branch → Context
  | [], _ => []
  | f :: c, s => f.refresh s :: refresh c (f.fill s)

/-- There is nothing to refresh in the empty context. -/
@[simp]
theorem refresh_nil (s : Branch) : refresh [] s = [] :=
  rfl

/-- A context is refreshed from the nearest node up. -/
@[simp]
theorem refresh_cons (f : Frame) (c : Context) (s : Branch) :
    refresh (f :: c) s = f.refresh s :: refresh c (f.fill s) :=
  rfl

/-- Refreshed scopes depend on the tables scanned in the branch alone. -/
theorem refresh_congr {s s' : Branch} (h : s.scans = s'.scans) (c : Context) :
    c.refresh s = c.refresh s' := by
  induction c generalizing s s' with
  | nil => rfl
  | cons f c ih =>
    have hfill : (f.fill s).scans = (f.fill s').scans := by simp [Frame.fill, h]
    rw [refresh_cons, refresh_cons, ih hfill, Frame.refresh, Frame.refresh, Branch.tables,
      Branch.tables, hfill]

/-- A context has at least as many positions as nodes on the way up. -/
theorem length_le_length_ids (c : Context) : c.length ≤ c.ids.length := by
  induction c with
  | nil => simp
  | cons f c ih =>
    rw [ids_cons, List.length_cons, List.length_cons, List.length_append]
    omega

/-- The uppermost node of a branch in context depends on the uppermost node of the branch alone. -/
theorem top_plug_congr {s s' : Branch} (h : s.top = s'.top) {c : Context} :
    (c.plug s).top = (c.plug s').top := by
  cases c with
  | nil => exact h
  | cons f c => exact top_plug_cons f c s s'

/-- Scopes have no influence on which node is the uppermost one. -/
theorem top_plug_refresh (c : Context) (s t : Branch) :
    ((c.refresh s).plug t).top = (c.plug t).top := by
  induction c generalizing s t with
  | nil => rfl
  | cons f c ih =>
    rw [refresh_cons, plug_cons, plug_cons, ih]
    exact top_plug_congr (show ((f.refresh s).fill t).top = (f.fill t).top from rfl)

/-- The uppermost node of a branch without one of its parts. -/
theorem top_plug_close (f : Frame) (d : Context) (b : Branch) :
    (plug d f.close).top = (plug (f :: d) b).top := by
  cases d with
  | nil => rfl
  | cons g d => exact top_plug_cons g d f.close (f.fill b)

end Context

namespace Plan

/-- Puts the lone node `new` into the slot of the node `old`. -/
def seat (p : Plan) (old new : NodeId) : Except Fault Plan := do
  let p ←
    match ← p.slot? old with
    | some (.child parent index) =>
      let q ← p.update parent fun n => { n with children := n.children.set index new }
      q.update new ({ · with parent := some parent })
    | some .root => pure { p with root := some new }
    | none => pure p
  p.update old ({ · with parent := none })

/-- A node and its label are refreshed to the same scope. -/
theorem refreshedScope_node (l : Label) (parent : Option NodeId) (children : List NodeId)
    (reachable : AliasSet) :
    refreshedScope (l.node parent children) reachable = (l.refresh reachable).scope :=
  rfl

/-- To replace a node is to detach the new node and to seat it in the slot of the old one. -/
theorem replace_eq {old new : NodeId} (h : old ≠ new) (p : Plan) :
    p.replace old new = (p.detach new >>= fun q => q.seat old new) := by
  rw [replace, if_neg h]
  rfl

namespace Splits

variable {p : Plan} {es : List (NodeId × Node)} {rest : NodeId → Option Node}

/-- The choice of the root leaves the entries alone. -/
theorem withRoot (h : p.Splits es rest) (r : Option NodeId) :
    ({ p with root := r } : Plan).Splits es rest :=
  ⟨h.distinct, h.get?_entry, h.apart, h.get?_rest⟩

/-- The entries of a branch and of its parent, before all others. -/
theorem perm_plug_cons (f : Frame) (c : Context) (s : Branch) (es : List (NodeId × Node)) :
    ((Context.plug (f :: c) s).entries none ++ es).Perm
      ((f.id, f.label.node c.parent?
          (f.left.map Branch.top ++ s.top :: f.right.map Branch.top)) ::
        (s.top, s.label.node (some f.id) (s.branches.map Branch.top)) ::
          (s.entriesBelow ++ (f.siblings.flatMap (Branch.entries (some f.id)) ++
            c.entries f.id ++ es))) := by
  refine ((Context.entries_plug (f :: c) s).append_right es).trans ?_
  rw [Branch.entries_eq_cons, Context.parent?_cons, Context.entries]
  simp only [List.cons_append, List.append_assoc]
  exact (List.Perm.cons _ List.perm_middle).trans (List.Perm.swap _ _ _)

/-- The entries of a node that has lost a branch, before those around it. -/
theorem perm_plug_close (f : Frame) (c : Context) (es : List (NodeId × Node)) :
    ((c.plug f.close).entries none ++ es).Perm
      ((f.id, f.label.node c.parent? (f.left.map Branch.top ++ f.right.map Branch.top)) ::
        (f.siblings.flatMap (Branch.entries (some f.id)) ++ c.entries f.id ++ es)) := by
  refine ((c.entries_plug f.close).append_right es).trans ?_
  simp [Frame.close, Frame.siblings]

/-- What stands once in a list is filtered out at its place. -/
theorem filter_ne_middle {x : NodeId} {l r : List NodeId} (hl : x ∉ l) (hr : x ∉ r) :
    (l ++ x :: r).filter (· != x) = l ++ r := by
  have hne : ∀ {m : List NodeId}, x ∉ m → m.filter (· != x) = m := by
    intro m hm
    apply List.filter_eq_self.2
    intro y hy
    exact bne_iff_ne.2 fun e => hm (e ▸ hy)
  rw [List.filter_append, List.filter_cons_of_neg (by simp), hne hl, hne hr]

/-- A node that stands at the top of a branch is none of its siblings. -/
theorem top_not_mem_siblings {f : Frame} {c : Context} {s : Branch}
    (h : p.Splits ((Context.plug (f :: c) s).entries none ++ es) rest) :
    s.top ∉ f.left.map Branch.top ∧ s.top ∉ f.right.map Branch.top := by
  have hs := (h.of_perm (perm_plug_cons f c s es)).distinct
  rw [List.map_cons, List.map_cons, List.nodup_cons, List.nodup_cons] at hs
  have hnot : ∀ b ∈ f.siblings, s.top ≠ b.top := by
    intro b hb heq
    apply hs.2.1
    rw [heq]
    simp only [List.map_append, List.mem_append, Branch.map_fst_flatMap_entries]
    exact .inr (.inl (.inl (List.mem_flatMap.2 ⟨b, hb, b.top_mem_ids⟩)))
  constructor
  · intro hmem
    obtain ⟨b, hb, heq⟩ := List.mem_map.1 hmem
    exact hnot b (List.mem_append_left _ hb) heq.symm
  · intro hmem
    obtain ⟨b, hb, heq⟩ := List.mem_map.1 hmem
    exact hnot b (List.mem_append_right _ hb) heq.symm

/-! ## Cutting out and putting in -/

section Perm

variable {α : Type} (x y z : α) (a b c d : List α)

private theorem perm_lower :
    (x :: y :: (a ++ (b ++ c))).Perm (y :: (b ++ (x :: (a ++ c)))) := by
  classical
  refine List.perm_iff_count.2 fun e => ?_
  simp only [List.count_append, List.count_cons]
  omega

private theorem perm_raise :
    (x :: y :: (a ++ (b ++ (z :: c)))).Perm (z :: x :: y :: (a ++ (b ++ c))) := by
  classical
  refine List.perm_iff_count.2 fun e => ?_
  simp only [List.count_append, List.count_cons]
  omega

private theorem perm_third : (x :: y :: z :: a).Perm (z :: x :: y :: a) := by
  classical
  refine List.perm_iff_count.2 fun e => ?_
  simp only [List.count_cons]
  omega

private theorem perm_exchange :
    (x :: y :: z :: (a ++ (b ++ (c ++ d)))).Perm (z :: y :: (c ++ (b ++ (x :: (a ++ d))))) := by
  classical
  refine List.perm_iff_count.2 fun e => ?_
  simp only [List.count_append, List.count_cons]
  omega

private theorem perm_lift :
    (x :: (a ++ (b ++ (y :: c)))).Perm (y :: x :: (a ++ (b ++ c))) := by
  classical
  refine List.perm_iff_count.2 fun e => ?_
  simp only [List.count_append, List.count_cons]
  omega

private theorem perm_sink :
    (y :: x :: (a ++ (b ++ (c ++ d)))).Perm (x :: (a ++ (y :: (c ++ (b ++ d))))) := by
  classical
  refine List.perm_iff_count.2 fun e => ?_
  simp only [List.count_append, List.count_cons]
  omega

end Perm

/-- What does not occur in the front of a list is found behind it. -/
theorem idxOf?_middle {x : NodeId} {l r : List NodeId} (hl : x ∉ l) :
    (l ++ x :: r).idxOf? x = some l.length := by
  induction l with
  | nil => simp [List.idxOf?_cons]
  | cons y l ih =>
    have hne : (y == x) = false := beq_false_of_ne fun e => hl (e ▸ List.mem_cons_self)
    rw [List.cons_append, List.idxOf?_cons, hne, ih fun hx => hl (List.mem_cons_of_mem y hx)]
    rfl

/-- What stands behind the front of a list is set there. -/
theorem set_middle {x y : NodeId} {l r : List NodeId} {i : Nat} (hi : l.length = i) :
    (l ++ x :: r).set i y = l ++ y :: r := by
  subst hi
  simp

/-- A branch is cut out of its context. -/
theorem detach {f : Frame} {c : Context} {s : Branch}
    (h : p.Splits ((Context.plug (f :: c) s).entries none ++ es) rest) :
    ∃ q, p.detach s.top = .ok q ∧
      q.Splits ((c.plug f.close).entries none ++ (s.entries none ++ es)) rest ∧
      q.root = p.root ∧ q.nodes.size = p.nodes.size := by
  obtain ⟨hl, hr⟩ := h.top_not_mem_siblings
  have h₀ := h.of_perm (perm_plug_cons f c s es)
  obtain ⟨q₁, hq₁, h₁, hroot₁, hsize₁⟩ :=
    h₀.update (fun n => { n with children := n.children.filter (· != s.top) })
      (f.label.node c.parent? (f.left.map Branch.top ++ f.right.map Branch.top))
      (congrArg (f.label.node c.parent?) (filter_ne_middle hl hr))
  have hnode := (h₀.of_perm (List.Perm.swap _ _ _)).node_head
  obtain ⟨q₂, hq₂, h₂, hroot₂, hsize₂⟩ :=
    (h₁.of_perm (List.Perm.swap _ _ _)).update ({ · with parent := none })
      (s.label.node none (s.branches.map Branch.top)) rfl
  refine ⟨q₂, ?_, h₂.of_perm ?_, hroot₂.trans hroot₁, hsize₂.trans hsize₁⟩
  · rw [Plan.detach, hnode]
    simp only [ok_bind, Label.node_parent, hq₁, hq₂]
  · refine List.Perm.trans ?_ (perm_plug_close f c (s.entries none ++ es)).symm
    rw [Branch.entries_eq_cons none s, List.cons_append]
    exact perm_lower _ _ _ _ _

/-- The slot of a branch that stands below a node. -/
theorem slot?_eq {f : Frame} {c : Context} {s : Branch}
    (h : p.Splits ((Context.plug (f :: c) s).entries none ++ es) rest) :
    p.slot? s.top = .ok (some (.child f.id f.left.length)) := by
  obtain ⟨hl, -⟩ := h.top_not_mem_siblings
  have h₀ := h.of_perm (perm_plug_cons f c s es)
  have hnode := (h₀.of_perm (List.Perm.swap _ _ _)).node_head
  rw [slot?, hnode]
  simp only [ok_bind, Label.node_parent, h₀.node_head, Label.node_children]
  rw [idxOf?_middle hl, List.length_map]
  rfl

/-- A lone tree takes the place of a branch, which is left as a lone tree. -/
theorem seat {c : Context} {o n : Branch}
    (h : p.Splits ((c.plug o).entries none ++ (n.entries none ++ es)) rest) :
    ∃ q, p.seat o.top n.top = .ok q ∧
      q.Splits ((c.plug n).entries none ++ (o.entries none ++ es)) rest ∧
      q.root = (if p.root = some (c.plug o).top then some (c.plug n).top else p.root) ∧
      q.nodes.size = p.nodes.size := by
  cases c with
  | nil =>
    have h₀ : p.Splits (o.entries none ++ (n.entries none ++ es)) rest := h
    rw [Branch.entries_eq_cons none o, List.cons_append] at h₀
    have hslot : p.slot? o.top = .ok (if p.root = some o.top then some .root else none) := by
      rw [slot?, h₀.node_head]
      rfl
    obtain ⟨q, hq, h₁, hroot₁, hsize₁⟩ :=
      (h₀.withRoot (if p.root = some o.top then some n.top else p.root)).update
        ({ · with parent := none }) (o.label.node none (o.branches.map Branch.top)) rfl
    refine ⟨q, ?_, h₁.of_perm ?_, hroot₁, hsize₁⟩
    · rw [Plan.seat, hslot]
      by_cases hr : p.root = some o.top
      · rw [if_pos hr] at hq ⊢
        exact hq
      · rw [if_neg hr] at hq ⊢
        exact hq
    · rw [Context.plug_nil, ← List.cons_append, ← Branch.entries_eq_cons none o]
      exact List.perm_append_comm_assoc _ _ _
  | cons f c =>
    have hslot := h.slot?_eq
    have h₀ := h.of_perm (perm_plug_cons f c o _)
    rw [Branch.entries_eq_cons none n, List.cons_append] at h₀
    obtain ⟨q₁, hq₁, h₁, hroot₁, hsize₁⟩ :=
      h₀.update (fun m => { m with children := m.children.set f.left.length n.top })
        (f.label.node (Context.parent? c)
          (f.left.map Branch.top ++ n.top :: f.right.map Branch.top))
        (congrArg (f.label.node (Context.parent? c)) (set_middle (List.length_map _)))
    obtain ⟨q₂, hq₂, h₂, hroot₂, hsize₂⟩ :=
      (h₁.of_perm (perm_raise _ _ _ _ _ _)).update ({ · with parent := some f.id })
        (n.label.node (some f.id) (n.branches.map Branch.top)) rfl
    obtain ⟨q₃, hq₃, h₃, hroot₃, hsize₃⟩ :=
      (h₂.of_perm (perm_third _ _ _ _)).update ({ · with parent := none })
        (o.label.node none (o.branches.map Branch.top)) rfl
    refine ⟨q₃, ?_, h₃.of_perm ?_, ?_, ?_⟩
    · rw [Plan.seat, hslot]
      simp only [ok_bind, hq₁, hq₂, hq₃]
    · refine List.Perm.trans ?_ (perm_plug_cons f c n _).symm
      rw [Branch.entries_eq_cons none o, List.cons_append]
      exact perm_exchange _ _ _ _ _ _ _
    · rw [hroot₃, hroot₂, hroot₁, Context.top_plug_cons f c o n]
      split
      · assumption
      · rfl
    · rw [hsize₃, hsize₂, hsize₁]

/-- A lone tree that is not the root has no slot to be taken out of. -/
theorem detach_lone {n : Branch} (h : p.Splits (n.entries none ++ es) rest)
    (hroot : p.root ≠ some n.top) : p.detach n.top = .ok p := by
  rw [Branch.entries_eq_cons, List.cons_append] at h
  rw [Plan.detach, h.node_head]
  simp only [ok_bind, Label.node_parent, pure_eq_ok, if_neg hroot]

/-- The tops of two different trees differ. -/
theorem top_ne_top {b n : Branch} (h : p.Splits (b.entries none ++ (n.entries none ++ es)) rest)
    {x : NodeId} (hx : x ∈ b.ids) : x ≠ n.top := by
  rintro rfl
  apply h.disjoint _ (by rwa [Branch.map_fst_entries])
  rw [List.map_append, Branch.map_fst_entries]
  exact List.mem_append_left _ n.top_mem_ids

/-- A branch takes the place of a node above it. -/
theorem replace_below {c d : Context} {f : Frame} {n : Branch}
    (h : p.Splits ((c.plug (Context.plug (f :: d) n)).entries none ++ es) rest)
    (hroot : p.root = some (c.plug (Context.plug (f :: d) n)).top) :
    ∃ q, p.replace (Context.plug (f :: d) n).top n.top = .ok q ∧
      q.Splits ((c.plug n).entries none ++ ((d.plug f.close).entries none ++ es)) rest ∧
      q.root = some (c.plug n).top ∧ q.nodes.size = p.nodes.size := by
  have h₀ : p.Splits ((Context.plug (f :: (d ++ c)) n).entries none ++ es) rest := by
    rwa [← List.cons_append, Context.plug_append]
  obtain ⟨q, hq, h₁, hroot₁, hsize₁⟩ := h₀.detach
  rw [Context.plug_append] at h₁
  have htop := Context.top_plug_close f d n
  have hne : (Context.plug (f :: d) n).top ≠ n.top := by
    rw [← htop]
    exact h₁.top_ne_top (Context.top_mem_ids_plug c _)
  have hroot₂ : q.root = some (c.plug (d.plug f.close)).top := by
    rw [hroot₁, hroot, ← Context.plug_append, ← Context.plug_append]
    exact congrArg some (Context.top_plug_close f (d ++ c) n).symm
  obtain ⟨r, hr, h₂, hroot₃, hsize₃⟩ := h₁.seat
  rw [if_pos hroot₂] at hroot₃
  refine ⟨r, ?_, h₂, hroot₃, hsize₃.trans hsize₁⟩
  rw [replace_eq hne, hq, ok_bind, ← htop, hr]

/-- A lone tree becomes the last branch of a node. -/
theorem graft {c : Context} {o n : Branch}
    (h : p.Splits ((c.plug n).entries none ++ (o.entries none ++ es)) rest) :
    ∃ q r, p.update n.top (fun m => { m with children := m.children ++ [o.top] }) = .ok q ∧
      q.update o.top ({ · with parent := some n.top }) = .ok r ∧
      r.Splits ((c.plug (n.graft o)).entries none ++ es) rest ∧
      r.root = p.root ∧ r.nodes.size = p.nodes.size := by
  have h₀ := h.of_perm ((c.entries_plug n).append_right _)
  rw [Branch.entries_eq_cons c.parent? n, Branch.entries_eq_cons none o] at h₀
  simp only [List.cons_append, List.append_assoc] at h₀
  obtain ⟨q, hq, h₁, hroot₁, hsize₁⟩ :=
    h₀.update (fun m => { m with children := m.children ++ [o.top] })
      (n.label.node c.parent? ((n.branches ++ [o]).map Branch.top))
      (by rw [List.map_append]; rfl)
  obtain ⟨r, hr, h₂, hroot₂, hsize₂⟩ :=
    (h₁.of_perm (perm_lift _ _ _ _ _)).update ({ · with parent := some n.top })
      (o.label.node (some n.top) (o.branches.map Branch.top)) rfl
  refine ⟨q, r, hq, hr, h₂.of_perm ?_, hroot₂.trans hroot₁, hsize₂.trans hsize₁⟩
  refine List.Perm.trans ?_ ((c.entries_plug (n.graft o)).append_right es).symm
  rw [Branch.entries_eq_cons c.parent? (n.graft o)]
  simp only [Branch.graft, Branch.entriesBelow_node, Branch.top_node, Branch.label_node,
    Branch.branches_node, List.flatMap_append, List.flatMap_singleton, List.cons_append,
    List.append_assoc]
  rw [Branch.entries_eq_cons (some n.top) o, List.cons_append]
  exact perm_sink _ _ _ _ _ _

/-- A lone tree takes the place of a branch, and the branch becomes its last branch. -/
theorem placeAbove {c : Context} {o n : Branch}
    (h : p.Splits ((c.plug o).entries none ++ (n.entries none ++ es)) rest)
    (hroot : p.root = some (c.plug o).top) :
    ∃ q, p.placeAbove n.top o.top = .ok q ∧
      q.Splits ((c.plug (n.graft o)).entries none ++ es) rest ∧
      q.root = some (c.plug (n.graft o)).top ∧ q.nodes.size = p.nodes.size := by
  have hne : o.top ≠ n.top := h.top_ne_top (Context.top_mem_ids_plug c o)
  have hlone : p.detach n.top = .ok p := by
    apply (h.of_perm (List.perm_append_comm_assoc _ _ _)).detach_lone
    rw [hroot]
    exact fun e => h.top_ne_top (c.plug o).top_mem_ids (Option.some.inj e)
  obtain ⟨q₁, hq₁, h₁, hroot₁, hsize₁⟩ := h.seat
  rw [if_pos hroot] at hroot₁
  obtain ⟨q₂, q₃, hq₂, hq₃, h₃, hroot₃, hsize₃⟩ := h₁.graft
  refine ⟨q₃, ?_, h₃, ?_, hsize₃.trans hsize₁⟩
  · rw [Plan.placeAbove, replace_eq hne, hlone, ok_bind, hq₁]
    simp only [ok_bind, hq₂, hq₃]
  · rw [hroot₃, hroot₁, Context.top_plug_congr (n.top_graft o).symm]

/-- A new node takes the place of a branch, with the branch below it. -/
theorem insertAbove {c : Context} {o : Branch} (h : p.Splits ((c.plug o).entries none ++ es) rest)
    (hroot : p.root = some (c.plug o).top) (op : Operator) :
    ∃ q, p.insertAbove o.top op = .ok (p.nodes.size, q) ∧
      q.Splits ((c.plug (.node p.nodes.size ⟨op, o.tables, false⟩ [o])).entries none ++ es) rest ∧
      q.root = some (c.plug (.node p.nodes.size ⟨op, o.tables, false⟩ [o])).top ∧
      q.nodes.size = p.nodes.size + 1 := by
  have hpush : (p.push op [] o.tables).Splits
      ((c.plug o).entries none ++
        ((Branch.node p.nodes.size ⟨op, o.tables, false⟩ []).entries none ++ es)) rest := by
    rw [Branch.entries_node, List.flatMap_nil]
    exact (h.push op [] o.tables).of_perm List.perm_middle.symm
  obtain ⟨q, hq, h₁, hroot₁, hsize₁⟩ := hpush.placeAbove hroot
  refine ⟨q, ?_, h₁, hroot₁, hsize₁.trans (size_push ..)⟩
  rw [Branch.top_node] at hq
  rw [Plan.insertAbove, h.has_plug.reachable_eq]
  simp only [ok_bind, hq, pure_eq_ok]

/-- Lone trees record the same node as their parent. -/
theorem adopt {bs : List Branch} (h : p.Splits (bs.flatMap (Branch.entries none) ++ es) rest)
    (id : NodeId) :
    ∃ q, (bs.map Branch.top).foldlM
        (fun q child => q.update child ({ · with parent := some id })) p = .ok q ∧
      q.Splits (bs.flatMap (Branch.entries (some id)) ++ es) rest ∧ q.root = p.root ∧
      q.nodes.size = p.nodes.size := by
  induction bs generalizing p es with
  | nil => exact ⟨p, rfl, h, rfl, rfl⟩
  | cons b bs ih =>
    rw [List.flatMap_cons, Branch.entries_eq_cons, List.cons_append, List.cons_append] at h
    obtain ⟨q, hq, h₁, hroot₁, hsize₁⟩ :=
      h.update ({ · with parent := some id })
        (b.label.node (some id) (b.branches.map Branch.top)) rfl
    have h₂ : q.Splits (bs.flatMap (Branch.entries none) ++ (b.entries (some id) ++ es)) rest := by
      rw [← List.cons_append, ← List.cons_append, ← Branch.entries_eq_cons, List.append_assoc] at h₁
      exact h₁.of_perm (List.perm_append_comm_assoc _ _ _)
    obtain ⟨r, hr, h₃, hroot₃, hsize₃⟩ := ih h₂
    refine ⟨r, ?_, h₃.of_perm ?_, hroot₃.trans hroot₁, hsize₃.trans hsize₁⟩
    · rw [List.map_cons, List.foldlM_cons, hq, ok_bind, hr]
    · rw [List.flatMap_cons, List.append_assoc]
      exact List.perm_append_comm_assoc _ _ _

/-- A new node is put above lone trees. -/
theorem attach {bs : List Branch} (h : p.Splits (bs.flatMap (Branch.entries none) ++ es) rest)
    (op : Operator) (scope : AliasSet) :
    ∃ q, p.attach op (bs.map Branch.top) scope = .ok (p.nodes.size, q) ∧
      q.Splits ((Branch.node p.nodes.size ⟨op, scope, false⟩ bs).entries none ++ es) rest ∧
      q.root = p.root ∧ q.nodes.size = p.nodes.size + 1 := by
  obtain ⟨q, hq, h₁, hroot, hsize⟩ := h.adopt p.nodes.size
  have h₂ := h₁.push op (bs.map Branch.top) scope
  rw [hsize] at h₂
  refine ⟨q.push op (bs.map Branch.top) scope, ?_, ?_, hroot, (size_push ..).trans (congrArg _ hsize)⟩
  · rw [Plan.attach]
    simp only [hq, ok_bind, pure_eq_ok]
  · rw [Branch.entries_node]
    exact h₂

/-! ## Discarding and marking -/

/-- Changing the nodes of some entries leaves the other entries. -/
theorem foldl_modify {es₁ es₂ : List (NodeId × Node)} (h : p.Splits (es₁ ++ es₂) rest)
    (g : Node → Node) :
    ((es₁.map Prod.fst).foldl (fun q x => q.modify x g) p).Splits
        (es₁.map (fun e => (e.1, g e.2)) ++ es₂) rest ∧
      ((es₁.map Prod.fst).foldl (fun q x => q.modify x g) p).root = p.root ∧
      ((es₁.map Prod.fst).foldl (fun q x => q.modify x g) p).nodes.size = p.nodes.size := by
  induction es₁ generalizing p es₂ with
  | nil => exact ⟨h, rfl, rfl⟩
  | cons e es₁ ih =>
    obtain ⟨h₁, hroot, hsize⟩ := ih ((h.modify g).of_perm List.perm_middle.symm)
    exact ⟨h₁.of_perm List.perm_middle, hroot, hsize.trans (size_modify ..)⟩

/-- Discarding the nodes of some entries leaves the other entries. -/
theorem foldl_erase {es₁ es₂ : List (NodeId × Node)} (h : p.Splits (es₁ ++ es₂) rest) :
    ((es₁.map Prod.fst).foldl Plan.erase p).Splits es₂ rest ∧
      ((es₁.map Prod.fst).foldl Plan.erase p).root = p.root ∧
      ((es₁.map Prod.fst).foldl Plan.erase p).nodes.size = p.nodes.size := by
  induction es₁ generalizing p with
  | nil => exact ⟨h, rfl, rfl⟩
  | cons e es₁ ih =>
    obtain ⟨h₁, hroot, hsize⟩ := ih h.erase
    exact ⟨h₁, hroot, hsize.trans (size_erase ..)⟩

/-- A lone tree that is not the root is discarded. -/
theorem discardBranch {n : Branch} (h : p.Splits (es ++ n.entries none) rest)
    (hroot : p.root ≠ some n.top) :
    ∃ q, p.discardBranch n.top = .ok q ∧ q.Splits es rest ∧ q.root = p.root ∧
      q.nodes.size = p.nodes.size := by
  have h₀ := h.of_perm List.perm_append_comm
  obtain ⟨h₁, hroot₁, hsize₁⟩ := h₀.foldl_erase
  rw [Branch.map_fst_entries] at h₁ hroot₁ hsize₁
  refine ⟨_, ?_, h₁, hroot₁, hsize₁⟩
  rw [Plan.discardBranch, h₀.detach_lone hroot, ok_bind,
    (h₀.has (List.Perm.refl _)).preorder_eq]
  rfl

/-- A node takes the place of a node above it, of which all that is left is discarded. -/
theorem promote {c d : Context} {f : Frame} {n : Branch}
    (h : p.Splits ((c.plug (Context.plug (f :: d) n)).entries none) rest)
    (hroot : p.root = some (c.plug (Context.plug (f :: d) n)).top) :
    ∃ q r, p.replace (Context.plug (f :: d) n).top n.top = .ok q ∧
      q.discardBranch (Context.plug (f :: d) n).top = .ok r ∧
      r.Shows (c.plug n) rest ∧ r.nodes.size = p.nodes.size := by
  rw [← List.append_nil (Branch.entries none _)] at h
  obtain ⟨q, hq, h₁, hroot₁, hsize₁⟩ := h.replace_below hroot
  rw [List.append_nil] at h₁
  have hne : q.root ≠ some (d.plug f.close).top := by
    rw [hroot₁]
    rw [← List.append_nil (Branch.entries none (d.plug f.close))] at h₁
    exact fun e => h₁.top_ne_top (c.plug n).top_mem_ids (Option.some.inj e)
  obtain ⟨r, hr, h₂, hroot₂, hsize₂⟩ := h₁.discardBranch hne
  rw [Context.top_plug_close] at hr
  exact ⟨q, r, hq, hr, ⟨hroot₂.trans hroot₁, h₂⟩, hsize₂.trans hsize₁⟩

/-! ## Changing labels -/

variable {c : Context}

/-- The label at the top of a branch is changed. -/
theorem relabel {s : Branch} (h : p.Splits ((c.plug s).entries none ++ es) rest) (l : Label)
    (g : Node → Node)
    (hg : ∀ parent children, g (s.label.node parent children) = l.node parent children) :
    (p.modify s.top g).Splits ((c.plug (s.relabel l)).entries none ++ es) rest := by
  have h₀ := h.of_perm ((c.entries_plug s).append_right es)
  rw [Branch.entries_eq_cons, List.cons_append, List.cons_append] at h₀
  have h₁ := h₀.modify g
  rw [hg] at h₁
  refine h₁.of_perm (List.Perm.trans ?_ ((c.entries_plug (s.relabel l)).append_right es).symm)
  rw [Branch.entries_eq_cons]
  exact .refl _

/-- The scope of one node is replaced. -/
theorem setScope {s : Branch} (h : p.Splits ((c.plug s).entries none ++ es) rest)
    (scope : AliasSet) :
    ∃ q, p.setScope s.top scope = .ok q ∧
      q.Splits ((c.plug (s.relabel { s.label with scope })).entries none ++ es) rest ∧
      q.root = p.root ∧ q.nodes.size = p.nodes.size :=
  ⟨_, update_of_get? h.has_plug.get?_top _, h.relabel _ _ fun _ _ => rfl, rfl, size_modify ..⟩

/-- One step upwards: the scope of a node is refreshed. -/
theorem refreshScopes_step {s : Branch} (h : p.Splits ((c.plug s).entries none ++ es) rest) :
    ∃ q, (∀ steps, Plan.refreshScopesWithin (steps + 1) s.top p =
        match c.parent? with
        | some parent => Plan.refreshScopesWithin steps parent q
        | none => .ok q) ∧
      q.Splits ((c.plug s.refresh).entries none ++ es) rest ∧
      q.root = p.root ∧ q.nodes.size = p.nodes.size := by
  have hhas := h.has_plug
  obtain ⟨q, hq, h₁, hroot₁, hsize₁⟩ := h.setScope (s.label.refresh s.tables).scope
  refine ⟨q, fun steps => ?_, h₁, hroot₁, hsize₁⟩
  rw [Plan.refreshScopesWithin, hhas.reachable_eq, ok_bind, hhas.node_top, ok_bind,
    refreshedScope_node, hq]
  rfl

/-- The scopes of a node and of the nodes above it are refreshed. -/
theorem refreshScopesWithin {s : Branch} (h : p.Splits ((c.plug s).entries none ++ es) rest)
    {steps : Nat} (hsteps : c.length < steps) :
    ∃ q, Plan.refreshScopesWithin steps s.top p = .ok q ∧
      q.Splits (((c.refresh s).plug s.refresh).entries none ++ es) rest ∧
      q.root = p.root ∧ q.nodes.size = p.nodes.size := by
  induction c generalizing s p steps with
  | nil =>
    obtain ⟨steps, rfl⟩ := Nat.exists_eq_add_one.2 (Nat.zero_lt_of_lt hsteps)
    obtain ⟨q, hq, h₁, hroot₁, hsize₁⟩ := h.refreshScopes_step
    exact ⟨q, hq steps, h₁, hroot₁, hsize₁⟩
  | cons f c ih =>
    obtain ⟨steps, rfl⟩ := Nat.exists_eq_add_one.2 (Nat.zero_lt_of_lt hsteps)
    obtain ⟨q, hq, h₁, hroot₁, hsize₁⟩ := h.refreshScopes_step
    obtain ⟨r, hr, h₂, hroot₂, hsize₂⟩ :=
      ih (s := f.fill s.refresh) h₁ (Nat.lt_of_succ_lt_succ hsteps)
    refine ⟨r, (hq steps).trans hr, ?_, hroot₂.trans hroot₁, hsize₂.trans hsize₁⟩
    -- The refreshed branch below scans what it has scanned before.
    rw [Context.refresh_congr (f.scans_fill s.scans_refresh), f.refresh_fill s.scans_refresh] at h₂
    exact h₂

/-- The scopes of a node and of all nodes above it are refreshed. -/
theorem refreshScopes {s : Branch} (h : p.Splits ((c.plug s).entries none ++ es) rest) :
    ∃ q, p.refreshScopes s.top = .ok q ∧
      q.Splits (((c.refresh s).plug s.refresh).entries none ++ es) rest ∧
      q.root = p.root ∧ q.nodes.size = p.nodes.size := by
  apply h.refreshScopesWithin
  have hlen := (h.of_perm ((c.entries_plug s).append_right es)).length_le
  have hids : c.length ≤ (c.entries s.top).length := by
    rw [← List.length_map Prod.fst, Context.map_fst_entries]
    exact c.length_le_length_ids
  rw [List.length_append, List.length_append] at hlen
  rw [walkLimit]
  omega

/-- All nodes of a branch are marked as producing no rows. -/
theorem markVacuous {s : Branch} (h : p.Splits ((c.plug s).entries none ++ es) rest) :
    ∃ q, p.markVacuous s.top = .ok q ∧ q.Splits ((c.plug s.mark).entries none ++ es) rest ∧
      q.root = p.root ∧ q.nodes.size = p.nodes.size := by
  have h₀ := h.of_perm ((c.entries_plug s).append_right es)
  rw [List.append_assoc] at h₀
  obtain ⟨h₁, hroot₁, hsize₁⟩ := h₀.foldl_modify ({ · with vacuous := true })
  rw [Branch.map_fst_entries] at h₁ hroot₁ hsize₁
  refine ⟨_, ?_, h₁.of_perm ?_, hroot₁, hsize₁⟩
  · rw [Plan.markVacuous, h.has_plug.preorder_eq]
    rfl
  · refine List.Perm.trans ?_ ((c.entries_plug s.mark).append_right es).symm
    rw [Branch.entries_mark, Branch.top_mark, List.append_assoc]

end Splits

/-! ## Edits of a whole plan -/

namespace Shows

variable {p : Plan} {rest : NodeId → Option Node} {c : Context}

/-- A node is bypassed: the only branch below it takes its place. -/
theorem bypass {id : NodeId} {l : Label} {s : Branch} (h : p.Shows (c.plug (.node id l [s])) rest) :
    ∃ q, p.bypass id = .ok (some s.top, q) ∧ q.Shows (c.plug s) rest ∧
      q.nodes.size = p.nodes.size := by
  have hfill : Branch.node id l [s] = Context.plug [⟨id, l, [], []⟩] s := rfl
  rw [hfill] at h
  obtain ⟨q, r, hq, hr, h₁, hsize⟩ := h.splits.promote h.root_eq
  refine ⟨r, ?_, h₁, hsize⟩
  have hnode := h.has_plug.node_top
  rw [← hfill, Branch.top_node] at hnode
  rw [Plan.bypass, hnode]
  simp only [ok_bind, Branch.label_node, Branch.branches_node, Node.onlyChild?,
    Label.node_children, List.map_cons, List.map_nil]
  rw [show p.replace id s.top = _ from hq, ok_bind, show q.discardBranch id = _ from hr]
  rfl

/-- What is told of a tree and of no other entries is told of a whole plan. -/
theorem splits_append_nil {b : Branch} (h : p.Shows b rest) :
    p.Splits (b.entries none ++ []) rest := by
  rw [List.append_nil]
  exact h.splits

/-- A tree with the same uppermost node takes the place of the tree of a plan. -/
theorem of_splits {q : Plan} {b b' : Branch} (h : p.Shows b rest) (hroot : q.root = p.root)
    (htop : b'.top = b.top) (hq : q.Splits (b'.entries none ++ []) rest) : q.Shows b' rest := by
  rw [List.append_nil] at hq
  exact ⟨by rw [hroot, h.root_eq, htop], hq⟩

/-- The label at the top of a branch is changed. -/
theorem relabel {s : Branch} (h : p.Shows (c.plug s) rest) (l : Label) (g : Node → Node)
    (hg : ∀ parent children, g (s.label.node parent children) = l.node parent children) :
    (p.modify s.top g).Shows (c.plug (s.relabel l)) rest :=
  h.of_splits rfl (Context.top_plug_congr (s.top_relabel l)) (h.splits_append_nil.relabel l g hg)

/-- The scope of one node is replaced. -/
theorem setScope {s : Branch} (h : p.Shows (c.plug s) rest) (scope : AliasSet) :
    ∃ q, p.setScope s.top scope = .ok q ∧
      q.Shows (c.plug (s.relabel { s.label with scope })) rest ∧
      q.nodes.size = p.nodes.size := by
  obtain ⟨q, hq, h₁, hroot, hsize⟩ := h.splits_append_nil.setScope scope
  exact ⟨q, hq, h.of_splits hroot (Context.top_plug_congr (s.top_relabel _)) h₁, hsize⟩

/-- The scopes of a node above a branch and of all nodes above that one are refreshed. -/
theorem refreshScopes {f : Frame} {s : Branch} (h : p.Shows (Context.plug (f :: c) s) rest) :
    ∃ q, p.refreshScopes f.id = .ok q ∧
      q.Shows ((Context.refresh (f :: c) s).plug s) rest ∧ q.nodes.size = p.nodes.size := by
  obtain ⟨q, hq, h₁, hroot, hsize⟩ :=
    Splits.refreshScopes (c := c) (s := f.fill s) h.splits_append_nil
  exact ⟨q, hq, h.of_splits hroot (Context.top_plug_refresh (f :: c) s s) h₁, hsize⟩

/-- All nodes of a branch are marked as producing no rows. -/
theorem markVacuous {s : Branch} (h : p.Shows (c.plug s) rest) :
    ∃ q, p.markVacuous s.top = .ok q ∧ q.Shows (c.plug s.mark) rest ∧
      q.nodes.size = p.nodes.size := by
  obtain ⟨q, hq, h₁, hroot, hsize⟩ := h.splits_append_nil.markVacuous
  exact ⟨q, hq, h.of_splits hroot (Context.top_plug_congr s.top_mark) h₁, hsize⟩

end Shows

end Plan

end QueryPlan
