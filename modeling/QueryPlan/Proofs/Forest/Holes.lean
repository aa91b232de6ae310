import QueryPlan.Plan.Build
import QueryPlan.Plan.Edit
import QueryPlan.Proofs.Edit

/-!
# Holes stay holes

A node that was discarded has left a hole in the store.  New nodes are put at new positions, and no
edit of a position puts a node where there is none, so a position never stands for a second node.
This is so for all plans, however their nodes are linked.

Main results:

- Definition `Plan.KeepsHoles`: no hole of a plan has been filled in another one.
- Theorems `Plan.keepsHoles_replace`, `Plan.keepsHoles_attach` and so on: the edits do not fill any.
-/

namespace QueryPlan.Plan

/-- The positions of the plan `p` are there in `q`, and where `p` has a hole, `q` has one too. -/
structure KeepsHoles (p q : Plan) : Prop where
  size_le : p.nodes.size ≤ q.nodes.size
  hole : ∀ x < p.nodes.size, p.get? x = none → q.get? x = none

/-- A plan keeps its own holes. -/
theorem KeepsHoles.refl (p : Plan) : p.KeepsHoles p :=
  ⟨Nat.le_refl _, fun _ _ h => h⟩

/-- Holes that one change keeps and another change keeps after it are kept by both together. -/
theorem KeepsHoles.trans {p q r : Plan} (h : p.KeepsHoles q) (h' : q.KeepsHoles r) :
    p.KeepsHoles r :=
  ⟨Nat.le_trans h.size_le h'.size_le, fun x hx hnone =>
    h'.hole x (Nat.lt_of_lt_of_le hx h.size_le) (h.hole x hx hnone)⟩

variable {p q : Plan}

/-! ## Single positions -/

/-- Another root fills no hole. -/
theorem keepsHoles_withRoot (p : Plan) (r : Option NodeId) : p.KeepsHoles { p with root := r } :=
  ⟨Nat.le_refl _, fun _ _ h => h⟩

/-- Changing a node, if there is one, fills no hole. -/
theorem keepsHoles_modify (p : Plan) (id : NodeId) (f : Node → Node) :
    p.KeepsHoles (p.modify id f) where
  size_le := Nat.le_of_eq (size_modify p id f).symm
  hole x _ hnone := by
    rw [get?_modify, hnone]
    split <;> rfl

/-- Discarding a node fills no hole, but may leave one. -/
theorem keepsHoles_erase (p : Plan) (id : NodeId) : p.KeepsHoles (p.erase id) where
  size_le := Nat.le_of_eq (size_erase p id).symm
  hole x _ hnone := by
    rw [get?_erase, hnone]
    split <;> rfl

/-- A new node is put behind all holes. -/
theorem keepsHoles_push (p : Plan) (op : Operator) (children : List NodeId) (scope : AliasSet) :
    p.KeepsHoles (p.push op children scope) where
  size_le := by
    rw [size_push]
    exact Nat.le_succ _
  hole x hx hnone := by
    rw [get?_push, if_neg (Nat.ne_of_lt hx), hnone]

/-- A node can be updated only where there is one, so no hole is filled. -/
theorem keepsHoles_update {id : NodeId} {f : Node → Node} (h : p.update id f = .ok q) :
    p.KeepsHoles q := by
  obtain ⟨n, -, hq⟩ := bind_eq_ok.1 h
  obtain rfl := Except.ok.inj hq
  exact p.keepsHoles_modify id f

/-- What each step of a loop keeps, the loop keeps. -/
theorem keepsHoles_foldl {α : Type} {f : Plan → α → Plan} (hf : ∀ p a, KeepsHoles p (f p a))
    (as : List α) (p : Plan) : p.KeepsHoles (as.foldl f p) := by
  induction as generalizing p with
  | nil => exact .refl p
  | cons a as ih => exact (hf p a).trans (ih (f p a))

/-- If no single step fills a hole, no sequence of steps does. -/
theorem keepsHoles_foldlM {α : Type} {f : Plan → α → Except Fault Plan}
    (hf : ∀ {p a q}, f p a = .ok q → KeepsHoles p q) {as : List α} (h : as.foldlM f p = .ok q) :
    p.KeepsHoles q := by
  induction as generalizing p with
  | nil =>
    obtain rfl := Except.ok.inj h
    exact .refl p
  | cons a as ih =>
    rw [List.foldlM_cons] at h
    obtain ⟨r, hr, hq⟩ := bind_eq_ok.1 h
    exact (hf hr).trans (ih hq)

/-! ## Moving and discarding -/

variable {id old new target : NodeId}

/-- Detaching a node fills no hole. -/
theorem keepsHoles_detach (h : p.detach id = .ok q) : p.KeepsHoles q := by
  obtain ⟨n, -, h⟩ := bind_eq_ok.1 h
  cases hparent : n.parent with
  | some parent =>
    simp only [hparent] at h
    obtain ⟨r, hr, hq⟩ := bind_eq_ok.1 h
    exact (keepsHoles_update hr).trans (keepsHoles_update hq)
  | none =>
    simp only [hparent] at h
    obtain rfl := Except.ok.inj h
    split
    · exact p.keepsHoles_withRoot none
    · exact .refl p

/-- Putting a node into the slot of another one fills no hole. -/
theorem keepsHoles_seat (h : p.seat old new = .ok q) : p.KeepsHoles q := by
  obtain ⟨slot, -, h⟩ := bind_eq_ok.1 h
  match slot with
  | none => exact keepsHoles_update h
  | some .root => exact (p.keepsHoles_withRoot (some new)).trans (keepsHoles_update h)
  | some (.child parent index) =>
    obtain ⟨q₁, hq₁, h⟩ := bind_eq_ok.1 h
    obtain ⟨q₂, hq₂, hq⟩ := bind_eq_ok.1 h
    exact (keepsHoles_update hq₁).trans ((keepsHoles_update hq₂).trans (keepsHoles_update hq))

/-- Replacing a node by another one fills no hole. -/
theorem keepsHoles_replace (h : p.replace old new = .ok q) : p.KeepsHoles q := by
  by_cases hne : old = new
  · rw [Plan.replace, if_pos hne] at h
    obtain rfl := Except.ok.inj h
    exact .refl p
  · rw [replace_eq hne] at h
    obtain ⟨r, hr, hq⟩ := bind_eq_ok.1 h
    exact (keepsHoles_detach hr).trans (keepsHoles_seat hq)

/-- Placing a node above another one fills no hole. -/
theorem keepsHoles_placeAbove (h : p.placeAbove id target = .ok q) : p.KeepsHoles q := by
  obtain ⟨q₁, hq₁, h⟩ := bind_eq_ok.1 h
  obtain ⟨q₂, hq₂, hq⟩ := bind_eq_ok.1 h
  exact (keepsHoles_replace hq₁).trans ((keepsHoles_update hq₂).trans (keepsHoles_update hq))

/-- Inserting a new node above another one fills no hole. -/
theorem keepsHoles_insertAbove {op : Operator} (h : p.insertAbove target op = .ok (id, q)) :
    p.KeepsHoles q := by
  obtain ⟨scope, -, h⟩ := bind_eq_ok.1 h
  obtain ⟨r, hr, hq⟩ := bind_eq_ok.1 h
  obtain rfl := (Prod.mk.inj (Except.ok.inj hq)).2
  exact (p.keepsHoles_push op [] scope).trans (keepsHoles_placeAbove hr)

/-- Discarding a branch fills no hole. -/
theorem keepsHoles_discardBranch (h : p.discardBranch id = .ok q) : p.KeepsHoles q := by
  obtain ⟨r, hr, h⟩ := bind_eq_ok.1 h
  obtain ⟨ids, -, hq⟩ := bind_eq_ok.1 h
  obtain rfl := Except.ok.inj hq
  exact (keepsHoles_detach hr).trans (keepsHoles_foldl keepsHoles_erase ids r)

/-- Taking a node out of its chain fills no hole. -/
theorem keepsHoles_bypass {child : Option NodeId} (h : p.bypass id = .ok (child, q)) :
    p.KeepsHoles q := by
  obtain ⟨n, -, h⟩ := bind_eq_ok.1 h
  cases honly : n.onlyChild? with
  | none =>
    simp only [honly] at h
    obtain rfl := (Prod.mk.inj (Except.ok.inj h)).2
    exact .refl p
  | some child =>
    simp only [honly] at h
    obtain ⟨r, hr, h⟩ := bind_eq_ok.1 h
    obtain ⟨s, hs, hq⟩ := bind_eq_ok.1 h
    obtain rfl := (Prod.mk.inj (Except.ok.inj hq)).2
    exact (keepsHoles_replace hr).trans (keepsHoles_discardBranch hs)

/-! ## Changing labels -/

/-- Marking a branch fills no hole. -/
theorem keepsHoles_markVacuous (h : p.markVacuous id = .ok q) : p.KeepsHoles q := by
  obtain ⟨ids, -, hq⟩ := bind_eq_ok.1 h
  obtain rfl := Except.ok.inj hq
  exact keepsHoles_foldl (fun p x => p.keepsHoles_modify x _) ids p

/-- Refreshing scopes for a limited number of steps fills no hole. -/
theorem keepsHoles_refreshScopesWithin {steps : Nat}
    (h : refreshScopesWithin steps id p = .ok q) : p.KeepsHoles q := by
  induction steps generalizing id p with
  | zero => simp [refreshScopesWithin] at h
  | succ steps ih =>
    rw [refreshScopesWithin] at h
    obtain ⟨tables, -, h⟩ := bind_eq_ok.1 h
    obtain ⟨n, -, h⟩ := bind_eq_ok.1 h
    obtain ⟨r, hr, h⟩ := bind_eq_ok.1 h
    refine (keepsHoles_update hr).trans ?_
    cases hparent : n.parent with
    | some parent =>
      simp only [hparent] at h
      exact ih h
    | none =>
      simp only [hparent] at h
      obtain rfl := Except.ok.inj h
      exact .refl r

/-! ## Building -/

/-- A new node above some children is put behind all holes. -/
theorem keepsHoles_attach {op : Operator} {children : List NodeId} {scope : AliasSet}
    (h : p.attach op children scope = .ok (id, q)) : p.KeepsHoles q := by
  obtain ⟨r, hr, hq⟩ := bind_eq_ok.1 h
  obtain rfl := (Prod.mk.inj (Except.ok.inj hq)).2
  exact (keepsHoles_foldlM keepsHoles_update hr).trans (r.keepsHoles_push op children scope)

/-- A new projection fills no hole. -/
theorem keepsHoles_project {columns : ColumnSet} (h : p.project target columns = .ok (id, q)) :
    p.KeepsHoles q := by
  obtain ⟨scope, -, hq⟩ := bind_eq_ok.1 h
  exact keepsHoles_attach hq

/-- A new join fills no hole. -/
theorem keepsHoles_join {children : List NodeId} {j : Join}
    (h : p.join children j = .ok (id, q)) : p.KeepsHoles q := by
  obtain ⟨scopes, -, hq⟩ := bind_eq_ok.1 h
  exact keepsHoles_attach hq

end QueryPlan.Plan
