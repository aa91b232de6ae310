import QueryPlan.Proofs.Branch.Context

/-!
# The store as disjoint parts

`Plan.Splits` says that the store of a plan consists of the listed entries and of a rest that lies
elsewhere.  An edit of one listed entry replaces it in the list and leaves all other entries and the
rest alone, so the effect of a sequence of edits is read off the list.

Main results:

- Theorems `Plan.Splits.modify`, `Plan.Splits.erase` and `Plan.Splits.push`: the list after each
  primitive edit.
- Theorem `Plan.Splits.length_le`: there are at most as many entries as positions.
-/

namespace QueryPlan

/-! ## Running in a context of faults -/

section Except

variable {ε α β γ : Type}

/-- A run that goes on from a value goes on with it. -/
@[simp]
theorem ok_bind (a : α) (f : α → Except ε β) : (Except.ok a >>= f) = f a :=
  rfl

/-- A fault ends a run. -/
@[simp]
theorem error_bind (e : ε) (f : α → Except ε β) : (Except.error e >>= f) = .error e :=
  rfl

/-- A pure value is a run without fault. -/
@[simp]
theorem pure_eq_ok (a : α) : (pure a : Except ε α) = .ok a :=
  rfl

/-- Reading off a result keeps a fault. -/
@[simp]
theorem map_error (e : ε) (f : α → β) : (f <$> (Except.error e : Except ε α)) = .error e :=
  rfl

/-- Reading off a result applies to the value of a run. -/
@[simp]
theorem map_ok (a : α) (f : α → β) : (f <$> (Except.ok a : Except ε α)) = .ok (f a) :=
  rfl

/-- A run in two parts has a result if both parts have. -/
theorem bind_eq_ok {x : Except ε α} {f : α → Except ε β} {b : β} :
    (x >>= f) = .ok b ↔ ∃ a, x = .ok a ∧ f a = .ok b := by
  cases x with
  | error e => simp
  | ok a => simp

/-- A run whose result is read off has a result if the run has. -/
theorem map_eq_ok {x : Except ε α} {f : α → β} {b : β} :
    (f <$> x) = .ok b ↔ ∃ a, x = .ok a ∧ f a = b := by
  cases x with
  | error e => simp
  | ok a => simp

/-- Running over the image of a list succeeds if every single run does. -/
theorem mapM_map_ok {f : β → Except ε γ} {i : α → β} {g : α → γ} {l : List α}
    (h : ∀ a ∈ l, f (i a) = .ok (g a)) : (l.map i).mapM f = .ok (l.map g) := by
  induction l with
  | nil => rfl
  | cons a l ih =>
    rw [List.map_cons, List.mapM_cons, h a List.mem_cons_self, ok_bind,
      ih fun b hb => h b (List.mem_cons_of_mem a hb)]
    rfl

end Except

namespace Plan

/-- The store of the plan consists of the listed entries, all at different positions, and of the
nodes of `rest`, which stand elsewhere. -/
structure Splits (p : Plan) (entries : List (NodeId × Node)) (rest : NodeId → Option Node) :
    Prop where
  distinct : (entries.map Prod.fst).Nodup
  get?_entry : ∀ x n, (x, n) ∈ entries → p.get? x = some n
  apart : ∀ x ∈ entries.map Prod.fst, rest x = none
  get?_rest : ∀ x, x ∉ entries.map Prod.fst → p.get? x = rest x

/-- A node that stands at a position is found there. -/
theorem node_of_get? {p : Plan} {x : NodeId} {n : Node} (h : p.get? x = some n) :
    p.node x = .ok n := by
  rw [node, h]

/-- What is found at a position stands there. -/
theorem get?_of_node {p : Plan} {x : NodeId} {n : Node} (h : p.node x = .ok n) :
    p.get? x = some n := by
  rw [node] at h
  split at h
  · rename_i hget
    exact Except.ok.inj h ▸ hget
  · simp at h

/-- A node stands at a position below the number of positions. -/
theorem lt_size_of_get? {p : Plan} {x : NodeId} {n : Node} (h : p.get? x = some n) :
    x < p.nodes.size := by
  by_contra hx
  rw [get?, Array.getElem?_eq_none (Nat.not_lt.1 hx)] at h
  exact Option.some_ne_none n h.symm

/-- The position of the next node is free. -/
theorem get?_size (p : Plan) : p.get? p.nodes.size = none := by
  rw [get?, Array.getElem?_eq_none (Nat.le_refl _)]
  rfl

/-- A plan is known by its root, the number of its positions and its nodes. -/
theorem ext_get? {p q : Plan} (hroot : p.root = q.root) (hsize : p.nodes.size = q.nodes.size)
    (hget : ∀ x, p.get? x = q.get? x) : p = q := by
  have hnodes : p.nodes = q.nodes := by
    refine Array.ext hsize fun x hp hq => ?_
    have hx := hget x
    rwa [get?, get?, Array.getElem?_eq_getElem hp, Array.getElem?_eq_getElem hq, Option.join_some,
      Option.join_some] at hx
  cases p
  cases q
  simp_all

/-- Changing a node leaves the number of positions alone. -/
@[simp]
theorem size_modify (p : Plan) (x : NodeId) (f : Node → Node) :
    (p.modify x f).nodes.size = p.nodes.size :=
  Array.size_modify

/-- Erasing a node leaves the number of positions alone. -/
@[simp]
theorem size_erase (p : Plan) (x : NodeId) : (p.erase x).nodes.size = p.nodes.size :=
  Array.size_setIfInBounds

/-- A new node adds one position. -/
@[simp]
theorem size_push (p : Plan) (op : Operator) (children : List NodeId) (scope : AliasSet) :
    (p.push op children scope).nodes.size = p.nodes.size + 1 :=
  Array.size_push _

/-- A node that is there can be changed. -/
theorem update_of_get? {p : Plan} {x : NodeId} {n : Node} (h : p.get? x = some n)
    (f : Node → Node) : p.update x f = .ok (p.modify x f) := by
  rw [update, node_of_get? h]
  rfl

namespace Splits

variable {p : Plan} {x : NodeId} {n : Node} {es es' : List (NodeId × Node)}
  {rest : NodeId → Option Node}

/-- The position of an entry is among the positions of the entries. -/
theorem mem_map_fst (h : (x, n) ∈ es) : x ∈ es.map Prod.fst :=
  List.mem_map.2 ⟨(x, n), h, rfl⟩

/-- The order of the entries does not matter. -/
theorem of_perm (h : p.Splits es rest) (hp : es.Perm es') : p.Splits es' rest where
  distinct := (hp.map Prod.fst).nodup_iff.1 h.distinct
  get?_entry x n hx := h.get?_entry x n (hp.mem_iff.2 hx)
  apart x hx := h.apart x ((hp.map Prod.fst).mem_iff.2 hx)
  get?_rest x hx := h.get?_rest x fun hx' => hx ((hp.map Prod.fst).mem_iff.1 hx')

/-- The first entry stands in the store. -/
theorem get?_head (h : p.Splits ((x, n) :: es) rest) : p.get? x = some n :=
  h.get?_entry x n List.mem_cons_self

/-- The node of the first entry is found at its position. -/
theorem node_head (h : p.Splits ((x, n) :: es) rest) : p.node x = .ok n :=
  node_of_get? h.get?_head

/-- Changing the node of the first entry. -/
theorem modify (h : p.Splits ((x, n) :: es) rest) (f : Node → Node) :
    (p.modify x f).Splits ((x, f n) :: es) rest := by
  have hd := List.nodup_cons.1 h.distinct
  refine ⟨h.distinct, fun y m hy => ?_, h.apart, fun y hy => ?_⟩
  · rw [get?_modify]
    rcases List.mem_cons.1 hy with hy | hy
    · obtain ⟨rfl, rfl⟩ := Prod.mk.inj hy
      rw [if_pos rfl, h.get?_head, Option.map_some]
    · have hne : x ≠ y := by
        rintro rfl
        exact hd.1 (mem_map_fst hy)
      rw [if_neg hne, h.get?_entry y m (List.mem_cons_of_mem _ hy)]
  · have hne : x ≠ y := fun e => hy (e ▸ List.mem_cons_self)
    rw [get?_modify, if_neg hne, h.get?_rest y hy]

/-- The node of the first entry can be changed, and the root and the number of positions stay. -/
theorem update (h : p.Splits ((x, n) :: es) rest) (f : Node → Node) (m : Node) (hm : f n = m) :
    ∃ q, p.update x f = .ok q ∧ q.Splits ((x, m) :: es) rest ∧ q.root = p.root ∧
      q.nodes.size = p.nodes.size :=
  ⟨_, update_of_get? h.get?_head f, hm ▸ h.modify f, rfl, size_modify ..⟩

/-- Discarding the node of the first entry. -/
theorem erase (h : p.Splits ((x, n) :: es) rest) : (p.erase x).Splits es rest := by
  have hd := List.nodup_cons.1 h.distinct
  refine ⟨hd.2, fun y m hy => ?_, fun y hy => h.apart y (List.mem_cons_of_mem _ hy),
    fun y hy => ?_⟩
  · have hne : x ≠ y := by
      rintro rfl
      exact hd.1 (mem_map_fst hy)
    rw [get?_erase, if_neg hne, h.get?_entry y m (List.mem_cons_of_mem _ hy)]
  · rw [get?_erase]
    by_cases hxy : x = y
    · rw [if_pos hxy, h.apart y (hxy ▸ List.mem_cons_self)]
    · rw [if_neg hxy]
      exact h.get?_rest y fun hy' => (List.mem_cons.1 hy').elim (fun e => hxy e.symm) hy

/-- The positions of entries are positions of the store. -/
theorem lt_size (h : p.Splits es rest) (hx : x ∈ es.map Prod.fst) : x < p.nodes.size := by
  obtain ⟨⟨y, n⟩, hy, rfl⟩ := List.mem_map.1 hx
  exact lt_size_of_get? (h.get?_entry y n hy)

/-- The position of the next node is none of the entries' positions. -/
theorem size_not_mem (h : p.Splits es rest) : p.nodes.size ∉ es.map Prod.fst :=
  fun hx => Nat.lt_irrefl _ (h.lt_size hx)

/-- Adding a node. -/
theorem push (h : p.Splits es rest) (op : Operator) (children : List NodeId) (scope : AliasSet) :
    (p.push op children scope).Splits
      ((p.nodes.size, ⟨op, none, children, scope, false⟩) :: es) rest := by
  have hnew := h.size_not_mem
  refine ⟨List.nodup_cons.2 ⟨hnew, h.distinct⟩, fun y m hy => ?_, fun y hy => ?_, fun y hy => ?_⟩
  · rw [get?_push]
    rcases List.mem_cons.1 hy with hy | hy
    · obtain ⟨rfl, rfl⟩ := Prod.mk.inj hy
      exact if_pos rfl
    · have hne : y ≠ p.nodes.size := fun e => hnew (e ▸ mem_map_fst hy)
      rw [if_neg hne, h.get?_entry y m hy]
  · rcases List.mem_cons.1 hy with rfl | hy
    · rw [← h.get?_rest _ hnew, get?_size]
    · exact h.apart y hy
  · have hne : y ≠ p.nodes.size := fun e => hy (e ▸ List.mem_cons_self)
    rw [get?_push, if_neg hne, h.get?_rest y fun hy' => hy (List.mem_cons_of_mem _ hy')]

/-- There are at most as many entries as positions. -/
theorem length_le (h : p.Splits es rest) : es.length ≤ p.nodes.size := by
  have hsub : es.map Prod.fst ⊆ List.range p.nodes.size := fun x hx =>
    List.mem_range.2 (h.lt_size hx)
  simpa using (List.subperm_of_subset h.distinct hsub).length_le

/-- Positions of different entries differ. -/
theorem disjoint {es₁ es₂ : List (NodeId × Node)} (h : p.Splits (es₁ ++ es₂) rest) :
    ∀ x ∈ es₁.map Prod.fst, x ∉ es₂.map Prod.fst := by
  have hd := h.distinct
  rw [List.map_append, List.nodup_append] at hd
  exact fun x hx hx' => hd.2.2 x hx x hx' rfl

end Splits

end Plan

end QueryPlan
