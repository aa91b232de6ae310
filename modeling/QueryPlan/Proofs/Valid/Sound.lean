import QueryPlan.Plan.Validation
import QueryPlan.Proofs.Valid.Structure
import QueryPlan.Proofs.Valid.Tree

/-!
# Valid plans are valid trees

A plan passes validation exactly when it is a valid tree beside which the store holds nothing but
nodes that link to each other only.

Main results:

- Definition `Plan.Sound`: the plan is a valid tree, and the other nodes link to each other only.
- Theorem `Plan.validate_eq_ok_iff`: the plans that pass validation.
-/

namespace QueryPlan

namespace Branch

/-- The branch with all its nodes is in order if each node is. -/
theorem valid_of_forall_plug {b : Branch}
    (h : ∀ c s, b = Context.plug c s → s.label.Fits s.branches.length s.tables) : b.Valid := by
  induction b with
  | node id l bs ih =>
    exact .intro (h [] _ rfl) fun b hb => ih b hb (forall_plug_of_mem h hb)

/-- In a valid tree, the top of every branch is in order. -/
theorem Valid.fits_of_plug {c : Context} {s : Branch} (h : (c.plug s).Valid) :
    s.label.Fits s.branches.length s.tables := by
  obtain ⟨id, l, bs⟩ := s
  exact h.of_plug.fits

/-- The nodes of a valid branch have the branches they need. -/
theorem Valid.arityErrors_eq_nil {b : Branch} (h : b.Valid) : b.arityErrors = [] := by
  induction b with
  | node id l bs ih =>
    exact arityErrors_node_eq_nil_iff.2 ⟨h.fits.arity, fun b hb => ih b hb (h.branch hb)⟩

end Branch

namespace Plan

variable {p : Plan} {b : Branch} {rest : NodeId → Option Node}

/-- The plan is a valid tree, and the store holds no other nodes than those that link to each other
only. -/
structure Sound (p : Plan) (b : Branch) (rest : NodeId → Option Node) : Prop where
  shows : p.Shows b rest
  valid : b.Valid
  linked : Linked rest

/-! ## Scopes and columns -/

/-- No errors are found in a scope if it is a part of the reachable tables at a filter and consists
of exactly these tables anywhere else. -/
theorem scopeErrors_eq_nil_iff {id : NodeId} {n : Node} {reachable : AliasSet} :
    scopeErrors id n reachable = [] ↔ (n.kind = .filter → ∀ a ∈ n.scope, a ∈ reachable) ∧
      (n.kind ≠ .filter → n.scope = reachable) := by
  unfold scopeErrors
  cases n.kind <;> simp

/-- No errors are found in the columns of a node if their tables can be reached and the foreign ones
are among them. -/
theorem columnErrors_eq_nil_iff {id : NodeId} {n : Node} {reachable : AliasSet} :
    columnErrors id n reachable = [] ↔ (∀ x ∈ n.op.columns, x.table ∈ reachable) ∧
      ∀ x ∈ n.op.foreign, x ∈ n.op.columns := by
  unfold columnErrors
  simp only [List.append_eq_nil_iff, List.map_eq_nil_iff, List.filter_eq_nil_iff,
    Bool.not_eq_true', Bool.not_eq_false, ← AliasSet.contains_iff, ← ColumnSet.contains_iff]
  simp only [ColumnSet.contains_iff, AliasSet.contains_iff]
  rfl

/-- Validation finds nothing wrong with the scope and the columns of a node that is in order. -/
theorem fits_iff {id : NodeId} {l : Label} {parent : Option NodeId} {children : List NodeId}
    {arity : Nat} {reachable : AliasSet} :
    l.Fits arity reachable ↔ l.kind.allowsArity arity = true ∧
      scopeErrors id (l.node parent children) reachable ++
        columnErrors id (l.node parent children) reachable = [] := by
  rw [List.append_eq_nil_iff, scopeErrors_eq_nil_iff, columnErrors_eq_nil_iff]
  constructor
  · intro h
    exact ⟨h.arity, ⟨h.filterScope, h.otherScope⟩, h.columns, h.foreign⟩
  · rintro ⟨harity, ⟨hfilter, hother⟩, hcolumns, hforeign⟩
    exact ⟨harity, hfilter, hother, hcolumns, hforeign⟩

/-- Errors collected over a list are none if there are none for each member. -/
theorem flatten_mapM_eq_nil_iff {α β ε : Type} {f : α → Except ε (List β)} {l : List α} :
    (l.mapM f >>= fun found => pure found.flatten) = .ok [] ↔ ∀ a ∈ l, f a = .ok [] := by
  induction l with
  | nil => simp
  | cons a l ih =>
    rw [List.mapM_cons, List.forall_mem_cons, ← ih]
    cases hf : f a with
    | error e => simp
    | ok errors =>
      cases hl : l.mapM f with
      | error e => simp
      | ok found => simp

/-- The errors found at a node of a tree are those in its scope and in its columns. -/
theorem Shows.nodeSemanticErrors_eq {c : Context} {s : Branch} (h : p.Shows (c.plug s) rest) :
    p.nodeSemanticErrors s.top =
      .ok (scopeErrors s.top (s.label.node c.parent? (s.branches.map Branch.top)) s.tables ++
        columnErrors s.top (s.label.node c.parent? (s.branches.map Branch.top)) s.tables) := by
  rw [nodeSemanticErrors, h.has_plug.node_top, ok_bind, h.has_plug.reachable_eq]
  rfl

/-- No semantic errors are found in a plan if none are found at any node of its tree. -/
theorem Shows.semanticErrors_eq_nil_iff (h : p.Shows b rest) :
    p.semanticErrors = .ok [] ↔
      ∀ c s, b = Context.plug c s → p.nodeSemanticErrors s.top = .ok [] := by
  rw [semanticErrors, h.root_eq]
  show (p.preorder b.top >>= fun ids => _) = _ ↔ _
  rw [h.has.preorder_eq, ok_bind, flatten_mapM_eq_nil_iff]
  constructor
  · rintro hids c s rfl
    exact hids _ (Context.top_mem_ids_plug c s)
  · intro hplug x hx
    obtain ⟨c, s, hs, rfl⟩ := Branch.exists_plug_of_mem_ids hx
    exact hplug c s hs

/-! ## Validation -/

/-- Validation passes if there are no violations. -/
theorem validate_eq_ok_iff_violations : p.validate = .ok () ↔ p.violations = .ok [] := by
  rw [validate]
  cases p.violations with
  | error cause => simp
  | ok found => cases found <;> simp

/-- There are no violations if neither the structure nor the meaning has errors. -/
theorem violations_eq_nil_iff :
    p.violations = .ok [] ↔ p.structuralErrors = .ok [] ∧ p.semanticErrors = .ok [] := by
  rw [violations]
  cases p.structuralErrors with
  | error cause => simp
  | ok errors =>
    cases errors with
    | nil =>
      cases p.semanticErrors with
      | error cause => simp
      | ok errors => simp
    | cons e errors => simp

/-- The plans that pass validation are those that are valid trees. -/
theorem validate_eq_ok_iff : p.validate = .ok () ↔ ∃ b rest, p.Sound b rest := by
  rw [validate_eq_ok_iff_violations, violations_eq_nil_iff, structuralErrors_eq_nil_iff]
  constructor
  · rintro ⟨⟨b, rest, hshows, hlinked, harity⟩, hsemantic⟩
    refine ⟨b, rest, hshows, Branch.valid_of_forall_plug fun c s hs => ?_, hlinked⟩
    subst hs
    have herrors := hshows.semanticErrors_eq_nil_iff.1 hsemantic c s rfl
    rw [hshows.nodeSemanticErrors_eq] at herrors
    exact fits_iff.2 ⟨Branch.allowsArity_of_plug harity, Except.ok.inj herrors⟩
  · rintro ⟨b, rest, hshows, hvalid, hlinked⟩
    refine ⟨⟨b, rest, hshows, hlinked, hvalid.arityErrors_eq_nil⟩, ?_⟩
    apply hshows.semanticErrors_eq_nil_iff.2
    rintro c s rfl
    rw [hshows.nodeSemanticErrors_eq]
    exact congrArg _ (fits_iff.1 hvalid.fits_of_plug).2

end Plan

end QueryPlan
