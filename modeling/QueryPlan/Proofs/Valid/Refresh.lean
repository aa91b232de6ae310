import QueryPlan.Proofs.Forest.Cycles

/-!
# Refreshing scopes upwards

When tables disappear below a node, the scopes of the node and of its ancestors are out of date.  They
are refreshed one after the other on the way up.  Walks do not look at scopes, so each scope can be
computed from the plan as it was in the beginning.

Main results:

- Theorem `Plan.ScopesAside.reachable`: plans that differ in scopes only scan the same tables.
- Theorem `Plan.Shows.exists_refreshScopes`: the nodes after the scopes above a node were refreshed.
- Theorem `Plan.refreshScopes_exact`: refreshing from the lowest node whose scope may be out of date
  repairs all scopes and changes nothing else.
-/

namespace QueryPlan.Plan

variable {p q : Plan} {c : Context} {s : Branch} {rest : NodeId → Option Node} {x y : NodeId} {n : Node}

/-! ## Scopes aside -/

/-- The second plan differs from the first one in the scopes of its nodes at most. -/
structure ScopesAside (p q : Plan) : Prop where
  root : q.root = p.root
  size : q.nodes.size = p.nodes.size
  node : ∀ x, ∃ scope, q.get? x = (p.get? x).map ({ · with scope })

namespace ScopesAside

/-- A plan does not differ from itself. -/
theorem refl (p : Plan) : p.ScopesAside p := by
  refine ⟨rfl, rfl, fun x => ?_⟩
  cases p.get? x with
  | none => exact ⟨.empty, rfl⟩
  | some n => exact ⟨n.scope, rfl⟩

/-- A node that is in one plan is in the other one, with some scope. -/
theorem exists_node (h : p.ScopesAside q) (hx : p.get? x = some n) :
    ∃ scope, q.get? x = some { n with scope } := by
  obtain ⟨scope, hscope⟩ := h.node x
  exact ⟨scope, by rw [hscope, hx, Option.map_some]⟩

/-- It does not matter which of two plans comes first. -/
theorem symm (h : p.ScopesAside q) : q.ScopesAside p := by
  refine ⟨h.root.symm, h.size.symm, fun x => ?_⟩
  obtain ⟨scope, hscope⟩ := h.node x
  rw [hscope]
  cases p.get? x with
  | none => exact ⟨scope, rfl⟩
  | some n => exact ⟨n.scope, rfl⟩

/-- The scope of one more node may be replaced. -/
theorem modify (h : p.ScopesAside q) (x : NodeId) (scope : AliasSet) :
    p.ScopesAside (q.modify x ({ · with scope })) := by
  refine ⟨h.root, (size_modify ..).trans h.size, fun y => ?_⟩
  rw [get?_modify]
  split
  · obtain ⟨old, hold⟩ := h.node y
    exact ⟨scope, by rw [hold, Option.map_map]; exact rfl⟩
  · exact h.node y

/-- Walks do not look at scopes. -/
theorem preorderWithin (h : p.ScopesAside q) (depth : Nat) (x : NodeId) :
    q.preorderWithin depth x = p.preorderWithin depth x := by
  induction depth generalizing x with
  | zero => exact rfl
  | succ depth ih =>
    have hwalk : q.preorderWithin depth = p.preorderWithin depth := funext ih
    rw [Plan.preorderWithin, Plan.preorderWithin, hwalk]
    obtain ⟨scope, hscope⟩ := h.node x
    rw [Plan.node, Plan.node, hscope]
    cases p.get? x <;> exact rfl

/-- The same tables are scanned in the same order below each node. -/
theorem scannedTables (h : p.ScopesAside q) (x : NodeId) : q.scannedTables x = p.scannedTables x := by
  have htable : ∀ y, ((q.get? y).bind fun n => n.op.scannedTable?) =
      (p.get? y).bind fun n => n.op.scannedTable? := by
    intro y
    obtain ⟨scope, hscope⟩ := h.node y
    rw [hscope]
    cases p.get? y <;> exact rfl
  rw [Plan.scannedTables, Plan.scannedTables, preorder, preorder, walkLimit, h.size, ← walkLimit,
    h.preorderWithin]
  simp only [htable]

/-- The same tables are scanned below each node. -/
theorem reachable (h : p.ScopesAside q) (x : NodeId) : q.reachable x = p.reachable x := by
  rw [Plan.reachable, Plan.reachable, h.scannedTables]

/-- What can be reached from the root of one plan can be reached from that of the other one. -/
theorem reachable_of (h : p.ScopesAside q) (hx : p.Reachable x) : q.Reachable x := by
  induction hx with
  | root hroot => exact .root (h.root.trans hroot)
  | child _ hget hchild ih =>
    obtain ⟨scope, hn⟩ := h.exists_node hget
    exact .child ih hn hchild

/-- The same nodes can be reached from the roots of both plans. -/
theorem reachable_iff (h : p.ScopesAside q) : q.Reachable x ↔ p.Reachable x :=
  ⟨h.symm.reachable_of, h.reachable_of⟩

end ScopesAside

/-! ## The way up -/

/-- The node `n` at the position `x` with the scope it should have. -/
def refreshedNode (p : Plan) (x : NodeId) (n : Node) : Node :=
  match p.reachable x with
  | .ok tables => { n with scope := refreshedScope n tables }
  | .error _ => n

/-- Where the scanned tables are known, a refreshed node has the scope they make up. -/
theorem refreshedNode_eq {tables : AliasSet} (h : p.reachable x = .ok tables) (n : Node) :
    p.refreshedNode x n = { n with scope := refreshedScope n tables } := by
  rw [refreshedNode, h]

/-- A scope that is refreshed is as it should be. -/
theorem refreshedNode_refreshedNode (p : Plan) (x : NodeId) (n : Node) :
    p.refreshedNode x (p.refreshedNode x n) = p.refreshedNode x n := by
  cases h : p.reachable x with
  | error cause => simp [refreshedNode, h]
  | ok tables =>
    have hinter : (n.scope.inter tables).inter tables = n.scope.inter tables :=
      AliasSet.ext_mem fun a => by simp
    rw [refreshedNode_eq h, refreshedNode_eq h]
    simp only [refreshedScope, Node.kind]
    cases hkind : n.op.kind <;> simp [hinter]

/-- Refreshing the node at a position twice is the same as refreshing it once. -/
theorem map_refreshedNode_twice (p : Plan) (x : NodeId) (n : Option Node) :
    (n.map (p.refreshedNode x)).map (p.refreshedNode x) = n.map (p.refreshedNode x) := by
  cases n with
  | none => rfl
  | some n => exact congrArg some (p.refreshedNode_refreshedNode x n)

/-- One step upwards: the scope of one node is refreshed.  Scopes that have been refreshed before make no
difference to what is scanned below the node. -/
theorem ScopesAside.refreshScopes_step (h : p.ScopesAside q) (hn : q.get? x = some n) {tables : AliasSet}
    (htables : p.reachable x = .ok tables) :
    ∃ r, (∀ steps, refreshScopesWithin (steps + 1) x q =
        match n.parent with
        | some parent => refreshScopesWithin steps parent r
        | none => .ok r) ∧ p.ScopesAside r ∧
      ∀ y, r.get? y = if y = x then (q.get? y).map (p.refreshedNode y) else q.get? y := by
  refine ⟨_, fun steps => ?_, h.modify x (refreshedScope n tables), fun y => ?_⟩
  · rw [refreshScopesWithin, h.reachable, htables, ok_bind, node_of_get? hn, ok_bind, setScope,
      update_of_get? hn]
    rfl
  · rw [get?_modify]
    by_cases hy : y = x
    · subst hy
      rw [if_pos rfl, if_pos rfl, hn, Option.map_some, Option.map_some, refreshedNode_eq htables]
    · rw [if_neg (Ne.symm hy), if_neg hy]

/-- The scopes of a node and of its ancestors are refreshed one after the other. -/
theorem Shows.refreshScopesWithin (h : p.Shows (c.plug s) rest) (hq : p.ScopesAside q) {steps : Nat}
    (hsteps : c.length < steps) :
    ∃ r, Plan.refreshScopesWithin steps s.top q = .ok r ∧ p.ScopesAside r ∧
      ∀ y, r.get? y = if y ∈ s.top :: c.map Frame.id then (q.get? y).map (p.refreshedNode y)
        else q.get? y := by
  induction c generalizing s q steps with
  | nil =>
    obtain ⟨steps, rfl⟩ := Nat.exists_eq_add_one.2 hsteps
    obtain ⟨scope, hn⟩ := hq.exists_node h.has_plug.get?_top
    obtain ⟨r, hr, haside, hget⟩ := hq.refreshScopes_step hn h.has_plug.reachable_eq
    exact ⟨r, hr steps, haside, by simpa using hget⟩
  | cons f c ih =>
    obtain ⟨steps, rfl⟩ := Nat.exists_eq_add_one.2 (Nat.zero_lt_of_lt hsteps)
    obtain ⟨scope, hn⟩ := hq.exists_node h.has_plug.get?_top
    obtain ⟨q₁, hq₁, haside₁, hget₁⟩ := hq.refreshScopes_step hn h.has_plug.reachable_eq
    obtain ⟨r, hr, haside, hget⟩ :=
      ih (s := f.fill s) h haside₁ (Nat.lt_of_succ_lt_succ hsteps)
    refine ⟨r, (hq₁ steps).trans hr, haside, fun y => ?_⟩
    rw [hget, hget₁, Frame.top_fill, List.map_cons]
    by_cases hy : y = s.top
    · -- The scope of the node itself: it would do no harm to refresh it once more further up.
      rw [if_pos hy, if_pos (List.mem_cons.2 (.inl hy)), map_refreshedNode_twice, ite_self]
    · have hmem : y ∈ s.top :: f.id :: c.map Frame.id ↔ y ∈ f.id :: c.map Frame.id := by
        rw [List.mem_cons, or_iff_right hy]
      simp only [hmem, if_neg hy]

/-- The nodes of a plan after the scopes of a node and of its ancestors were refreshed.  It makes no
difference which scopes the plan has had before. -/
theorem Shows.exists_refreshScopes (h : p.Shows (c.plug s) rest) (hq : p.ScopesAside q) :
    ∃ r, q.refreshScopes s.top = .ok r ∧ p.ScopesAside r ∧
      (∀ y, Relation.ReflTransGen p.IsParent y s.top →
        r.get? y = (q.get? y).map (p.refreshedNode y)) ∧
      ∀ y, ¬ Relation.ReflTransGen p.IsParent y s.top → r.get? y = q.get? y := by
  have habove : ∀ y, Relation.ReflTransGen p.IsParent y s.top ↔ y ∈ s.top :: c.map Frame.id := by
    intro y
    rw [Relation.reflTransGen_iff_eq_or_transGen, List.mem_cons, List.mem_map, ← h.ancestor_iff,
      eq_comm]
  have hsteps : c.length < q.walkLimit := by
    rw [walkLimit, hq.size]
    exact h.length_lt_walkLimit
  obtain ⟨r, hr, haside, hget⟩ := h.refreshScopesWithin hq hsteps
  exact ⟨r, hr, haside, fun y hy => (hget y).trans (if_pos ((habove y).1 hy)),
    fun y hy => (hget y).trans (if_neg fun hmem => hy ((habove y).2 hmem))⟩

/-- Scopes that were refreshed are not changed when they are refreshed again. -/
theorem Shows.refreshScopes_again (h : p.Shows (c.plug s) rest) (hq : p.refreshScopes s.top = .ok q) :
    q.refreshScopes s.top = .ok q := by
  obtain ⟨q', hq', haside, habove, helse⟩ := h.exists_refreshScopes (.refl p)
  obtain rfl := Except.ok.inj (hq.symm.trans hq')
  obtain ⟨r, hr, haside', habove', helse'⟩ := h.exists_refreshScopes haside
  have hsame : r = q := by
    refine ext_get? (haside'.root.trans haside.root.symm) (haside'.size.trans haside.size.symm)
      fun y => ?_
    by_cases hup : Relation.ReflTransGen p.IsParent y s.top
    · rw [habove' y hup, habove y hup, map_refreshedNode_twice]
    · exact helse' y hup
  rw [hr, hsame]

/-! ## Scopes in order -/

/-- The scope of a node is what validation wants it to be: the tables scanned below, or some of them if
the node is a filter. -/
def ScopeFits (p : Plan) (x : NodeId) : Prop :=
  ∃ n tables, p.get? x = some n ∧ p.reachable x = .ok tables ∧ scopeErrors x n tables = []

/-- If a scope is in order, no errors are found in it. -/
theorem ScopeFits.scopeErrors_eq {tables : AliasSet} (h : p.ScopeFits x) (hn : p.get? x = some n)
    (htables : p.reachable x = .ok tables) : scopeErrors x n tables = [] := by
  obtain ⟨m, found, hm, hfound, herrors⟩ := h
  obtain rfl := Option.some.inj (hn.symm.trans hm)
  obtain rfl := Except.ok.inj (htables.symm.trans hfound)
  exact herrors

/-- A refreshed scope is in order, except for that of a scan, which is left as it is. -/
theorem scopeErrors_refreshedScope {tables : AliasSet}
    (hscan : n.kind = .scan → scopeErrors x n tables = []) :
    scopeErrors x { n with scope := refreshedScope n tables } tables = [] := by
  have hkind : ({ n with scope := refreshedScope n tables } : Node).kind = n.kind := rfl
  rw [scopeErrors_eq_nil_iff, hkind]
  cases h : n.kind with
  | scan =>
    have hscope := (scopeErrors_eq_nil_iff.1 (hscan h)).2 (by simp [h])
    simpa [refreshedScope, h] using hscope
  | filter => simp +contextual [refreshedScope, h]
  | projection => simp [refreshedScope, h]
  | join => simp [refreshedScope, h]

/-- Every reachable node of a plan that shows a tree exists, and its scanned tables are known. -/
theorem Shows.exists_tables {b : Branch} (h : p.Shows b rest) (hy : p.Reachable y) :
    ∃ n tables, p.get? y = some n ∧ p.reachable y = .ok tables := by
  obtain ⟨c, s, rfl, rfl⟩ := Branch.exists_plug_of_mem_ids (h.reachable_iff.1 hy)
  exact ⟨_, _, h.has_plug.get?_top, h.has_plug.reachable_eq⟩

/-- The plan `q` is the plan `p` after the scopes of the node `x` and of its ancestors were refreshed. -/
structure Refreshed (p : Plan) (x : NodeId) (q : Plan) : Prop where
  /-- Nothing but scopes is changed. -/
  aside : p.ScopesAside q
  /-- Only the scopes of the node and of its ancestors are changed. -/
  elsewhere : ∀ y, ¬ Relation.ReflTransGen p.IsParent y x → q.get? y = p.get? y
  /-- All scopes are in order. -/
  fits : ∀ y, q.Reachable y → q.ScopeFits y
  /-- A filter loses the tables that are not scanned below it, and no others. -/
  filter : ∀ y n, p.Reachable y → p.get? y = some n → n.kind = .filter → ∃ m tables,
    q.get? y = some m ∧ p.reachable y = .ok tables ∧ ∀ a, a ∈ m.scope ↔ a ∈ n.scope ∧ a ∈ tables
  /-- The scopes need not be refreshed again. -/
  again : q.refreshScopes x = .ok q

/-- Refreshing upwards repairs all scopes if they are out of date at the node and at its ancestors only,
and if those of the scans are in order. -/
theorem refreshScopes_exact (h : p.structuralErrors = .ok []) (hx : p.Reachable x)
    (hscopes : ∀ y n, p.Reachable y → p.get? y = some n →
      ¬ Relation.ReflTransGen p.IsParent y x ∨ n.kind = .scan → p.ScopeFits y) :
    ∃ q, p.refreshScopes x = .ok q ∧ p.Refreshed x q := by
  obtain ⟨b, rest, hshows, -, -⟩ := structuralErrors_eq_nil_iff.1 h
  obtain ⟨c, s, rfl, rfl⟩ := Branch.exists_plug_of_mem_ids (hshows.reachable_iff.1 hx)
  obtain ⟨q, hq, haside, habove, helse⟩ := hshows.exists_refreshScopes (.refl p)
  refine ⟨q, hq, haside, helse, fun y hy => ?_, fun y n hy hn hkind => ?_, hshows.refreshScopes_again hq⟩
  · obtain ⟨n, tables, hn, htables⟩ := hshows.exists_tables (haside.reachable_iff.1 hy)
    have hold := hscopes y n (haside.reachable_iff.1 hy) hn
    by_cases hup : Relation.ReflTransGen p.IsParent y s.top
    · have hget := habove y hup
      rw [hn, Option.map_some, refreshedNode_eq htables] at hget
      refine ⟨_, tables, hget, (haside.reachable y).trans htables, scopeErrors_refreshedScope ?_⟩
      intro hscan
      exact (hold (.inr hscan)).scopeErrors_eq hn htables
    · have herrors := (hold (.inl hup)).scopeErrors_eq hn htables
      exact ⟨n, tables, (helse y hup).trans hn, (haside.reachable y).trans htables, herrors⟩
  · obtain ⟨-, tables, -, htables⟩ := hshows.exists_tables hy
    by_cases hup : Relation.ReflTransGen p.IsParent y s.top
    · have hget := habove y hup
      rw [hn, Option.map_some, refreshedNode_eq htables] at hget
      exact ⟨_, tables, hget, htables, fun a => by simp [refreshedScope, hkind]⟩
    · -- The scope of this filter is in order already, so that there is nothing to lose.
      have herrors := (hscopes y n hy hn (.inl hup)).scopeErrors_eq hn htables
      have hinside := (scopeErrors_eq_nil_iff.1 herrors).1 hkind
      exact ⟨n, tables, (helse y hup).trans hn, htables,
        fun a => ⟨fun ha => ⟨ha, hinside a ha⟩, And.left⟩⟩

/-- The table `b` was joined to `a` below the filter and is not scanned any more. -/
def staleScopes : Plan where
  nodes := #[
    some ⟨.scan "a", some 1, [], .singleton "a", false⟩,
    some ⟨.filter (.ofPredicate (.binary (.column ⟨"a", 2⟩) .gt (.literal (.int 3)))), some 3, [0],
      .ofList ["a", "b"], false⟩,
    some ⟨.scan "c", some 3, [], .singleton "c", false⟩,
    some ⟨.join ⟨.ofList [⟨"a", 1⟩, ⟨"c", 1⟩], .empty⟩, some 4, [1, 2], .ofList ["a", "b", "c"], false⟩,
    some ⟨.projection (.ofList [⟨"a", 1⟩]), none, [3], .ofList ["a", "b", "c"], false⟩]
  root := some 4

/-- The scopes of the filter, of the join and of the projection are repaired. -/
theorem refreshScopes_exact_staleScopes :
    staleScopes.structuralErrors = .ok [] ∧ staleScopes.Reachable 1 ∧
    (∀ y n, staleScopes.Reachable y → staleScopes.get? y = some n →
      ¬ Relation.ReflTransGen staleScopes.IsParent y 1 ∨ n.kind = .scan → staleScopes.ScopeFits y) ∧
    ¬ staleScopes.ScopeFits 1 ∧ ¬ staleScopes.ScopeFits 4 ∧
    ∃ q, staleScopes.refreshScopes 1 = .ok q ∧ staleScopes.Refreshed 1 q := by
  have hstructure : staleScopes.structuralErrors = .ok [] := by cbv
  have hroot : staleScopes.Reachable 4 := .root rfl
  have hjoin : staleScopes.Reachable 3 := hroot.child rfl (by decide)
  have hfilter : staleScopes.Reachable 1 := hjoin.child rfl (by decide)
  have habove : Relation.ReflTransGen staleScopes.IsParent 3 1 := .single ⟨_, rfl, rfl⟩
  have hscopes : ∀ y n, staleScopes.Reachable y → staleScopes.get? y = some n →
      ¬ Relation.ReflTransGen staleScopes.IsParent y 1 ∨ n.kind = .scan → staleScopes.ScopeFits y := by
    intro y n _ hget hy
    have hlt : y < 5 := lt_size_of_get? hget
    interval_cases y
    case «0» => exact ⟨_, .singleton "a", rfl, by cbv, rfl⟩
    case «2» => exact ⟨_, .singleton "c", rfl, by cbv, rfl⟩
    -- All others are the filter or stand above it, and none of them is a scan.
    case «1» =>
      obtain rfl := Option.some.inj hget
      exact absurd .refl (hy.resolve_right (by decide))
    case «3» =>
      obtain rfl := Option.some.inj hget
      exact absurd habove (hy.resolve_right (by decide))
    case «4» =>
      obtain rfl := Option.some.inj hget
      exact absurd (.head ⟨_, rfl, rfl⟩ habove) (hy.resolve_right (by decide))
  have hstale : ∀ x n tables, staleScopes.get? x = some n → staleScopes.reachable x = .ok tables →
      scopeErrors x n tables ≠ [] → ¬ staleScopes.ScopeFits x :=
    fun x n tables hn htables herrors hfits => herrors (hfits.scopeErrors_eq hn htables)
  refine ⟨hstructure, hfilter, hscopes, ?_, ?_, refreshScopes_exact hstructure hfilter hscopes⟩
  · exact hstale 1 _ (.singleton "a") rfl (by cbv) (by decide)
  · exact hstale 4 _ (.ofList ["a", "c"]) rfl (by cbv) (by decide)

end QueryPlan.Plan
