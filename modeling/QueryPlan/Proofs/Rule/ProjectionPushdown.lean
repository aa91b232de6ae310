import QueryPlan.Proofs.Rule.Basic
import QueryPlan.Rule.ProjectionPushdown

/-!
# Projection pushdown on trees

Branches below a projection are narrowed: a projection at the top of a branch loses columns, or a new
projection is put above the branch.

Main results:

- Definition `ProjectionPushdown.Narrows`: one branch is narrowed.
- Definition `ProjectionPushdown.isNarrow`: narrowing a branch would change nothing.
- Definitions `BelowJoin.Pushes` and `BelowFilter.Pushes`: what the two rules do to a branch.
- Theorems `BelowJoin.apply_shows` and `BelowFilter.apply_shows`: the rules do that or leave the plan
  alone.
-/

namespace QueryPlan

/-- Whether the branch is a projection whose only branch has the given kind and may produce rows. -/
def Branch.isProjectionOver (kind : Operator.Kind) : Branch → Bool
  | .node _ l [s] => l.kind == .projection && (s.kind == kind && !s.label.vacuous)
  | _ => false

namespace ProjectionPushdown

/-- Whether a node is a projection above an operator of the given kind is read off its branch. -/
theorem isOver_eq {p : Plan} {parent : Option NodeId} {b : Branch} (h : p.Has parent b)
    (kind : Operator.Kind) : isOver p b.top kind = .ok (b.isProjectionOver kind) := by
  obtain ⟨id, l, bs⟩ := b
  rw [isOver, h.node_top, ok_bind, Branch.label_node, Branch.branches_node,
    Label.onlyChild?_node_map_top, Label.node_kind]
  match bs with
  | [] => cases l.kind <;> rfl
  | [s] =>
    have hs := (h.branch (List.mem_singleton.2 rfl)).node_top
    cases hl : l.kind
    case projection =>
      simp only [hs, ok_bind, pure_eq_ok, Label.node_kind, Label.node_vacuous,
        Branch.isProjectionOver, hl, beq_self_eq_true, Bool.true_and]
      rfl
    all_goals
      simp only [pure_eq_ok, Branch.isProjectionOver, hl]
      rfl
  | _ :: _ :: _ => cases l.kind <;> rfl

/-- A branch is narrowed to the columns in `needed`. -/
inductive Narrows (needed : ColumnSet) : Branch → Branch → Prop
  | inPlace {id : NodeId} {l : Label} {present : ColumnSet} {bs : List Branch}
      (hl : l.op = .projection present) (hsome : (present.inter needed).isEmpty = false)
      (hless : (present.inter needed).size ≠ present.size) :
      Narrows needed (.node id l bs)
        (.node id { l with op := .projection (present.inter needed) } bs)
  | insert {b : Branch} (fresh : NodeId) (hsome : needed.isEmpty = false)
      (hb : b.label.op.projection? = none) :
      Narrows needed b (.node fresh ⟨.projection needed, b.tables, false⟩ [b])

/-- Whether narrowing the branch to the columns in `needed` changes nothing. -/
def isNarrow (needed : ColumnSet) (b : Branch) : Bool :=
  needed.isEmpty ||
    match b.label.op.projection? with
    | some present => (present.inter needed).isEmpty || (present.inter needed).size == present.size
    | none => false

/-- Whether a branch is narrow depends on the operator on top of it only. -/
theorem isNarrow_of_op {needed : ColumnSet} {b b' : Branch} (h : b'.label.op = b.label.op) :
    isNarrow needed b' = isNarrow needed b := by
  rw [isNarrow, isNarrow, h]

/-- Narrowing the branch in a context. -/
theorem narrow_shows {p : Plan} {c : Context} {b : Branch} {rest : NodeId → Option Node}
    (h : p.Shows (c.plug b) rest) (needed : ColumnSet) :
    (isNarrow needed b = true ∧ narrow p b.top needed = .ok (false, p)) ∨
      isNarrow needed b = false ∧ ∃ b' q, narrow p b.top needed = .ok (true, q) ∧
        Narrows needed b b' ∧ q.Shows (c.plug b') rest ∧ p.nodes.size ≤ q.nodes.size := by
  rw [narrow, isNarrow]
  by_cases hneeded : needed.isEmpty = true
  · exact .inl ⟨by rw [hneeded, Bool.true_or], if_pos hneeded⟩
  rw [if_neg hneeded]
  rw [Bool.not_eq_true] at hneeded
  simp only [h.has_plug.get?_top, Option.bind_some, Label.node_op, hneeded, Bool.false_or]
  cases hop : b.label.op.projection? with
  | some present =>
    by_cases hcond : ((present.inter needed).isEmpty ||
        (present.inter needed).size == present.size) = true
    · exact .inl ⟨hcond, if_pos hcond⟩
    refine .inr ⟨Bool.eq_false_iff.2 hcond, ?_⟩
    rw [Bool.or_eq_true, not_or, beq_iff_eq, Bool.not_eq_true] at hcond
    obtain ⟨id, l, bs⟩ := b
    have hl : l.op = .projection present := Operator.projection?_eq_some_iff.1 hop
    refine ⟨_, _, if_neg ?_, .inPlace hl hcond.1 hcond.2, ?_, ?_⟩
    · simp [hcond.1, hcond.2]
    · exact h.relabel { l with op := .projection (present.inter needed) } _ fun _ _ => rfl
    · exact Nat.le_of_eq (Plan.size_modify ..).symm
  | none =>
    refine .inr ⟨rfl, ?_⟩
    have hs := h.splits
    rw [← List.append_nil (Branch.entries none _)] at hs
    obtain ⟨q, hq, h₁, hroot, hsize⟩ := hs.insertAbove h.root_eq (.projection needed)
    rw [List.append_nil] at h₁
    refine ⟨_, q, ?_, .insert p.nodes.size hneeded hop, ⟨hroot, h₁⟩, ?_⟩
    · rw [hq]
      rfl
    · rw [hsize]
      exact Nat.le_succ _

namespace BelowJoin

/-- A branch is narrowed below filters that need no column outside `needed`. -/
inductive NarrowsBelow (needed : ColumnSet) : Branch → Branch → Prop
  | here {b b' : Branch} : Narrows needed b b' → NarrowsBelow needed b b'
  | pass {id : NodeId} {l : Label} {f : Filter} {b b' : Branch} (hl : l.op = .filter f)
      (hv : l.vacuous = false) (hjoin : b.kind ≠ .join) (hsub : f.columns.subset needed = true) :
      NarrowsBelow needed b b' → NarrowsBelow needed (.node id l [b]) (.node id l [b'])

/-- The columns of a branch of a join that a projection above the join calls for. -/
def neededColumns (condition columns : ColumnSet) (b : Branch) : ColumnSet :=
  (condition.inTables b.tables).union (columns.inTables b.tables)

/-- A branch needs the columns of its own tables that the join compares or the projection keeps. -/
theorem mem_neededColumns {condition columns : ColumnSet} {b : Branch} {x : Column} :
    x ∈ neededColumns condition columns b ↔ (x ∈ condition ∨ x ∈ columns) ∧ x.table ∈ b.tables := by
  rw [neededColumns, ColumnSet.mem_union, ColumnSet.mem_inTables, ColumnSet.mem_inTables,
    or_and_right]

/-- Whether narrowing the branch below filters that need no column outside `needed` changes
nothing. -/
def isNarrowBelow (needed : ColumnSet) : Branch → Bool
  | .node id l [b] =>
    match l.op with
    | .filter f =>
      if l.vacuous || (b.kind == .join || !f.columns.subset needed) then
        isNarrow needed (.node id l [b])
      else isNarrowBelow needed b
    | _ => isNarrow needed (.node id l [b])
  | b => isNarrow needed b

/-- A branch of a join is narrowed, or stays as it is because it is narrow. -/
def Narrowed (condition columns : ColumnSet) (b b' : Branch) : Prop :=
  (b' = b ∧ isNarrowBelow (neededColumns condition columns b) b = true) ∨
    NarrowsBelow (neededColumns condition columns b) b b'

/-- What the rule does to a branch: the branches of a join below a projection are narrowed. -/
inductive Pushes : Branch → Branch → Prop
  | push {id join : NodeId} {l m : Label} {columns : ColumnSet} {j : Join} {bs bs' : List Branch}
      (hl : l.op = .projection columns) (hm : m.op = .join j)
      (hbs : List.Forall₂ (Narrowed j.columns columns) bs bs') :
      Pushes (.node id l [.node join m bs]) (.node id l [.node join m bs'])

/-- Whether the rule has nothing to do at a projection above a join: all branches are narrow. -/
def isIdle : Branch → Bool
  | .node _ l [.node _ m bs] =>
    match l.op, m.op with
    | .projection columns, .join j =>
      bs.all fun b => isNarrowBelow (neededColumns j.columns columns b) b
    | _, _ => true
  | _ => true

/-- There is nothing to do at a node that is not a projection. -/
theorem isIdle_of_not_projection {id : NodeId} {l : Label} {bs : List Branch}
    (hl : l.op.projection? = none) : isIdle (.node id l bs) = true := by
  unfold isIdle
  split
  · rename_i heq
    obtain ⟨-, rfl, -⟩ := Branch.node.inj heq
    split
    · rename_i hop _
      simp [hop, Operator.projection?] at hl
    · rfl
  · rfl

/-- The walk down the filters ends at a branch below which nothing else is changed. -/
theorem passFilters_eq {p : Plan} {parent : Option NodeId} {b : Branch} (h : p.Has parent b)
    (needed : ColumnSet) {steps : Nat} (hsteps : b.height ≤ steps) :
    ∃ c t, b = Context.plug c t ∧ passFilters p needed steps b.top = .ok t.top ∧
      isNarrowBelow needed b = isNarrow needed t ∧
      ∀ t', Narrows needed t t' → NarrowsBelow needed b (Context.plug c t') := by
  induction b generalizing parent steps with
  | node id l bs ih =>
    obtain ⟨steps, rfl⟩ : ∃ d, steps = d + 1 :=
      Nat.exists_eq_add_one.2 (Nat.lt_of_lt_of_le (Branch.height_pos _) hsteps)
    have hstay : ∀ {x : Except Plan.Fault NodeId}, x = .ok id →
        isNarrowBelow needed (.node id l bs) = isNarrow needed (.node id l bs) → ∃ c t,
        Branch.node id l bs = Context.plug c t ∧ x = .ok t.top ∧
          isNarrowBelow needed (.node id l bs) = isNarrow needed t ∧
          ∀ t', Narrows needed t t' → NarrowsBelow needed (.node id l bs) (Context.plug c t') :=
      fun hx hnarrow => ⟨[], _, rfl, hx, hnarrow, fun t' ht => .here ht⟩
    rw [passFilters, h.node_top, ok_bind, Branch.label_node, Branch.branches_node,
      Label.onlyChild?_node_map_top, Label.node_op, Label.node_vacuous]
    match hop : l.op, bs with
    | .scan _, [_] | .projection _, [_] | .join _, [_] =>
      exact hstay rfl (by rw [isNarrowBelow, hop])
    | .scan _, [] | .projection _, [] | .join _, [] | .filter _, [] | .scan _, _ :: _ :: _
    | .projection _, _ :: _ :: _ | .join _, _ :: _ :: _ | .filter _, _ :: _ :: _ =>
      exact hstay rfl (by simp [isNarrowBelow])
    | .filter f, [b] =>
      have hb := h.branch (List.mem_singleton.2 rfl)
      have hlt := Branch.height_lt_of_mem id l (List.mem_singleton.2 rfl : b ∈ [b])
      simp only [hb.node_top, ok_bind, pure_eq_ok]
      by_cases hv : l.vacuous = true
      · rw [if_pos hv]
        exact hstay rfl (by simp [isNarrowBelow, hop, hv])
      rw [if_neg hv]
      have hbelow : isNarrowBelow needed (.node id l [b]) =
          if (b.kind == .join || !f.columns.subset needed) = true then
            isNarrow needed (.node id l [b])
          else isNarrowBelow needed b := by
        rw [isNarrowBelow]
        simp only [hop, hv, Bool.false_or]
      by_cases hcond : ((b.label.node (some id) (b.branches.map Branch.top)).kind == .join ||
          !f.columns.subset needed) = true
      · rw [if_pos hcond]
        exact hstay rfl (hbelow.trans (if_pos hcond))
      rw [if_neg hcond]
      rw [hbelow.trans (if_neg hcond)]
      rw [Bool.or_eq_true, not_or, beq_iff_eq, Bool.not_eq_true, Bool.not_eq_false'] at hcond
      obtain ⟨c, t, rfl, heq, hsame, hnarrow⟩ :=
        ih b (List.mem_singleton.2 rfl) hb (show b.height ≤ steps by omega)
      refine ⟨c ++ [⟨id, l, [], []⟩], t, by rw [Context.plug_append]; rfl, heq, hsame, fun t' ht => ?_⟩
      rw [Context.plug_append]
      exact .pass hop (Bool.eq_false_iff.2 hv) hcond.1 hcond.2 (hnarrow t' ht)

/-- Narrowing one branch of a join. -/
theorem narrowBranch_shows {p : Plan} {c : Context} {b : Branch} {rest : NodeId → Option Node}
    (h : p.Shows (c.plug b) rest) (condition columns : ColumnSet) (changed : Bool) :
    (isNarrowBelow (neededColumns condition columns b) b = true ∧
      narrowBranch condition columns (changed, p) b.top = .ok (changed, p)) ∨
    isNarrowBelow (neededColumns condition columns b) b = false ∧
      ∃ b' q, narrowBranch condition columns (changed, p) b.top = .ok (true, q) ∧
        NarrowsBelow (neededColumns condition columns b) b b' ∧ q.Shows (c.plug b') rest ∧
        p.nodes.size ≤ q.nodes.size := by
  have hb := h.has_plug
  obtain ⟨d, t, rfl, ht, hsame, hbelow⟩ := passFilters_eq hb (neededColumns condition columns b)
    (Nat.le_trans hb.height_le (Nat.le_succ _))
  rw [← Context.plug_append] at h
  have heq : narrowBranch condition columns (changed, p) (Context.plug d t).top =
      narrow p t.top (neededColumns condition columns (Context.plug d t)) >>= fun r =>
        .ok (changed || r.1, r.2) := by
    rw [narrowBranch, hb.reachable_eq, ok_bind]
    exact congrArg (· >>= _) ht
  rw [heq, hsame]
  refine (narrow_shows h (neededColumns condition columns (Context.plug d t))).imp ?_ ?_
  · rintro ⟨hidle, hnarrow⟩
    exact ⟨hidle, by rw [hnarrow, ok_bind, Bool.or_false]⟩
  · rintro ⟨hidle, t', q, hnarrow, hnarrows, h₁, hsize⟩
    refine ⟨hidle, Context.plug d t', q, ?_, hbelow t' hnarrows, ?_, hsize⟩
    · rw [hnarrow, ok_bind, Bool.or_true]
    · rwa [Context.plug_append] at h₁

/-- Narrowing the branches of a join, one after the other. -/
theorem narrowBranches_shows {id : NodeId} {l : Label} {c : Context}
    {rest : NodeId → Option Node} (condition columns : ColumnSet) (done : List Branch)
    {bs : List Branch} {p : Plan} (h : p.Shows (c.plug (.node id l (done ++ bs))) rest) (changed : Bool) :
    ∃ changed' q bs', (bs.map Branch.top).foldlM (narrowBranch condition columns) (changed, p) =
        .ok (changed', q) ∧
      changed' = (changed ||
        !bs.all fun b => isNarrowBelow (neededColumns condition columns b) b) ∧
      List.Forall₂ (Narrowed condition columns) bs bs' ∧
      q.Shows (c.plug (.node id l (done ++ bs'))) rest ∧ p.nodes.size ≤ q.nodes.size ∧
      (changed' = false → changed = false ∧ q = p) := by
  induction bs generalizing done p changed with
  | nil =>
    exact ⟨changed, p, [], rfl, by simp, .nil, h, Nat.le_refl _, fun hc => ⟨hc, rfl⟩⟩
  | cons b bs ih =>
    rw [List.map_cons, List.foldlM_cons, List.all_cons]
    rcases narrowBranch_shows (c := ⟨id, l, done, bs⟩ :: c) h condition columns changed with
      ⟨hidle, heq⟩ | ⟨hidle, b', q, heq, hb, h₁, hsize⟩
    · have h₀ : p.Shows (c.plug (.node id l ((done ++ [b]) ++ bs))) rest := by
        rwa [List.append_assoc]
      obtain ⟨changed', r, bs', hfold, hchanged, hbs, h₂, hsize₂, hsame⟩ :=
        ih (done ++ [b]) h₀ changed
      refine ⟨changed', r, b :: bs', ?_, ?_, .cons (.inl ⟨rfl, hidle⟩) hbs, ?_, hsize₂, hsame⟩
      · rw [heq, ok_bind, hfold]
      · rw [hidle, Bool.true_and, hchanged]
      · rwa [List.append_assoc] at h₂
    · have h₀ : q.Shows (c.plug (.node id l ((done ++ [b']) ++ bs))) rest := by
        rwa [List.append_assoc]
      obtain ⟨changed', r, bs', hfold, hchanged, hbs, h₂, hsize₂, hsame⟩ :=
        ih (done ++ [b']) h₀ true
      refine ⟨changed', r, b' :: bs', ?_, ?_, .cons (.inr hb) hbs, ?_,
        Nat.le_trans hsize hsize₂, ?_⟩
      · rw [heq, ok_bind, hfold]
      · simp [hidle, hchanged]
      · rwa [List.append_assoc] at h₂
      · intro hfalse
        exact absurd (hsame hfalse).1.symm Bool.false_ne_true

/-- Projection pushdown below the join at the top of a branch. -/
theorem apply_shows {p : Plan} {c : Context} {s : Branch} {rest : NodeId → Option Node}
    (h : p.Shows (c.plug s) rest) :
    ∃ res, apply p s.top = .ok res ∧
      ((isIdle s = true ∧ res = .unchanged p s.top) ∨
        isIdle s = false ∧ ∃ s', Pushes s s' ∧ res.Installs p c s' rest) := by
  obtain ⟨id, l, bs⟩ := s
  have hid : p.node id = .ok (l.node c.parent? (bs.map Branch.top)) := h.has_plug.node_top
  have hskip : ∀ {x : Except Plan.Fault RuleResult}, isIdle (.node id l bs) = true →
      x = .ok (.unchanged p id) → ∃ res, x = .ok res ∧
        ((isIdle (.node id l bs) = true ∧ res = .unchanged p id) ∨
          isIdle (.node id l bs) = false ∧
            ∃ s', Pushes (.node id l bs) s' ∧ res.Installs p c s' rest) :=
    fun hidle hx => ⟨_, hx, .inl ⟨hidle, rfl⟩⟩
  rw [Branch.top_node, apply, hid]
  simp only [ok_bind, Label.node_op]
  rw [Label.onlyChild?_node_map_top]
  match hop : l.op, bs with
  | .projection _, [] | .projection _, _ :: _ :: _ => exact hskip (by simp [isIdle]) rfl
  | .scan _, bs | .filter _, bs | .join _, bs =>
    exact hskip (isIdle_of_not_projection (by rw [hop]; rfl)) rfl
  | .projection columns, [.node join m js] =>
    have hj : p.Has (some id) (.node join m js) := h.has_plug.branch (List.mem_singleton.2 rfl)
    have hjoin : p.node join = .ok (m.node (some id) (js.map Branch.top)) := hj.node_top
    simp only [Branch.top_node, hjoin, ok_bind, Label.node_op, Label.node_children]
    match hm : m.op with
    | .scan _ | .filter _ | .projection _ => exact hskip (by simp [isIdle, hop, hm]) rfl
    | .join j =>
      obtain ⟨changed, q, js', hfold, hchanged, hjs, h₁, hsize, hsame⟩ :=
        narrowBranches_shows (c := ⟨id, l, [], []⟩ :: c) j.columns columns [] h false
      have hidle : changed = !isIdle (.node id l [.node join m js]) := by
        rw [hchanged, Bool.false_or]
        simp only [isIdle, hop, hm]
      simp only [hfold, ok_bind, pure_eq_ok]
      cases changed with
      | false =>
        rw [(hsame rfl).2]
        exact hskip (by simpa using hidle) rfl
      | true =>
        exact ⟨_, rfl, .inr ⟨by simpa using hidle, _, .push hop hm hjs, rfl, rfl, h₁, hsize⟩⟩

/-- The rule is tried at projections above a join. -/
theorem isAnchor_eq {p : Plan} {parent : Option NodeId} {b : Branch} (h : p.Has parent b) :
    isAnchor p b.top = .ok (b.isProjectionOver .join) :=
  isOver_eq h .join

end BelowJoin

namespace BelowFilter

/-- What the rule does to a branch: the branch of a filter below a projection is narrowed. -/
inductive Pushes : Branch → Branch → Prop
  | push {id filter : NodeId} {l m : Label} {columns : ColumnSet} {f : Filter} {b b' : Branch}
      (hl : l.op = .projection columns) (hm : m.op = .filter f)
      (hb : Narrows (columns.union f.columns) b b') :
      Pushes (.node id l [.node filter m [b]]) (.node id l [.node filter m [b']])

/-- Whether the rule has nothing to do at a projection above a filter: what is below is narrow. -/
def isIdle : Branch → Bool
  | .node _ l [.node _ m [b]] =>
    match l.op, m.op with
    | .projection columns, .filter f => isNarrow (columns.union f.columns) b
    | _, _ => true
  | _ => true

/-- There is nothing to do at a node that is not a projection. -/
theorem isIdle_of_not_projection {id : NodeId} {l : Label} {bs : List Branch}
    (hl : l.op.projection? = none) : isIdle (.node id l bs) = true := by
  unfold isIdle
  split
  · rename_i heq
    obtain ⟨-, rfl, -⟩ := Branch.node.inj heq
    split
    · rename_i hop _
      simp [hop, Operator.projection?] at hl
    · rfl
  · rfl

/-- Projection pushdown below the filter at the top of a branch. -/
theorem apply_shows {p : Plan} {c : Context} {s : Branch} {rest : NodeId → Option Node}
    (h : p.Shows (c.plug s) rest) :
    ∃ res, apply p s.top = .ok res ∧
      ((isIdle s = true ∧ res = .unchanged p s.top) ∨
        isIdle s = false ∧ ∃ s', Pushes s s' ∧ res.Installs p c s' rest) := by
  obtain ⟨id, l, bs⟩ := s
  have hid : p.node id = .ok (l.node c.parent? (bs.map Branch.top)) := h.has_plug.node_top
  have hskip : ∀ {x : Except Plan.Fault RuleResult}, isIdle (.node id l bs) = true →
      x = .ok (.unchanged p id) → ∃ res, x = .ok res ∧
        ((isIdle (.node id l bs) = true ∧ res = .unchanged p id) ∨
          isIdle (.node id l bs) = false ∧
            ∃ s', Pushes (.node id l bs) s' ∧ res.Installs p c s' rest) :=
    fun hidle hx => ⟨_, hx, .inl ⟨hidle, rfl⟩⟩
  rw [Branch.top_node, apply, hid]
  simp only [ok_bind, Label.node_op]
  rw [Label.onlyChild?_node_map_top]
  match hop : l.op, bs with
  | .projection _, [] | .projection _, _ :: _ :: _ => exact hskip (by simp [isIdle]) rfl
  | .scan _, bs | .filter _, bs | .join _, bs =>
    exact hskip (isIdle_of_not_projection (by rw [hop]; rfl)) rfl
  | .projection columns, [.node filter m fs] =>
    have hf : p.Has (some id) (.node filter m fs) := h.has_plug.branch (List.mem_singleton.2 rfl)
    have hfilter : p.node filter = .ok (m.node (some id) (fs.map Branch.top)) := hf.node_top
    simp only [Branch.top_node, hfilter, ok_bind, Label.node_op]
    rw [Label.onlyChild?_node_map_top]
    match hm : m.op, fs with
    | .filter _, [] | .filter _, _ :: _ :: _ => exact hskip (by simp [isIdle]) rfl
    | .scan _, fs | .projection _, fs | .join _, fs =>
      refine hskip ?_ rfl
      unfold isIdle
      split
      · rename_i heq
        simp only [Branch.node.injEq, List.cons.injEq] at heq
        obtain ⟨-, rfl, ⟨-, rfl, -⟩, -⟩ := heq
        simp [hop, hm]
      · rfl
    | .filter f, [b] =>
      have hidle : isIdle (.node id l [.node filter m [b]]) =
          isNarrow (columns.union f.columns) b := by
        simp only [isIdle, hop, hm]
      rcases narrow_shows (c := ⟨filter, m, [], []⟩ :: ⟨id, l, [], []⟩ :: c) h
          (columns.union f.columns) with ⟨hnarrow, heq⟩ | ⟨hnarrow, b', q, heq, hb, h₁, hsize⟩
      · simp only [heq, ok_bind, pure_eq_ok]
        exact hskip (hidle.trans hnarrow) rfl
      · simp only [heq, ok_bind, pure_eq_ok]
        exact ⟨_, rfl, .inr ⟨hidle.trans hnarrow, _, .push hop hm hb, rfl, rfl, h₁, hsize⟩⟩

/-- The rule is tried at projections above a filter. -/
theorem isAnchor_eq {p : Plan} {parent : Option NodeId} {b : Branch} (h : p.Has parent b) :
    isAnchor p b.top = .ok (b.isProjectionOver .filter) :=
  isOver_eq h .filter

end BelowFilter

end ProjectionPushdown

end QueryPlan
