import Mathlib.Tactic.IntervalCases
import QueryPlan.Proofs.Filters.Labels
import QueryPlan.Proofs.Projections.Narrow
import QueryPlan.Proofs.Valid.Runs

/-!
# Marks of branches without rows

Simplification marks a filter whose predicate is never true, with all below it, as producing no rows.
Nothing that a run does later spoils the marks: it does not enter a marked branch, a filter never moves
into one, since it moves below a join and the uppermost node of a marked branch is a filter, and a
projection that is put in stands above such a filter at the lowest.

Main results:

- Definition `Branch.Marked`: marks fill whole branches below filters that let no row pass.
- Theorem `Rule.Rewrites.marked`: a rule keeps it so where a run applies it.
- Theorem `Optimizer.Opens.marked`: and so does all that is done before the walk goes down.
- Theorem `Optimizer.marks_sound`: the marks of the plan that a run gives.
-/

namespace QueryPlan

/-- The node is a filter that lets no row pass. -/
def Label.Refuted (l : Label) : Prop :=
  ∃ f, l.op = .filter f ∧
    (f.predicate = .literal (.bool false) ∨ f.predicate = .literal .null)

/-- A verdict that no row passes is given for the literals of falsehood and of null only. -/
theorem PredicateSimplification.eq_of_verdict_false {e : Expr} (h : verdict? e = some false) :
    e = .literal (.bool false) ∨ e = .literal .null := by
  unfold verdict? at h
  split at h
  · rw [Option.some.inj h]
    exact .inl rfl
  · exact .inr rfl
  · exact absurd h.symm (Option.some_ne_none false)

namespace Branch

/-- Marks fill whole branches, and the uppermost node of each of them lets no row pass. -/
inductive Marked : Branch → Prop
  | live {id : NodeId} {l : Label} {bs : List Branch} (hv : l.vacuous = false)
      (hbs : ∀ b ∈ bs, b.Marked) : Marked (node id l bs)
  | dead {b : Branch} (hl : b.label.Refuted) (hall : b.All (·.vacuous = true)) : Marked b

variable {id : NodeId} {l : Label} {bs : List Branch} {b s : Branch} {c : Context}

/-- The branches of a node without a mark are marked where they should be. -/
theorem Marked.branch (h : (node id l bs).Marked) (hv : l.vacuous = false) :
    ∀ b ∈ bs, b.Marked := by
  cases h with
  | live _ hbs => exact hbs
  | dead _ hall => exact absurd (hv.symm.trans hall.label) Bool.false_ne_true

/-- A mark on top fills the whole branch. -/
theorem Marked.all_vacuous (h : b.Marked) (hv : b.label.vacuous = true) :
    b.All (·.vacuous = true) := by
  cases h with
  | live hv' => exact absurd (hv'.symm.trans hv) Bool.false_ne_true
  | dead _ hall => exact hall

/-- A mark on top stands at a filter that lets no row pass. -/
theorem Marked.refuted (h : b.Marked) (hv : b.label.vacuous = true) : b.label.Refuted := by
  cases h with
  | live hv' => exact absurd (hv'.symm.trans hv) Bool.false_ne_true
  | dead hl => exact hl

/-- The uppermost node of a marked branch is a filter. -/
theorem Marked.vacuous_of_kind (h : b.Marked) (hkind : b.kind ≠ .filter) :
    b.label.vacuous = false := by
  rw [← Bool.not_eq_true]
  intro hv
  obtain ⟨f, hop, -⟩ := h.refuted hv
  exact hkind (by rw [kind, Label.kind, hop]; rfl)

/-- The branches of a join are marked where they should be. -/
theorem Marked.branch_of_join {j : Join} (h : (node id l bs).Marked) (hop : l.op = .join j) :
    l.vacuous = false ∧ ∀ b ∈ bs, b.Marked := by
  have hv := h.vacuous_of_kind (by rw [kind_node, Label.kind, hop]; simp [Operator.kind])
  exact ⟨hv, h.branch hv⟩

/-- A branch without marks is marked where it should be. -/
theorem All.marked (h : b.All (·.vacuous = false)) : b.Marked := by
  induction b with
  | node id l bs ih => exact .live h.label fun b hb => ih b hb (h.branch b hb)

/-- Marking fills the whole branch. -/
theorem all_vacuous_mark (b : Branch) : b.mark.All (·.vacuous = true) := by
  have hall : b.All fun _ => True := all_of_forall_plug fun _ _ _ => trivial
  exact hall.mark fun _ _ => rfl

/-- A part of a branch that is marked where it should be is so, too, or it lies below a mark. -/
theorem Marked.of_plug (h : (c.plug s).Marked) :
    s.Marked ∨ (s.All (·.vacuous = true) ∧ ∃ f d, c = f :: d ∧ f.label.vacuous = true) := by
  induction c generalizing s with
  | nil => exact .inl h
  | cons f c ih =>
    have hbelow : (f.fill s).All (·.vacuous = true) →
        s.All (·.vacuous = true) ∧ ∃ f' d, f :: c = f' :: d ∧ f'.label.vacuous = true := by
      intro hall
      obtain ⟨hl, -, hs⟩ := Frame.all_fill_iff.1 hall
      exact ⟨hs, f, c, rfl, hl⟩
    rcases ih (s := f.fill s) h with hfill | ⟨hall, -⟩
    · by_cases hv : f.label.vacuous = true
      · exact .inr (hbelow (hfill.all_vacuous hv))
      · rw [Bool.not_eq_true] at hv
        exact .inl (Marked.branch hfill hv s (List.mem_append_right _ List.mem_cons_self))
    · exact .inr (hbelow hall)

end Branch

/-! ## What the rules do -/

/-- A filter is simplified to a branch that is marked where it should be. -/
theorem PredicateSimplification.Simplifies.marked {s s' : Branch} (h : Simplifies s s')
    (hs : s.Marked) : s'.Marked := by
  cases h with
  | remove hl hv => exact List.forall_mem_singleton.1 (hs.branch hv)
  | refute hl hv hverdict =>
    refine .dead ?_ (Branch.all_vacuous_mark _)
    rw [Branch.mark_node]
    exact ⟨_, rfl, eq_of_verdict_false hverdict⟩
  | fold hl hv => exact .live hv (hs.branch hv)

/-- A filter that moves onto a branch of a join has no mark, and neither has the join. -/
theorem PredicatePushdown.Pushes.marked {s s' : Branch} (h : Pushes s s')
    (hv : s.label.vacuous = false) (hs : s.Marked) : s'.Marked := by
  cases h with
  | @push id join l m f cond left right b hl hm =>
    have hjoin := List.forall_mem_singleton.1 (hs.branch hv)
    obtain ⟨hm', hbs⟩ := hjoin.branch_of_join hm
    obtain ⟨hothers, hb⟩ := forall_mem_middle.1 hbs
    exact .live hm' (forall_mem_middle.2 ⟨hothers, .live hv (List.forall_mem_singleton.2 hb)⟩)

/-- The branch that is kept of a join without a mark is marked where it should be. -/
theorem JoinElimination.Eliminates.marked {c : Context} {s kept : Branch} (h : Eliminates c s kept)
    (hv : s.label.vacuous = false) (hs : s.Marked) : kept.Marked := by
  cases h with
  | byJoin hl hsides => exact hs.branch hv _ (hsides.mem_iff.2 (.inl rfl))
  | byFilter hl hm hsides =>
    have hjoin := List.forall_mem_singleton.1 (hs.branch hv)
    exact (hjoin.branch_of_join hm).2 _ (hsides.mem_iff.2 (.inl rfl))

namespace ProjectionPushdown

variable {needed : ColumnSet} {b b' s s' : Branch}

/-- Narrowing a branch leaves it marked where it should be. -/
theorem Narrows.marked (h : Narrows needed b b') (hb : b.Marked) : b'.Marked := by
  cases h with
  | @inPlace id l present bs hl =>
    have hv := hb.vacuous_of_kind (by rw [Branch.kind_node, Label.kind, hl]; simp [Operator.kind])
    exact .live hv (hb.branch hv)
  | insert => exact .live rfl (List.forall_mem_singleton.2 hb)

namespace BelowJoin

/-- Only filters without a mark are passed. -/
theorem NarrowsBelow.marked (h : NarrowsBelow needed b b') (hb : b.Marked) : b'.Marked := by
  induction h with
  | here h => exact h.marked hb
  | pass hl hv _ _ _ ih =>
    have hbelow := List.forall_mem_singleton.1 (hb.branch hv)
    exact .live hv (List.forall_mem_singleton.2 (ih hbelow))

/-- A branch of a join is marked where it should be, whether it is narrowed or stays. -/
theorem Narrowed.marked {condition columns : ColumnSet} (h : Narrowed condition columns b b')
    (hb : b.Marked) : b'.Marked := by
  rcases h with ⟨rfl, -⟩ | h
  · exact hb
  · exact h.marked hb

/-- A projection without a mark is pushed below a join into a branch that is marked where it should
be. -/
theorem Pushes.marked (h : Pushes s s') (hv : s.label.vacuous = false) (hs : s.Marked) :
    s'.Marked := by
  cases h with
  | push hl hm hbs =>
    have hjoin := List.forall_mem_singleton.1 (hs.branch hv)
    obtain ⟨hm', hbelow⟩ := hjoin.branch_of_join hm
    refine .live hv (List.forall_mem_singleton.2 (.live hm' fun b' hb' => ?_))
    obtain ⟨b, hb, hnarrowed⟩ := exists_mem_of_forall₂ hbs b' hb'
    exact hnarrowed.marked (hbelow b hb)

end BelowJoin

/-- The rule for filters is not tried above a filter with a mark. -/
theorem BelowFilter.Pushes.marked (h : BelowFilter.Pushes s s') (hv : s.label.vacuous = false)
    (hanchor : s.isProjectionOver .filter = true) (hs : s.Marked) : s'.Marked := by
  cases h with
  | @push id filter l m columns f b b' hl hm hb =>
    have hm' : m.vacuous = false := by
      simp only [Branch.isProjectionOver, Branch.label_node, Bool.and_eq_true,
        Bool.not_eq_true'] at hanchor
      exact hanchor.2.2
    have hfilter := List.forall_mem_singleton.1 (hs.branch hv)
    have hbelow := hb.marked (List.forall_mem_singleton.1 (hfilter.branch hm'))
    exact .live hv
      (List.forall_mem_singleton.2 (.live hm' (List.forall_mem_singleton.2 hbelow)))

end ProjectionPushdown

/-- A rule keeps a branch marked where it should be, if the uppermost node has no mark and, for a rule
that leaves that node in its slot, the rule is tried there. -/
theorem Rule.Rewrites.marked {r : Rule} {c c' : Context} {s s' : Branch}
    (h : r.Rewrites c s c' s') (hanchor : r.replacesAnchor = false → r.anchorsAt s = true)
    (hv : s.label.vacuous = false) (hs : s.Marked) : s'.Marked := by
  cases h with
  | belowJoin h => exact h.marked hv hs
  | belowFilter h => exact h.marked hv (hanchor rfl) hs
  | push h => exact h.marked hv hs
  | eliminate h => exact h.marked hv hs
  | simplify h => exact h.marked hs

/-! ## Without simplification -/

/-- Only simplification marks anything. -/
theorem Rule.Rewrites.unmarked {r : Rule} {c c' : Context} {s s' : Branch}
    (h : r.Rewrites c s c' s') (hr : r ≠ .predicateSimplification)
    (hplug : (c.plug s).All (·.vacuous = false)) : (c'.plug s').All (·.vacuous = false) := by
  have hnew : Label.AdmitsProjections (·.vacuous = false) :=
    ⟨fun _ hv => hv, fun _ _ => rfl⟩
  have hs := hplug.of_plug
  refine hplug.plug_alike h.alike (fun halike hv => halike.vacuous_eq.trans hv) ?_
  cases h with
  | belowJoin h => exact h.all hnew hs
  | belowFilter h => exact h.all hnew hs
  | push h => exact h.all (fun _ hv _ => hv) hs
  | simplify => exact absurd rfl hr
  | eliminate h =>
    obtain ⟨f, d, rfl⟩ := h.exists_plug
    exact hs.of_plug (c := f :: d)

/-- Without the rule that simplifies filters, no sequence of rules marks a node. -/
theorem Branch.Steps.unmarked {rules : Rule → Prop} {b b' : Branch} (h : Steps rules b b')
    (hrules : ¬ rules .predicateSimplification) (hb : b.All (·.vacuous = false)) :
    b'.All (·.vacuous = false) := by
  refine h.preserves (motive := fun b => b.All (·.vacuous = false)) (fun hstep hall => ?_) hb
  cases hstep with
  | rewrite hr hrewrites =>
    refine hrewrites.unmarked ?_ hall
    rintro rfl
    exact hrules hr

/-! ## Runs -/

namespace Optimizer

variable {o : Optimizer} {c : Context} {t t' t₁ t₂ : Branch} {ops : List Operator}

/-- While a slot is made stable, its branch stays marked where it should be. -/
theorem Settles.marked (ho : o.Sorted) (h : o.Settles ops t t') (ht : t.Marked) : t'.Marked := by
  induction h with
  | rest => exact ht
  | @fire r _ _ _ _ _ _ hr hv hrewrites _ ih =>
    refine ih (hrewrites.marked (fun hfalse => ?_) hv ht)
    exact absurd ((ho.replacing r hr).symm.trans hfalse) (by decide)

/-- All that is done to a branch before the walk goes down keeps it marked where it should be. -/
theorem Opens.marked (ho : o.Sorted) (h : o.Opens c t t₁ t₂) (ht : t.Marked) : t₂.Marked := by
  obtain ⟨id, l, bs⟩ := t
  obtain ⟨id₁, l₁, bs₁⟩ := t₁
  have hv₁ : l₁.vacuous = false := h.label.vacuous_eq.trans h.vacuous
  have ht₁ : (Branch.node id₁ l₁ bs₁).Marked := by
    refine .live hv₁ fun b' hb' => ?_
    obtain ⟨b, hb, hsettles⟩ := exists_mem_of_forall₂ h.settles b' hb'
    exact hsettles.marked ho (ht.branch h.vacuous b hb)
  cases h.narrows with
  | stay => exact ht₁
  | fire _ hrewrites hanchor => exact hrewrites.marked (fun _ => hanchor) hv₁ ht₁

/-- The walk goes down from nodes without a mark. -/
theorem Opens.vacuous_eq (ho : o.Sorted) (h : o.Opens c t t₁ t₂) : t₂.label.vacuous = false :=
  (h.alike ho).vacuous_eq.trans h.vacuous

/-- The walk down keeps branches marked where they should be. -/
theorem visits_marked (ho : o.Sorted) (b : Branch) :
    o.Visits b (fun _ t => t.Marked) fun _ _ t' => t'.Marked where
  skip ht _ := ht
  enter {c t t₁ t₂} _ ht hopens := by
    have ht₂ := hopens.marked ho ht
    have hv := hopens.vacuous_eq ho
    obtain ⟨id, l, bs⟩ := t₂
    exact ht₂.branch hv
  leave {c t t₁ t₂ l bs} _ _ hopens hl hbs := by
    refine .live (hl.vacuous_eq.trans (hopens.vacuous_eq ho)) fun b' hb' => ?_
    obtain ⟨_, -, hb⟩ := exists_mem_of_forall₂ hbs b' hb'
    exact hb

end Optimizer

namespace Plan

/-- No node of the plan is marked, whether or not it is reachable. -/
def Unmarked (p : Plan) : Prop :=
  ∀ id n, p.get? id = some n → n.vacuous = false

/-- Marks reach down to the leaves, and they start at filters that let no row pass. -/
structure MarksSound (p : Plan) : Prop where
  /-- The children of a marked node are marked. -/
  child : ∀ id n, p.get? id = some n → n.vacuous = true →
    ∀ x ∈ n.children, ∃ m, p.get? x = some m ∧ m.vacuous = true
  /-- A marked node that has no marked parent is a filter whose predicate is false or null. -/
  start : ∀ id n, p.get? id = some n → n.vacuous = true →
    (∀ parent m, n.parent = some parent → p.get? parent = some m → m.vacuous = false) →
      ∃ f, n.op = .filter f ∧
        (f.predicate = .literal (.bool false) ∨ f.predicate = .literal .null)

variable {p : Plan} {b : Branch} {rest : NodeId → Option Node}

/-- The tree of a plan without marks has none. -/
theorem Shows.all_of_unmarked (h : p.Shows b rest) (hp : p.Unmarked) :
    b.All (·.vacuous = false) :=
  h.all_iff.2 fun id n _ hget => hp id n hget

/-- A tree without marks in a store that has none beside it. -/
theorem Shows.unmarked (h : p.Shows b rest) (hb : b.All (·.vacuous = false))
    (hrest : ∀ id n, rest id = some n → n.vacuous = false) : p.Unmarked := by
  intro id n hget
  rcases h.get?_eq_or id with ⟨c, s, rfl, rfl, hs⟩ | ⟨-, hoff⟩
  · obtain rfl := Option.some.inj (hs.symm.trans hget)
    exact hb.of_plug.label
  · exact hrest id n (hoff.symm.trans hget)

/-- The marks of a tree that is marked where it should be, in a store that has none beside it. -/
theorem Shows.marksSound (h : p.Shows b rest) (hb : b.Marked)
    (hrest : ∀ id n, rest id = some n → n.vacuous = false) : p.MarksSound := by
  have hplug : ∀ id n, p.get? id = some n → n.vacuous = true → ∃ c s, b = Context.plug c s ∧
      s.top = id ∧ n = s.label.node c.parent? (s.branches.map Branch.top) := by
    intro id n hget hv
    rcases h.get?_eq_or id with ⟨c, s, hb, htop, hs⟩ | ⟨-, hoff⟩
    · exact ⟨c, s, hb, htop, Option.some.inj (hget.symm.trans hs)⟩
    · exact absurd ((hrest id n (hoff.symm.trans hget)).symm.trans hv) Bool.false_ne_true
  constructor
  · rintro id n hget hv x hx
    obtain ⟨c, s, rfl, rfl, rfl⟩ := hplug id n hget hv
    obtain ⟨t, ht, rfl⟩ := List.mem_map.1 hx
    have hall : s.All (·.vacuous = true) := by
      rcases hb.of_plug with hs | ⟨hall, -⟩
      · exact hs.all_vacuous hv
      · exact hall
    obtain ⟨id, l, bs⟩ := s
    exact ⟨_, (h.has_plug.branch ht).get?_top, (hall.branch t ht).label⟩
  · rintro id n hget hv hparent
    obtain ⟨c, s, rfl, rfl, rfl⟩ := hplug id n hget hv
    rcases hb.of_plug with hs | ⟨-, f, d, rfl, hf⟩
    · exact hs.refuted hv
    · have hget' := Has.get?_top (b := f.fill s) (h.has_plug (c := d))
      exact absurd ((hparent f.id _ rfl hget').symm.trans hf) Bool.false_ne_true

end Plan

namespace Optimizer

/-- After optimizing a valid plan without marks, the children of marked nodes are marked, marks start at
filters that let no row pass, and without simplification there are none. -/
theorem marks_sound {p : Plan} (hvalid : p.validate = .ok ()) (hunmarked : p.Unmarked)
    (rules : RuleSet) (validates traces : Bool) :
    ∃ out, (ofRules rules validates traces).optimize p = .ok out ∧ out.plan.MarksSound ∧
      (.predicateSimplification ∉ rules.rules → out.plan.Unmarked) := by
  obtain ⟨b, rest, hsound⟩ := Plan.validate_eq_ok_iff.1 hvalid
  have ho := sorted_ofRules rules validates traces
  have hall := hsound.shows.all_of_unmarked hunmarked
  obtain ⟨t, b', out, hout, hsound', hsteps, hmarked⟩ :=
    exists_optimize_of_calm ho (visits_marked ho b) hsound fun t ht _ => ht.marked ho hall.marked
  have hrest : ∀ id n, rest id = some n → n.vacuous = false :=
    fun id n hoff => hunmarked id n (hsound.shows.get?_of_rest hoff)
  refine ⟨out, hout, hsound'.shows.marksSound hmarked hrest, fun hrules => ?_⟩
  exact hsound'.shows.unmarked (hsteps.unmarked (mt runs_ofRules hrules) hall) hrest

end Optimizer

namespace Plan

/-- A join of two filtered scans.  The predicate of one filter has a constant part, that of the other
one is never true. -/
def constantFilters : Plan where
  nodes := #[
    some ⟨.scan "a", some 2, [], .singleton "a", false⟩,
    some ⟨.scan "b", some 3, [], .singleton "b", false⟩,
    some ⟨.filter (.ofPredicate (.binary (.binary (.column ⟨"a", 2⟩) .gt (.literal (.int 3))) .and
      (.literal (.bool true)))), some 4, [0], .singleton "a", false⟩,
    some ⟨.filter (.ofPredicate (.binary (.literal (.int 1)) .gt (.literal (.int 2)))), some 4, [1],
      .singleton "b", false⟩,
    some ⟨.join ⟨.ofList [⟨"a", 1⟩, ⟨"b", 1⟩], .empty⟩, none, [2, 3], .ofList ["a", "b"], false⟩]
  root := some 4

/-- The plan with constant filters has no marks. -/
theorem unmarked_constantFilters : constantFilters.Unmarked := by
  intro id n hget
  have hlt : id < 5 := lt_size_of_get? hget
  interval_cases id
  all_goals
    obtain rfl := Option.some.inj hget
    rfl

end Plan

namespace Optimizer

/-- The theorem applies to a plan in which simplification marks a filter and the scan below it. -/
theorem marks_sound_constantFilters :
    Plan.constantFilters.validate = .ok () ∧ Plan.constantFilters.Unmarked ∧
    ∀ (rules : RuleSet) (validates traces : Bool),
      ∃ out, (ofRules rules validates traces).optimize Plan.constantFilters = .ok out ∧
        out.plan.MarksSound ∧ (.predicateSimplification ∉ rules.rules → out.plan.Unmarked) := by
  have hvalid : Plan.constantFilters.validate = .ok () := by cbv
  exact ⟨hvalid, Plan.unmarked_constantFilters, marks_sound hvalid Plan.unmarked_constantFilters⟩

example :
    ((ofRules .all true false).optimize Plan.constantFilters).toOption.map
      (fun out => (out.plan.live.filter (·.2.vacuous)).map Prod.fst) = some [1, 3] := by
  cbv

end Optimizer

end QueryPlan
