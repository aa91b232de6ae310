import QueryPlan.Proofs.Rows.Folding
import QueryPlan.Proofs.Valid.Rules

/-!
# What callers promise

The rules keep the rows of a plan if its filters list the columns they read, the operands of
connectives are conditions, and no alias is scanned twice.  The rules that eliminate no join keep
these promises.

Main results:

- Definitions `Filter.InContract` and `Branch.InContract`: the promises about filters.
- Theorem `Rule.Rewrites.inContract`: the promises outlive the rules.
-/

namespace QueryPlan

/-- The predicate of the filter reads only columns of the filter, and the operands of its connectives
are conditions. -/
structure Filter.InContract (f : Filter) : Prop where
  reads : ∀ c ∈ f.predicate.columnList, c ∈ f.columns
  wellSorted : f.predicate.WellSorted

namespace Branch

/-- The operators of all nodes, in preorder. -/
def ops : Branch → List Operator
  | .node _ l branches => l.op :: branches.flatMap ops

/-- The operators of a branch are that of its top and those of its branches. -/
@[simp]
theorem ops_node (id : NodeId) (l : Label) (bs : List Branch) :
    (node id l bs).ops = l.op :: bs.flatMap ops := by
  rw [ops]

/-- Marking a branch changes none of its operators. -/
@[simp]
theorem ops_mark (b : Branch) : b.mark.ops = b.ops := by
  induction b with
  | node id l bs ih =>
    rw [mark_node, ops_node, ops_node, List.flatMap_map, List.flatMap_congr ih]

/-- All filters of the branch keep the promises. -/
def InContract (b : Branch) : Prop :=
  ∀ f, Operator.filter f ∈ b.ops → f.InContract

/-- The operators of a branch of a node are among those of the node. -/
theorem ops_subset_of_mem {id : NodeId} {l : Label} {bs : List Branch} {b : Branch} (hb : b ∈ bs) :
    b.ops ⊆ (node id l bs).ops := by
  intro op hop
  rw [ops_node]
  exact List.mem_cons_of_mem _ (List.mem_flatMap.2 ⟨b, hb, hop⟩)

/-- What is below a node in contract is in contract. -/
theorem InContract.branch {id : NodeId} {l : Label} {bs : List Branch}
    (h : (node id l bs).InContract) {b : Branch} (hb : b ∈ bs) : b.InContract :=
  fun f hf => h f (ops_subset_of_mem hb hf)

/-- A filter on top of a branch in contract is in contract. -/
theorem InContract.top {id : NodeId} {l : Label} {bs : List Branch} {f : Filter}
    (h : (node id l bs).InContract) (hl : l.op = .filter f) : f.InContract :=
  h f (by rw [ops_node, hl]; exact List.mem_cons_self)

/-- The operators of the entries of a branch. -/
theorem mem_ops_iff {b : Branch} (parent : Option NodeId) {op : Operator} :
    op ∈ b.ops ↔ ∃ e ∈ b.entries parent, e.2.op = op := by
  induction b generalizing parent with
  | node id l bs ih =>
    simp only [ops_node, entries_node, List.mem_cons, List.mem_flatMap]
    constructor
    · rintro (rfl | ⟨b, hb, hop⟩)
      · exact ⟨_, .inl rfl, rfl⟩
      · obtain ⟨e, he, rfl⟩ := (ih b hb (some id)).1 hop
        exact ⟨e, .inr ⟨b, hb, he⟩, rfl⟩
    · rintro ⟨e, rfl | ⟨b, hb, he⟩, rfl⟩
      · exact .inl rfl
      · exact .inr ⟨b, hb, (ih b hb (some id)).2 ⟨e, he, rfl⟩⟩

end Branch

namespace Context

variable {c : Context} {s s' : Branch}

/-- The operators of a branch are among those of the tree around it. -/
theorem ops_subset_plug : s.ops ⊆ (c.plug s).ops := by
  induction c generalizing s with
  | nil => exact fun _ h => h
  | cons f c ih =>
    have hs : s.ops ⊆ (f.fill s).ops :=
      Branch.ops_subset_of_mem (List.mem_append_right _ List.mem_cons_self)
    exact fun _ h => ih (hs h)

/-- The operators around a branch do not depend on the branch. -/
theorem mem_ops_plug {op : Operator} (h : op ∈ (c.plug s').ops) (s : Branch) :
    op ∈ s'.ops ∨ op ∈ (c.plug s).ops := by
  induction c generalizing s s' with
  | nil => exact .inl h
  | cons f c ih =>
    have hfill' : op ∈ (plug c (f.fill s')).ops := h
    rcases ih hfill' (f.fill s) with h | h
    · rw [Frame.fill, Branch.ops_node, List.flatMap_append, List.flatMap_cons] at h
      simp only [List.mem_cons, List.mem_append] at h
      have hfill : ∀ {op}, op = f.label.op ∨ op ∈ f.left.flatMap Branch.ops ∨
          op ∈ f.right.flatMap Branch.ops → op ∈ (f.fill s).ops := by
        intro op hop
        rw [Frame.fill, Branch.ops_node, List.flatMap_append, List.flatMap_cons]
        simp only [List.mem_cons, List.mem_append]
        tauto
      rcases h with h | h | h | h
      · exact .inr (ops_subset_plug (c := c) (hfill (.inl h)))
      · exact .inr (ops_subset_plug (c := c) (hfill (.inr (.inl h))))
      · exact .inl h
      · exact .inr (ops_subset_plug (c := c) (hfill (.inr (.inr h))))
    · exact .inr h

/-- What stands in a context in contract is in contract. -/
theorem inContract_of_plug (h : (c.plug s).InContract) : s.InContract :=
  fun f hf => h f (ops_subset_plug hf)

/-- A branch in contract may take the place of another one. -/
theorem inContract_plug (h : (c.plug s).InContract) (hs' : s'.InContract) :
    (c.plug s').InContract :=
  fun f hf => (mem_ops_plug hf s).elim (hs' f) (h f)

end Context

namespace PredicateSimplification

/-- A predicate with a verdict has no columns and is well sorted, and the verdict tells whether it
is the literal for truth. -/
theorem eq_literal_of_verdict {e : Expr} {b : Bool} (h : verdict? e = some b) :
    e.columnList = [] ∧ e.WellSorted ∧ (b = true → e = .literal (.bool true)) ∧
      (b = false → e ≠ .literal (.bool true)) := by
  unfold verdict? at h
  split at h
  · obtain rfl := Option.some.inj h
    refine ⟨rfl, trivial, fun hb => by rw [hb], fun hb => by simp [hb]⟩
  · obtain rfl := Option.some.inj h
    exact ⟨rfl, trivial, fun hb => absurd hb Bool.false_ne_true, fun _ => by simp⟩
  · exact absurd h.symm (Option.some_ne_none b)

/-- A filter in contract is in contract after its predicate is folded. -/
theorem withPredicate_inContract {f : Filter} (h : f.InContract) :
    (withPredicate f f.predicate.fold.1).InContract := by
  refine ⟨fun c hc => ?_, ?_⟩
  · rw [withPredicate_predicate] at hc
    refine mem_withPredicate_columns.2 ⟨h.reads c (f.predicate.columnList_fold_subset hc), ?_⟩
    intro hdropped
    exact (ColumnSet.mem_diff.1 hdropped).2 (ColumnSet.mem_ofList.2 hc)
  · rw [withPredicate_predicate]
    exact h.wellSorted.fold.1

/-- A filter in contract is simplified to a branch in contract. -/
theorem Simplifies.inContract {s s' : Branch} (h : Simplifies s s') (hs : s.InContract) :
    s'.InContract := by
  cases h with
  | remove => exact hs.branch (List.mem_singleton.2 rfl)
  | @refute id l f bs hl hv hverdict =>
    intro g hg
    rw [Branch.ops_mark, Branch.ops_node] at hg
    rcases List.mem_cons.1 hg with hg | hg
    · obtain rfl := Operator.filter.inj hg
      obtain ⟨hcolumns, hsorted, -⟩ := eq_literal_of_verdict hverdict
      refine ⟨fun c hc => ?_, hsorted⟩
      rw [hcolumns] at hc
      exact absurd hc List.not_mem_nil
    · exact hs g (by rw [Branch.ops_node]; exact List.mem_cons_of_mem _ hg)
  | @fold id l f bs hl =>
    intro g hg
    rw [Branch.ops_node] at hg
    rcases List.mem_cons.1 hg with hg | hg
    · obtain rfl := Operator.filter.inj hg
      exact withPredicate_inContract (hs.top hl)
    · exact hs g (by rw [Branch.ops_node]; exact List.mem_cons_of_mem _ hg)

end PredicateSimplification

/-- Pushing a filter below a join brings no operators in. -/
theorem PredicatePushdown.Pushes.ops_subset {s s' : Branch} (h : Pushes s s') : s'.ops ⊆ s.ops := by
  cases h with
  | push =>
    intro op hop
    simp only [Branch.ops_node, List.flatMap_append, List.flatMap_cons, List.flatMap_nil,
      List.mem_cons, List.mem_append, List.append_nil] at hop ⊢
    tauto

namespace ProjectionPushdown

/-- Narrowing a branch brings no filters in. -/
theorem Narrows.mem_ops {needed : ColumnSet} {b b' : Branch} (h : Narrows needed b b') {f : Filter}
    (hf : Operator.filter f ∈ b'.ops) : Operator.filter f ∈ b.ops := by
  cases h with
  | inPlace hl =>
    rw [Branch.ops_node] at hf ⊢
    exact List.mem_cons_of_mem _ ((List.mem_cons.1 hf).resolve_left (by simp))
  | insert =>
    rw [Branch.ops_node, List.flatMap_singleton] at hf
    exact (List.mem_cons.1 hf).resolve_left (by simp)

namespace BelowJoin

/-- Narrowing a branch below filters brings no filters in. -/
theorem NarrowsBelow.mem_ops {needed : ColumnSet} {b b' : Branch} (h : NarrowsBelow needed b b')
    {f : Filter} (hf : Operator.filter f ∈ b'.ops) : Operator.filter f ∈ b.ops := by
  induction h with
  | here h => exact h.mem_ops hf
  | pass _ _ _ _ _ ih =>
    rw [Branch.ops_node, List.flatMap_singleton] at hf ⊢
    exact List.mem_cons.2 ((List.mem_cons.1 hf).imp_right ih)

/-- A branch of a join in contract is in contract, whether it is narrowed or stays. -/
theorem Narrowed.inContract {condition columns : ColumnSet} {b b' : Branch}
    (h : Narrowed condition columns b b') (hb : b.InContract) : b'.InContract := by
  rcases h with ⟨rfl, -⟩ | h
  · exact hb
  · exact fun f hf => hb f (h.mem_ops hf)

/-- A projection is pushed below a join into a branch in contract. -/
theorem Pushes.inContract {s s' : Branch} (h : Pushes s s') (hs : s.InContract) :
    s'.InContract := by
  cases h with
  | @push id join l m columns j bs bs' hl hm hbs =>
    have hjoin := hs.branch (List.mem_singleton.2 rfl)
    have hbelow : ∀ b' ∈ bs', b'.InContract := by
      intro b' hb'
      obtain ⟨b, hb, hnarrowed⟩ := exists_mem_of_forall₂ hbs b' hb'
      exact hnarrowed.inContract (hjoin.branch hb)
    intro f hf
    rw [Branch.ops_node, List.flatMap_singleton, Branch.ops_node, hl, hm] at hf
    have hf' := (List.mem_cons.1 hf).resolve_left (by simp)
    obtain ⟨b', hb', hf'⟩ := List.mem_flatMap.1 ((List.mem_cons.1 hf').resolve_left (by simp))
    exact hbelow b' hb' f hf'

end BelowJoin

/-- A projection is pushed below a filter into a branch in contract. -/
theorem BelowFilter.Pushes.inContract {s s' : Branch} (h : BelowFilter.Pushes s s')
    (hs : s.InContract) : s'.InContract := by
  cases h with
  | @push id filter l m columns f b b' hl hm hb =>
    have hfilter := hs.branch (List.mem_singleton.2 rfl)
    intro g hg
    rw [Branch.ops_node, List.flatMap_singleton, Branch.ops_node, List.flatMap_singleton, hl] at hg
    rcases List.mem_cons.1 ((List.mem_cons.1 hg).resolve_left (by simp)) with hg | hg
    · exact hfilter.top hg.symm
    · exact hfilter.branch (List.mem_singleton.2 rfl) g (hb.mem_ops hg)

end ProjectionPushdown

/-- The promises about filters outlive every rule that eliminates no join. -/
theorem Rule.Rewrites.inContract {r : Rule} {c c' : Context} {s s' : Branch}
    (h : r.Rewrites c s c' s') (hr : r ≠ .joinElimination) (hplug : (c.plug s).InContract) :
    (c'.plug s').InContract := by
  have hs := Context.inContract_of_plug hplug
  cases h with
  | belowJoin h => exact Context.inContract_plug hplug (h.inContract hs)
  | belowFilter h => exact Context.inContract_plug hplug (h.inContract hs)
  | push h => exact Context.inContract_plug hplug fun f hf => hs f (h.ops_subset hf)
  | eliminate => exact absurd rfl hr
  | simplify h => exact Context.inContract_plug hplug (h.inContract hs)

end QueryPlan
