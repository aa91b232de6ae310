import QueryPlan.Proofs.Valid.Runs

/-!
# What rules report

A rule reports whether it has changed the plan, and which node stands where its anchor stood.  Runs
rely on both: on the one they end a loop, on the other they go on.  Every rewriting of a branch leaves
a different tree, since it drops a node, adds one, or changes what one says, and it leaves the slot of
the branch in its place.

Main results:

- Definition `Context.slot`: the slot in which a branch stands.
- Theorem `Plan.Shows.eq_of_shows`: a plan shows one tree only.
- Theorem `Rule.apply_changes`: a rule that does not leave the plan alone leaves another tree.
- Theorem `Rule.reports_truthful`: what rules report of plans that pass validation.
-/

namespace QueryPlan

namespace Branch

/-- Different branches with the same uppermost nodes cannot stand side by side in a plan. -/
theorem eq_of_map_top_eq {bs bs' : List Branch} (htops : bs.map top = bs'.map top)
    (h : ∀ b ∈ bs, ∀ b' ∈ bs', b.top = b'.top → b = b') : bs = bs' := by
  induction bs generalizing bs' with
  | nil => simpa using htops.symm
  | cons b bs ih =>
    cases bs' with
    | nil => simp at htops
    | cons b' bs' =>
      simp only [List.map_cons, List.cons.injEq] at htops
      have hb := h b List.mem_cons_self b' List.mem_cons_self htops.1
      have hbs := ih htops.2 fun x hx x' hx' =>
        h x (List.mem_cons_of_mem b hx) x' (List.mem_cons_of_mem b' hx')
      rw [hb, hbs]

end Branch

namespace Context

variable {c c' : Context} {s s' : Branch}

/-- A context may be taken away again. -/
theorem plug_injective (h : c.plug s = c.plug s') : s = s' := by
  induction c generalizing s s' with
  | nil => exact h
  | cons f c ih => simpa [Frame.fill] using ih (s := f.fill s) h

/-- The slot of a branch in a context. -/
def slot : Context → Slot
  | [] => .root
  | f :: _ => .child f.id f.left.length

/-- Contexts that differ in scopes only have the same slot. -/
theorem Alike.slot_eq (h : c.Alike c') : c'.slot = c.slot := by
  cases h with
  | nil => rfl
  | cons hf _ => simp only [slot, hf.id_eq, hf.left_eq]

/-- Contexts that differ in scopes only have the same positions. -/
theorem Alike.ids_eq (h : c.Alike c') : c'.ids = c.ids := by
  induction h with
  | nil => rfl
  | cons hf _ ih => simp only [ids_cons, Frame.siblings, hf.id_eq, hf.left_eq, hf.right_eq, ih]

/-- A smaller branch makes a smaller tree. -/
theorem Alike.plug_ne (h : c.Alike c') (hs : s'.ids.length < s.ids.length) :
    c'.plug s' ≠ c.plug s := by
  intro heq
  have hlen := (c.ids_plug s).length_eq
  have hlen' := (c'.ids_plug s').length_eq
  rw [heq, h.ids_eq, hlen] at hlen'
  simp only [List.length_append] at hlen'
  omega

end Context

namespace Plan

variable {p : Plan} {c : Context} {s : Branch} {rest rest' : NodeId → Option Node}

/-- A store holds one branch at a position only. -/
theorem Has.eq_of_top_eq {parent parent' : Option NodeId} {b b' : Branch} (h : p.Has parent b)
    (h' : p.Has parent' b') (htop : b.top = b'.top) : b = b' := by
  induction b generalizing parent parent' b' with
  | node id l bs ih =>
    obtain ⟨id', l', bs'⟩ := b'
    obtain rfl : id = id' := htop
    have hnode := h.get?_top.symm.trans h'.get?_top
    simp only [Branch.label_node, Branch.branches_node, Option.some.injEq, Label.node,
      Node.mk.injEq] at hnode
    obtain ⟨hop, -, htops, hscope, hvacuous⟩ := hnode
    obtain rfl : l = l' := by
      cases l
      cases l'
      simp_all
    have hbs := Branch.eq_of_map_top_eq htops fun b hb b' hb' =>
      ih b hb (h.branch hb) (h'.branch hb')
    rw [hbs]

/-- A plan shows one tree only. -/
theorem Shows.eq_of_shows {b b' : Branch} (h : p.Shows b rest) (h' : p.Shows b' rest') : b = b' :=
  h.has.eq_of_top_eq h'.has (Option.some.inj (h.root_eq.symm.trans h'.root_eq))

/-- The slot of a branch, as the plan tells it. -/
theorem Shows.slot?_eq (h : p.Shows (c.plug s) rest) : p.slot? s.top = .ok (some c.slot) := by
  cases c with
  | nil =>
    rw [slot?, h.has_plug.node_top]
    simp [h.root_eq, Context.slot]
  | cons f c => exact h.splits_append_nil.slot?_eq

/-- The occupant of the slot of a branch. -/
theorem Shows.occupant?_eq (h : p.Shows (c.plug s) rest) : p.occupant? c.slot = some s.top := by
  cases c with
  | nil => exact h.root_eq
  | cons f c =>
    have hf := (Shows.has_plug (b := f.fill s) h).get?_top
    rw [Frame.top_fill] at hf
    simp [Context.slot, occupant?, hf, Frame.fill]

end Plan

/-! ## Rules that fire make a difference -/

namespace ProjectionPushdown

variable {needed : ColumnSet} {b b' s s' : Branch}

/-- A branch that is narrowed is not the same afterwards. -/
theorem Narrows.ne (h : Narrows needed b b') : b' ≠ b := by
  cases h with
  | @inPlace id l present bs hl hsome hless =>
    intro heq
    have hop := congrArg (fun b => b.label.op) heq
    simp only [Branch.label_node, hl, Operator.projection.injEq] at hop
    exact hless (congrArg ColumnSet.size hop)
  | insert fresh =>
    intro heq
    have hlt := Branch.height_lt_of_mem fresh ⟨.projection needed, b.tables, false⟩
      (List.mem_singleton.2 rfl : b ∈ [b])
    rw [heq] at hlt
    omega

namespace BelowJoin

/-- A branch that is narrowed below filters is not the same afterwards. -/
theorem NarrowsBelow.ne (h : NarrowsBelow needed b b') : b' ≠ b := by
  induction h with
  | here h => exact h.ne
  | pass _ _ _ _ _ ih => simpa using ih

/-- Unless all branches of the join are narrow, narrowing them makes a difference. -/
theorem Pushes.ne (h : Pushes s s') (hidle : isIdle s = false) : s' ≠ s := by
  cases h with
  | @push id join l m columns j bs bs' hl hm hbs =>
    intro heq
    obtain rfl : bs' = bs := by simpa using heq
    -- A branch that was narrowed differs, so all of them were narrow before.
    have hall : isIdle (.node id l [.node join m bs']) = true := by
      simp only [isIdle, hl, hm, List.all_eq_true]
      intro b hb
      rcases List.forall₂_same.1 hbs b hb with ⟨-, hnarrow⟩ | hbelow
      · exact hnarrow
      · exact absurd rfl hbelow.ne
    simp [hall] at hidle

end BelowJoin

/-- A projection that was pushed below a filter leaves another branch behind. -/
theorem BelowFilter.Pushes.ne (h : BelowFilter.Pushes s s') : s' ≠ s := by
  cases h with
  | push hl hm hb => simpa using hb.ne

end ProjectionPushdown

/-- A filter that was pushed below a join leaves another branch behind. -/
theorem PredicatePushdown.Pushes.ne {s s' : Branch} (h : Pushes s s') : s' ≠ s := by
  cases h with
  | push hl hm =>
    intro heq
    have hop := congrArg (fun b => b.label.op) heq
    simp [hl, hm] at hop

/-- A filter that was simplified leaves another branch behind. -/
theorem PredicateSimplification.Simplifies.ne {s s' : Branch} (h : Simplifies s s') : s' ≠ s := by
  cases h with
  | @remove id l f s hl =>
    intro heq
    have hlt := Branch.height_lt_of_mem id l (List.mem_singleton_self s')
    rw [← heq] at hlt
    omega
  | @refute id l f bs hl hv =>
    intro heq
    have hmark := congrArg (fun b => b.label.vacuous) heq
    simp [hv] at hmark
  | @fold id l f bs hl hv hverdict hfold =>
    intro heq
    have hop := congrArg (fun b => b.label.op) heq
    simp only [Branch.label_node, hl, Operator.filter.injEq] at hop
    have hpredicate := congrArg Filter.predicate hop
    rw [withPredicate_predicate] at hpredicate
    -- Folding that reports a change makes the predicate smaller.
    have hle := f.predicate.size_fold_add_le
    rw [hpredicate, hfold, Bool.toNat_true] at hle
    omega

namespace Rule

variable {p : Plan} {c : Context} {s : Branch} {rest : NodeId → Option Node}

/-- A rule leaves the plan alone, or it rewrites the branch it is applied at and leaves another tree. -/
theorem apply_changes (r : Rule) (h : p.Shows (c.plug s) rest) :
    ∃ res, r.apply p s.top = .ok res ∧ (res = .unchanged p s.top ∨
      ∃ c' s', r.Rewrites c s c' s' ∧ res.Installs p c' s' rest ∧ c'.plug s' ≠ c.plug s) := by
  cases r with
  | projectionBelowJoin =>
    obtain ⟨res, hres, ⟨-, hsame⟩ | ⟨hidle, s', hs, hinst⟩⟩ :=
      ProjectionPushdown.BelowJoin.apply_shows h
    · exact ⟨res, hres, .inl hsame⟩
    · exact ⟨res, hres, .inr ⟨c, s', .belowJoin hs, hinst, fun heq =>
        hs.ne hidle (Context.plug_injective heq)⟩⟩
  | projectionBelowFilter =>
    obtain ⟨res, hres, ⟨-, hsame⟩ | ⟨-, s', hs, hinst⟩⟩ :=
      ProjectionPushdown.BelowFilter.apply_shows h
    · exact ⟨res, hres, .inl hsame⟩
    · exact ⟨res, hres, .inr ⟨c, s', .belowFilter hs, hinst, fun heq =>
        hs.ne (Context.plug_injective heq)⟩⟩
  | predicatePushdown =>
    obtain ⟨res, hres, hsame | ⟨s', hs, hinst⟩⟩ := PredicatePushdown.apply_shows h
    · exact ⟨res, hres, .inl hsame⟩
    · exact ⟨res, hres, .inr ⟨c, s', .push hs, hinst, fun heq =>
        hs.ne (Context.plug_injective heq)⟩⟩
  | joinElimination =>
    obtain ⟨res, hres, hsame | ⟨kept, hs, hinst⟩⟩ := JoinElimination.apply_shows h
    · exact ⟨res, hres, .inl hsame⟩
    · exact ⟨res, hres, .inr ⟨c.refresh kept, kept, .eliminate hs, hinst,
        (c.alike_refresh kept).plug_ne hs.measures.1⟩⟩
  | predicateSimplification =>
    obtain ⟨res, hres, hsame | ⟨s', hs, hinst⟩⟩ := PredicateSimplification.apply_shows h
    · exact ⟨res, hres, .inl hsame⟩
    · exact ⟨res, hres, .inr ⟨c, s', .simplify hs, hinst, fun heq =>
        hs.ne (Context.plug_injective heq)⟩⟩

/-- What a rule reports of a plan that passes validation is true.  If it reports no change, the plan is
exactly as before and the node reported is the anchor; if it reports a change, the plan is another one.
Either way the node reported is there, and it occupies the slot that the anchor occupied before. -/
theorem reports_truthful (hvalid : p.validate = .ok ()) (r : Rule) {id : NodeId}
    (hid : p.Reachable id) :
    ∃ res slot, r.apply p id = .ok res ∧
      (res.changed = false → res.plan = p ∧ res.node = id) ∧
      (res.changed = true → res.plan ≠ p) ∧
      p.slot? id = .ok (some slot) ∧ res.plan.contains res.node = true ∧
        res.plan.slot? res.node = .ok (some slot) ∧ res.plan.occupant? slot = some res.node := by
  obtain ⟨b, rest, hsound⟩ := Plan.validate_eq_ok_iff.1 hvalid
  have hshows := hsound.shows
  obtain ⟨c, s, rfl, rfl⟩ := Branch.exists_plug_of_mem_ids (hshows.reachable_iff.1 hid)
  have hslot := hshows.slot?_eq
  obtain ⟨res, hres, rfl | ⟨c', s', hrewrites, hinst, hne⟩⟩ := r.apply_changes hshows
  · have hlive : p.contains s.top = true := by
      rw [Plan.contains, hshows.has_plug.get?_top]
      rfl
    exact ⟨_, c.slot, hres, fun _ => ⟨rfl, rfl⟩, fun hchanged => absurd hchanged Bool.false_ne_true,
      hslot, hlive, hslot, hshows.occupant?_eq⟩
  · have hlive : res.plan.contains s'.top = true := by
      rw [Plan.contains, hinst.shows.has_plug.get?_top]
      rfl
    refine ⟨res, c.slot, hres, fun hchanged => ?_, fun _ heq => ?_, hslot, ?_⟩
    · rw [hinst.changed_eq] at hchanged
      exact absurd hchanged.symm Bool.false_ne_true
    · have hshows' := hinst.shows
      rw [heq] at hshows'
      exact hne (hshows'.eq_of_shows hshows)
    · rw [hinst.node_eq, ← hrewrites.alike.slot_eq]
      exact ⟨hlive, hinst.shows.slot?_eq, hinst.shows.occupant?_eq⟩

/-- The theorem applies where a filter gives way to the join below it. -/
theorem reports_truthful_filteredJoin :
    Plan.filteredJoin.validate = .ok () ∧ Plan.filteredJoin.Reachable 3 ∧
    ∃ res slot, Rule.predicatePushdown.apply Plan.filteredJoin 3 = .ok res ∧
      (res.changed = false → res.plan = Plan.filteredJoin ∧ res.node = 3) ∧
      (res.changed = true → res.plan ≠ Plan.filteredJoin) ∧
      Plan.filteredJoin.slot? 3 = .ok (some slot) ∧ res.plan.contains res.node = true ∧
        res.plan.slot? res.node = .ok (some slot) ∧ res.plan.occupant? slot = some res.node := by
  have hvalid : Plan.filteredJoin.validate = .ok () := by cbv
  have hid : Plan.filteredJoin.Reachable 3 := .child (.root rfl) rfl (List.mem_singleton.2 rfl)
  exact ⟨hvalid, hid, reports_truthful hvalid .predicatePushdown hid⟩

end Rule

end QueryPlan
