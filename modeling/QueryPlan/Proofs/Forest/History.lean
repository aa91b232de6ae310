import Mathlib.Logic.Relation
import QueryPlan.Proofs.Forest.Edit
import QueryPlan.Proofs.Forest.Holes

/-!
# Histories of edits

A plan is made by a history of edits that starts from the empty plan.  `Edit` lists the operations a
caller has, and `Edit.Allowed` says where each of them may be made: nodes must be there, nodes that are
put below a new one must not be in use, and nothing is moved below itself.  Nothing more is asked of a
history, however long it is.

Main results:

- Theorem `Plan.WellLinked.exists_run`: an allowed edit of sound links has a result with sound links.
- Theorem `Plan.Edit.keepsHoles_run`: no edit fills a hole.
- Theorem `Plan.Evolves.wellLinked`: along a history, the links are sound after each edit.
- Theorem `Plan.Evolves.edits_safe`: along a history, the links stay sound, no edit fails and no
  position is used again.
-/

namespace QueryPlan.Plan

/-- One edit of a plan. -/
inductive Edit where
  | scan (table : String)
  | filter (child : NodeId) (f : Filter)
  | project (child : NodeId) (columns : ColumnSet)
  | join (children : List NodeId) (j : Join)
  | setRoot (id : NodeId)
  | detach (id : NodeId)
  | bypass (id : NodeId)
  | discardBranch (id : NodeId)
  | insertAbove (target : NodeId) (op : Operator)
  | markVacuous (id : NodeId)
  | refreshScopes (id : NodeId)
  | setScope (id : NodeId) (scope : AliasSet)
  | setOp (id : NodeId) (op : Operator)
  | replace (old new : NodeId)
  | placeAbove (id target : NodeId)

namespace Edit

/-- The plan after an edit. -/
def run : Edit → Plan → Except Fault Plan
  | .scan table, p => Prod.snd <$> p.scan table
  | .filter child f, p => Prod.snd <$> p.filter child f
  | .project child columns, p => Prod.snd <$> p.project child columns
  | .join children j, p => Prod.snd <$> p.join children j
  | .setRoot id, p => .ok (p.setRoot id)
  | .detach id, p => p.detach id
  | .bypass id, p => Prod.snd <$> p.bypass id
  | .discardBranch id, p => p.discardBranch id
  | .insertAbove target op, p => Prod.snd <$> p.insertAbove target op
  | .markVacuous id, p => p.markVacuous id
  | .refreshScopes id, p => p.refreshScopes id
  | .setScope id scope, p => p.setScope id scope
  | .setOp id op, p => .ok (p.setOp id op)
  | .replace old new, p => p.replace old new
  | .placeAbove id target, p => p.placeAbove id target

/-- Where an edit may be made. -/
def Allowed : Edit → Plan → Prop
  | .scan _, _ => True
  | .filter child _, p | .project child _, p => p.Free child
  | .join children _, p => children.Nodup ∧ ∀ x ∈ children, p.Free x
  | .setRoot id, p => ∃ n, p.get? id = some n ∧ n.parent = none
  | .detach id, p | .bypass id, p | .discardBranch id, p | .insertAbove id _, p | .markVacuous id, p
  | .refreshScopes id, p | .setScope id _, p | .setOp id _, p => (p.get? id).isSome = true
  | .replace old new, p =>
    old ≠ new ∧ (p.get? old).isSome = true ∧ (p.get? new).isSome = true ∧ ¬ p.Ancestor new old
  | .placeAbove id target, p =>
    id ≠ target ∧ (p.get? id).isSome = true ∧ (p.get? target).isSome = true ∧
      ¬ p.Ancestor id target

/-- The nodes that an edit puts below a new one. -/
def children : Edit → List NodeId
  | .filter child _ | .project child _ => [child]
  | .join children _ => children
  | _ => []

variable {e : Edit} {p q : Plan}

/-- No edit fills a hole. -/
theorem keepsHoles_run (h : e.run p = .ok q) : p.KeepsHoles q := by
  cases e with
  | scan table =>
    obtain ⟨⟨id, r⟩, hr, rfl⟩ := map_eq_ok.1 h
    exact keepsHoles_attach hr
  | filter child f =>
    obtain ⟨⟨id, r⟩, hr, rfl⟩ := map_eq_ok.1 h
    exact keepsHoles_attach hr
  | project child columns =>
    obtain ⟨⟨id, r⟩, hr, rfl⟩ := map_eq_ok.1 h
    exact keepsHoles_project hr
  | join children j =>
    obtain ⟨⟨id, r⟩, hr, rfl⟩ := map_eq_ok.1 h
    exact keepsHoles_join hr
  | setRoot id =>
    obtain rfl := Except.ok.inj h
    exact p.keepsHoles_withRoot (some id)
  | detach id => exact keepsHoles_detach h
  | bypass id =>
    obtain ⟨⟨child, r⟩, hr, rfl⟩ := map_eq_ok.1 h
    exact keepsHoles_bypass hr
  | discardBranch id => exact keepsHoles_discardBranch h
  | insertAbove target op =>
    obtain ⟨⟨id, r⟩, hr, rfl⟩ := map_eq_ok.1 h
    exact keepsHoles_insertAbove hr
  | markVacuous id => exact keepsHoles_markVacuous h
  | refreshScopes id => exact keepsHoles_refreshScopesWithin h
  | setScope id scope => exact keepsHoles_update h
  | setOp id op =>
    obtain rfl := Except.ok.inj h
    exact p.keepsHoles_modify id _
  | replace old new => exact keepsHoles_replace h
  | placeAbove id target => exact keepsHoles_placeAbove h

end Edit

/-! ## One edit -/

variable {p q : Plan} {e : Edit} {x : NodeId}

/-- A node other than the top of a branch stands in it only below the top. -/
theorem IsForest.not_mem_ids {c : Context} {s : Branch} {ts : List Branch}
    (h : p.IsForest (c.plug s :: ts)) (hne : x ≠ s.top) (hnot : ¬ p.Ancestor s.top x) :
    x ∉ s.ids :=
  fun hx => hnot (h.ancestor_of_mem_ids hx hne)

/-- An allowed edit of sound links has a result, and the links of the result are sound. -/
theorem WellLinked.exists_run (h : p.WellLinked) (he : e.Allowed p) :
    ∃ q, e.run p = .ok q ∧ q.WellLinked := by
  obtain ⟨ts, hts⟩ := wellLinked_iff.1 h
  cases e with
  | scan table =>
    obtain ⟨id, q, ts', hq, hforest⟩ := hts.scan table
    exact ⟨q, map_eq_ok.2 ⟨_, hq, rfl⟩, hforest.wellLinked⟩
  | filter child f =>
    obtain ⟨id, q, ts', hq, hforest⟩ := hts.filter he f
    exact ⟨q, map_eq_ok.2 ⟨_, hq, rfl⟩, hforest.wellLinked⟩
  | project child columns =>
    obtain ⟨id, q, ts', hq, hforest⟩ := hts.project he columns
    exact ⟨q, map_eq_ok.2 ⟨_, hq, rfl⟩, hforest.wellLinked⟩
  | join children j =>
    obtain ⟨id, q, ts', hq, hforest⟩ := hts.join he.1 he.2 j
    exact ⟨q, map_eq_ok.2 ⟨_, hq, rfl⟩, hforest.wellLinked⟩
  | setRoot id =>
    obtain ⟨n, hget, hparent⟩ := he
    obtain ⟨c, s, ts', rfl, -, hplug⟩ := hts.exists_plug (by rw [hget]; rfl)
    exact ⟨_, rfl, (hplug.setRoot hget hparent).wellLinked⟩
  | detach id =>
    obtain ⟨c, s, ts', rfl, -, hplug⟩ := hts.exists_plug he
    obtain ⟨q, ts'', hq, hforest, -⟩ := hplug.detach
    exact ⟨q, hq, hforest.wellLinked⟩
  | bypass id =>
    obtain ⟨c, s, ts', rfl, -, hplug⟩ := hts.exists_plug he
    obtain ⟨child, q, ts'', hq, hforest⟩ := hplug.bypass
    exact ⟨q, map_eq_ok.2 ⟨_, hq, rfl⟩, hforest.wellLinked⟩
  | discardBranch id =>
    obtain ⟨c, s, ts', rfl, -, hplug⟩ := hts.exists_plug he
    obtain ⟨q, ts'', hq, hforest⟩ := hplug.discardBranch
    exact ⟨q, hq, hforest.wellLinked⟩
  | insertAbove target op =>
    obtain ⟨c, s, ts', rfl, -, hplug⟩ := hts.exists_plug he
    obtain ⟨id, q, ts'', hq, hforest⟩ := hplug.insertAbove op
    exact ⟨q, map_eq_ok.2 ⟨_, hq, rfl⟩, hforest.wellLinked⟩
  | markVacuous id =>
    obtain ⟨c, s, ts', rfl, -, hplug⟩ := hts.exists_plug he
    obtain ⟨q, hq, hforest⟩ := hplug.markVacuous
    exact ⟨q, hq, hforest.wellLinked⟩
  | refreshScopes id =>
    obtain ⟨c, s, ts', rfl, -, hplug⟩ := hts.exists_plug he
    obtain ⟨q, hq, hforest⟩ := hplug.refreshScopes
    exact ⟨q, hq, hforest.wellLinked⟩
  | setScope id scope =>
    obtain ⟨c, s, ts', rfl, -, hplug⟩ := hts.exists_plug he
    obtain ⟨q, hq, hforest⟩ := hplug.setScope scope
    exact ⟨q, hq, hforest.wellLinked⟩
  | setOp id op =>
    obtain ⟨c, s, ts', rfl, -, hplug⟩ := hts.exists_plug he
    exact ⟨_, rfl, (hplug.setOp op).wellLinked⟩
  | replace old new =>
    obtain ⟨hne, hold, hnew, hnot⟩ := he
    obtain ⟨c, n, ts', rfl, -, hplug⟩ := hts.exists_plug hnew
    obtain ⟨q, d, o, ts'', -, hq, hforest, -⟩ := hplug.replace hold (hplug.not_mem_ids hne hnot)
    exact ⟨q, hq, hforest.wellLinked⟩
  | placeAbove id target =>
    obtain ⟨hne, hid, htarget, hnot⟩ := he
    obtain ⟨c, n, ts', rfl, -, hplug⟩ := hts.exists_plug hid
    obtain ⟨q, ts'', hq, hforest⟩ :=
      hplug.placeAbove htarget (hplug.not_mem_ids hne.symm hnot)
    exact ⟨q, hq, hforest.wellLinked⟩

/-- An allowed edit puts only nodes below a new one that record no parent. -/
theorem Edit.Allowed.unclaimed (he : e.Allowed p) : p.Unclaimed e.children := by
  apply unclaimed_of_free
  · cases e with
    | filter child | project child => exact List.nodup_singleton child
    | join children => exact he.1
    | _ => exact List.nodup_nil
  · cases e with
    | filter child | project child => exact fun x hx => List.mem_singleton.1 hx ▸ he
    | join children => exact he.2
    | _ => exact fun x hx => absurd hx List.not_mem_nil

/-! ## Histories -/

/-- A history of allowed edits leads from the plan `p` to the plan `q`. -/
abbrev Evolves : Plan → Plan → Prop :=
  Relation.ReflTransGen fun p q => ∃ e : Edit, e.Allowed p ∧ e.run p = .ok q

/-- The links of the empty plan are sound. -/
theorem wellLinked_empty : Plan.empty.WellLinked where
  root hr := absurd hr.symm (Option.some_ne_none _)
  child hx := absurd hx.symm (Option.some_ne_none _)
  listed := List.nodup_nil
  parent hx := absurd hx.symm (Option.some_ne_none _)
  acyclic _ hx := by
    obtain ⟨_, ⟨_, hget, _⟩, _⟩ := Relation.TransGen.head'_iff.1 hx
    exact absurd hget.symm (Option.some_ne_none _)

namespace Evolves

/-- Links that were sound before a history of allowed edits are sound after it. -/
theorem wellLinked (h : p.Evolves q) (hp : p.WellLinked) : q.WellLinked := by
  induction h with
  | refl => exact hp
  | tail _ hstep ih =>
    obtain ⟨e, he, hrun⟩ := hstep
    obtain ⟨q, hq, hlinked⟩ := ih.exists_run he
    obtain rfl := Except.ok.inj (hrun.symm.trans hq)
    exact hlinked

/-- A history of allowed edits fills no hole. -/
theorem keepsHoles (h : p.Evolves q) : p.KeepsHoles q := by
  induction h with
  | refl => exact .refl p
  | tail _ hstep ih =>
    obtain ⟨e, -, hrun⟩ := hstep
    exact ih.trans (Edit.keepsHoles_run hrun)

/-- After each edit of a history that starts from the empty plan, the links are sound; whatever edit is
allowed then finds the nodes it puts below a new one unclaimed and has a result, the links of which
are sound; and a position where a node was discarded has no node ever after. -/
theorem edits_safe (h : Plan.empty.Evolves p) :
    p.WellLinked ∧
    (∀ e : Edit, e.Allowed p →
      p.Unclaimed e.children ∧ ∃ q, e.run p = .ok q ∧ q.WellLinked) ∧
    ∀ (x : NodeId) (q r : Plan), (p.get? x).isSome = true → p.Evolves q → q.get? x = none →
      q.Evolves r → r.get? x = none := by
  have hp := h.wellLinked wellLinked_empty
  refine ⟨hp, fun e he => ⟨he.unclaimed, hp.exists_run he⟩, fun x q r hx hpq hnone hqr => ?_⟩
  obtain ⟨n, hget⟩ := Option.isSome_iff_exists.1 hx
  have hlt : x < q.nodes.size := Nat.lt_of_lt_of_le (lt_size_of_get? hget) hpq.keepsHoles.size_le
  exact hqr.keepsHoles.hole x hlt hnone

end Evolves

/-- A join of two tables that is the root. -/
def plainJoin : Plan where
  nodes := #[
    some ⟨.scan "a", some 2, [], .singleton "a", false⟩,
    some ⟨.scan "b", some 2, [], .singleton "b", false⟩,
    some ⟨.join ⟨.ofList [⟨"a", 1⟩, ⟨"b", 1⟩], .empty⟩, none, [0, 1], .ofList ["a", "b"], false⟩]
  root := some 2

/-- What is left of the join when one of its branches is discarded and the join is bypassed. -/
def prunedJoin : Plan where
  nodes := #[none, some ⟨.scan "b", none, [], .singleton "b", false⟩, none]
  root := some 1

/-- The theorem applies to a history in which a plan is built and pruned.  A scan that is added later
does not take a discarded position. -/
theorem Evolves.edits_safe_plainJoin :
    Plan.empty.Evolves plainJoin ∧ plainJoin.WellLinked ∧ plainJoin.Evolves prunedJoin ∧
      ∃ id r, prunedJoin.scan "c" = .ok (id, r) ∧ r.contains id = true ∧ r.get? 0 = none := by
  have hbuilt : Plan.empty.Evolves plainJoin := by
    refine .head ⟨.scan "a", trivial, rfl⟩ <| .head ⟨.scan "b", trivial, rfl⟩ <|
      .head ⟨.join [0, 1] ⟨.ofList [⟨"a", 1⟩, ⟨"b", 1⟩], .empty⟩, ?_, rfl⟩ <|
      .single ⟨.setRoot 2, ⟨_, rfl, rfl⟩, rfl⟩
    refine ⟨by decide, fun x hx => ?_⟩
    rcases List.mem_pair.1 hx with rfl | rfl <;> exact ⟨⟨_, rfl, rfl⟩, by decide⟩
  have hpruned : plainJoin.Evolves prunedJoin :=
    .head ⟨.discardBranch 0, rfl, rfl⟩ <| .single ⟨.bypass 2, rfl, rfl⟩
  obtain ⟨hlinked, -, hgone⟩ := Evolves.edits_safe hbuilt
  obtain ⟨id, r, hscan, hlive⟩ :
      ∃ id r, prunedJoin.scan "c" = .ok (id, r) ∧ r.contains id = true := ⟨_, _, rfl, rfl⟩
  have hgrown : prunedJoin.Evolves r := .single ⟨.scan "c", trivial, map_eq_ok.2 ⟨_, hscan, rfl⟩⟩
  exact ⟨hbuilt, hlinked, hpruned, id, r, hscan, hlive, hgone 0 _ r rfl hpruned rfl hgrown⟩

end QueryPlan.Plan
