import QueryPlan.Proofs.Valid.Runs

/-!
# Tables that outlive a run

Rules move operators around the scans of a plan.  They never reorder or repeat scans, and only join
elimination drops any.  It needs a projection above the join and spares the tables read there, so a
projection at the root, which no rule touches, keeps all the tables it names.

Main results:

- Theorem `Rule.Rewrites.keeps`: what one rule keeps of the scans and of a projection at the root.
- Theorem `Branch.Steps.keeps`: and so does a sequence of rules.
- Theorem `Optimizer.scans_conserved`: a whole run, for plans that pass validation.
-/

namespace QueryPlan

namespace Context

/-- Scopes have no influence on scans. -/
theorem scans_plug_refresh (c : Context) (s t : Branch) :
    ((c.refresh s).plug t).scans = (c.plug t).scans := by
  induction c generalizing s t with
  | nil => rfl
  | cons f c ih =>
    rw [refresh_cons, plug_cons, plug_cons, ih]
    exact scans_plug_congr (by simp [Frame.fill, Frame.refresh, Label.refresh]) c

/-- Fewer scans in a branch are fewer scans in its context, in the same order. -/
theorem scans_plug_sublist {s s' : Branch} (h : s'.scans.Sublist s.scans) (c : Context) :
    (c.plug s').scans.Sublist (c.plug s).scans := by
  induction c generalizing s s' with
  | nil => exact h
  | cons f c ih =>
    apply ih
    simp only [Frame.fill, Branch.scans_node, List.flatMap_append, List.flatMap_cons]
    exact (List.Sublist.refl _).append ((List.Sublist.refl _).append (h.append (.refl _)))

/-- How often a context scans a table depends on how often the branch in it does. -/
theorem count_scans_plug_congr {s s' : Branch} {a : String}
    (h : s'.scans.count a = s.scans.count a) (c : Context) :
    (c.plug s').scans.count a = (c.plug s).scans.count a := by
  induction c generalizing s s' with
  | nil => exact h
  | cons f c ih =>
    apply ih
    simp only [Frame.fill, Branch.scans_node, List.flatMap_append, List.flatMap_cons,
      List.count_append, h]

/-- The uppermost operator around a branch is one of its context. -/
theorem exists_op_plug {c : Context} (hc : c ≠ []) (s : Branch) :
    ∃ f ∈ c, (c.plug s).label.op = f.label.op := by
  induction c generalizing s with
  | nil => exact absurd rfl hc
  | cons f c ih =>
    cases c with
    | nil => exact ⟨f, List.mem_cons_self, rfl⟩
    | cons g c =>
      obtain ⟨k, hk, hop⟩ := ih (List.cons_ne_nil g c) (f.fill s)
      exact ⟨k, List.mem_cons_of_mem f hk, hop⟩

/-- A context that does not read a table has no column of it in a projection at the root. -/
theorem table_ne_of_reads_root {c : Context} {s : Branch} {columns : ColumnSet} {table : String}
    (hc : c ≠ []) (hroot : (c.plug s).label.op = .projection columns)
    (hreads : c.reads table = false) : ∀ x ∈ columns, x.table ≠ table := by
  obtain ⟨f, hf, hop⟩ := exists_op_plug hc s
  have hne := table_ne_of_reads hreads hf
  rw [← hop, hroot] at hne
  exact hne

/-- The uppermost node around a branch is not affected by a change of scopes. -/
theorem Alike.plug_top {c c' : Context} (h : Alike c c') {s s' : Branch} (htop : s'.top = s.top)
    (hop : s'.label.op = s.label.op) :
    (c'.plug s').top = (c.plug s).top ∧ (c'.plug s').label.op = (c.plug s).label.op := by
  induction h generalizing s s' with
  | nil => exact ⟨htop, hop⟩
  | cons hf _ ih => exact ih hf.id_eq hf.label.op_eq

end Context

namespace Branch

/-- What outlives any rule: no scan is added, repeated or moved past another one, and a projection at
the root stays there with its columns and with all the scans of the tables it names. -/
structure Keeps (b b' : Branch) : Prop where
  scans : b'.scans.Sublist b.scans
  top : ∀ columns, b.label.op = .projection columns → b'.top = b.top
  columns : ∀ columns, b.label.op = .projection columns → b'.label.op = .projection columns
  count : ∀ columns, b.label.op = .projection columns →
    ∀ x ∈ columns, b'.scans.count x.table = b.scans.count x.table

/-- Everything outlives doing nothing. -/
theorem Keeps.refl (b : Branch) : b.Keeps b :=
  ⟨.refl _, fun _ _ => rfl, fun _ hb => hb, fun _ _ _ _ => rfl⟩

/-- What outlives two steps outlives both together. -/
theorem Keeps.trans {b b' b'' : Branch} (h : b.Keeps b') (h' : b'.Keeps b'') : b.Keeps b'' where
  scans := h'.scans.trans h.scans
  top columns hb := (h'.top columns (h.columns columns hb)).trans (h.top columns hb)
  columns columns hb := h'.columns columns (h.columns columns hb)
  count columns hb x hx :=
    (h'.count columns (h.columns columns hb) x hx).trans (h.count columns hb x hx)

end Branch

namespace Rule

variable {r : Rule} {c c' : Context} {s s' : Branch}

/-- No rule replaces or changes a projection that it is applied at. -/
theorem Rewrites.top_of_projection (h : r.Rewrites c s c' s') {columns : ColumnSet}
    (hs : s.label.op = .projection columns) :
    s'.top = s.top ∧ s'.label.op = .projection columns := by
  cases h with
  | belowJoin h => cases h; exact ⟨rfl, hs⟩
  | belowFilter h => cases h; exact ⟨rfl, hs⟩
  | push h =>
    cases h with
    | push hl => exact absurd (hl.symm.trans hs) (by simp)
  | eliminate h =>
    cases h with
    | byJoin hl => exact absurd (hl.symm.trans hs) (by simp)
    | byFilter hl => exact absurd (hl.symm.trans hs) (by simp)
  | simplify h =>
    cases h with
    | remove hl | refute hl | fold hl => exact absurd (hl.symm.trans hs) (by simp)

/-- No rule replaces or changes a projection at the root. -/
theorem Rewrites.root_of_projection (h : r.Rewrites c s c' s') {columns : ColumnSet}
    (hroot : (c.plug s).label.op = .projection columns) :
    (c'.plug s').top = (c.plug s).top ∧ (c'.plug s').label.op = .projection columns := by
  have halike := h.alike
  cases halike with
  | nil => exact h.top_of_projection hroot
  | @cons f f' d d' hf hd =>
    have htop : (f'.fill s').top = (f.fill s).top := hf.id_eq
    have hsame := Context.Alike.plug_top hd htop hf.label.op_eq
    exact ⟨hsame.1, hsame.2.trans hroot⟩

/-- What one rule keeps of a valid tree. -/
theorem Rewrites.keeps (h : r.Rewrites c s c' s') (hvalid : (c.plug s).Valid) :
    (c.plug s).Keeps (c'.plug s') := by
  have hroot : ∀ columns, (c.plug s).label.op = .projection columns →
      (c'.plug s').top = (c.plug s).top ∧ (c'.plug s').label.op = .projection columns :=
    fun _ hb => h.root_of_projection hb
  by_cases hr : r = .joinElimination
  · subst hr
    cases h with
    | eliminate h =>
      obtain ⟨table, hscans, hprojects, hreads⟩ := h.exists_scans hvalid.of_plug
      have hc : c ≠ [] := by
        rintro rfl
        exact absurd hprojects Bool.false_ne_true
      refine ⟨?_, fun columns hb => (hroot columns hb).1, fun columns hb => (hroot columns hb).2,
        fun columns hb x hx => ?_⟩
      · rw [Context.scans_plug_refresh]
        apply Context.scans_plug_sublist
        rcases hscans with hscans | hscans
        · rw [hscans]
          exact List.sublist_append_left _ _
        · rw [hscans]
          exact List.sublist_cons_self _ _
      · rw [Context.scans_plug_refresh]
        apply Context.count_scans_plug_congr
        have hne : table ≠ x.table := (Context.table_ne_of_reads_root hc hb hreads x hx).symm
        rcases hscans with hscans | hscans
        · rw [hscans, List.count_append, List.count_singleton, beq_false_of_ne hne]
          rfl
        · rw [hscans, List.count_cons_of_ne hne]
  · have hscans := h.scans_eq hr
    exact ⟨hscans ▸ .refl _, fun columns hb => (hroot columns hb).1,
      fun columns hb => (hroot columns hb).2, fun _ _ _ _ => by rw [hscans]⟩

end Rule

namespace Branch

variable {rules : Rule → Prop} {b b' : Branch}

/-- What rules applied one after the other keep of a valid tree. -/
theorem Steps.keeps (h : Steps rules b b') (hvalid : b.Valid) : b.Keeps b' := by
  have hall := h.preserves (motive := fun t => t.Valid ∧ b.Keeps t) ?_ ⟨hvalid, .refl b⟩
  · exact hall.2
  · rintro t t' hstep ⟨ht, hkeeps⟩
    cases hstep with
    | rewrite _ hrewrites => exact ⟨hrewrites.valid ht, hkeeps.trans (hrewrites.keeps ht)⟩

/-- Rules that eliminate no join, applied one after the other, leave the scans as they are. -/
theorem Steps.scans_eq (h : Steps rules b b') (hrules : ¬ rules .joinElimination) :
    b'.scans = b.scans := by
  refine h.preserves (motive := fun t => t.scans = b.scans) (fun hstep hscans => ?_) rfl
  cases hstep with
  | rewrite hr hrewrites =>
    exact (hrewrites.scans_eq fun heq => hrules (heq ▸ hr)).trans hscans

end Branch

namespace Optimizer

/-- A run on a valid plan adds, repeats and reorders no scan, and drops none unless it eliminates
joins.  A projection at the root is still there, with the columns it has, and no scan of a table it
names is lost. -/
theorem scans_conserved {p : Plan} (hvalid : p.validate = .ok ()) (rules : RuleSet)
    (validates traces : Bool) :
    ∃ out root root' scans scans',
      (ofRules rules validates traces).optimize p = .ok out ∧
      p.root = some root ∧ p.scannedTables root = .ok scans ∧
      out.plan.root = some root' ∧ out.plan.scannedTables root' = .ok scans' ∧
      (Rule.joinElimination ∉ rules.rules → scans' = scans) ∧
      scans'.Sublist scans ∧
      ∀ n columns, p.get? root = some n → n.op = .projection columns →
        root' = root ∧ (∃ n', out.plan.get? root' = some n' ∧ n'.op = .projection columns) ∧
          ∀ table ∈ columns.tables, scans'.count table = scans.count table := by
  obtain ⟨b, rest, hsound⟩ := Plan.validate_eq_ok_iff.1 hvalid
  obtain ⟨b', out, hout, hsound', hsteps⟩ :=
    exists_optimize (sorted_ofRules rules validates traces) hsound
  have hkeeps := hsteps.keeps hsound.valid
  refine ⟨out, b.top, b'.top, b.scans, b'.scans, hout, hsound.shows.root_eq,
    hsound.shows.has.scannedTables_eq, hsound'.shows.root_eq,
    hsound'.shows.has.scannedTables_eq, ?_, hkeeps.scans, ?_⟩
  · exact fun hrules => hsteps.scans_eq fun hruns => hrules (runs_ofRules hruns)
  · intro n columns hget hop
    obtain rfl := Option.some.inj (hsound.shows.has.get?_top.symm.trans hget)
    refine ⟨hkeeps.top columns hop, ⟨_, hsound'.shows.has.get?_top, hkeeps.columns columns hop⟩, ?_⟩
    intro table htable
    obtain ⟨x, hx, rfl⟩ := ColumnSet.mem_tables.1 htable
    exact hkeeps.count columns hop x hx

/-- Below a projection of `b` alone, a run with all rules keeps the scan of `b`. -/
theorem scans_conserved_filteredJoin :
    Plan.filteredJoin.validate = .ok () ∧ ∃ out scans,
      (ofRules .all true false).optimize Plan.filteredJoin = .ok out ∧ out.plan.root = some 4 ∧
        out.plan.scannedTables 4 = .ok scans ∧ scans.Sublist ["a", "b"] ∧ scans.count "b" = 1 := by
  have hvalid : Plan.filteredJoin.validate = .ok () := by cbv
  have hbefore : Plan.filteredJoin.scannedTables 4 = .ok ["a", "b"] := by cbv
  obtain ⟨out, root, root', scans, scans', hout, hroot, hscans, hroot', hscans', -, hsub, hproj⟩ :=
    scans_conserved hvalid .all true false
  obtain rfl : 4 = root := Option.some.inj hroot
  obtain rfl : ["a", "b"] = scans := Except.ok.inj (hbefore.symm.trans hscans)
  obtain ⟨rfl, -, hcount⟩ := hproj _ _ rfl rfl
  exact ⟨hvalid, out, scans', hout, hroot', hscans', hsub, hcount "b" (by decide)⟩

end Optimizer

end QueryPlan
