import Mathlib.Data.List.Induction
import Mathlib.Data.List.Nodup
import Mathlib.Data.List.Perm.Subperm
import QueryPlan.Column.Set

/-!
# Column sets are ordered sets

The columns that are put in a set one after the other, with all repetitions, are the requests it was
made from.  However a set is made, it is the set of its requests: to insert the requests of two sets in
a row is to unite the sets, and to drop requests is to select columns.  So the set lists each requested
column once, in the order of the first requests.

A set that lists no column twice has as many columns as members.  This is why two such sets can be
compared by their sizes after one inclusion, and why an intersection of the same size has lost nothing.

Main results:

- Theorem `ColumnSet.nodup_insertAll`: inserting never repeats a column.
- Theorem `ColumnSet.pairwise_ofList`: the columns are in the order of their first requests.
- Theorem `ColumnSet.Built.eq_ofList`: a set made by the operations is the set of its requests.
- Theorem `ColumnSet.sameMembers_iff`: sets of the same size, one inside the other, have the same
  members.
- Theorem `ColumnSet.operations_exact`: the operations make ordered sets, and agree with membership.
-/

namespace QueryPlan.ColumnSet

variable {s t : ColumnSet}

/-! ## Inserting -/

/-- Inserting a column that is listed changes nothing. -/
theorem insert_of_mem {c : Column} (h : c ∈ s) : s.insert c = s :=
  if_pos (contains_iff.2 h)

/-- A column that is not listed is appended. -/
theorem insert_of_not_mem {c : Column} (h : c ∉ s) : s.insert c = ⟨s.columns ++ [c]⟩ :=
  if_neg fun hc => h (contains_iff.1 hc)

/-- Two lists are inserted one after the other. -/
theorem insertAll_append (s : ColumnSet) (l l' : List Column) :
    s.insertAll (l ++ l') = (s.insertAll l).insertAll l' :=
  List.foldl_append

/-- The set of two lists in a row is the set of the first one with the second one inserted. -/
theorem ofList_append (l l' : List Column) : ofList (l ++ l') = (ofList l).insertAll l' :=
  insertAll_append empty l l'

/-- The set of a list and one more column is the set of the list with this column inserted. -/
theorem ofList_append_singleton (l : List Column) (c : Column) :
    ofList (l ++ [c]) = (ofList l).insert c :=
  ofList_append l [c]

/-- The columns that are there stay in front of an inserted one. -/
theorem prefix_insert (s : ColumnSet) (c : Column) : s.columns <+: (s.insert c).columns := by
  by_cases hc : c ∈ s
  · simp only [insert_of_mem hc, List.prefix_rfl]
  · rw [insert_of_not_mem hc]
    exact List.prefix_append s.columns [c]

/-- The columns that are there stay in front. -/
theorem prefix_insertAll (s : ColumnSet) (l : List Column) :
    s.columns <+: (s.insertAll l).columns := by
  induction l generalizing s with
  | nil => exact List.prefix_rfl
  | cons a l ih => exact (prefix_insert s a).trans (ih (s.insert a))

/-! ## Lists of different columns -/

/-- Inserting a column does not repeat it. -/
theorem nodup_insert (h : s.columns.Nodup) (c : Column) : (s.insert c).columns.Nodup := by
  by_cases hc : c ∈ s
  · rwa [insert_of_mem hc]
  · rw [insert_of_not_mem hc]
    exact List.nodup_append.2 ⟨h, List.nodup_singleton c, fun x hx y hy hxy =>
      hc (List.mem_singleton.1 hy ▸ hxy ▸ hx)⟩

/-- Inserting a list repeats no column. -/
theorem nodup_insertAll (h : s.columns.Nodup) (l : List Column) :
    (s.insertAll l).columns.Nodup := by
  induction l generalizing s with
  | nil => exact h
  | cons a l ih => exact ih (nodup_insert h a)

/-- The set of a list lists no column twice. -/
theorem nodup_ofList (l : List Column) : (ofList l).columns.Nodup :=
  nodup_insertAll List.nodup_nil l

/-- A union lists no column twice if its left operand does not. -/
theorem nodup_union (h : s.columns.Nodup) (t : ColumnSet) : (s.union t).columns.Nodup :=
  nodup_insertAll h t.columns

/-- A selection lists no column twice, whatever set it is taken from. -/
theorem nodup_select (s : ColumnSet) (P : Column → Bool) : (s.select P).columns.Nodup :=
  nodup_ofList _

/-- Different columns that are new are appended as they come. -/
theorem insertAll_eq_append {l : List Column} (h : (s.columns ++ l).Nodup) :
    s.insertAll l = ⟨s.columns ++ l⟩ := by
  induction l generalizing s with
  | nil => simp [insertAll]
  | cons a l ih =>
    have ha : a ∉ s := fun ha => (List.nodup_append.1 h).2.2 a ha a List.mem_cons_self rfl
    have hinsert : s.insertAll (a :: l) = (⟨s.columns ++ [a]⟩ : ColumnSet).insertAll l := by
      rw [insertAll, List.foldl_cons, insert_of_not_mem ha]
      rfl
    rw [hinsert, ih (by simpa using h)]
    simp

/-- A list of different columns is narrowed in place. -/
theorem select_eq_filter (h : s.columns.Nodup) (keep : Column → Bool) :
    s.select keep = ⟨s.columns.filter keep⟩ := by
  have hfilter : (s.columns.filter keep).Nodup := h.filter keep
  rw [select, ofList, insertAll_eq_append (by simpa [empty] using hfilter)]
  rfl

/-- The intersection with a larger set is the set itself. -/
theorem inter_eq_self (hs : s.columns.Nodup) (h : ∀ x ∈ s, x ∈ t) : s.inter t = s := by
  rw [inter, select_eq_filter hs, List.filter_eq_self.2 fun x hx => contains_iff.2 (h x hx)]

/-- A selection is as large as the set exactly if it leaves no column out. -/
theorem size_select_eq_iff (h : s.columns.Nodup) {keep : Column → Bool} :
    (s.select keep).size = s.size ↔ ∀ x ∈ s, keep x = true := by
  rw [select_eq_filter h]
  exact List.length_filter_eq_length_iff

/-- Sets of the same size, one inside the other, have the same members. -/
theorem sameMembers_iff (hs : s.columns.Nodup) (ht : t.columns.Nodup) :
    s.sameMembers t = true ↔ ∀ x, x ∈ s ↔ x ∈ t := by
  rw [sameMembers, Bool.and_eq_true, beq_iff_eq, subset_iff]
  constructor
  · rintro ⟨hsize, hsub⟩ x
    -- Different columns that are all in the second list and as many as it has leave no place in it.
    have hperm : s.columns.Perm t.columns :=
      (List.subperm_of_subset hs hsub).perm_of_length_le (Nat.le_of_eq hsize.symm)
    exact hperm.mem_iff
  · intro h
    exact ⟨((List.perm_ext_iff_of_nodup hs ht).2 h).length_eq, fun x hx => (h x).1 hx⟩

/-- Among sets that list no column twice, to have the same members is an equivalence. -/
theorem sameMembers_equivalence :
    Equivalence fun s t : { s : ColumnSet // s.columns.Nodup } => s.1.sameMembers t.1 = true where
  refl s := (sameMembers_iff s.2 s.2).2 fun _ => Iff.rfl
  symm := fun {s t} h => (sameMembers_iff t.2 s.2).2 fun x =>
    ((sameMembers_iff s.2 t.2).1 h x).symm
  trans := fun {s t u} h h' => (sameMembers_iff s.2 u.2).2 fun x =>
    ((sameMembers_iff s.2 t.2).1 h x).trans ((sameMembers_iff t.2 u.2).1 h' x)

/-! ## The order of the first requests -/

/-- At some time the first column has been requested and the second one has not. -/
def RequestedBefore (requests : List Column) (x y : Column) : Prop :=
  ∃ past, past <+: requests ∧ x ∈ past ∧ y ∉ past

/-- What was requested before something still was when more is requested. -/
theorem RequestedBefore.append {requests : List Column} {x y : Column}
    (h : RequestedBefore requests x y) (later : List Column) :
    RequestedBefore (requests ++ later) x y := by
  obtain ⟨past, hpast, hx, hy⟩ := h
  exact ⟨past, hpast.trans (List.prefix_append requests later), hx, hy⟩

/-- The set of a list has its columns in the order of their first requests. -/
theorem pairwise_ofList (requests : List Column) :
    (ofList requests).columns.Pairwise (RequestedBefore requests) := by
  -- On the last request, since a column is inserted at the end.
  induction requests using List.reverseRecOn with
  | nil => exact List.Pairwise.nil
  | append_singleton requests c ih =>
    have hold : (ofList requests).columns.Pairwise (RequestedBefore (requests ++ [c])) :=
      ih.imp fun h => h.append [c]
    rw [ofList_append_singleton]
    by_cases hc : c ∈ ofList requests
    · rwa [insert_of_mem hc]
    · rw [insert_of_not_mem hc]
      refine List.pairwise_append.2 ⟨hold, List.pairwise_singleton _ c, fun x hx y hy => ?_⟩
      obtain rfl := List.mem_singleton.1 hy
      exact ⟨requests, List.prefix_append _ _, mem_ofList.1 hx, fun h => hc (mem_ofList.2 h)⟩

/-- The set of a list keeps the order of the list. -/
theorem ofList_sublist (l : List Column) : (ofList l).columns.Sublist l := by
  induction l using List.reverseRecOn with
  | nil => exact List.Sublist.refl []
  | append_singleton l c ih =>
    rw [ofList_append_singleton]
    by_cases hc : c ∈ ofList l
    · rw [insert_of_mem hc]
      exact ih.trans (List.sublist_append_left l [c])
    · rw [insert_of_not_mem hc]
      exact ih.append (List.Sublist.refl [c])

/-- A selection keeps the order of the set. -/
theorem select_sublist (s : ColumnSet) (keep : Column → Bool) :
    (s.select keep).columns.Sublist s.columns :=
  (ofList_sublist _).trans List.filter_sublist

/-! ## Sets made by the operations -/

/-- Inserting the columns of a set is inserting its requests. -/
theorem insertAll_ofList (s : ColumnSet) (l : List Column) :
    s.insertAll (ofList l).columns = s.insertAll l := by
  induction l using List.reverseRecOn with
  | nil => rfl
  | append_singleton l c ih =>
    rw [ofList_append_singleton, insertAll_append]
    by_cases hc : c ∈ ofList l
    · have hmem : c ∈ s.insertAll l := mem_insertAll.2 (.inr (mem_ofList.1 hc))
      rw [insert_of_mem hc, ih]
      exact (insert_of_mem hmem).symm
    · rw [insert_of_not_mem hc, insertAll_append, ih]

/-- A selection from a set with one more column has this column exactly if it is kept. -/
theorem select_insert (s : ColumnSet) (c : Column) (keep : Column → Bool) :
    (s.insert c).select keep = if keep c then (s.select keep).insert c else s.select keep := by
  by_cases hc : c ∈ s
  · rw [insert_of_mem hc]
    split
    · rename_i hkeep
      exact (insert_of_mem (mem_select.2 ⟨hc, hkeep⟩)).symm
    · rfl
  · rw [insert_of_not_mem hc, select, List.filter_append, ofList_append, List.filter_singleton]
    cases keep c with
    | true => rfl
    | false => rfl

/-- Selecting columns is dropping requests. -/
theorem select_ofList (l : List Column) (keep : Column → Bool) :
    (ofList l).select keep = ofList (l.filter keep) := by
  induction l using List.reverseRecOn with
  | nil => rfl
  | append_singleton l c ih =>
    rw [ofList_append_singleton, select_insert, ih, List.filter_append, ofList_append,
      List.filter_singleton]
    cases keep c with
    | true => rfl
    | false => rfl

/-- The columns that literals are read as, where they are column literals. -/
def literalColumns (literals : List String) : List Column :=
  literals.filterMap fun text => (Column.ofLiteral text).toOption

/-- Literals that can all be read are read as their columns. -/
theorem eq_literalColumns_of_mapM {literals : List String} {columns : List Column}
    (h : literals.mapM Column.ofLiteral = .ok columns) : columns = literalColumns literals := by
  induction literals generalizing columns with
  | nil => exact (Except.ok.inj h).symm
  | cons text literals ih =>
    rw [List.mapM_cons] at h
    cases hc : Column.ofLiteral text with
    | error cause => simp [hc, bind, Except.bind] at h
    | ok c =>
      cases hrest : literals.mapM Column.ofLiteral with
      | error cause => simp [hc, hrest, bind, Except.bind] at h
      | ok rest =>
        obtain rfl : columns = c :: rest := by
          simpa [hc, hrest, bind, Except.bind, pure, Except.pure] using h.symm
        simp [literalColumns, hc, Except.toOption, ih hrest]

/-- The set read from literals is the set of their columns. -/
theorem eq_ofList_of_ofLiterals {literals : List String} (h : ofLiterals literals = .ok s) :
    s = ofList (literalColumns literals) := by
  unfold ofLiterals at h
  cases hread : literals.mapM Column.ofLiteral with
  | error cause => simp [hread, Functor.map, Except.map] at h
  | ok columns =>
    rw [hread] at h
    rw [← eq_literalColumns_of_mapM hread]
    exact (Except.ok.inj h).symm

/-- The set was made by the operations on column sets, from these requests in this order.  The second
operand of an intersection need not be made this way, since it decides only which columns are kept. -/
inductive Built : List Column → ColumnSet → Prop
  | empty : Built [] .empty
  | ofLiterals {literals : List String} {s : ColumnSet} :
    ColumnSet.ofLiterals literals = .ok s → Built (literalColumns literals) s
  | ofList (l : List Column) : Built l (.ofList l)
  | insert {requests : List Column} {s : ColumnSet} (c : Column) :
    Built requests s → Built (requests ++ [c]) (s.insert c)
  | insertAll {requests : List Column} {s : ColumnSet} (l : List Column) :
    Built requests s → Built (requests ++ l) (s.insertAll l)
  | union {requests later : List Column} {s t : ColumnSet} :
    Built requests s → Built later t → Built (requests ++ later) (s.union t)
  | inter {requests : List Column} {s : ColumnSet} (t : ColumnSet) :
    Built requests s → Built (requests.filter (t.contains ·)) (s.inter t)
  | inTables {requests : List Column} {s : ColumnSet} (tables : AliasSet) :
    Built requests s → Built (requests.filter (tables.contains ·.table)) (s.inTables tables)

/-- A set made by the operations is the set of its requests. -/
theorem Built.eq_ofList {requests : List Column} (h : Built requests s) : s = .ofList requests := by
  induction h with
  | empty => rfl
  | ofLiterals h => exact eq_ofList_of_ofLiterals h
  | ofList l => rfl
  | insert c _ ih => rw [ih, ofList_append_singleton]
  | insertAll l _ ih => rw [ih, ofList_append]
  | union _ _ ih iht => rw [ih, iht, ColumnSet.union, insertAll_ofList, ofList_append]
  | inter t _ ih => rw [ih, ColumnSet.inter, select_ofList]
  | inTables tables _ ih => rw [ih, ColumnSet.inTables, select_ofList]

/-- A set made by the operations lists the requested columns, each once, in the order of their first
requests.  Union, intersection, restriction to tables and inclusion agree with membership; a union
begins with its left operand, and the other two keep the order of theirs.  For sets that list no column
twice, the comparison by size and inclusion decides whether the members are the same, so it is an
equivalence, and an intersection is as large as its left operand exactly if that is inside the right
one. -/
theorem operations_exact :
    (∀ requests s, Built requests s → s.columns.Nodup ∧ (∀ x, x ∈ s ↔ x ∈ requests) ∧
      s.columns.Pairwise (RequestedBefore requests)) ∧
    (∀ s t : ColumnSet, (∀ x, x ∈ s.union t ↔ x ∈ s ∨ x ∈ t) ∧
      s.columns <+: (s.union t).columns) ∧
    (∀ s t : ColumnSet, (∀ x, x ∈ s.inter t ↔ x ∈ s ∧ x ∈ t) ∧
      (s.inter t).columns.Sublist s.columns) ∧
    (∀ (s : ColumnSet) (tables : AliasSet),
      (∀ x, x ∈ s.inTables tables ↔ x ∈ s ∧ x.table ∈ tables) ∧
      (s.inTables tables).columns.Sublist s.columns) ∧
    (∀ s t : ColumnSet, s.subset t = true ↔ ∀ x ∈ s, x ∈ t) ∧
    (∀ s t : ColumnSet, s.columns.Nodup → t.columns.Nodup →
      (s.sameMembers t = true ↔ ∀ x, x ∈ s ↔ x ∈ t)) ∧
    (Equivalence fun s t : { s : ColumnSet // s.columns.Nodup } => s.1.sameMembers t.1 = true) ∧
    (∀ s t : ColumnSet, s.columns.Nodup →
      ((s.inter t).size = s.size ↔ s.subset t = true)) := by
  refine ⟨fun requests s h => ?_, fun s t => ⟨fun x => mem_union, prefix_insertAll s t.columns⟩,
    fun s t => ⟨fun x => mem_inter, select_sublist s _⟩,
    fun s tables => ⟨fun x => mem_inTables, select_sublist s _⟩, fun s t => subset_iff,
    fun s t => sameMembers_iff, sameMembers_equivalence, fun s t hs => ?_⟩
  · rw [h.eq_ofList]
    exact ⟨nodup_ofList requests, fun x => mem_ofList, pairwise_ofList requests⟩
  · rw [inter, size_select_eq_iff hs, subset_iff]
    simp only [contains_iff]

/-- Two sets with common columns, one read from literals that repeat one, united and restricted. -/
theorem operations_exact_commonColumns :
    ∃ s t, ofLiterals ["a.3", "b.1", "a.3"] = .ok s ∧
      t = (s.union (.ofList [⟨"b", 1⟩, ⟨"a", 7⟩])).inTables (.singleton "a") ∧
      Built [⟨"a", 3⟩, ⟨"a", 3⟩, ⟨"a", 7⟩] t ∧
      (t.columns.Nodup ∧ (∀ x, x ∈ t ↔ x ∈ [⟨"a", 3⟩, ⟨"a", 3⟩, ⟨"a", 7⟩]) ∧
        t.columns.Pairwise (RequestedBefore [⟨"a", 3⟩, ⟨"a", 3⟩, ⟨"a", 7⟩])) ∧
      t.sameMembers (.ofList [⟨"a", 7⟩, ⟨"a", 3⟩]) = true ∧ (t.inter s).size ≠ t.size := by
  obtain ⟨hbuilt, -, -, -, -, hsame, -, hsize⟩ := operations_exact
  have hread : ofLiterals ["a.3", "b.1", "a.3"] = .ok (.ofList [⟨"a", 3⟩, ⟨"b", 1⟩, ⟨"a", 3⟩]) := by
    rfl
  have ht : Built [⟨"a", 3⟩, ⟨"a", 3⟩, ⟨"a", 7⟩]
      (((ofList [⟨"a", 3⟩, ⟨"b", 1⟩, ⟨"a", 3⟩]).union (.ofList [⟨"b", 1⟩, ⟨"a", 7⟩])).inTables
        (.singleton "a")) :=
    ((Built.ofLiterals hread).union (.ofList [⟨"b", 1⟩, ⟨"a", 7⟩])).inTables (.singleton "a")
  have hlisted := hbuilt _ _ ht
  refine ⟨_, _, hread, rfl, ht, hlisted, (hsame _ _ hlisted.1 (by decide)).2 fun x => ?_, ?_⟩
  · rw [hlisted.2.1, mem_ofList]
    simp [or_comm]
  · exact fun h => absurd ((hsize _ _ hlisted.1).1 h) (by decide)

end QueryPlan.ColumnSet
