import Mathlib.Data.Multiset.Bind
import Mathlib.Data.Multiset.Filter
import QueryPlan.Column.Set
import QueryPlan.Value

/-!
# Rows

A row assigns values to columns; a column it does not have has no value.  Rows are counted with
multiplicity but not ordered.  The rows of several branches are combined by taking one row of each.

Main results:

- Theorem `Row.combine_map_keep`: leaving columns out before or after rows are combined.
- Theorem `Row.combine_filter`: a condition on the columns of one branch may be tested on that branch.
- Theorem `Row.map_filter_congr`: rows that agree on the columns of a condition pass it together.
-/

namespace QueryPlan

/-- Values of columns. -/
abbrev Row := Column → Option Value

/-- The rows of each table, by alias; a row gives values to positions. -/
abbrev Database := String → List (UInt64 → Option Value)

namespace Row

/-- The row without columns. -/
def empty : Row :=
  fun _ => none

/-- The columns of both rows. -/
def merge (r s : Row) : Row :=
  fun c => (r c).or (s c)

/-- The row with no other columns than those that satisfy a condition. -/
def keep (cond : Column → Bool) (r : Row) : Row :=
  fun c => if cond c then r c else none

/-- The value of a column, null if the row does not have the column. -/
def value (r : Row) (c : Column) : Value :=
  (r c).getD .null

/-- The row has columns of the given tables only. -/
def Within (r : Row) (tables : AliasSet) : Prop :=
  ∀ c, c.table ∉ tables → r c = none

/-- A condition on rows depends on certain columns alone. -/
def DependsOn (P : Row → Bool) (columns : Column → Prop) : Prop :=
  ∀ r s : Row, (∀ c, columns c → r c = s c) → P r = P s

/-- All combinations of one row of each branch. -/
def combine : List (Multiset Row) → Multiset Row
  | [] => {empty}
  | m :: ms => m.bind fun r => (combine ms).map (merge r)

/-! ## Single rows -/

/-- Merging with the row without columns changes nothing. -/
@[simp]
theorem merge_empty (r : Row) : r.merge empty = r := by
  funext c
  exact Option.or_none

/-- Rows with no column in common may be merged in either order. -/
theorem merge_comm {r s : Row} (h : ∀ c, r c = none ∨ s c = none) : r.merge s = s.merge r := by
  funext c
  rcases h c with h | h <;> simp [merge, h]

/-- Columns can be selected before rows are merged. -/
theorem keep_merge (cond : Column → Bool) (r s : Row) :
    (r.merge s).keep cond = (r.keep cond).merge (s.keep cond) := by
  funext c
  simp only [keep, merge]
  split <;> rfl

/-- Of two selections of columns, the one that is made last and keeps less counts. -/
theorem keep_keep {cond cond' : Column → Bool} (h : ∀ c, cond' c = true → cond c = true)
    (r : Row) : (r.keep cond).keep cond' = r.keep cond' := by
  funext c
  simp only [keep]
  by_cases hc : cond' c = true
  · simp [hc, h c hc]
  · simp [hc]

/-- Only the columns that a row has count when some of them are selected. -/
theorem keep_congr {cond cond' : Column → Bool} {r : Row}
    (h : ∀ c, r c ≠ none → cond c = cond' c) : r.keep cond = r.keep cond' := by
  funext c
  simp only [keep]
  cases hr : r c with
  | none => simp
  | some v => rw [h c (by rw [hr]; exact Option.some_ne_none v)]

/-- Selecting columns changes nothing if they include all columns of the row. -/
theorem keep_eq_self {cond : Column → Bool} {r : Row} (h : ∀ c, cond c = false → r c = none) :
    r.keep cond = r := by
  funext c
  by_cases hc : cond c = true
  · simp [keep, hc]
  · rw [Bool.not_eq_true] at hc
    simp [keep, hc, h c hc]

/-- A condition that depends on some columns may be taken to depend on more. -/
theorem DependsOn.mono {P : Row → Bool} {columns columns' : Column → Prop} (h : DependsOn P columns)
    (hsub : ∀ c, columns c → columns' c) : DependsOn P columns' :=
  fun r s hrs => h r s fun c hc => hrs c (hsub c hc)

/-- A condition is not affected by dropping columns on which it does not depend. -/
theorem DependsOn.keep {P : Row → Bool} {cond : Column → Bool}
    (h : DependsOn P fun c => cond c = true) (r : Row) : P (r.keep cond) = P r := by
  apply h
  intro c hc
  exact if_pos hc

/-! ## Combinations -/

/-- The combinations of the rows of a single branch. -/
@[simp]
theorem combine_singleton (m : Multiset Row) : combine [m] = m := by
  simp only [combine, Multiset.map_singleton, merge_empty]
  exact (Multiset.bind_singleton m id).trans (Multiset.map_id m)

/-- A column that a combined row has comes from one of the branches. -/
theorem combine_eq_none {ms : List (Multiset Row)} {c : Column}
    (h : ∀ m ∈ ms, ∀ r ∈ m, r c = none) {r : Row} (hr : r ∈ combine ms) : r c = none := by
  induction ms generalizing r with
  | nil =>
    rw [combine, Multiset.mem_singleton] at hr
    rw [hr, empty]
  | cons m ms ih =>
    rw [combine, Multiset.mem_bind] at hr
    obtain ⟨s, hs, hr⟩ := hr
    obtain ⟨t, ht, rfl⟩ := Multiset.mem_map.1 hr
    rw [merge, h m List.mem_cons_self s hs, ih (fun m' hm' => h m' (List.mem_cons_of_mem m hm')) ht]
    rfl

/-- Leaving columns out before or after rows are combined. -/
theorem combine_map_keep (cond : Column → Bool) (ms : List (Multiset Row)) :
    (combine ms).map (keep cond) = combine (ms.map (Multiset.map (keep cond))) := by
  induction ms with
  | nil =>
    rw [List.map_nil, combine, Multiset.map_singleton]
    congr 1
    funext c
    simp [keep, empty]
  | cons m ms ih =>
    rw [List.map_cons, combine, combine, Multiset.map_bind, Multiset.bind_map, ← ih]
    apply Multiset.bind_congr
    intro r _
    rw [Multiset.map_map, Multiset.map_map]
    apply Multiset.map_congr rfl
    intro s _
    exact keep_merge cond r s

/-- The rows of a branch are combined with the others one by one. -/
theorem combine_add (left right : List (Multiset Row)) (m m' : Multiset Row) :
    combine (left ++ (m + m') :: right) =
      combine (left ++ m :: right) + combine (left ++ m' :: right) := by
  induction left with
  | nil => exact Multiset.add_bind _ _ _
  | cons x left ih =>
    simp only [List.cons_append, combine]
    rw [ih, ← Multiset.bind_add]
    apply Multiset.bind_congr
    intro r _
    exact Multiset.map_add _ _ _

/-- Rows of one branch that agree on some columns make combinations that agree on them. -/
theorem combine_map_keep_congr {cond : Column → Bool} {m m' : Multiset Row}
    (h : m.map (keep cond) = m'.map (keep cond)) (left right : List (Multiset Row)) :
    (combine (left ++ m :: right)).map (keep cond) =
      (combine (left ++ m' :: right)).map (keep cond) := by
  simp only [combine_map_keep, List.map_append, List.map_cons, h]

/-- A condition on the columns of one branch may be tested on that branch, before the rows are
combined. -/
theorem combine_filter {P : Row → Bool} {columns : Column → Prop} (hP : DependsOn P columns)
    {left right : List (Multiset Row)} {m : Multiset Row}
    (hothers : ∀ m' ∈ left ++ right, ∀ r ∈ m', ∀ c, columns c → r c = none) :
    combine (left ++ m.filter (P · = true) :: right) =
      (combine (left ++ m :: right)).filter (P · = true) := by
  induction left with
  | nil =>
    rw [List.nil_append, List.nil_append, combine, combine, Multiset.filter_bind,
      Multiset.bind_filter]
    apply Multiset.bind_congr
    intro r _
    -- Every combination with the row passes if the row does.
    have hpasses : ∀ s ∈ (combine right).map (merge r), P s = P r := by
      intro s hs
      obtain ⟨t, ht, rfl⟩ := Multiset.mem_map.1 hs
      apply hP
      intro c hc
      rw [merge, combine_eq_none (fun m' hm' t ht => hothers m' hm' t ht c hc) ht, Option.or_none]
    by_cases hr : P r = true
    · rw [if_pos hr]
      exact (Multiset.filter_eq_self.2 fun s hs => (hpasses s hs).trans hr).symm
    · rw [if_neg hr]
      exact (Multiset.filter_eq_nil.2 fun s hs hs' => hr ((hpasses s hs).symm.trans hs')).symm
  | cons m' left ih =>
    rw [List.cons_append, List.cons_append, combine, combine, Multiset.filter_bind]
    apply Multiset.bind_congr
    intro r hr
    rw [Multiset.filter_map, ih fun x hx => hothers x (List.mem_cons_of_mem m' hx)]
    congr 1
    apply Multiset.filter_congr
    intro s _
    have hsame : P (merge r s) = P s := by
      apply hP
      intro c hc
      rw [merge, hothers m' List.mem_cons_self r hr c hc, Option.none_or]
    rw [Function.comp_apply, hsame]

/-- Rows that agree on the columns of a condition pass it together. -/
theorem map_filter_congr {P : Row → Bool} {cond cond' : Column → Bool}
    (hP : DependsOn P fun c => cond c = true) (hsub : ∀ c, cond' c = true → cond c = true)
    {m m' : Multiset Row} (h : m.map (keep cond) = m'.map (keep cond)) :
    (m.filter (P · = true)).map (keep cond') = (m'.filter (P · = true)).map (keep cond') := by
  have hkept : ∀ m : Multiset Row, (m.filter (P · = true)).map (keep cond') =
      ((m.map (keep cond)).filter (P · = true)).map (keep cond') := by
    intro m
    rw [Multiset.filter_map, Multiset.map_map]
    have hfilter : m.filter ((P · = true) ∘ keep cond) = m.filter (P · = true) := by
      apply Multiset.filter_congr
      intro r _
      rw [Function.comp_apply, hP.keep]
    rw [hfilter]
    apply Multiset.map_congr rfl
    intro r _
    exact (keep_keep hsub r).symm
  rw [hkept m, hkept m', h]

end Row

end QueryPlan
