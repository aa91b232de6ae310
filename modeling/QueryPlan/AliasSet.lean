/-!
# Sets of table aliases

A set of aliases is held as a strictly increasing list, so that two sets are equal exactly when they
have the same members.  Main statements: `mem_insert`, `mem_union`, `mem_inter`, `mem_diff` and
`ext_mem`.
-/

namespace QueryPlan

/-- A finite set of table aliases, listed by code points without repetition. -/
structure AliasSet where
  /-- The members in increasing order. -/
  aliases : List String
  /-- The order is strict. -/
  increasing : aliases.Pairwise (· < ·)
deriving DecidableEq

namespace AliasSet

/-- Puts an alias at its place in an increasing list, unless it is there already. -/
def place (a : String) : List String → List String
  | [] => [a]
  | b :: rest => if a < b then a :: b :: rest else if a = b then b :: rest else b :: place a rest

/-- A placed alias joins those that are in the list. -/
theorem mem_place {a x : String} {l : List String} : x ∈ place a l ↔ x = a ∨ x ∈ l := by
  induction l with
  | nil => simp [place]
  | cons b rest ih =>
    unfold place
    split
    · simp
    · split
      · simp_all
      · simp [ih, or_left_comm]

/-- Placing an alias keeps a list strictly increasing. -/
theorem place_increasing {a : String} {l : List String} (h : l.Pairwise (· < ·)) :
    (place a l).Pairwise (· < ·) := by
  induction l with
  | nil => simp [place]
  | cons b rest ih =>
    have hb := List.pairwise_cons.1 h
    unfold place
    split
    · rename_i hab
      refine List.pairwise_cons.2 ⟨fun x hx => ?_, h⟩
      rcases List.mem_cons.1 hx with rfl | hx
      · exact hab
      · exact String.lt_trans hab (hb.1 x hx)
    · split
      · exact h
      · rename_i hab hne
        refine List.pairwise_cons.2 ⟨fun x hx => ?_, ih hb.2⟩
        rcases mem_place.1 hx with rfl | hx
        · apply Classical.byContradiction
          intro hba
          exact hne (String.le_antisymm (String.not_lt.1 hba) (String.not_lt.1 hab))
        · exact hb.1 x hx

/-- The set without members. -/
def empty : AliasSet :=
  ⟨[], List.Pairwise.nil⟩

instance : Inhabited AliasSet :=
  ⟨empty⟩

/-- The number of members. -/
def size (s : AliasSet) : Nat :=
  s.aliases.length

/-- Whether the set has no members. -/
def isEmpty (s : AliasSet) : Bool :=
  s.aliases.isEmpty

/-- Whether an alias is a member. -/
def contains (s : AliasSet) (a : String) : Bool :=
  s.aliases.contains a

instance : Membership String AliasSet :=
  ⟨fun s a => a ∈ s.aliases⟩

instance (a : String) (s : AliasSet) : Decidable (a ∈ s) :=
  inferInstanceAs (Decidable (a ∈ s.aliases))

/-- Adds an alias. -/
def insert (s : AliasSet) (a : String) : AliasSet :=
  ⟨place a s.aliases, place_increasing s.increasing⟩

/-- Adds an alias and tells whether it is new. -/
def insertNew (s : AliasSet) (a : String) : Bool × AliasSet :=
  (!s.contains a, s.insert a)

/-- Adds every alias of a list. -/
def insertAll (s : AliasSet) (aliases : List String) : AliasSet :=
  aliases.foldl insert s

/-- The set of the aliases in a list. -/
def ofList (aliases : List String) : AliasSet :=
  empty.insertAll aliases

/-- The set of one alias. -/
def singleton (a : String) : AliasSet :=
  empty.insert a

/-- The members of either set. -/
def union (s t : AliasSet) : AliasSet :=
  s.insertAll t.aliases

/-- The members of both sets. -/
def inter (s t : AliasSet) : AliasSet :=
  ⟨s.aliases.filter (t.contains ·), s.increasing.filter _⟩

/-- The members of the first set that the second one lacks. -/
def diff (s t : AliasSet) : AliasSet :=
  ⟨s.aliases.filter (!t.contains ·), s.increasing.filter _⟩

/-- Whether every member of the first set is in the second one. -/
def subset (s t : AliasSet) : Bool :=
  s.aliases.all (t.contains ·)

/-- Whether the sets share a member. -/
def intersects (s t : AliasSet) : Bool :=
  s.aliases.any (t.contains ·)

/-- The members in braces, in order. -/
def text (s : AliasSet) : String :=
  "\x7b" ++ ", ".intercalate s.aliases ++ "\x7d"

/-! ## Membership -/

/-- An alias is found in a set exactly if it is a member. -/
@[simp]
theorem contains_iff {s : AliasSet} {a : String} : s.contains a = true ↔ a ∈ s := by
  simp [contains, Membership.mem]

/-- The empty set has no member. -/
@[simp]
theorem not_mem_empty (a : String) : a ∉ empty :=
  List.not_mem_nil

/-- The members after an insertion are the new alias and the members before. -/
@[simp]
theorem mem_insert {s : AliasSet} {a x : String} : x ∈ s.insert a ↔ x = a ∨ x ∈ s :=
  mem_place

/-- Inserting a list adds its aliases to the members. -/
@[simp]
theorem mem_insertAll {s : AliasSet} {l : List String} {x : String} :
    x ∈ s.insertAll l ↔ x ∈ s ∨ x ∈ l := by
  induction l generalizing s with
  | nil => simp [insertAll]
  | cons a l ih =>
    have h : s.insertAll (a :: l) = (s.insert a).insertAll l := rfl
    rw [h, ih, mem_insert, List.mem_cons]
    simp only [or_assoc, or_left_comm]

/-- The members of the set of a list are the aliases in the list. -/
@[simp]
theorem mem_ofList {l : List String} {x : String} : x ∈ ofList l ↔ x ∈ l := by
  simp [ofList]

/-- The set of one alias has no other member. -/
@[simp]
theorem mem_singleton {a x : String} : x ∈ singleton a ↔ x = a := by
  simp [singleton]

/-- A set that is not empty has a member. -/
theorem isEmpty_eq_false_iff {s : AliasSet} : s.isEmpty = false ↔ ∃ a, a ∈ s := by
  rw [isEmpty, List.isEmpty_eq_false_iff_exists_mem]
  rfl

/-- A union has the members of both sets. -/
@[simp]
theorem mem_union {s t : AliasSet} {x : String} : x ∈ s.union t ↔ x ∈ s ∨ x ∈ t :=
  mem_insertAll

/-- An intersection has the members that both sets share. -/
@[simp]
theorem mem_inter {s t : AliasSet} {x : String} : x ∈ s.inter t ↔ x ∈ s ∧ x ∈ t := by
  show x ∈ s.aliases.filter _ ↔ _
  rw [List.mem_filter, contains_iff]
  rfl

/-- A difference has the members of the first set that the second one lacks. -/
@[simp]
theorem mem_diff {s t : AliasSet} {x : String} : x ∈ s.diff t ↔ x ∈ s ∧ x ∉ t := by
  show x ∈ s.aliases.filter _ ↔ _
  rw [List.mem_filter, Bool.not_eq_true', ← Bool.not_eq_true, contains_iff]
  rfl

/-- Inclusion is decided member by member. -/
@[simp]
theorem subset_iff {s t : AliasSet} : s.subset t = true ↔ ∀ x ∈ s, x ∈ t := by
  simp only [subset, List.all_eq_true, contains_iff]
  rfl

/-- Two sets intersect exactly if they have a common member. -/
@[simp]
theorem intersects_iff {s t : AliasSet} : s.intersects t = true ↔ ∃ x ∈ s, x ∈ t := by
  simp only [intersects, List.any_eq_true, contains_iff]
  rfl

/-! ## Equality -/

/-- Increasing lists with the same members are equal. -/
theorem eq_of_increasing {l m : List String} (hl : l.Pairwise (· < ·)) (hm : m.Pairwise (· < ·))
    (h : ∀ x, x ∈ l ↔ x ∈ m) : l = m := by
  induction l generalizing m with
  | nil =>
    cases m with
    | nil => rfl
    | cons b m => exact absurd ((h b).2 List.mem_cons_self) List.not_mem_nil
  | cons a l ih =>
    cases m with
    | nil => exact absurd ((h a).1 List.mem_cons_self) List.not_mem_nil
    | cons b m =>
      have hl' := List.pairwise_cons.1 hl
      have hm' := List.pairwise_cons.1 hm
      have hab : a = b := by
        rcases List.mem_cons.1 ((h a).1 List.mem_cons_self) with hab | ham
        · exact hab
        · rcases List.mem_cons.1 ((h b).2 List.mem_cons_self) with hba | hbl
          · exact hba.symm
          · exact absurd (hl'.1 b hbl) (String.lt_asymm (hm'.1 a ham))
      subst hab
      refine congrArg _ (ih hl'.2 hm'.2 fun x => ⟨fun hx => ?_, fun hx => ?_⟩)
      · rcases List.mem_cons.1 ((h x).1 (List.mem_cons_of_mem _ hx)) with rfl | hxm
        · exact absurd (hl'.1 _ hx) (String.lt_irrefl _)
        · exact hxm
      · rcases List.mem_cons.1 ((h x).2 (List.mem_cons_of_mem _ hx)) with rfl | hxl
        · exact absurd (hm'.1 _ hx) (String.lt_irrefl _)
        · exact hxl

/-- Two sets with the same members are equal. -/
theorem ext_mem {s t : AliasSet} (h : ∀ x, x ∈ s ↔ x ∈ t) : s = t := by
  cases s
  cases t
  congr
  exact eq_of_increasing (by assumption) (by assumption) h

end AliasSet

end QueryPlan
