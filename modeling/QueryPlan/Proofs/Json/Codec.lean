import QueryPlan.Json.Codec
import QueryPlan.Proofs.Json.Text

/-!
# Faithful representations

A value is represented faithfully if its representation is proper JSON from which it is read again,
given room for the arrays and objects that the representation opens.  The sections below follow the ways
in which values are put together: plain values, lists, records and alternatives.

Main results:

- Definition `Json.depth`: how many arrays and objects a value opens within each other.
- Definition `Codec.Faithful`: values that survive being represented.
- Theorem `Codec.Faithful.read_eq_ok`: they survive being written as text in any style, if the limit for
  open arrays and objects is kept.
- Theorem `fields?_record`: the fields of a record are found again.
-/

namespace QueryPlan.Json

/-! ## Depth -/

mutual

/-- How many arrays and objects a value opens within each other. -/
def depth : Json → Nat
  | .array items => itemsDepth items + 1
  | .object fields => fieldsDepth fields + 1
  | _ => 0

/-- The depth of the deepest of some items. -/
def itemsDepth : List Json → Nat
  | [] => 0
  | j :: items => max j.depth (itemsDepth items)

/-- The depth of the deepest of some fields. -/
def fieldsDepth : List (Text × Json) → Nat
  | [] => 0
  | (_, j) :: fields => max j.depth (fieldsDepth fields)

end

/-- A bound for the depth of items is one for each of them. -/
theorem itemsDepth_le {items : List Json} {n : Nat} :
    itemsDepth items ≤ n ↔ ∀ j ∈ items, j.depth ≤ n := by
  induction items with
  | nil => simp [itemsDepth]
  | cons j items ih => rw [itemsDepth, Nat.max_le, ih, List.forall_mem_cons]

/-- A bound for the depth of fields is one for each of them. -/
theorem fieldsDepth_le {fields : List (Text × Json)} {n : Nat} :
    fieldsDepth fields ≤ n ↔ ∀ field ∈ fields, field.2.depth ≤ n := by
  induction fields with
  | nil => simp [fieldsDepth]
  | cons field fields ih => rw [fieldsDepth, Nat.max_le, ih, List.forall_mem_cons]

/-- An array takes up room for one more than its items. -/
theorem exists_room_of_array {items : List Json} {room : Nat} (h : (Json.array items).depth ≤ room) :
    ∃ inner, room = inner + 1 ∧ ∀ j ∈ items, j.depth ≤ inner := by
  rw [depth] at h
  obtain ⟨inner, rfl⟩ := Nat.exists_eq_add_of_le' (Nat.le_trans (Nat.le_add_left 1 _) h)
  exact ⟨inner, rfl, itemsDepth_le.1 (Nat.le_of_add_le_add_right h)⟩

/-- A record takes up room for one more than its fields. -/
theorem exists_room_of_record {fields : List (String × Json)} {room : Nat}
    (h : (record fields).depth ≤ room) :
    ∃ inner, room = inner + 1 ∧ ∀ field ∈ fields, field.2.depth ≤ inner := by
  rw [record, depth] at h
  obtain ⟨inner, rfl⟩ := Nat.exists_eq_add_of_le' (Nat.le_trans (Nat.le_add_left 1 _) h)
  refine ⟨inner, rfl, fun field hfield => ?_⟩
  have hall := fieldsDepth_le.1 (Nat.le_of_add_le_add_right h)
  exact hall (some field.1, field.2) (List.mem_map.2 ⟨field, hfield, rfl⟩)

/-- An alternative takes up room for one more than its content. -/
theorem exists_room_of_tagged {tag : String} {content : Json} {room : Nat}
    (h : (tagged tag content).depth ≤ room) : ∃ inner, room = inner + 1 ∧ content.depth ≤ inner := by
  obtain ⟨inner, rfl, hfields⟩ := exists_room_of_record h
  exact ⟨inner, rfl, hfields _ (List.mem_singleton.2 rfl)⟩

/-! ## Faithful values -/

namespace Codec

/-- The value is represented by proper JSON, from which it is read again where there is room for what
the representation opens. -/
structure Faithful {α : Type} [Codec α] (a : α) : Prop where
  proper : (encode a).Proper
  decode : ∀ room, (encode a).depth ≤ room → decode? room (encode a) = some a

section Text

variable {α : Type} [Codec α] {a : α}

/-- A value that is represented faithfully is read back from its text, whatever blanks the style puts
into it. -/
theorem Faithful.read_eq_ok (h : Faithful a) {style : Style} (hstyle : style.Blank)
    (hdepth : (encode a).depth ≤ nestingLimit) : read ((encode a).write style) = .ok a := by
  rw [read, ofText?_write hstyle h.proper, Option.bind_some, h.decode nestingLimit hdepth]

end Text

/-! ## Plain values -/

/-- A string is represented faithfully. -/
theorem faithful_string (s : String) : Faithful s :=
  ⟨.string _, fun _ _ => rfl⟩

/-- A truth value is represented faithfully. -/
theorem faithful_bool (b : Bool) : Faithful b :=
  ⟨.bool b, fun _ _ => rfl⟩

/-- A natural number is read again if it fits into 64 bits. -/
theorem faithful_nat {n : Nat} (h : n < UInt64.size) : Faithful n :=
  ⟨.number (Decimal.Numeral.proper_ofNat n), fun _ _ => Decimal.Numeral.word?_ofNat h⟩

/-- A 64-bit number is represented faithfully. -/
theorem faithful_uint64 (n : UInt64) : Faithful n where
  proper := .number (Decimal.Numeral.proper_ofNat _)
  decode _ _ := by
    have hword := Decimal.Numeral.word?_ofNat n.toNat_lt
    show (Decimal.Numeral.ofNat n.toNat).word?.map UInt64.ofNat = some n
    rw [hword, Option.map_some, UInt64.ofNat_toNat]

/-- A signed 64-bit number is represented faithfully. -/
theorem faithful_int64 (n : Int64) : Faithful n :=
  ⟨.number (Decimal.Numeral.proper_ofInt _), fun _ _ => Decimal.Numeral.int64?_ofInt n⟩

section Containers

variable {α : Type} [Codec α]

/-- An optional value is read again, since what is there is not represented by null. -/
theorem faithful_option {o : Option α} (h : ∀ a ∈ o, Faithful a)
    (hnull : ∀ a ∈ o, encode a ≠ .null) : Faithful o := by
  cases o with
  | none => exact ⟨.null, fun _ _ => rfl⟩
  | some a =>
    refine ⟨(h a rfl).proper, fun room hroom => ?_⟩
    have hcontent : ∀ j : Json, j ≠ .null →
        (decode? room j : Option (Option α)) = some <$> decode? room j := by
      intro j hj
      cases j <;> first | rfl | exact absurd rfl hj
    exact (hcontent _ (hnull a rfl)).trans (congrArg (some <$> ·) ((h a rfl).decode room hroom))

/-- A list is represented faithfully if its items are. -/
theorem faithful_list {items : List α} (h : ∀ a ∈ items, Faithful a) : Faithful items where
  proper := by
    refine .array fun j hj => ?_
    obtain ⟨a, ha, rfl⟩ := List.mem_map.1 hj
    exact (h a ha).proper
  decode room hroom := by
    obtain ⟨inner, rfl, hitems⟩ := exists_room_of_array hroom
    rw [List.forall_mem_map] at hitems
    show (items.map encode).mapM (decode? inner) = some items
    clear hroom
    induction items with
    | nil => rfl
    | cons a items ih =>
      rw [List.forall_mem_cons] at h hitems
      simp [h.1.decode inner hitems.1, ih h.2 hitems.2]

end Containers

end Codec

/-! ## Records -/

/-- A record with proper fields is proper. -/
theorem proper_record {fields : List (String × Json)} (h : ∀ field ∈ fields, field.2.Proper) :
    (record fields).Proper := by
  refine .object fun field hfield => ?_
  obtain ⟨entry, hentry, rfl⟩ := List.mem_map.1 hfield
  exact h entry hentry

/-- A field that is not repeated is found. -/
theorem lookUp_of_mem {content : List (String × Json)} (hnames : (content.map Prod.fst).Nodup)
    {field : Field} {j : Json} (h : (field.name, j) ∈ content) :
    lookUp content field = some (some j) := by
  have hfilter : content.filter (·.1 == field.name) = [(field.name, j)] := by
    induction content with
    | nil => exact absurd h List.not_mem_nil
    | cons entry content ih =>
      rw [List.map_cons, List.nodup_cons] at hnames
      by_cases hname : entry.1 = field.name
      · have hentry : (field.name, j) = entry := by
          refine (List.mem_cons.1 h).resolve_right fun hmem => hnames.1 ?_
          exact List.mem_map.2 ⟨(field.name, j), hmem, hname.symm⟩
        have hnone : content.filter (·.1 == field.name) = [] := by
          refine List.filter_eq_nil_iff.2 fun other hother hsame => hnames.1 ?_
          exact List.mem_map.2 ⟨other, hother, (beq_iff_eq.1 hsame).trans hname.symm⟩
        rw [List.filter_cons_of_pos (by simpa using hname), hnone, hentry]
      · have hmem : (field.name, j) ∈ content :=
          (List.mem_cons.1 h).resolve_left fun heq => hname (heq ▸ rfl)
        rw [List.filter_cons_of_neg (by simpa using hname)]
        exact ih hnames.2 hmem
  rw [lookUp, hfilter]

/-- A field that may be missing from objects is found to be missing. -/
theorem lookUp_of_not_mem {content : List (String × Json)} {field : Field}
    (h : field.name ∉ content.map Prod.fst) (hmissing : field.missing ≠ .nowhere) :
    lookUp content field = some none := by
  have hfilter : content.filter (·.1 == field.name) = [] := by
    refine List.filter_eq_nil_iff.2 fun entry hentry hname => h ?_
    exact List.mem_map.2 ⟨entry, hentry, beq_iff_eq.1 hname⟩
  simp only [lookUp, hfilter, if_neg hmissing]

/-- A run over a list finds what each single run finds. -/
theorem mapM_eq_some {α β : Type} {f : α → Option β} {l : List α} {l' : List β}
    (h : List.Forall₂ (fun a b => f a = some b) l l') : l.mapM f = some l' := by
  induction h with
  | nil => rfl
  | cons hfirst _ ih => simp [hfirst, ih]

/-- Each of the present fields of a record is found with its content, and each of the absent ones, if it
may be missing from objects, is found to be missing. -/
theorem fields?_record (present absent : List Field) (contents : List Json)
    (hlength : present.length = contents.length)
    (hnames : ((present ++ absent).map Field.name).Nodup)
    (habsent : ∀ field ∈ absent, field.missing ≠ .nowhere) :
    fields? (present ++ absent) (record ((present.map Field.name).zip contents)) =
      some (contents.map some ++ absent.map fun _ => none) := by
  have hkeys : ((present.map Field.name).zip contents).map Prod.fst = present.map Field.name :=
    List.map_fst_zip (by simp [hlength])
  have hcontent : (((present.map Field.name).zip contents).map fun entry =>
      (some entry.1, entry.2)).mapM (fun entry : Text × Json => entry.1.map (·, entry.2)) =
        some ((present.map Field.name).zip contents) := by
    refine mapM_eq_some ?_
    rw [List.forall₂_map_left_iff]
    exact List.forall₂_same.2 fun _ _ => rfl
  rw [List.map_append, List.nodup_append] at hnames
  have hpresent : present.mapM (lookUp ((present.map Field.name).zip contents)) =
      some (contents.map some) := by
    refine mapM_eq_some (List.forall₂_map_right_iff.2 ?_)
    refine List.forall₂_iff_zip.2 ⟨hlength, fun {field j} hmem => ?_⟩
    refine lookUp_of_mem (by rw [hkeys]; exact hnames.1) ?_
    rw [List.zip_map_left]
    exact List.mem_map.2 ⟨(field, j), hmem, rfl⟩
  have hmissing : absent.mapM (lookUp ((present.map Field.name).zip contents)) =
      some (absent.map fun _ => none) := by
    refine mapM_eq_some (List.forall₂_map_right_iff.2 (List.forall₂_same.2 fun field hfield => ?_))
    refine lookUp_of_not_mem (fun hmem => ?_) (habsent field hfield)
    rw [hkeys] at hmem
    exact hnames.2.2 _ hmem _ (List.mem_map_of_mem hfield) rfl
  simp [fields?, record, hcontent, hpresent, hmissing]

/-- A record is represented faithfully if it is built again from the contents of its fields. -/
theorem Codec.faithful_record {α : Type} [Codec α] {a : α} (present absent : List Field)
    (contents : List Json) {build : Nat → List (Option Json) → Option α}
    (hdecode : ∀ room j, decode? (room + 1) j = (fields? (present ++ absent) j).bind (build room))
    (hencode : encode a = record ((present.map Field.name).zip contents))
    (hlength : present.length = contents.length)
    (hnames : ((present ++ absent).map Field.name).Nodup)
    (habsent : ∀ field ∈ absent, field.missing ≠ .nowhere)
    (hproper : ∀ j ∈ contents, j.Proper)
    (hbuild : ∀ room, (∀ j ∈ contents, j.depth ≤ room) →
      build room (contents.map some ++ absent.map fun _ => none) = some a) : Faithful a where
  proper := by
    rw [hencode]
    exact proper_record fun field hfield => hproper field.2 (List.of_mem_zip hfield).2
  decode room hroom := by
    rw [hencode] at hroom ⊢
    obtain ⟨inner, rfl, hfields⟩ := exists_room_of_record hroom
    rw [hdecode, fields?_record present absent contents hlength hnames habsent, Option.bind_some]
    refine hbuild inner fun j hj => ?_
    have hcontents : ((present.map Field.name).zip contents).map Prod.snd = contents :=
      List.map_snd_zip (by simp [hlength])
    rw [← hcontents] at hj
    obtain ⟨field, hfield, rfl⟩ := List.mem_map.1 hj
    exact hfields field hfield

/-! ## Alternatives -/

/-- The tag and the content of an alternative are found again. -/
theorem tagged?_tagged (tag : String) (content : Json) :
    tagged? (tagged tag content) = some (tag, content) :=
  rfl

/-- An alternative with content is not taken for one without content. -/
theorem constant?_tagged (room : Nat) (tag : String) {content : Json} (h : content ≠ .null) :
    constant? room (tagged tag content) = none := by
  cases room <;> cases content <;> first | rfl | exact absurd rfl h

/-- An alternative is represented faithfully if it is read again from its content. -/
theorem Codec.faithful_tagged {α : Type} [Codec α] {a : α} {tag : String} {content : Json}
    (hencode : encode a = tagged tag content) (hproper : content.Proper)
    (hdecode : ∀ room, content.depth ≤ room → decode? (room + 1) (tagged tag content) = some a) :
    Faithful a where
  proper := by
    rw [hencode]
    exact proper_record (by simpa using hproper)
  decode room hroom := by
    rw [hencode] at hroom ⊢
    obtain ⟨inner, rfl, hcontent⟩ := exists_room_of_tagged hroom
    exact hdecode inner hcontent

end QueryPlan.Json
