import QueryPlan.Json.Expr
import QueryPlan.Proofs.Json.Codec

/-!
# Columns, constants and predicates survive JSON

Everything a predicate consists of is represented faithfully, floating-point constants apart: they are
written with as many digits as it takes to tell them apart, but they are read with rounding errors.

Main results:

- Theorems `ColumnSet.faithful` and `AliasSet.faithful`: lists of columns keep their order and their
  repetitions, and a set of aliases is built up again.
- Theorem `Expr.faithful`: predicates without floating-point constants are represented faithfully.
-/

namespace QueryPlan

open Json (Codec)

/-! ## Columns and aliases -/

/-- A column is represented faithfully. -/
theorem Column.faithful (c : Column) : Codec.Faithful c := by
  have htable := Codec.faithful_string c.table
  have hindex := Codec.faithful_uint64 c.index
  refine Codec.faithful_record jsonFields [] [_, _] (fun _ _ => rfl) rfl rfl (by decide) (by simp)
    ?_ fun room hroom => ?_
  · simpa using ⟨htable.proper, hindex.proper⟩
  · simp only [List.forall_mem_cons] at hroom
    simp [htable.decode, hindex.decode, hroom]

/-- A column set is represented faithfully, with the columns it repeats. -/
theorem ColumnSet.faithful (s : ColumnSet) : Codec.Faithful s := by
  have hcolumns : Codec.Faithful s.columns := Codec.faithful_list fun c _ => c.faithful
  refine ⟨hcolumns.proper, fun room hroom => ?_⟩
  exact congrArg (ColumnSet.mk <$> ·) (hcolumns.decode room hroom)

/-- A set is built up again from its members. -/
theorem AliasSet.ofList_aliases (s : AliasSet) : ofList s.aliases = s :=
  ext_mem fun _ => mem_ofList

/-- An alias set is represented faithfully. -/
theorem AliasSet.faithful (s : AliasSet) : Codec.Faithful s := by
  have haliases : Codec.Faithful s.aliases :=
    Codec.faithful_list fun a _ => Codec.faithful_string a
  refine ⟨haliases.proper, fun room hroom => ?_⟩
  have hdecode := congrArg (AliasSet.ofList <$> ·) (haliases.decode room hroom)
  exact hdecode.trans (congrArg some s.ofList_aliases)

/-! ## Constants -/

namespace Value

/-- Whether the value is a floating-point number. -/
def isFloat : Value → Bool
  | .float _ => true
  | _ => false

/-- Constants of a kind with contents are read from their contents. -/
theorem decode?_tagged (room : Nat) (tag : String) (content : Json) (h : content ≠ .null) :
    (Codec.decode? (room + 1) (.tagged tag content) : Option Value) =
      match tag with
      | "Bool" => .bool <$> Codec.decode? room content
      | "Int64" => .int <$> Codec.decode? room content
      | "Float64" => .float <$> Codec.decode? room content
      | "String" => .string <$> Codec.decode? room content
      | _ => none := by
  have hconstant : ¬Json.constant? (room + 1) (.tagged tag content) = some "Null" := by
    simp [Json.constant?_tagged _ _ h]
  refine (if_neg hconstant).trans ?_
  rw [Json.tagged?_tagged]
  split <;> simp_all

/-- A value that is no floating-point number is represented faithfully. -/
theorem faithful {v : Value} (h : v.isFloat = false) : Codec.Faithful v := by
  cases v with
  | null => exact ⟨.string _, fun _ _ => rfl⟩
  | bool b =>
    have hb := Codec.faithful_bool b
    refine Codec.faithful_tagged rfl hb.proper fun room hroom => ?_
    rw [decode?_tagged room "Bool" (Codec.encode b) nofun, hb.decode room hroom]
    rfl
  | int n =>
    have hn := Codec.faithful_int64 n
    refine Codec.faithful_tagged rfl hn.proper fun room hroom => ?_
    rw [decode?_tagged room "Int64" (Codec.encode n) nofun, hn.decode room hroom]
    rfl
  | float x => exact absurd h nofun
  | string s =>
    have hs := Codec.faithful_string s
    refine Codec.faithful_tagged rfl hs.proper fun room hroom => ?_
    rw [decode?_tagged room "String" (Codec.encode s) nofun, hs.decode room hroom]
    rfl

end Value

/-! ## Predicates -/

/-- An operator between expressions is represented faithfully. -/
theorem BinaryOp.faithful (op : BinaryOp) : Codec.Faithful op := by
  have hname : BinaryOp.ofName? op.name = some op := by
    cases op <;> decide
  exact ⟨.string _, fun _ _ => hname⟩

namespace Expr

/-- Whether a floating-point number stands in an expression. -/
def hasFloat : Expr → Bool
  | .column _ => false
  | .literal v => v.isFloat
  | .binary left _ right => left.hasFloat || right.hasFloat
  | .not operand => operand.hasFloat

/-- A predicate without floating-point constants is represented faithfully. -/
theorem faithful {e : Expr} (h : e.hasFloat = false) : Codec.Faithful e := by
  induction e with
  | column c =>
    refine Codec.faithful_tagged rfl c.faithful.proper fun room hroom => ?_
    exact congrArg (Expr.column <$> ·) (c.faithful.decode room hroom)
  | literal v =>
    have hv := Value.faithful h
    refine Codec.faithful_tagged rfl hv.proper fun room hroom => ?_
    exact congrArg (Expr.literal <$> ·) (hv.decode room hroom)
  | binary left op right ihl ihr =>
    obtain ⟨hl, hr⟩ := Bool.or_eq_false_iff.1 h
    have hleft := ihl hl
    have hop := op.faithful
    have hright := ihr hr
    have hproper : (Json.record
        [("left", left.toJson), ("op", Codec.encode op), ("right", right.toJson)]).Proper := by
      refine Json.proper_record ?_
      simpa using ⟨hleft.proper, hop.proper, hright.proper⟩
    refine Codec.faithful_tagged rfl hproper fun room hroom => ?_
    obtain ⟨inner, rfl, hfields⟩ := Json.exists_room_of_record hroom
    simp only [List.forall_mem_cons] at hfields
    have hcontents : Json.fields? jsonFields
        (.record [("left", left.toJson), ("op", Codec.encode op), ("right", right.toJson)]) =
          some [some left.toJson, some (Codec.encode op), some right.toJson] :=
      Json.fields?_record jsonFields [] [_, _, _] rfl (by decide) (by simp)
    have hleft : ofJson? inner left.toJson = some left := hleft.decode inner hfields.1
    have hop := hop.decode inner hfields.2.1
    have hright : ofJson? inner right.toJson = some right := hright.decode inner hfields.2.2.1
    change ofJson? (inner + 2) _ = _
    rw [ofJson?, Json.tagged?_tagged]
    simp [hcontents, hleft, hop, hright]
  | not operand ih =>
    have hoperand := ih h
    refine Codec.faithful_tagged rfl hoperand.proper fun room hroom => ?_
    exact congrArg (Expr.not <$> ·) (hoperand.decode room hroom)

end Expr

end QueryPlan
