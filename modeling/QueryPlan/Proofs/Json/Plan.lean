import QueryPlan.Json.Plan
import QueryPlan.Proofs.Json.Expr

/-!
# Plans survive JSON

A plan is written with everything it stores, holes and broken links included, and it is read back as it
was, unless a floating-point number stands in it.  Three things about it are asked for: positions fit
into 64 bits, no predicate holds a floating-point number, and the limit for open arrays and objects is
kept.

Main results:

- Theorems `Filter.faithful`, `Operator.faithful` and `Node.faithful`: the parts of a plan are
  represented faithfully.
- Theorem `Plan.faithful`: so is the plan.
- Theorem `Plan.read_write`: a plan is read back from its text.
-/

namespace QueryPlan

open Json (Codec)

/-! ## Operators -/

/-- A filter is represented faithfully if no floating-point number stands in its predicate. -/
theorem Filter.faithful {f : Filter} (h : f.predicate.hasFloat = false) : Codec.Faithful f := by
  obtain ⟨predicate, columns, foreign, declaredScope⟩ := f
  have hpredicate : Codec.Faithful predicate := Expr.faithful h
  have hcolumns := columns.faithful
  have hforeign := foreign.faithful
  -- The declared scope is the only field that is left out where there is nothing to say.
  cases declaredScope with
  | none =>
    refine Codec.faithful_record (jsonFields.take 3) (jsonFields.drop 3) [_, _, _]
      (fun _ _ => rfl) rfl rfl (by decide) (by decide) ?_ fun room hroom => ?_
    · simpa using ⟨hpredicate.proper, hcolumns.proper, hforeign.proper⟩
    · simp only [List.forall_mem_cons] at hroom
      simp [jsonFields, hpredicate.decode, hcolumns.decode, hforeign.decode, hroom]
  | some scope =>
    have hscope : Codec.Faithful (some scope) :=
      Codec.faithful_option (fun scope _ => scope.faithful) (fun _ _ => nofun)
    refine Codec.faithful_record jsonFields [] [_, _, _, Codec.encode (some scope)]
      (fun _ _ => rfl) rfl rfl (by decide) (by simp) ?_ fun room hroom => ?_
    · simpa using ⟨hpredicate.proper, hcolumns.proper, hforeign.proper, hscope.proper⟩
    · simp only [List.forall_mem_cons] at hroom
      simp [hpredicate.decode, hcolumns.decode, hforeign.decode, hscope.decode, hroom]

/-- A join is represented faithfully. -/
theorem Join.faithful (j : Join) : Codec.Faithful j := by
  have hcolumns := j.columns.faithful
  have hforeign := j.foreign.faithful
  refine Codec.faithful_record jsonFields [] [_, _] (fun _ _ => rfl) rfl rfl (by decide) (by simp)
    ?_ fun room hroom => ?_
  · simpa using ⟨hcolumns.proper, hforeign.proper⟩
  · simp only [List.forall_mem_cons] at hroom
    simp [hcolumns.decode, hforeign.decode, hroom]

namespace Operator

/-- A record with one field is read again if the field is. -/
theorem decodeSingle?_encodeSingle {α : Type} [Codec α] {a : α} (h : Codec.Faithful a)
    (name : String) {room : Nat} (hroom : (encodeSingle name a).depth ≤ room) :
    decodeSingle? name room (encodeSingle name a) = some a := by
  obtain ⟨inner, rfl, hfields⟩ := Json.exists_room_of_record hroom
  simp only [List.forall_mem_cons] at hfields
  have hcontents : Json.fields? [⟨name, .nowhere⟩] (encodeSingle name a) =
      some [some (Codec.encode a)] :=
    Json.fields?_record [⟨name, .nowhere⟩] [] [_] rfl (by simp) (by simp)
  simp [decodeSingle?, hcontents, h.decode inner hfields.1]

/-- A record of one field is proper if what is in the field is represented faithfully. -/
theorem proper_encodeSingle {α : Type} [Codec α] {a : α} (h : Codec.Faithful a) (name : String) :
    (encodeSingle name a).Proper :=
  Json.proper_record (by simpa using h.proper)

/-- Whether a floating-point number stands in the predicate of an operator. -/
def hasFloat : Operator → Bool
  | .filter f => f.predicate.hasFloat
  | _ => false

/-- An operator is represented faithfully if no floating-point number stands in its predicate. -/
theorem faithful {op : Operator} (h : op.hasFloat = false) : Codec.Faithful op := by
  cases op with
  | scan table =>
    have htable := Codec.faithful_string table
    refine Codec.faithful_tagged rfl (proper_encodeSingle htable _) fun room hroom => ?_
    exact congrArg (Operator.scan <$> ·) (decodeSingle?_encodeSingle htable _ hroom)
  | filter f =>
    have hf := Filter.faithful h
    refine Codec.faithful_tagged rfl hf.proper fun room hroom => ?_
    exact congrArg (Operator.filter <$> ·) (hf.decode room hroom)
  | projection columns =>
    have hcolumns := columns.faithful
    refine Codec.faithful_tagged rfl (proper_encodeSingle hcolumns _) fun room hroom => ?_
    exact congrArg (Operator.projection <$> ·) (decodeSingle?_encodeSingle hcolumns _ hroom)
  | join j =>
    refine Codec.faithful_tagged rfl j.faithful.proper fun room hroom => ?_
    exact congrArg (Operator.join <$> ·) (j.faithful.decode room hroom)

end Operator

/-! ## Nodes and plans -/

/-- A position that fits into 64 bits is read again, and so is the lack of one. -/
theorem NodeId.faithful_option {id : Option NodeId} (h : id.all (· < UInt64.size) = true) :
    Codec.Faithful id := by
  refine Codec.faithful_option (fun x hx => Codec.faithful_nat ?_) (fun _ _ => nofun)
  obtain rfl : id = some x := hx
  simpa using h

namespace Node

/-- Whether the positions that a node refers to fit into 64 bits. -/
def isAddressable (n : Node) : Bool :=
  n.parent.all (· < UInt64.size) && n.children.all (· < UInt64.size)

/-- A node is represented faithfully if the positions it refers to fit into 64 bits and no
floating-point number stands in its predicate. -/
theorem faithful {n : Node} (haddressable : n.isAddressable = true)
    (hfloat : n.op.hasFloat = false) : Codec.Faithful n := by
  obtain ⟨hparent, hchildren⟩ := Bool.and_eq_true_iff.1 haddressable
  have hop := Operator.faithful hfloat
  have hparent := NodeId.faithful_option hparent
  have hchildren : Codec.Faithful n.children := by
    refine Codec.faithful_list fun id hid => Codec.faithful_nat ?_
    simpa using List.all_eq_true.1 hchildren id hid
  have hscope := n.scope.faithful
  have hvacuous := Codec.faithful_bool n.vacuous
  refine Codec.faithful_record jsonFields [] [_, _, _, _, _] (fun _ _ => rfl) rfl rfl (by decide)
    (by simp) ?_ fun room hroom => ?_
  · simpa using ⟨hop.proper, hparent.proper, hchildren.proper, hscope.proper, hvacuous.proper⟩
  · simp only [List.forall_mem_cons] at hroom
    simp [hop.decode, hparent.decode, hchildren.decode, hscope.decode, hvacuous.decode, hroom]

end Node

namespace Plan

/-- Whether all positions in a plan fit into 64 bits. -/
def isAddressable (p : Plan) : Bool :=
  p.root.all (· < UInt64.size) && p.nodes.toList.all (·.all Node.isAddressable)

/-- Whether a floating-point number stands in some predicate of a plan. -/
def hasFloat (p : Plan) : Bool :=
  p.nodes.toList.any (·.any (·.op.hasFloat))

/-- A plan is represented faithfully if its positions fit into 64 bits and no floating-point number
stands in its predicates. -/
theorem faithful {p : Plan} (haddressable : p.isAddressable = true) (hfloat : p.hasFloat = false) :
    Codec.Faithful p := by
  obtain ⟨hroot, hnodes⟩ := Bool.and_eq_true_iff.1 haddressable
  have hroot := NodeId.faithful_option hroot
  have hnodes : Codec.Faithful p.nodes.toList := by
    refine Codec.faithful_list fun slot hslot => Codec.faithful_option ?_ (fun _ _ => nofun)
    rintro n rfl
    have haddressable := List.all_eq_true.1 hnodes (some n) hslot
    have hfloat := List.any_eq_false.1 hfloat (some n) hslot
    exact Node.faithful haddressable (by simpa using hfloat)
  refine Codec.faithful_record jsonFields [] [_, _] (fun _ _ => rfl) rfl rfl (by decide) (by simp)
    ?_ fun room hroom => ?_
  · simpa using ⟨hnodes.proper, hroot.proper⟩
  · simp only [List.forall_mem_cons] at hroom
    simp [hnodes.decode, hroot.decode, hroom]

/-- A plan is read back from the text that is written for it, whatever its links are, if its positions
fit into 64 bits, no floating-point number stands in it, and fewer than 128 arrays and objects are
opened within each other. -/
theorem read_write {p : Plan} (haddressable : p.isAddressable = true) (hfloat : p.hasFloat = false)
    (hdepth : (Codec.encode p).depth < 128) : Codec.read (Codec.write p) = .ok p :=
  (faithful haddressable hfloat).read_eq_ok Json.Style.blank_compact (Nat.le_of_lt_succ hdepth)

/-- A plan with a hole, links that lead nowhere, a repeated column, the greatest positions, the least
64-bit integer, and text of which much has to be escaped. -/
def looseEnds : Plan where
  nodes := #[
    none,
    some ⟨.scan "\"\\/\u0001\u001f\u007fé😀", some 18446744073709551615, [], .singleton "b", false⟩,
    some ⟨.filter {
        predicate := .not (.binary
          (.binary (.column ⟨"", 18446744073709551615⟩) .ltEq (.literal (.int Int64.minValue))) .or
          (.binary (.literal (.string "\n\r\t")) .notEq (.literal .null)))
        columns := ⟨[⟨"a", 1⟩, ⟨"a", 1⟩]⟩
        declaredScope := some (.ofList ["b", "a"]) }, none, [7, 7], .empty, true⟩]
  root := some 0

/-- The theorem applies to a plan that no edit would make. -/
theorem read_write_looseEnds :
    looseEnds.isAddressable = true ∧ looseEnds.hasFloat = false ∧
      (Codec.encode looseEnds).depth < 128 ∧
      Codec.read (Codec.write looseEnds) = .ok looseEnds := by
  have haddressable : looseEnds.isAddressable = true := by decide
  have hfloat : looseEnds.hasFloat = false := by decide
  have hdepth : (Codec.encode looseEnds).depth < 128 := by decide
  exact ⟨haddressable, hfloat, hdepth, read_write haddressable hfloat hdepth⟩

end Plan

end QueryPlan
