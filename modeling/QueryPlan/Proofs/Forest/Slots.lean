import QueryPlan.Proofs.Forest.History

/-!
# Slots

A node that is the root or stands below another one occupies one slot, and a slot has one occupant.
Putting a node into the slot of another one relinks few nodes, and which ones can be said for each node
of the store by itself: the two nodes that are exchanged, and the nodes above them.

Main results:

- Theorem `Plan.WellLinked.slot?_eq_some_iff`: slots and their occupants determine each other.
- Definition `Reseating.node`: what a node is after another one has been put into a slot.
- Theorem `Plan.WellLinked.exists_replace`: the plan after that, node by node.
- Theorem `Plan.WellLinked.slots_exact`: both together.
-/

namespace QueryPlan

/-! ## Lists without repetitions -/

section Nodup

variable {l : List NodeId} {a b : NodeId} {i : Nat}

/-- In a list without repetitions, a member is found at the only place where it stands. -/
theorem idxOf?_eq_some_iff_of_nodup (h : l.Nodup) : l.idxOf? a = some i ↔ l[i]? = some a := by
  rw [List.idxOf?_eq_some_iff, List.getElem?_eq_some_iff]
  refine exists_congr fun hi => and_iff_left_of_imp ?_
  rintro rfl j hj heq
  exact Nat.ne_of_lt hj ((h.getElem_inj_iff).1 heq)

/-- Writing at the only place of a member replaces the member. -/
theorem set_eq_replace (h : l.Nodup) (hi : l.idxOf? a = some i) : l.set i b = l.replace a b := by
  have hmem : a ∈ l := by
    rw [idxOf?_eq_some_iff_of_nodup h] at hi
    exact List.mem_of_getElem? hi
  obtain ⟨left, right, rfl⟩ := List.append_of_mem hmem
  have hleft : a ∉ left := by
    rw [List.nodup_middle, List.nodup_cons, List.mem_append, not_or] at h
    exact h.1.1
  rw [Plan.Splits.idxOf?_middle hleft] at hi
  rw [Plan.Splits.set_middle (Option.some.inj hi), List.replace_append_right hleft,
    List.replace_cons_self]

/-- Removing something that does not occur in a list changes nothing. -/
theorem filter_ne_eq_self (h : a ∉ l) : l.filter (· != a) = l :=
  List.filter_eq_self.2 fun _ hx => bne_iff_ne.2 fun e => h (e ▸ hx)

end Nodup

/-- A node is put into the slot of another one. -/
structure Reseating where
  /-- The node whose slot it is. -/
  old : NodeId
  /-- The node that is put there. -/
  new : NodeId
  /-- The parent of `old` before. -/
  above : Option NodeId
  /-- The parent of `new` before. -/
  former : Option NodeId

/-- The root afterwards, if it was `root` before. -/
def Reseating.root (m : Reseating) (root : Option NodeId) : Option NodeId :=
  if root = some m.old then some m.new else if root = some m.new then none else root

/-- The node at position `x` afterwards, if it was `n` before. -/
def Reseating.node (m : Reseating) (x : NodeId) (n : Node) : Node :=
  { n with
    parent := if x = m.new then m.above else if x = m.old then none else n.parent
    children :=
      if m.above = some x then (n.children.filter (· != m.new)).replace m.old m.new
      else if m.former = some x then n.children.filter (· != m.new)
      else n.children }

namespace Plan

/-- The node is there, and it is the root or has a parent. -/
def Attached (p : Plan) (x : NodeId) : Prop :=
  ∃ n, p.get? x = some n ∧ (p.root = some x ∨ n.parent.isSome = true)

variable {p : Plan} {x y old new : NodeId} {m n o : Node} {s : Slot}

/-- A node that is there is updated. -/
theorem exists_update (hx : p.get? x = some n) (f : Node → Node) :
    ∃ q, p.update x f = .ok q ∧ q.root = p.root ∧ q.nodes.size = p.nodes.size ∧
      ∀ y, q.get? y = if x = y then (p.get? y).map f else p.get? y :=
  ⟨p.modify x f, update_of_get? hx f, rfl, size_modify .., fun y => get?_modify p x y f⟩

/-- A node that is there and stays as it is. -/
theorem update_eq_self (hx : p.get? x = some n) {f : Node → Node} (hf : f n = n) :
    p.update x f = .ok p := by
  obtain ⟨q, hq, hroot, hsize, hget⟩ := exists_update hx f
  rw [hq, ext_get? hroot hsize fun y => ?_]
  rw [hget]
  split
  · subst y
    rw [hx, Option.map_some, hf]
  · rfl

/-- A node without a parent may only be the root. -/
theorem detach_of_lone (hx : p.get? x = some n) (hparent : n.parent = none) :
    p.detach x = .ok { p with root := if p.root = some x then none else p.root } := by
  rw [detach, node_of_get? hx, ok_bind, hparent]
  by_cases hroot : p.root = some x <;> simp [hroot]

/-- Putting a node into the slot of one without a parent changes the root at most. -/
theorem seat_of_lone (hold : p.get? old = some o) (hparent : o.parent = none) :
    p.seat old new = .ok { p with root := if p.root = some old then some new else p.root } := by
  have hslot : p.slot? old = .ok (if p.root = some old then some .root else none) := by
    rw [slot?, node_of_get? hold, ok_bind, hparent]
    rfl
  have hold' : ({ p with root := some new } : Plan).get? old = some o := hold
  rw [seat, hslot]
  by_cases hroot : p.root = some old
  · simp [hroot, update_eq_self hold' (f := ({ · with parent := none })) (by rw [← hparent])]
  · simp [hroot, update_eq_self hold (f := ({ · with parent := none })) (by rw [← hparent])]

namespace WellLinked

/-- Where links are sound, no node lists a child twice. -/
theorem nodup_children (h : p.WellLinked) (hx : p.get? x = some n) : n.children.Nodup :=
  h.owned.nodup hx

/-- A child that is there records the node that lists it. -/
theorem parent_eq (h : p.WellLinked) (hx : p.get? x = some m) (hy : y ∈ m.children)
    (hn : p.get? y = some n) : n.parent = some x := by
  obtain ⟨n', hn', hparent⟩ := h.child hx y hy
  obtain rfl := Option.some.inj (hn.symm.trans hn')
  exact hparent

/-- Where links are sound, a node that records a parent is not the root. -/
theorem root_ne (h : p.WellLinked) (hx : p.get? x = some n) (hparent : n.parent = some y) :
    p.root ≠ some x := by
  intro hroot
  obtain ⟨n', hn', hnone⟩ := h.root hroot
  obtain rfl := Option.some.inj (hx.symm.trans hn')
  exact Option.some_ne_none y (hparent.symm.trans hnone)

/-! ## Slots and occupants -/

/-- A node occupies the slot that it is said to occupy, and no other one. -/
theorem slot?_eq_some_iff (h : p.WellLinked) :
    p.slot? x = .ok (some s) ↔ p.occupant? s = some x := by
  cases s with
  | root =>
    constructor
    · intro hslot
      obtain ⟨n, -, hslot⟩ := bind_eq_ok.1 hslot
      cases hparent : n.parent with
      | none =>
        rw [hparent] at hslot
        by_contra hroot
        have hroot' : p.root ≠ some x := hroot
        simp [hroot'] at hslot
      | some y =>
        rw [hparent] at hslot
        obtain ⟨m, -, hslot⟩ := bind_eq_ok.1 hslot
        cases hi : m.children.idxOf? x <;> simp [hi] at hslot
    · intro hroot
      have hroot' : p.root = some x := hroot
      obtain ⟨n, hn, hparent⟩ := h.root hroot'
      simp [slot?, node_of_get? hn, hparent, hroot']
  | child y i =>
    constructor
    · intro hslot
      obtain ⟨n, hn, hslot⟩ := bind_eq_ok.1 hslot
      cases hparent : n.parent with
      | none =>
        rw [hparent] at hslot
        by_cases hroot : p.root = some x <;> simp [hroot] at hslot
      | some z =>
        rw [hparent] at hslot
        obtain ⟨m, hm, hslot⟩ := bind_eq_ok.1 hslot
        have hm' := get?_of_node hm
        obtain ⟨j, hj, hslot⟩ := Option.map_eq_some_iff.1 (Except.ok.inj hslot)
        obtain ⟨rfl, rfl⟩ := Slot.child.inj hslot
        have hx := (idxOf?_eq_some_iff_of_nodup (h.nodup_children hm')).1 hj
        simp [occupant?, hm', hx]
    · intro hocc
      obtain ⟨m, hm, hx⟩ := Option.bind_eq_some_iff.1 hocc
      have hmem : x ∈ m.children := List.mem_of_getElem? hx
      obtain ⟨n, hn, hparent⟩ := h.child hm x hmem
      have hi := (idxOf?_eq_some_iff_of_nodup (h.nodup_children hm)).2 hx
      simp [slot?, node_of_get? hn, hparent, node_of_get? hm, hi]

/-- The nodes that occupy slots are those that are attached. -/
theorem exists_occupant_iff (h : p.WellLinked) :
    (∃ s, p.occupant? s = some x) ↔ p.Attached x := by
  constructor
  · rintro ⟨s, hocc⟩
    cases s with
    | root =>
      have hroot : p.root = some x := hocc
      obtain ⟨n, hn, -⟩ := h.root hroot
      exact ⟨n, hn, .inl hroot⟩
    | child y i =>
      obtain ⟨m, hm, hx⟩ := Option.bind_eq_some_iff.1 hocc
      obtain ⟨n, hn, hparent⟩ := h.child hm x (List.mem_of_getElem? hx)
      exact ⟨n, hn, .inr (by rw [hparent]; rfl)⟩
  · rintro ⟨n, hn, hroot | hparent⟩
    · exact ⟨.root, hroot⟩
    · obtain ⟨y, hy⟩ := Option.isSome_iff_exists.1 hparent
      obtain ⟨m, hm, hmem⟩ := h.parent hn y hy
      obtain ⟨i, hi⟩ := List.mem_iff_getElem?.1 hmem
      exact ⟨.child y i, by simp [occupant?, hm, hi]⟩

/-! ## Taking a node out of its slot -/

/-- Only the node above lists a node. -/
theorem filter_children (h : p.WellLinked) (hnew : p.get? new = some n) (hx : p.get? x = some m)
    (hne : n.parent ≠ some x) : m.children.filter (· != new) = m.children :=
  filter_ne_eq_self fun hmem => hne (h.parent_eq hx hmem hnew)

/-- A node that is taken out of its slot is listed nowhere and records no parent. -/
theorem exists_detach (h : p.WellLinked) (hnew : p.get? new = some n) :
    ∃ q, p.detach new = .ok q ∧ q.nodes.size = p.nodes.size ∧
      q.root = (if p.root = some new then none else p.root) ∧
      ∀ x, q.get? x = (p.get? x).map fun m =>
        { m with
          parent := if x = new then none else m.parent
          children := m.children.filter (· != new) } := by
  cases hparent : n.parent with
  | none =>
    refine ⟨_, detach_of_lone hnew hparent, rfl, rfl, fun x => ?_⟩
    show p.get? x = _
    cases hx : p.get? x with
    | none => rfl
    | some m =>
      have hchildren := h.filter_children hnew hx (by simp [hparent])
      by_cases heq : x = new
      · subst heq
        obtain rfl := Option.some.inj (hx.symm.trans hnew)
        simp [hchildren, ← hparent]
      · simp [hchildren, heq]
  | some y =>
    obtain ⟨k, hk, -⟩ := h.parent hnew y hparent
    have hne : y ≠ new := fun e => h.acyclic new (.single ⟨n, hnew, e ▸ hparent⟩)
    obtain ⟨q₁, hq₁, hroot₁, hsize₁, hget₁⟩ :=
      exists_update hk fun m => { m with children := m.children.filter (· != new) }
    have hnew₁ : q₁.get? new = some n := by rw [hget₁, if_neg hne, hnew]
    obtain ⟨q₂, hq₂, hroot₂, hsize₂, hget₂⟩ := exists_update hnew₁ ({ · with parent := none })
    refine ⟨q₂, ?_, hsize₂.trans hsize₁, ?_, fun x => ?_⟩
    · rw [detach, node_of_get? hnew, ok_bind, hparent]
      simp only [hq₁, ok_bind, hq₂]
    · rw [hroot₂, hroot₁, if_neg (h.root_ne hnew hparent)]
    · rw [hget₂, hget₁]
      cases hx : p.get? x with
      | none => simp
      | some m =>
        by_cases hy : y = x
        · subst hy
          simp [hne.symm, hne]
        · have hchildren := h.filter_children hnew hx (by simpa [hparent] using hy)
          by_cases hx' : new = x
          · subst hx'
            simp [hy, hchildren]
          · simp [hy, hx', hchildren, Ne.symm hx']

/-! ## Putting a node into a slot -/

/-- A lone node is put into the slot of another one. -/
theorem exists_seat (h : p.WellLinked) (hold : p.get? old = some o) (hnew : p.get? new = some n)
    (hne : old ≠ new) (hlone : n.parent = none) (hbelow : o.parent ≠ some new) :
    ∃ q, p.seat old new = .ok q ∧ q.nodes.size = p.nodes.size ∧
      q.root = (if p.root = some old then some new else p.root) ∧
      ∀ x, q.get? x = (p.get? x).map fun m =>
        { m with
          parent := if x = old then none else if x = new then o.parent else m.parent
          children := if o.parent = some x then m.children.replace old new else m.children } := by
  cases hparent : o.parent with
  | none =>
    refine ⟨_, seat_of_lone hold hparent, rfl, rfl, fun x => ?_⟩
    show p.get? x = _
    by_cases hx : x = old
    · subst hx
      have hself : { o with parent := none } = o := by rw [← hparent]
      simp [hold, hself]
    · by_cases hx' : x = new
      · subst hx'
        have hself : { n with parent := none } = n := by rw [← hlone]
        simp [hnew, hx, hself]
      · simp [hx, hx']
  | some y =>
    obtain ⟨k, hk, hmem⟩ := h.parent hold y hparent
    have hy : y ≠ new := fun e => hbelow (e ▸ hparent)
    have hyold : y ≠ old := fun e => h.acyclic old (.single ⟨o, hold, e ▸ hparent⟩)
    have hnodup := h.nodup_children hk
    obtain ⟨i, hi⟩ := List.mem_iff_getElem?.1 hmem
    have hslot : p.slot? old = .ok (some (.child y i)) :=
      h.slot?_eq_some_iff.2 (by simp [occupant?, hk, hi])
    have hset : k.children.set i new = k.children.replace old new :=
      set_eq_replace hnodup ((idxOf?_eq_some_iff_of_nodup hnodup).2 hi)
    obtain ⟨q₁, hq₁, hroot₁, hsize₁, hget₁⟩ :=
      exists_update hk fun m => { m with children := m.children.set i new }
    have hnew₁ : q₁.get? new = some n := by rw [hget₁, if_neg hy, hnew]
    obtain ⟨q₂, hq₂, hroot₂, hsize₂, hget₂⟩ := exists_update hnew₁ ({ · with parent := some y })
    have hold₂ : q₂.get? old = some o := by
      rw [hget₂, if_neg hne.symm, hget₁, if_neg hyold, hold]
    obtain ⟨q₃, hq₃, hroot₃, hsize₃, hget₃⟩ := exists_update hold₂ ({ · with parent := none })
    refine ⟨q₃, ?_, ?_, ?_, fun x => ?_⟩
    · rw [seat, hslot]
      simp only [ok_bind, hq₁, hq₂, hq₃]
    · rw [hsize₃, hsize₂, hsize₁]
    · rw [hroot₃, hroot₂, hroot₁, if_neg (h.root_ne hold hparent)]
    · rw [hget₃, hget₂, hget₁]
      by_cases hyx : y = x
      · subst hyx
        simp [hk, hset, hy, hy.symm, hyold, hyold.symm]
      · by_cases hx : old = x
        · subst hx
          simp [hold, hyx, hne.symm]
        · by_cases hx' : new = x
          · subst hx'
            simp [hnew, hyx, hx, Ne.symm hx]
          · simp [hyx, hx, hx', Ne.symm hx, Ne.symm hx']

/-- Of all nodes, only those above the two that are exchanged list other children afterwards. -/
theorem node_eq (h : p.WellLinked) (hnew : p.get? new = some n) (hx : p.get? x = some m)
    (above : Option NodeId) :
    Reseating.node ⟨old, new, above, n.parent⟩ x m =
      { m with
        parent := if x = new then above else if x = old then none else m.parent
        children :=
          if above = some x then (m.children.filter (· != new)).replace old new
          else m.children.filter (· != new) } := by
  rw [Reseating.node]
  by_cases hformer : n.parent = some x
  · simp only [if_pos hformer]
  · simp only [if_neg hformer, h.filter_children hnew hx hformer]

/-- A node is put into the slot of another one that does not stand below it. -/
theorem exists_replace (h : p.WellLinked) (hold : p.get? old = some o) (hnew : p.get? new = some n)
    (hne : old ≠ new) (hbelow : ¬ p.Ancestor new old) :
    ∃ q, p.replace old new = .ok q ∧ q.nodes.size = p.nodes.size ∧
      q.root = Reseating.root ⟨old, new, o.parent, n.parent⟩ p.root ∧
      ∀ x, q.get? x = (p.get? x).map (Reseating.node ⟨old, new, o.parent, n.parent⟩ x) := by
  obtain ⟨q₁, hq₁, hsize₁, hroot₁, hget₁⟩ := h.exists_detach hnew
  have hold₁ : q₁.get? old = some { o with children := o.children.filter (· != new) } := by
    rw [hget₁, hold, Option.map_some, if_neg hne]
  have hnew₁ : q₁.get? new = some
      { n with parent := none, children := n.children.filter (· != new) } := by
    rw [hget₁, hnew, Option.map_some, if_pos rfl]
  have hlinked : q₁.WellLinked := by
    obtain ⟨q, hq, hlinked⟩ := h.exists_run (e := .detach new) (by rw [Edit.Allowed, hnew]; rfl)
    obtain rfl := Except.ok.inj (hq₁.symm.trans hq)
    exact hlinked
  obtain ⟨q₂, hq₂, hsize₂, hroot₂, hget₂⟩ := hlinked.exists_seat hold₁ hnew₁ hne rfl
    fun hparent => hbelow (.single ⟨o, hold, hparent⟩)
  refine ⟨q₂, ?_, hsize₂.trans hsize₁, ?_, fun x => ?_⟩
  · rw [replace_eq hne, hq₁, ok_bind, hq₂]
  · rw [hroot₂, hroot₁, Reseating.root]
    by_cases hroot : p.root = some old
    · simp [hroot, hne]
    · by_cases hroot' : p.root = some new <;> simp [hroot, hroot', hne.symm]
  · rw [hget₂, hget₁]
    cases hx : p.get? x with
    | none => rfl
    | some m =>
      rw [Option.map_some, Option.map_some, Option.map_some, h.node_eq hnew hx]
      by_cases hx' : x = old
      · subst hx'
        simp [hne]
      · by_cases hx'' : x = new
        · subst hx''
          simp [hx']
        · simp [hx', hx'']

/-- In a plan with sound links, slots and the nodes in them determine each other.  Putting a node into
the slot of another one that does not stand below it relinks the two and the nodes above them.  The node
that is replaced need not be attached itself: then the other one is merely detached. -/
theorem slots_exact (h : p.WellLinked) :
    (∀ x s, p.slot? x = .ok (some s) ↔ p.occupant? s = some x) ∧
    (∀ x, (∃ s, p.slot? x = .ok (some s)) ↔ p.Attached x) ∧
    ∀ old new o n, p.get? old = some o → p.get? new = some n → old ≠ new → ¬ p.Ancestor new old →
      ∃ q, p.replace old new = .ok q ∧ q.nodes.size = p.nodes.size ∧
        q.root = Reseating.root ⟨old, new, o.parent, n.parent⟩ p.root ∧
        ∀ x, q.get? x = (p.get? x).map (Reseating.node ⟨old, new, o.parent, n.parent⟩ x) :=
  ⟨fun _ _ => h.slot?_eq_some_iff,
    fun _ => (exists_congr fun _ => h.slot?_eq_some_iff).trans h.exists_occupant_iff,
    fun _ _ _ _ hold hnew hne hbelow => h.exists_replace hold hnew hne hbelow⟩

end WellLinked

/-- A join that is the root, and a scan that has not been put anywhere. -/
def spareScan : Plan where
  nodes := #[
    some ⟨.scan "a", some 2, [], .singleton "a", false⟩,
    some ⟨.scan "b", some 2, [], .singleton "b", false⟩,
    some ⟨.join ⟨.ofList [⟨"a", 1⟩, ⟨"b", 1⟩], .empty⟩, none, [0, 1], .ofList ["a", "b"], false⟩,
    some ⟨.scan "c", none, [], .singleton "c", false⟩]
  root := some 2

/-- The links of the plan with a spare scan are sound. -/
theorem wellLinked_spareScan : spareScan.WellLinked := by
  have hbuilt : Plan.empty.Evolves spareScan := by
    refine .head ⟨.scan "a", trivial, rfl⟩ <| .head ⟨.scan "b", trivial, rfl⟩ <|
      .head ⟨.join [0, 1] ⟨.ofList [⟨"a", 1⟩, ⟨"b", 1⟩], .empty⟩, ?_, rfl⟩ <|
      .head ⟨.scan "c", trivial, rfl⟩ <| .single ⟨.setRoot 2, ⟨_, rfl, rfl⟩, rfl⟩
    refine ⟨by decide, fun x hx => ?_⟩
    rcases List.mem_pair.1 hx with rfl | rfl <;> exact ⟨⟨_, rfl, rfl⟩, by decide⟩
  exact hbuilt.wellLinked wellLinked_empty

/-- A scan takes the place of the join above it, which keeps its other child. -/
theorem slots_exact_spareScan :
    spareScan.WellLinked ∧ spareScan.slot? 1 = .ok (some (.child 2 1)) ∧ ¬ spareScan.Attached 3 ∧
    ∃ o n, spareScan.get? 2 = some o ∧ spareScan.get? 0 = some n ∧ ¬ spareScan.Ancestor 0 2 ∧
      ∃ q, spareScan.replace 2 0 = .ok q ∧ q.root = some 0 ∧
        q.get? 0 = some { n with parent := none } ∧ q.get? 2 = some { o with children := [1] } := by
  have hlinked := wellLinked_spareScan
  obtain ⟨hslot, hattached, hreplace⟩ := WellLinked.slots_exact hlinked
  have htop : ¬ spareScan.Ancestor 0 2 := by
    intro h
    obtain ⟨x, -, n, hget, hparent⟩ := Relation.TransGen.tail'_iff.1 h
    obtain rfl := Option.some.inj hget
    exact Option.some_ne_none x hparent.symm
  refine ⟨hlinked, (hslot 1 (.child 2 1)).2 rfl, ?_, _, _, rfl, rfl, htop, ?_⟩
  · rw [← hattached]
    rintro ⟨s, hs⟩
    exact absurd (Except.ok.inj hs) (Option.some_ne_none s).symm
  · obtain ⟨q, hq, -, hroot, hget⟩ := hreplace 2 0 _ _ rfl rfl (by decide) htop
    exact ⟨q, hq, hroot, hget 0, hget 2⟩

end Plan

end QueryPlan
