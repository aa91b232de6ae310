import Mathlib.Data.List.Forall2
import QueryPlan.Text.Outline

/-!
# Drawn outlines can be read back

An entry has to say its label, and then its remark in parentheses if it has one.  In a drawing there is
a line for each entry, with these contents behind strokes that tell where the entry belongs.  The
strokes are read from left to right, three characters at a time: a gutter says that the line belongs
below an entry that was drawn before, a corner or a branching that the contents come next.  Whatever
the contents look like, they come behind these strokes, so they cannot be taken for strokes.

Main results:

- Theorem `eq_of_join_lines`: a text determines its lines.
- Definition `Outline.contents`: what the entries of an outline have to say, in preorder.
- Theorem `Outline.draws_rows`: the lines of a drawing have the contents of the entries, in preorder.
- Theorem `Outline.branchRows_cancel`: the lines of entries determine their shape and their contents,
  and where the lines end.
- Theorem `Outline.branchRows_congr`: shape and contents determine the lines.
- Theorem `Outline.render_exact`: a drawing has the contents of the outline line by line, and outlines
  are drawn alike exactly if they have the same shape and the same contents.
-/

namespace QueryPlan.Text

/-! ## Lines of a text -/

/-- Two lists that are equal have the same part before the first occurrence of a member. -/
theorem append_cons_cancel {α : Type} {a : α} {l l' r r' : List α} (hl : a ∉ l) (hl' : a ∉ l')
    (h : l ++ a :: r = l' ++ a :: r') : l = l' ∧ r = r' := by
  -- One part is the beginning of the other one; what the longer part has more begins with `a`.
  have hnil : ∀ {m k k' : List α}, a ∉ m → a :: k = m ++ a :: k' → m = [] := by
    intro m k k' hm heq
    cases m with
    | nil => rfl
    | cons b m => exact absurd (List.mem_cons.2 (.inl (List.cons.inj heq).1)) hm
  rcases List.append_eq_append_iff.1 h with ⟨m, rfl, heq⟩ | ⟨m, rfl, heq⟩
  · obtain rfl := hnil (fun hm => hl' (List.mem_append_right l hm)) heq
    exact ⟨(List.append_nil l).symm, (List.cons.inj heq).2⟩
  · obtain rfl := hnil (fun hm => hl (List.mem_append_right l' hm)) heq
    exact ⟨List.append_nil l', (List.cons.inj heq).2.symm⟩

/-- A text in which every line is closed by a line feed determines its lines. -/
theorem eq_of_join_lines {ls ls' : List String} (hls : ∀ l ∈ ls, '\n' ∉ l.toList)
    (hls' : ∀ l ∈ ls', '\n' ∉ l.toList)
    (h : String.join (ls.map (· ++ "\n")) = String.join (ls'.map (· ++ "\n"))) : ls = ls' := by
  have hcons : ∀ (l : String) (ls : List String), (String.join ((l :: ls).map (· ++ "\n"))).toList =
      l.toList ++ '\n' :: (String.join (ls.map (· ++ "\n"))).toList := by
    intro l ls
    simp
  induction ls generalizing ls' with
  | nil =>
    cases ls' with
    | nil => rfl
    | cons l' ls' =>
      have hempty := congrArg String.toList h
      rw [hcons] at hempty
      simp at hempty
  | cons l ls ih =>
    cases ls' with
    | nil =>
      have hempty := congrArg String.toList h
      rw [hcons] at hempty
      simp at hempty
    | cons l' ls' =>
      rw [List.forall_mem_cons] at hls hls'
      have hchars := congrArg String.toList h
      rw [hcons, hcons] at hchars
      obtain ⟨hl, hrest⟩ := append_cons_cancel hls.1 hls'.1 hchars
      rw [String.toList_inj.1 hl, ih hls.2 hls'.2 (String.toList_inj.1 hrest)]

namespace Outline

/-! ## What an outline consists of -/

/-- An ordered tree without anything on its nodes. -/
inductive Shape where
  | node (branches : List Shape)

/-- How the entries of an outline are arranged. -/
def shape : Outline → Shape
  | .entry _ _ children => .node (children.map shape)

/-- What the entries of an outline have to say, in preorder: each its label, followed by its remark in
parentheses if it has one. -/
def contents : Outline → List String
  | .entry label none children => label :: children.flatMap contents
  | .entry label (some remark) children =>
    (label ++ " (" ++ remark ++ ")") :: children.flatMap contents

/-- The labels and remarks of an outline, in preorder. -/
def texts : Outline → List String
  | .entry label remark children => label :: (remark.toList ++ children.flatMap texts)

/-- No label and no remark of the outline contains a line feed. -/
def Unbroken (o : Outline) : Prop :=
  ∀ s ∈ o.texts, '\n' ∉ s.toList

/-- Induction over outlines at the same level: what holds of some outlines follows from what holds of
those below the first one and of those after it. -/
@[elab_as_elim]
theorem inductLevel {motive : List Outline → Prop} (nil : motive [])
    (cons : ∀ label remark children rest, motive children → motive rest →
      motive (.entry label remark children :: rest)) : ∀ os, motive os
  | [] => nil
  | .entry label remark children :: rest =>
    cons label remark children rest (inductLevel nil cons children) (inductLevel nil cons rest)

section Entry

variable (label : String) (remark : Option String) (children : List Outline)

/-- The shape of an entry is that of the entries below it, in order. -/
@[simp]
theorem shape_entry : (entry label remark children).shape = .node (children.map shape) := by
  rw [shape]

/-- The caption of an entry is what the entry has to say. -/
@[simp]
theorem contents_entry :
    (entry label remark children).contents =
      caption label remark :: children.flatMap contents := by
  cases remark with
  | none => rw [contents, caption]
  | some remark => rw [contents, caption]

/-- The texts of an entry are its label, its remark and then the texts below. -/
@[simp]
theorem texts_entry :
    (entry label remark children).texts =
      label :: (remark.toList ++ children.flatMap texts) := by
  rw [texts]

end Entry

/-! ## Strokes -/

/-- The strokes directly in front of a caption. -/
def connector (last : Bool) : String :=
  if last then "└─ " else "├─ "

/-- The strokes that lead past an entry to what is below it. -/
def gutter (last : Bool) : String :=
  if last then "   " else "│  "

/-- No entries, no lines. -/
@[simp]
theorem branchRows_nil (lead : String) : branchRows lead [] = [] := by
  rw [branchRows]

/-- An entry and those that come after it at the same level. -/
theorem branchRows_cons (lead label : String) (remark : Option String)
    (children rest : List Outline) :
    branchRows lead (.entry label remark children :: rest) =
      (lead ++ (connector rest.isEmpty ++ caption label remark)) ::
        (branchRows (lead ++ gutter rest.isEmpty) children ++ branchRows lead rest) := by
  cases rest with
  | nil => simp [branchRows, rows, connector, gutter, String.append_assoc]
  | cons o rest =>
    rw [branchRows, rows]
    · simp [connector, gutter, String.append_assoc]
    · simp

/-- The text is made of strokes and blanks only. -/
def Strokes (s : String) : Prop :=
  ∀ c ∈ s.toList, c ∈ [' ', '│', '├', '└', '─']

/-- The line has this content behind strokes. -/
def Draws (line content : String) : Prop :=
  ∃ strokes, Strokes strokes ∧ line = strokes ++ content

/-- Strokes behind strokes are strokes. -/
theorem Strokes.append {s s' : String} (h : Strokes s) (h' : Strokes s') : Strokes (s ++ s') := by
  intro c hc
  rw [String.toList_append, List.mem_append] at hc
  exact hc.elim (h c) (h' c)

/-- What stands in front of a caption are strokes. -/
theorem strokes_connector (last : Bool) : Strokes (connector last) := by
  cases last <;> simp [Strokes, connector]

/-- What leads past an entry are strokes. -/
theorem strokes_gutter (last : Bool) : Strokes (gutter last) := by
  cases last <;> simp [Strokes, gutter]

/-- Entries of one level are drawn one a line, each with its content behind strokes. -/
theorem draws_branchRows {lead : String} (hlead : Strokes lead) (os : List Outline) :
    List.Forall₂ Draws (branchRows lead os) (os.flatMap contents) := by
  induction os using inductLevel generalizing lead with
  | nil => simp
  | cons label remark children rest ihbelow ihrest =>
    have hfirst : Draws (lead ++ (connector rest.isEmpty ++ caption label remark))
        (caption label remark) :=
      ⟨lead ++ connector rest.isEmpty, hlead.append (strokes_connector _),
        (String.append_assoc ..).symm⟩
    rw [branchRows_cons, List.flatMap_cons, contents_entry, List.cons_append]
    exact .cons hfirst
      (List.rel_append (ihbelow (hlead.append (strokes_gutter _))) (ihrest hlead))

/-- The strokes in front of a caption tell whether the entry is the last one at its level. -/
theorem connector_cancel {last last' : Bool} {s s' : String}
    (h : connector last ++ s = connector last' ++ s') : last = last' ∧ s = s' := by
  have hchars := congrArg String.toList h
  cases last <;> cases last' <;> simp [connector] at hchars ⊢ <;> exact String.toList_inj.1 hchars

/-- The first of some lines, if there is any, does not begin with the given strokes. -/
def Leaves (lead : String) (lines : List String) : Prop :=
  ∀ line ∈ lines.head?, ¬ lead.toList <+: line.toList

/-- Where there is no line, no line begins with strokes. -/
theorem leaves_nil (lead : String) : Leaves lead [] := by
  simp [Leaves]

variable {lead : String} {lines lines' : List String}

/-- Lines that do not begin with some strokes do not begin with more of them. -/
theorem Leaves.append (h : Leaves lead lines) (strokes : String) :
    Leaves (lead ++ strokes) lines := by
  intro line hline hbegins
  refine h line hline (List.IsPrefix.trans ?_ hbegins)
  rw [String.toList_append]
  exact List.prefix_append _ _

/-- Lines that leave a level are not those of an entry at this level. -/
theorem Leaves.ne_branchRows (h : Leaves lead lines) (o : Outline) (rest : List Outline) :
    lines ≠ branchRows lead (o :: rest) ++ lines' := by
  obtain ⟨label, remark, children⟩ := o
  rintro rfl
  rw [branchRows_cons] at h
  refine h _ rfl ?_
  rw [String.toList_append]
  exact List.prefix_append _ _

/-- What comes behind the entries below an entry leaves their level. -/
theorem Leaves.branchRows (h : Leaves lead lines) (rest : List Outline) :
    Leaves (lead ++ gutter rest.isEmpty) (branchRows lead rest ++ lines) := by
  cases rest with
  | nil => exact h.append _
  | cons o rest =>
    obtain ⟨label, remark, children⟩ := o
    rw [branchRows_cons]
    rintro line ⟨⟩
    rw [String.toList_append, String.toList_append, List.prefix_append_right_inj]
    cases rest <;> simp [gutter, connector]

/-! ## Reading lines back -/

/-- The lines of entries at the same level determine the shape and the contents of these entries, and
they tell where they end. -/
theorem branchRows_cancel {os os' : List Outline} (hlines : Leaves lead lines)
    (hlines' : Leaves lead lines')
    (h : branchRows lead os ++ lines = branchRows lead os' ++ lines') :
    os.map shape = os'.map shape ∧ os.flatMap contents = os'.flatMap contents ∧ lines = lines' := by
  induction os using inductLevel generalizing lead os' lines lines' with
  | nil =>
    cases os' with
    | nil => exact ⟨rfl, rfl, h⟩
    | cons o' os' => exact absurd h (hlines.ne_branchRows o' os')
  | cons label remark children rest ihbelow ihrest =>
    cases os' with
    | nil => exact absurd h.symm (hlines'.ne_branchRows _ rest)
    | cons o' rest' =>
      obtain ⟨label', remark', children'⟩ := o'
      rw [branchRows_cons, branchRows_cons, List.cons_append, List.cons_append, List.cons.injEq,
        String.append_right_inj, List.append_assoc, List.append_assoc] at h
      obtain ⟨hlast, hcaption⟩ := connector_cancel h.1
      -- What follows the entries below the first one begins with an entry of the upper level.
      have hbelow := hlines.branchRows rest
      have hbelow' := hlines'.branchRows rest'
      rw [← hlast] at h hbelow'
      obtain ⟨hshape, hcontents, hrest⟩ := ihbelow hbelow hbelow' h.2
      obtain ⟨hshapes, hcontents', hend⟩ := ihrest hlines hlines' hrest
      simp [hcaption, hshape, hcontents, hshapes, hcontents', hend]

/-- The shape and the contents of entries determine their lines. -/
theorem branchRows_congr {os os' : List Outline} {rest rest' : List String}
    (hshape : os.map shape = os'.map shape)
    (hcontents : os.flatMap contents ++ rest = os'.flatMap contents ++ rest') :
    (∀ lead, branchRows lead os = branchRows lead os') ∧ rest = rest' := by
  induction os using inductLevel generalizing os' rest rest' with
  | nil =>
    obtain rfl : os' = [] := List.map_eq_nil_iff.1 hshape.symm
    exact ⟨fun _ => rfl, hcontents⟩
  | cons label remark children after ihbelow ihafter =>
    cases os' with
    | nil => cases hshape
    | cons o' after' =>
      obtain ⟨label', remark', children'⟩ := o'
      simp only [List.map_cons, shape_entry, List.cons.injEq, Shape.node.injEq] at hshape
      simp only [List.flatMap_cons, contents_entry, List.cons_append, List.cons.injEq,
        List.append_assoc] at hcontents
      obtain ⟨hbelow, hcontents'⟩ := ihbelow hshape.1 hcontents.2
      obtain ⟨hafter, hrest⟩ := ihafter hshape.2 hcontents'
      have hlast : after.isEmpty = after'.isEmpty := by
        rw [← List.isEmpty_map (f := shape), hshape.2, List.isEmpty_map]
      refine ⟨fun lead => ?_, hrest⟩
      rw [branchRows_cons, branchRows_cons, hcontents.1, hlast, hbelow, hafter]

/-! ## Drawings -/

/-- No line feed occurs in an outline if none occurs in its caption and in the outlines below. -/
theorem unbroken_entry_iff {label : String} {remark : Option String} {children : List Outline} :
    (entry label remark children).Unbroken ↔
      '\n' ∉ (caption label remark).toList ∧ ∀ o ∈ children, o.Unbroken := by
  have hcaption : '\n' ∉ (caption label remark).toList ↔
      '\n' ∉ label.toList ∧ ∀ s ∈ remark, '\n' ∉ s.toList := by
    cases remark <;> simp [caption]
  rw [hcaption]
  simp only [Unbroken, texts_entry, List.forall_mem_cons, List.forall_mem_append,
    Option.mem_toList, List.mem_flatMap, and_assoc]
  exact and_congr_right fun _ => and_congr_right fun _ =>
    ⟨fun h o ho s hs => h s ⟨o, ho, hs⟩, fun h s ⟨o, ho, hs⟩ => h o ho s hs⟩

/-- Entries are drawn one a line. -/
theorem newline_not_mem_branchRows {os : List Outline} (hlead : '\n' ∉ lead.toList)
    (hos : ∀ o ∈ os, o.Unbroken) : ∀ line ∈ branchRows lead os, '\n' ∉ line.toList := by
  induction os using inductLevel generalizing lead with
  | nil => simp
  | cons label remark children rest ihbelow ihrest =>
    obtain ⟨ho, hrest⟩ := List.forall_mem_cons.1 hos
    obtain ⟨hcaption, hchildren⟩ := unbroken_entry_iff.1 ho
    have hconnector : ∀ last, '\n' ∉ (connector last).toList := by decide
    have hgutter : ∀ last, '\n' ∉ (gutter last).toList := by decide
    rw [branchRows_cons, List.forall_mem_cons, List.forall_mem_append]
    refine ⟨?_, ihbelow ?_ hchildren, ihrest hlead hrest⟩
    · simp [hlead, hconnector, hcaption]
    · simp [hlead, hgutter]

/-- The uppermost entry is drawn without strokes. -/
theorem rows_entry (label : String) (remark : Option String) (children : List Outline) :
    rows "" "" (.entry label remark children) =
      caption label remark :: branchRows "" children := by
  rw [rows, String.empty_append]

/-- An outline is drawn with a line for each entry. -/
theorem draws_rows (o : Outline) : List.Forall₂ Draws (rows "" "" o) o.contents := by
  obtain ⟨label, remark, children⟩ := o
  have hempty : Strokes "" := by simp [Strokes]
  rw [rows_entry, contents_entry]
  exact .cons ⟨"", hempty, String.empty_append.symm⟩ (draws_branchRows hempty children)

/-- No line of a drawing contains a line feed. -/
theorem newline_not_mem_rows {o : Outline} (ho : o.Unbroken) :
    ∀ line ∈ rows "" "" o, '\n' ∉ line.toList := by
  obtain ⟨label, remark, children⟩ := o
  obtain ⟨hcaption, hchildren⟩ := unbroken_entry_iff.1 ho
  rw [rows_entry, List.forall_mem_cons]
  exact ⟨hcaption, newline_not_mem_branchRows (by simp) hchildren⟩

/-- Two outlines without line feeds in their labels and remarks are drawn alike exactly if they have
the same shape and, entry by entry in preorder, the same contents. -/
theorem render_eq_render_iff {o o' : Outline} (ho : o.Unbroken) (ho' : o'.Unbroken) :
    o.render = o'.render ↔ o.shape = o'.shape ∧ o.contents = o'.contents := by
  constructor
  · intro h
    have hrows := eq_of_join_lines (newline_not_mem_rows ho) (newline_not_mem_rows ho') h
    obtain ⟨label, remark, children⟩ := o
    obtain ⟨label', remark', children'⟩ := o'
    rw [rows_entry, rows_entry, List.cons.injEq] at hrows
    obtain ⟨hshape, hcontents, -⟩ :=
      branchRows_cancel (leaves_nil "") (leaves_nil "") (congrArg (· ++ []) hrows.2)
    simp [hrows.1, hshape, hcontents]
  · rintro ⟨hshape, hcontents⟩
    obtain ⟨label, remark, children⟩ := o
    obtain ⟨label', remark', children'⟩ := o'
    rw [shape_entry, shape_entry, Shape.node.injEq] at hshape
    rw [contents_entry, contents_entry, List.cons.injEq] at hcontents
    obtain ⟨hrows, -⟩ := branchRows_congr hshape (congrArg (· ++ []) hcontents.2)
    rw [render, render, rows_entry, rows_entry, hcontents.1, hrows]

/-- A drawing has a line for each entry in preorder, with what the entry has to say behind strokes, and
it can be read back: two outlines without line feeds in their labels and remarks are drawn alike
exactly if they have the same shape and, entry by entry in preorder, the same contents. -/
theorem render_exact {o o' : Outline} (ho : o.Unbroken) (ho' : o'.Unbroken) :
    (∃ lines, o.render = String.join (lines.map (· ++ "\n")) ∧
      List.Forall₂ Draws lines o.contents) ∧
    (o.render = o'.render ↔ o.shape = o'.shape ∧ o.contents = o'.contents) :=
  ⟨⟨o.rows "" "", rfl, draws_rows o⟩, render_eq_render_iff ho ho'⟩

/-- An entry below the only entry of its level. -/
def nested : Outline :=
  .entry "Join" (some "root") [.entry "Scan v1" none [.entry "Scan v2" none []]]

/-- Two entries at the same level, one with strokes in its label. -/
def forged : Outline :=
  .entry "Join" (some "root") [.entry "Scan v1" none [], .entry "   └─ Scan v2" none []]

/-- Strokes in a label do not make an entry look as if it were below another one. -/
theorem render_exact_forged :
    nested.Unbroken ∧ forged.Unbroken ∧
    (∃ lines, nested.render = String.join (lines.map (· ++ "\n")) ∧
      List.Forall₂ Draws lines ["Join (root)", "Scan v1", "Scan v2"]) ∧
    (nested.render = forged.render ↔
      nested.shape = forged.shape ∧ nested.contents = forged.contents) ∧
    nested.render ≠ forged.render := by
  have hnested : nested.Unbroken := by simp [nested, Unbroken]
  have hforged : forged.Unbroken := by simp [forged, Unbroken]
  obtain ⟨hlines, hiff⟩ := render_exact hnested hforged
  have hcontents : nested.contents = ["Join (root)", "Scan v1", "Scan v2"] := by
    simp [nested, caption]
  refine ⟨hnested, hforged, hcontents ▸ hlines, hiff, fun h => ?_⟩
  have hshape := (hiff.1 h).1
  simp [nested, forged] at hshape

end Outline

end QueryPlan.Text
