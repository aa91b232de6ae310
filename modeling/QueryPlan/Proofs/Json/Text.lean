import QueryPlan.Json.Reader
import QueryPlan.Json.Writer
import QueryPlan.Proofs.Json.Numerals
import QueryPlan.Proofs.Json.Strings

/-!
# JSON survives its text

A JSON value that is written in a style which only puts blanks between the parts is read back as it
was.  The machine that reads keeps the open arrays and objects on a stack, so the invariant is stated
for any stack: where a value is awaited, the characters of a value bring the machine behind that value.

Main results:

- Definition `Json.Proper`: all numbers of a value follow the grammar.
- Theorem `State.run_chars`: the machine reads a value and leaves what is open as it is.
- Theorem `ofText?_write`: a proper value is read back from its text.
-/

namespace QueryPlan.Json

/-! ## What is written -/

/-- All numbers of a value follow the grammar of JSON numbers. -/
inductive Proper : Json → Prop
  | null : Proper .null
  | bool (b : Bool) : Proper (.bool b)
  | number {n : Decimal.Numeral} (h : n.Proper) : Proper (.number n)
  | string (s : Text) : Proper (.string s)
  | array {items : List Json} (h : ∀ j ∈ items, Proper j) : Proper (.array items)
  | object {fields : List (Text × Json)} (h : ∀ field ∈ fields, Proper field.2) :
    Proper (.object fields)

/-- A style that puts nothing but blanks between the parts of a text. -/
structure Style.Blank (style : Style) : Prop where
  lineBreak : ∀ depth, ∀ c ∈ style.lineBreak depth, isBlank c = true
  afterColon : ∀ c ∈ style.afterColon, isBlank c = true

/-- The compact style puts nothing between the parts of a text. -/
theorem Style.blank_compact : Style.compact.Blank where
  lineBreak _ _ hc := absurd hc List.not_mem_nil
  afterColon _ hc := absurd hc List.not_mem_nil

/-- The spacious style puts line feeds and spaces between the parts of a text. -/
theorem Style.blank_spacious : Style.spacious.Blank where
  lineBreak depth c hc := by
    rcases List.mem_cons.1 hc with rfl | hc
    · rfl
    · rw [(List.mem_replicate.1 hc).2]
      rfl
  afterColon c hc := by
    rw [List.mem_singleton.1 hc]
    rfl

/-- A numeral ends in front of a blank. -/
theorem endsNumeral_of_isBlank {c : Char} (h : isBlank c = true) (rest : List Char) :
    EndsNumeral (c :: rest) := by
  simp only [isBlank, Bool.or_eq_true, beq_iff_eq] at h
  rcases h with ((rfl | rfl) | rfl) | rfl <;>
    exact endsNumeral_cons rest (by decide) (by decide) (by decide)

/-- A numeral ends in front of blanks. -/
theorem EndsNumeral.append_blanks {blanks rest : List Char} (hrest : EndsNumeral rest)
    (h : ∀ c ∈ blanks, isBlank c = true) : EndsNumeral (blanks ++ rest) := by
  cases blanks with
  | nil => exact hrest
  | cons c blanks => exact endsNumeral_of_isBlank (h c List.mem_cons_self) _

/-- A numeral ends in front of a comma and of a closing bracket or brace. -/
theorem endsNumeral_mark {c : Char} (h : c = ',' ∨ c = ']' ∨ c = '\x7d') (rest : List Char) :
    EndsNumeral (c :: rest) := by
  rcases h with rfl | rfl | rfl <;>
    exact endsNumeral_cons rest (by decide) (by decide) (by decide)

/-! ## Tokens -/

/-- A numeral is read as a token. -/
theorem scanToken_numeral {n : Decimal.Numeral} (h : n.Proper) {c : Char} {s rest : List Char}
    (hchars : n.chars = c :: s) (hrest : EndsNumeral rest) :
    isBlank c = false ∧ scanToken c (s ++ rest) = some (.number n, rest) := by
  have hread := scanNumber_chars h hrest
  obtain ⟨c', s', hcons, hfirst⟩ := h.chars_eq_cons
  rw [hchars, List.cons_append] at hread
  rw [hchars, List.cons.injEq] at hcons
  obtain ⟨rfl, rfl⟩ := hcons
  have hne : ∀ d : Char, d ≠ '-' → d.isDigit = false → c ≠ d := by
    rintro d hminus hdigit rfl
    rcases hfirst with rfl | hc
    · exact hminus rfl
    · exact Bool.false_ne_true (hdigit ▸ hc)
  refine ⟨?_, ?_⟩
  · simp [isBlank, hne ' ' (by decide) (by decide), hne '\t' (by decide) (by decide),
      hne '\n' (by decide) (by decide), hne '\r' (by decide) (by decide)]
  · rw [scanToken.eq_def]
    split
    case h_11 => rw [hread, Option.map_some]
    all_goals exact absurd rfl (hne _ (by decide) (by decide))

/-- A string is read as a token. -/
theorem scanToken_string (text : Text) (rest : List Char) :
    scanToken '"' ((quote text).tail ++ rest) = some (.string text, rest) := by
  rw [scanToken, scanString_quote, Option.map_some]

namespace State

variable {q next : State} {stack : List Frame}

/-- Blanks are skipped in every state. -/
theorem run_blanks {blanks : List Char} (h : ∀ c ∈ blanks, isBlank c = true) (s : List Char) :
    q.run (blanks ++ s) = q.run s := by
  induction blanks with
  | nil => rfl
  | cons c blanks ih =>
    rw [List.forall_mem_cons] at h
    rw [List.cons_append, run, if_pos h.1, ih h.2]

/-- A token takes the machine from one state to the next. -/
theorem run_token {c : Char} {s rest : List Char} {t : Token} (hblank : isBlank c = false)
    (htoken : scanToken c s = some (t, rest)) (hstep : q.step t = some next) :
    q.run (c :: s) = next.run rest := by
  rw [run, if_neg (by simp [hblank])]
  split
  · rename_i hnone
    exact absurd (hnone.symm.trans htoken) (by simp)
  · rename_i t' rest' hsome
    obtain ⟨rfl, rfl⟩ := Prod.mk.inj (Option.some.inj (hsome.symm.trans htoken))
    simp [hstep]

/-! ## Values -/

/-- In this state a value is awaited, in the given open arrays and objects. -/
def Awaits (q : State) (stack : List Frame) : Prop :=
  ∀ t, t ≠ .closeBracket → q.step t = stepValue stack t

/-- Where a value must follow, a value is awaited. -/
theorem awaits_value (stack : List Frame) : (State.value stack).Awaits stack :=
  fun _ _ => rfl

/-- Behind an opening bracket a value is awaited as the first item. -/
theorem awaits_openArray (stack : List Frame) : (openArray stack).Awaits (.items [] :: stack) := by
  intro t ht
  cases t <;> first | rfl | exact absurd rfl ht

/-- In this state a field of an object is awaited, behind the given fields. -/
def AwaitsField (q : State) (done : List (Text × Json)) (stack : List Frame) : Prop :=
  ∀ name, q.step (.string name) = some (.colon done name stack)

/-- Behind an opening brace a field is awaited as the first one. -/
theorem awaitsField_openObject (stack : List Frame) : (openObject stack).AwaitsField [] stack :=
  fun _ => rfl

/-- Behind a comma in an object a field is awaited. -/
theorem awaitsField_key (done : List (Text × Json)) (stack : List Frame) :
    (key done stack).AwaitsField done stack :=
  fun _ => rfl

/-- The machine reads the characters of a value wherever a value is awaited. -/
def Reads (style : Style) (j : Json) : Prop :=
  ∀ {q : State} {stack : List Frame}, q.Awaits stack → ∀ (depth : Nat) {rest : List Char},
    EndsNumeral rest → q.run (j.chars style depth ++ rest) = (after j stack).run rest

variable {style : Style}

/-- The items of an array are read up to its closing bracket. -/
theorem run_itemChars (hstyle : style.Blank) {items : List Json} (hne : items ≠ [])
    (h : ∀ j ∈ items, Reads style j) {done : List Json} (hq : q.Awaits (.items done :: stack))
    (depth : Nat) {blanks : List Char} (hblanks : ∀ c ∈ blanks, isBlank c = true)
    (rest : List Char) :
    q.run (itemChars style depth items ++ (blanks ++ ']' :: rest)) =
      (after (.array (done.reverse ++ items)) stack).run rest := by
  induction items generalizing q done with
  | nil => exact absurd rfl hne
  | cons j items ih =>
    rw [List.forall_mem_cons] at h
    cases items with
    | nil =>
      have hend : EndsNumeral (blanks ++ ']' :: rest) :=
        (endsNumeral_mark (.inr (.inl rfl)) rest).append_blanks hblanks
      simp only [itemChars, List.append_assoc]
      rw [run_blanks (hstyle.lineBreak depth), h.1 hq depth hend, run_blanks hblanks]
      refine run_token rfl rfl ?_
      simp [step, stepAfter]
    | cons j' items =>
      simp only [itemChars, List.append_assoc, List.cons_append]
      rw [run_blanks (hstyle.lineBreak depth), h.1 hq depth (endsNumeral_mark (.inl rfl) _)]
      have hcomma : (after j (.items done :: stack)).step .comma =
          some (value (.items (j :: done) :: stack)) := rfl
      rw [run_token rfl rfl hcomma, ih (by simp) h.2 (awaits_value _), List.reverse_cons,
        List.append_assoc]
      rfl

/-- The name of a field is read up to where its value is awaited. -/
theorem run_name (hstyle : style.Blank) {done : List (Text × Json)} (hq : q.AwaitsField done stack)
    (depth : Nat) (name : Text) (s : List Char) :
    q.run (style.lineBreak depth ++ (quote name ++ ':' :: (style.afterColon ++ s))) =
      (value (.fields done name :: stack)).run s := by
  rw [run_blanks (hstyle.lineBreak depth), quote_eq, List.cons_append,
    run_token rfl (scanToken_string name _) (hq name)]
  have hcolon : (colon done name stack).step .colon =
      some (value (.fields done name :: stack)) := rfl
  rw [run_token rfl rfl hcolon, run_blanks hstyle.afterColon]

/-- The fields of an object are read up to its closing brace. -/
theorem run_fieldChars (hstyle : style.Blank) {fields : List (Text × Json)} (hne : fields ≠ [])
    (h : ∀ field ∈ fields, Reads style field.2) {done : List (Text × Json)}
    (hq : q.AwaitsField done stack) (depth : Nat) {blanks : List Char}
    (hblanks : ∀ c ∈ blanks, isBlank c = true) (rest : List Char) :
    q.run (fieldChars style depth fields ++ (blanks ++ '\x7d' :: rest)) =
      (after (.object (done.reverse ++ fields)) stack).run rest := by
  induction fields generalizing q done with
  | nil => exact absurd rfl hne
  | cons field fields ih =>
    obtain ⟨name, j⟩ := field
    rw [List.forall_mem_cons] at h
    cases fields with
    | nil =>
      have hend : EndsNumeral (blanks ++ '\x7d' :: rest) :=
        (endsNumeral_mark (.inr (.inr rfl)) rest).append_blanks hblanks
      simp only [fieldChars, List.append_assoc, List.cons_append]
      rw [run_name hstyle hq, h.1 (awaits_value _) depth hend, run_blanks hblanks]
      refine run_token rfl rfl ?_
      simp [step, stepAfter]
    | cons field' fields =>
      simp only [fieldChars, List.append_assoc, List.cons_append]
      rw [run_name hstyle hq, h.1 (awaits_value _) depth (endsNumeral_mark (.inl rfl) _)]
      have hcomma : (after j (.fields done name :: stack)).step .comma =
          some (key ((name, j) :: done) stack) := rfl
      rw [run_token rfl rfl hcomma, ih (by simp) h.2 (awaitsField_key _ _), List.reverse_cons,
        List.append_assoc]
      rfl

/-- The machine reads a proper value and leaves the open arrays and objects as they are. -/
theorem run_chars (hstyle : style.Blank) {j : Json} (h : j.Proper) : Reads style j := by
  induction h with
  | null =>
    intro q stack hq depth rest hrest
    exact run_token rfl rfl (hq _ nofun)
  | bool b =>
    intro q stack hq depth rest hrest
    cases b with
    | true => exact run_token rfl rfl (hq _ nofun)
    | false => exact run_token rfl rfl (hq _ nofun)
  | @number n hn =>
    intro q stack hq depth rest hrest
    obtain ⟨c, s, hchars, -⟩ := hn.chars_eq_cons
    obtain ⟨hblank, htoken⟩ := scanToken_numeral hn hchars hrest
    rw [chars, hchars, List.cons_append]
    exact run_token hblank htoken (hq _ nofun)
  | string text =>
    intro q stack hq depth rest hrest
    rw [chars, quote_eq, List.cons_append]
    exact run_token rfl (scanToken_string text rest) (hq _ nofun)
  | @array items _ ih =>
    intro q stack hq depth rest hrest
    have hopen : q.step .openBracket = some (openArray stack) := hq _ nofun
    cases items with
    | nil =>
      rw [chars, List.cons_append, run_token rfl rfl hopen]
      exact run_token rfl rfl rfl
    | cons j items =>
      simp only [chars, List.cons_append, List.append_assoc, List.nil_append]
      rw [run_token rfl rfl hopen]
      exact run_itemChars hstyle (by simp) ih (awaits_openArray stack) _
        (hstyle.lineBreak depth) rest
  | @object fields _ ih =>
    intro q stack hq depth rest hrest
    have hopen : q.step .openBrace = some (openObject stack) := hq _ nofun
    cases fields with
    | nil =>
      rw [chars, List.cons_append, run_token rfl rfl hopen]
      exact run_token rfl rfl rfl
    | cons field fields =>
      simp only [chars, List.cons_append, List.append_assoc, List.nil_append]
      rw [run_token rfl rfl hopen]
      exact run_fieldChars hstyle (by simp) ih (awaitsField_openObject stack) _
        (hstyle.lineBreak depth) rest

end State

/-- A proper value is read back from its text, whatever blanks the style puts into it. -/
theorem ofText?_write {style : Style} (hstyle : style.Blank) {j : Json} (h : j.Proper) :
    ofText? (j.write style) = some j := by
  have hrun := State.run_chars hstyle h (State.awaits_value []) 0 endsNumeral_nil
  rw [List.append_nil] at hrun
  rw [ofText?, write, String.toList_ofList, hrun, State.run]
  rfl

end QueryPlan.Json
