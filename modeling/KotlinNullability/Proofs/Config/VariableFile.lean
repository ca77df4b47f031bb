import KotlinNullability.Config.Dotenv
import KotlinNullability.Proofs.Association
import Mathlib.Data.List.Chain
import Mathlib.Data.List.Infix
import Mathlib.Data.List.TakeDrop

/-!
# Reading a variable file that was written

A plain variable file has blank lines, comments and assignments. An assignment has the word `export`
in front or not, and its value stands bare or between quotes; it is plain if it needs no escape and
refers to no variable. Reading the lines of such a file gives the assignments in order, and the file
sets each name to the value of its last assignment.
-/

namespace KotlinNullability.Dotenv

/-- What begins a reference to a variable. -/
def referenceLead : Text := "$\x7b"

/-- A text that may stand inside a line of a plain file. -/
@[mk_iff]
structure IsInline (t : Text) : Prop where
  lineFeed : CodePoint.ofChar '\n' ∉ t
  carriageReturn : CodePoint.ofChar '\r' ∉ t

/-- A name that may stand bare, and that a variable may have. -/
@[mk_iff]
structure IsName (name : Text) : Prop where
  ne_nil : name ≠ []
  parts : name.all isNamePart = true
  unquoted : name.head? ≠ some (CodePoint.ofChar '\'')
  last : CodePoint.ofChar '\x00' ∉ name

/-- A value that refers to no variable, and that a variable may have. -/
@[mk_iff]
structure IsPlain (value : Text) : Prop where
  inline : IsInline value
  last : CodePoint.ofChar '\x00' ∉ value
  unreferring : ¬ referenceLead <:+: value

/-- Whether a bare value may begin with a code point. -/
def isBareStart (c : CodePoint) : Bool := !(c = '\'' || c = '"' || isBlank c)

/-- How a value stands in its line. -/
inductive Style where
  | bare
  | single
  | double
  deriving DecidableEq, Repr

/-- The quote on both sides of a value. -/
def Style.quote : Style → Text
  | bare => []
  | single => ['\'']
  | double => ['"']

/-- Whether a value may stand so. A bare one neither begins with a quote nor has white space at its
ends or in front of a number sign. -/
def Style.Admits (value : Text) : Style → Prop
  | bare => value.head?.all isBareStart = true ∧ value.getLast?.all (!isBlank ·) = true ∧
      value.IsChain fun c d => ¬ (isBlank c = true ∧ d = '#')
  | single => CodePoint.ofChar '\'' ∉ value ∧ CodePoint.ofChar '\\' ∉ value
  | double => CodePoint.ofChar '"' ∉ value ∧ CodePoint.ofChar '\\' ∉ value

local instance : LawfulBEq CodePoint := inferInstance

instance (t : Text) : Decidable (IsInline t) := decidable_of_iff' _ (isInline_iff t)

instance (name : Text) : Decidable (IsName name) := decidable_of_iff' _ (isName_iff name)

instance (value : Text) : Decidable (IsPlain value) := decidable_of_iff' _ (isPlain_iff value)

instance (value : Text) : (style : Style) → Decidable (style.Admits value)
  | .bare => inferInstanceAs (Decidable (_ ∧ _ ∧ _))
  | .single => inferInstanceAs (Decidable (_ ∧ _))
  | .double => inferInstanceAs (Decidable (_ ∧ _))

/-- An assignment of a plain file. -/
structure Assignment where
  exported : Bool
  name : Text
  style : Style
  value : Text
  isName : IsName name
  isPlain : IsPlain value
  admits : style.Admits value

/-- A line of a plain file. -/
inductive Line where
  | blank (space : Text) (isInline : IsInline space) (h : space.all isBlank = true)
  | comment (t : Text) (isInline : IsInline t)
  | assignment (a : Assignment)

/-- The text of an assignment. -/
def Assignment.render (a : Assignment) : Text :=
  (if a.exported then Text.ofString "export " else []) ++
    (a.name ++ CodePoint.ofChar '=' :: (a.style.quote ++ (a.value ++ a.style.quote)))

namespace Line

/-- The text of a line. -/
def render : Line → Text
  | blank space .. => space
  | comment t _ => CodePoint.ofChar '#' :: t
  | assignment a => a.render

/-- The assignment in a line. -/
def assignment? : Line → Option Assignment
  | assignment a => some a
  | blank .. | comment .. => none

end Line

/-- The text of a plain file: its lines, with a line feed between each two. -/
def textOf (lines : List Line) : Text := Text.join "\n" (lines.map Line.render)

/-- The value of the last assignment of a name. -/
def lastValue? (lines : List Line) (name : Text) : Option Text :=
  ((lines.filterMap Line.assignment?).reverse.find? fun a => a.name = name).map Assignment.value

/-- The end of a line or of the file. -/
def IsEnd (rest : Text) : Prop := ∀ c ∈ rest.head?, c = CodePoint.ofChar '\n'

section Pieces

variable {t rest : Text}

theorem unifyLineEnds_eq_self (h : CodePoint.ofChar '\r' ∉ t) : unifyLineEnds t = t := by
  induction t with
  | nil => rfl
  | cons c t ih =>
    unfold unifyLineEnds
    rw [if_neg (List.ne_of_not_mem_cons h).symm, ih (List.not_mem_of_not_mem_cons h)]

/-- A text inside a line has no line feed. -/
theorem IsInline.ne_lineFeed (h : IsInline t) :
    ∀ c ∈ t, (decide (c ≠ CodePoint.ofChar '\n')) = true :=
  fun _ hc => decide_eq_true fun hfeed => h.lineFeed (hfeed ▸ hc)

theorem isNamePart_eq_true {c : CodePoint} :
    isNamePart c = true ↔ c ≠ '=' ∧ c ≠ '#' ∧ isBlank c = false := by
  simp [isNamePart, and_assoc]

theorem IsName.of_mem {name : Text} (h : IsName name) {c : CodePoint} (hc : c ∈ name) :
    c ≠ '=' ∧ c ≠ '#' ∧ isBlank c = false :=
  isNamePart_eq_true.mp (List.all_eq_true.mp h.parts c hc)

theorem isBareStart_eq_true {c : CodePoint} :
    isBareStart c = true ↔ c ≠ '\'' ∧ c ≠ '"' ∧ isBlank c = false := by
  simp [isBareStart, and_assoc]

/-- White space goes as far as the first code point that is none. -/
theorem skipInlineBlank_eq_self (h : ∀ c ∈ t.head?, isInlineBlank c = false) :
    skipInlineBlank t = t := by
  cases t with
  | nil => rfl
  | cons c t => rw [skipInlineBlank, List.dropWhile_cons_of_neg (by simp [h c rfl])]

theorem isInlineBlank_eq_false_of_isBlank {c : CodePoint} (h : isBlank c = false) :
    isInlineBlank c = false := by
  rw [isInlineBlank, h, Bool.false_and]

theorem IsEnd.skipInlineBlank (h : IsEnd rest) : skipInlineBlank rest = rest :=
  skipInlineBlank_eq_self fun c hc => by
    rw [h c hc]
    decide

/-- At the end of a line nothing but the line feed is left of it. -/
theorem IsEnd.finishLine (h : IsEnd rest) : finishLine rest = .ok (rest.drop 1) := by
  rw [Dotenv.finishLine, h.skipInlineBlank]
  cases rest with
  | nil => rfl
  | cons c rest =>
    obtain rfl := h c rfl
    rfl

/-- The next line begins behind the text that is left of a line. -/
theorem nextLine_append (ht : IsInline t) (hrest : IsEnd rest) :
    nextLine (t ++ rest) = rest.drop 1 := by
  rw [nextLine, List.dropWhile_append_of_pos ht.ne_lineFeed]
  cases rest with
  | nil => rfl
  | cons c rest =>
    obtain rfl := hrest c rfl
    simp

end Pieces

section Names

variable {name : Text}

/-- A name is no word `export` with white space after it. -/
theorem skipExport_name (h : IsName name) (rest : Text) :
    skipExport (name ++ CodePoint.ofChar '=' :: rest) = name ++ CodePoint.ofChar '=' :: rest := by
  unfold skipExport
  split
  · next c tail hdrop =>
    have hblank : isInlineBlank c = false := by
      refine isInlineBlank_eq_false_of_isBlank ?_
      have hsplit := Text.dropStart?_eq_some.mp hdrop
      -- What follows the word is the equals sign, or still part of the name.
      rcases List.append_eq_append_iff.mp hsplit with ⟨more, hword, hrest⟩ | ⟨more, hname, hrest⟩
      · cases more with
        | nil =>
          obtain rfl := (List.cons.inj hrest).1
          decide
        | cons d more =>
          obtain rfl := (List.cons.inj hrest).1
          have hmem : CodePoint.ofChar '=' ∈ Text.ofString "export" := by
            rw [hword]
            simp
          exact absurd hmem (by decide)
      · cases more with
        | nil =>
          obtain rfl := (List.cons.inj hrest).1
          decide
        | cons d more =>
          obtain rfl := (List.cons.inj hrest).1
          exact (h.of_mem (c := c) (by rw [hname]; simp)).2.2
    rw [hblank]
    rfl
  · rfl

/-- The word `export` in front of a name is skipped. -/
theorem skipExport_export {t : Text} (h : ∀ c ∈ t.head?, isBlank c = false) :
    skipExport (Text.ofString "export " ++ t) = t := by
  have hdrop : Text.dropStart? (Text.ofString "export") (Text.ofString "export " ++ t) =
      some (CodePoint.ofChar ' ' :: t) := Text.dropStart?_eq_some.mpr rfl
  have hblank : isInlineBlank (CodePoint.ofChar ' ') = true := by decide
  have ht : skipInlineBlank t = t :=
    skipInlineBlank_eq_self fun c hc => isInlineBlank_eq_false_of_isBlank (h c hc)
  unfold skipExport
  rw [hdrop]
  dsimp only
  rw [if_pos hblank, skipInlineBlank, List.dropWhile_cons_of_pos hblank, ← skipInlineBlank, ht]

/-- A name is read up to the equals sign. -/
theorem readName_name (h : IsName name) (rest : Text) :
    readName (name ++ CodePoint.ofChar '=' :: rest) =
      .ok (some name, CodePoint.ofChar '=' :: rest) := by
  have hparts : ∀ c ∈ name, isNamePart c = true := List.all_eq_true.mp h.parts
  have hend : ¬ isNamePart (CodePoint.ofChar '=') = true := by decide
  have htake : (name ++ CodePoint.ofChar '=' :: rest).takeWhile isNamePart = name := by
    rw [List.takeWhile_append_of_pos hparts, List.takeWhile_cons_of_neg hend, List.append_nil]
  have hdrop : (name ++ CodePoint.ofChar '=' :: rest).dropWhile isNamePart =
      CodePoint.ofChar '=' :: rest := by
    rw [List.dropWhile_append_of_pos hparts, List.dropWhile_cons_of_neg hend]
  obtain ⟨c, tail, rfl⟩ := List.exists_cons_of_ne_nil h.ne_nil
  have hcomment : c ≠ CodePoint.ofChar '#' := (h.of_mem List.mem_cons_self).2.1
  have hquote : c ≠ CodePoint.ofChar '\'' := fun hc => h.unquoted (by rw [hc]; rfl)
  rw [List.cons_append] at htake hdrop ⊢
  rw [readName, if_neg hcomment, if_neg hquote, htake, hdrop]
  rfl

end Names

section Values

variable {value rest : Text}

theorem upToQuote_append {quote : CodePoint} (hquote : quote ∉ value)
    (hescape : CodePoint.ofChar '\\' ∉ value) :
    upToQuote quote (value ++ quote :: rest) = some (value, rest) := by
  induction value with
  | nil =>
    unfold upToQuote
    exact if_pos rfl
  | cons c value ih =>
    have hrest := ih (List.not_mem_of_not_mem_cons hquote) (List.not_mem_of_not_mem_cons hescape)
    rw [List.cons_append]
    unfold upToQuote
    rw [if_neg (List.ne_of_not_mem_cons hquote).symm,
      if_neg (List.ne_of_not_mem_cons hescape).symm, hrest]
    rfl

theorem unescape_eq_self {escape? : CodePoint → Option CodePoint}
    (h : CodePoint.ofChar '\\' ∉ value) : unescape escape? value = value := by
  induction value with
  | nil => rfl
  | cons c value ih =>
    cases value with
    | nil => rfl
    | cons d value =>
      rw [unescape, if_neg (List.ne_of_not_mem_cons h).symm, ih (List.not_mem_of_not_mem_cons h)]

theorem beforeComment_eq_self (h : value.IsChain fun c d => ¬ (isBlank c = true ∧ d = '#')) :
    beforeComment value = value := by
  induction value with
  | nil => rfl
  | cons c value ih =>
    cases value with
    | nil => rfl
    | cons d value =>
      obtain ⟨hcd, hvalue⟩ := List.isChain_cons_cons.mp h
      rw [beforeComment, if_neg hcd, ih hvalue]

theorem trimBlank_eq_self (hhead : ∀ c ∈ value.head?, isBlank c = false)
    (hlast : ∀ c ∈ value.getLast?, isBlank c = false) : trimBlank value = value := by
  have hdrop {t : Text} (h : ∀ c ∈ t.head?, isBlank c = false) : t.dropWhile isBlank = t := by
    cases t with
    | nil => rfl
    | cons c t => exact List.dropWhile_cons_of_neg (by simp [h c rfl])
  rw [trimBlank, hdrop hhead, hdrop (by rwa [List.head?_reverse]), List.reverse_reverse]

/-- A bare value goes up to the end of its line. -/
theorem readValue_bare (hinline : IsInline value) (hadmits : Style.bare.Admits value)
    (hrest : IsEnd rest) : readValue (value ++ rest) = .ok (value, rest) := by
  obtain ⟨hstart, hend, hchain⟩ := hadmits
  have hhead : ∀ c ∈ value.head?, c ≠ '\'' ∧ c ≠ '"' ∧ isBlank c = false :=
    fun c hc => isBareStart_eq_true.mp (by rwa [Option.mem_def.mp hc] at hstart)
  have hlast : ∀ c ∈ value.getLast?, isBlank c = false :=
    fun c hc => by simpa [Option.mem_def.mp hc] using hend
  have hspan : (value ++ rest).span (· ≠ CodePoint.ofChar '\n') = (value, rest) := by
    rw [List.span_eq_takeWhile_dropWhile, List.takeWhile_append_of_pos hinline.ne_lineFeed,
      List.dropWhile_append_of_pos hinline.ne_lineFeed]
    cases rest with
    | nil => simp
    | cons c rest =>
      obtain rfl := hrest c rfl
      simp
  have hblank : ∀ c ∈ (value ++ rest).head?, isInlineBlank c = false := by
    intro c hc
    cases value with
    | nil =>
      rw [hrest c hc]
      decide
    | cons d value => exact isInlineBlank_eq_false_of_isBlank (hhead c hc).2.2
  rw [readValue, skipInlineBlank_eq_self hblank]
  cases hall : value ++ rest with
  | nil =>
    obtain ⟨rfl, rfl⟩ := List.append_eq_nil_iff.mp hall
    rfl
  | cons c tail =>
    have hquote : ¬ (c = '\'' ∨ c = '"') := by
      cases value with
      | nil =>
        rw [hrest c (by rw [List.nil_append] at hall; rw [hall]; rfl)]
        decide
      | cons d value =>
        obtain rfl := (List.cons.inj hall).1
        exact not_or.mpr ⟨(hhead d rfl).1, (hhead d rfl).2.1⟩
    rw [hall] at hspan
    dsimp only
    rw [if_neg hquote, hspan, beforeComment_eq_self hchain,
      trimBlank_eq_self (fun c hc => (hhead c hc).2.2) hlast]

/-- A value between quotes goes up to the second one. -/
theorem readValue_quoted {quote : CodePoint} (hblank : isInlineBlank quote = false)
    (hquote : quote = '\'' ∨ quote = '"') (hvalue : quote ∉ value)
    (hescape : CodePoint.ofChar '\\' ∉ value) (rest : Text) :
    readValue (quote :: (value ++ quote :: rest)) = .ok (value, rest) := by
  rw [readValue, skipInlineBlank_eq_self (fun c hc => by cases hc; exact hblank)]
  dsimp only
  rw [if_pos hquote, upToQuote_append hvalue hescape]
  dsimp only
  rw [unescape_eq_self hescape]

/-- A value is read as it was written. -/
theorem readValue_style (style : Style) (hinline : IsInline value) (hadmits : style.Admits value)
    (hrest : IsEnd rest) :
    readValue (style.quote ++ (value ++ style.quote) ++ rest) = .ok (value, rest) := by
  cases style with
  | bare => simpa [Style.quote] using readValue_bare hinline hadmits hrest
  | single =>
    simpa [Style.quote] using readValue_quoted (by decide) (.inl rfl) hadmits.1 hadmits.2 rest
  | double =>
    simpa [Style.quote] using readValue_quoted (by decide) (.inr rfl) hadmits.1 hadmits.2 rest

end Values

section Statements

variable {rest : Text}

/-- An assignment is read up to the end of its line. -/
theorem Assignment.readStatement_render (a : Assignment) (hrest : IsEnd rest) :
    readStatement (a.render ++ rest) = .ok (some ⟨a.name, some a.value⟩, rest.drop 1) := by
  have hskip : skipExport (a.render ++ rest) =
      a.name ++ CodePoint.ofChar '=' :: (a.style.quote ++ (a.value ++ a.style.quote) ++ rest) := by
    have hhead : ∀ c ∈ (a.name ++ CodePoint.ofChar '=' ::
        (a.style.quote ++ (a.value ++ a.style.quote) ++ rest)).head?, isBlank c = false := by
      intro c hc
      obtain ⟨d, name, hname⟩ := List.exists_cons_of_ne_nil a.isName.ne_nil
      rw [hname] at hc
      cases hc
      exact (a.isName.of_mem (c := c) (by rw [hname]; simp)).2.2
    rw [render]
    cases a.exported with
    | true => simpa using skipExport_export hhead
    | false => simpa [Text.ofString] using
        skipExport_name a.isName (a.style.quote ++ (a.value ++ a.style.quote) ++ rest)
  have hequals : skipInlineBlank
      (CodePoint.ofChar '=' :: (a.style.quote ++ (a.value ++ a.style.quote) ++ rest)) =
        CodePoint.ofChar '=' :: (a.style.quote ++ (a.value ++ a.style.quote) ++ rest) :=
    skipInlineBlank_eq_self fun c hc => by cases hc; decide
  rw [readStatement, hskip, readName_name a.isName]
  dsimp only [bind, Except.bind]
  rw [hequals]
  dsimp only
  rw [if_pos rfl, readValue_style a.style a.isPlain.inline a.admits hrest]
  dsimp only
  rw [hrest.finishLine]
  rfl

/-- A comment is skipped up to the end of its line. -/
theorem readStatement_comment {t : Text} (ht : IsInline t) (hrest : IsEnd rest) :
    readStatement (CodePoint.ofChar '#' :: t ++ rest) = .ok (none, rest.drop 1) := by
  have hskip : skipInlineBlank (CodePoint.ofChar '#' :: (t ++ rest)) =
      CodePoint.ofChar '#' :: (t ++ rest) :=
    skipInlineBlank_eq_self fun c hc => by cases hc; decide
  have hexport : skipExport (CodePoint.ofChar '#' :: (t ++ rest)) =
      CodePoint.ofChar '#' :: (t ++ rest) := rfl
  have hequals : CodePoint.ofChar '#' ≠ CodePoint.ofChar '=' := by decide
  rw [List.cons_append, readStatement, hexport, readName, if_pos rfl]
  dsimp only [bind, Except.bind]
  rw [hskip]
  dsimp only
  rw [if_neg hequals, finishLine, hskip]
  dsimp only
  rw [if_pos rfl, nextLine_append ht hrest]
  rfl

theorem statements_nil (fuel : Nat) : statements fuel [] = [] := by
  cases fuel <;> rfl

/-- White space in front of a statement is skipped. -/
theorem statements_append {space : Text} (h : ∀ c ∈ space, isBlank c = true) (fuel : Nat) :
    statements fuel (space ++ rest) = statements fuel rest := by
  cases fuel with
  | zero => rfl
  | succ fuel => rw [statements, statements, List.dropWhile_append_of_pos h]

/-- A statement that begins with no white space is read. -/
theorem statements_of_readStatement {t : Text} {binding : Option Binding}
    (ht : ∃ c tail, t = c :: tail ∧ isBlank c = false)
    (hread : readStatement t = .ok (binding, rest)) (fuel : Nat) :
    statements (fuel + 1) t = binding.toList ++ statements fuel rest := by
  obtain ⟨c, tail, rfl, hc⟩ := ht
  rw [statements, List.dropWhile_cons_of_neg (by simp [hc])]
  dsimp only
  rw [hread]

/-- The text of an assignment begins with no white space. -/
theorem Assignment.exists_render_eq_cons (a : Assignment) :
    ∃ c tail, a.render = c :: tail ∧ isBlank c = false := by
  obtain ⟨c, name, hname⟩ := List.exists_cons_of_ne_nil a.isName.ne_nil
  rw [render]
  cases a.exported with
  | true => exact ⟨CodePoint.ofChar 'e', _, rfl, by decide⟩
  | false =>
    refine ⟨c, name ++ CodePoint.ofChar '=' :: (a.style.quote ++ (a.value ++ a.style.quote)),
      ?_, ?_⟩
    · rw [hname]
      rfl
    · exact (a.isName.of_mem (c := c) (by rw [hname]; simp)).2.2

/-- The statement in a line. -/
def Line.binding? (line : Line) : Option Binding :=
  line.assignment?.map fun a => ⟨a.name, some a.value⟩

/-- A line is read, and then what follows it. -/
theorem statements_line (line : Line) (hrest : IsEnd rest) {fuel : Nat}
    (hfuel : (line.render ++ rest).length < fuel) :
    ∃ less, (rest.drop 1).length < less ∧
      statements fuel (line.render ++ rest) =
        line.binding?.toList ++ statements less (rest.drop 1) := by
  have hdrop : (rest.drop 1).length ≤ rest.length := by simp
  cases line with
  | blank space isInline h =>
    -- The line feed is white space too, and costs no statement.
    refine ⟨fuel, by simp only [Line.render, List.length_append] at hfuel; omega, ?_⟩
    have hfeed : ∃ feed, rest = feed ++ rest.drop 1 ∧ ∀ c ∈ feed, isBlank c = true := by
      cases rest with
      | nil => exact ⟨[], rfl, fun c hc => by cases hc⟩
      | cons c rest =>
        obtain rfl := hrest c rfl
        exact ⟨[CodePoint.ofChar '\n'], rfl, fun c hc => by
          rw [List.mem_singleton.mp hc]
          decide⟩
    obtain ⟨feed, hrest, hfeed⟩ := hfeed
    have hspace : ∀ c ∈ space, isBlank c = true := List.all_eq_true.mp h
    calc statements fuel (space ++ rest) = statements fuel rest := statements_append hspace fuel
      _ = statements fuel (feed ++ rest.drop 1) := by rw [← hrest]
      _ = statements fuel (rest.drop 1) := statements_append hfeed fuel
  | comment t isInline =>
    obtain ⟨fuel, rfl⟩ := Nat.exists_eq_add_one_of_ne_zero (Nat.ne_zero_of_lt hfuel)
    have hlength : (rest.drop 1).length < fuel := by
      simp only [Line.render, List.length_append, List.length_cons] at hfuel
      omega
    refine ⟨fuel, hlength, ?_⟩
    exact statements_of_readStatement ⟨_, _, rfl, by decide⟩ (readStatement_comment isInline hrest)
      fuel
  | assignment a =>
    obtain ⟨fuel, rfl⟩ := Nat.exists_eq_add_one_of_ne_zero (Nat.ne_zero_of_lt hfuel)
    obtain ⟨c, tail, hrender, hc⟩ := a.exists_render_eq_cons
    refine ⟨fuel, ?_, ?_⟩
    · simp only [Line.render, hrender, List.length_append, List.length_cons] at hfuel
      omega
    · exact statements_of_readStatement ⟨c, tail ++ rest, by rw [hrender]; rfl, hc⟩
        (a.readStatement_render hrest) fuel

/-- The text of a file that begins with a line. -/
theorem textOf_cons (line : Line) (lines : List Line) :
    ∃ rest, textOf (line :: lines) = line.render ++ rest ∧ IsEnd rest ∧
      rest.drop 1 = textOf lines := by
  cases lines with
  | nil => exact ⟨[], by simp [textOf, Text.join], nofun, rfl⟩
  | cons next lines =>
    refine ⟨CodePoint.ofChar '\n' :: textOf (next :: lines), ?_, fun c hc => by cases hc; rfl, rfl⟩
    simp [textOf, Text.join, List.intercalate_cons_cons]
    rfl

/-- The lines of a file are read in order. -/
theorem statements_textOf (lines : List Line) {fuel : Nat} (hfuel : (textOf lines).length < fuel) :
    statements fuel (textOf lines) = lines.filterMap Line.binding? := by
  induction lines generalizing fuel with
  | nil => exact statements_nil fuel
  | cons line lines ih =>
    obtain ⟨rest, htext, hrest, htail⟩ := textOf_cons line lines
    rw [htext] at hfuel ⊢
    obtain ⟨less, hless, hline⟩ := statements_line line hrest hfuel
    rw [htail] at hless hline
    rw [hline, ih hless, List.filterMap_cons]
    cases line.binding? <;> rfl

theorem Assignment.carriageReturn_not_mem (a : Assignment) : CodePoint.ofChar '\r' ∉ a.render := by
  have hname : CodePoint.ofChar '\r' ∉ a.name := fun h =>
    absurd (a.isName.of_mem h).2.2 (by decide)
  have hquote : CodePoint.ofChar '\r' ∉ a.style.quote := by cases a.style <;> decide
  have hword : CodePoint.ofChar '\r' ∉ (if a.exported then Text.ofString "export " else []) := by
    cases a.exported <;> decide
  intro h
  rw [render] at h
  simp only [List.mem_append, List.mem_cons] at h
  rcases h with h | h | h | h | h | h
  · exact hword h
  · exact hname h
  · exact absurd h (by decide)
  · exact hquote h
  · exact a.isPlain.inline.carriageReturn h
  · exact hquote h

theorem Line.carriageReturn_not_mem (line : Line) : CodePoint.ofChar '\r' ∉ line.render := by
  cases line with
  | blank space isInline h => exact isInline.carriageReturn
  | comment t isInline =>
    exact List.not_mem_cons_of_ne_of_not_mem (by decide) isInline.carriageReturn
  | assignment a => exact a.carriageReturn_not_mem

theorem carriageReturn_not_mem_textOf (lines : List Line) :
    CodePoint.ofChar '\r' ∉ textOf lines := by
  induction lines with
  | nil => exact List.not_mem_nil
  | cons line lines ih =>
    obtain ⟨rest, htext, hrest, htail⟩ := textOf_cons line lines
    rw [htext]
    intro h
    rcases List.mem_append.mp h with h | h
    · exact line.carriageReturn_not_mem h
    · cases rest with
      | nil => cases h
      | cons c rest =>
        rcases List.mem_cons.mp h with h | h
        · have hfeed := hrest c rfl
          rw [← h] at hfeed
          exact absurd hfeed (by decide)
        · exact ih (htail ▸ h)

/-- Reading the text of a file gives its assignments. -/
theorem read_textOf (lines : List Line) : read (textOf lines) = lines.filterMap Line.binding? := by
  rw [read, unifyLineEnds_eq_self (carriageReturn_not_mem_textOf lines)]
  exact statements_textOf lines (Nat.lt_succ_self _)

end Statements

section Assignments

/-- No reference is read where none begins. -/
theorem readReference?_eq_none {value : Text} (h : ¬ referenceLead <:+: value) :
    readReference? value = none := by
  have hdrop : Text.dropStart? referenceLead value = none := by
    refine Option.eq_none_iff_forall_ne_some.mpr fun rest hrest => h ?_
    exact (List.prefix_iff_exists_append_eq.mpr
      ⟨rest, (Text.dropStart?_eq_some.mp hrest).symm⟩).isInfix
  rw [readReference?, ← referenceLead, hdrop]
  rfl

/-- A value without references falls into its code points. -/
theorem pieces_eq_map_plain {value : Text} (h : ¬ referenceLead <:+: value) :
    pieces value.length value = value.map .plain := by
  induction value with
  | nil => rfl
  | cons c value ih =>
    have hvalue : ¬ referenceLead <:+: value := fun hlead =>
      h (hlead.trans (List.suffix_cons c value).isInfix)
    rw [List.length_cons, pieces, readReference?_eq_none h, List.map_cons, ← ih hvalue]

/-- A value without references stays as it is. -/
theorem interpolate_eq_self {value : Text} (h : ¬ referenceLead <:+: value)
    (lookup : Text → Option (Option Text)) : interpolate lookup value = value := by
  rw [interpolate, pieces_eq_map_plain h, List.flatMap_map]
  exact List.flatMap_singleton' value

/-- The variables that some assignments set, one after the other. -/
def settle (assignments : List Assignment) : List (Text × Text) :=
  assignments.foldl (fun all a => Association.set a.name a.value all) []

theorem settle_append (assignments : List Assignment) (a : Assignment) :
    settle (assignments ++ [a]) = Association.set a.name a.value (settle assignments) := by
  rw [settle, List.foldl_append, ← settle]
  rfl

/-- A name is set to the value of its last assignment. -/
theorem find?_settle (assignments : List Assignment) (name : Text) :
    Association.find? name (settle assignments) =
      (assignments.reverse.find? fun a => a.name = name).map Assignment.value := by
  induction assignments using List.reverseRecOn with
  | nil => rfl
  | append_singleton assignments a ih =>
    rw [settle_append, List.reverse_append, List.reverse_singleton, List.singleton_append]
    by_cases h : a.name = name
    · simp [h]
    · simp [h, Association.find?_set_of_ne (Ne.symm h), ih]

/-- Every variable that is set comes from an assignment. -/
theorem exists_of_mem_settle {assignments : List Assignment} {entry : Text × Text}
    (h : entry ∈ settle assignments) : ∃ a ∈ assignments, entry = (a.name, a.value) := by
  induction assignments using List.reverseRecOn with
  | nil => cases h
  | append_singleton assignments a ih =>
    rw [settle_append] at h
    rcases Association.eq_or_mem_of_mem_set h with rfl | hold
    · exact ⟨a, by simp, rfl⟩
    · obtain ⟨b, hb, hentry⟩ := ih hold
      exact ⟨b, List.mem_append_left _ hb, hentry⟩

/-- Next to any environment, the assignments of a plain file are made one after the other. -/
theorem resolve_bindings (env : List (Text × Text)) (assignments : List Assignment) :
    resolve env (assignments.map fun a => ⟨a.name, some a.value⟩) =
      (settle assignments).map fun entry => (entry.1, some entry.2) := by
  induction assignments using List.reverseRecOn with
  | nil => rfl
  | append_singleton assignments a ih =>
    rw [settle_append, ← Association.set_map, ← ih, resolve, List.map_append, List.foldl_append,
      ← resolve]
    simp only [List.map_cons, List.map_nil, List.foldl_cons, List.foldl_nil, Option.map_some,
      interpolate_eq_self a.isPlain.unreferring]

/-- A plain file sets the variables that its lines assign. -/
theorem assignments_textOf (env : List (Text × Text)) (lines : List Line) :
    assignments env (textOf lines) = settle (lines.filterMap Line.assignment?) := by
  have hbindings : lines.filterMap Line.binding? =
      (lines.filterMap Line.assignment?).map fun a => ⟨a.name, some a.value⟩ := by
    rw [List.map_filterMap]
    rfl
  rw [assignments, read_textOf, hbindings, resolve_bindings, List.filterMap_map]
  exact List.filterMap_some

/-- A plain file gives a name the value of its last assignment. -/
theorem find?_assignments_textOf (env : List (Text × Text)) (lines : List Line) (name : Text) :
    Association.find? name (assignments env (textOf lines)) = lastValue? lines name := by
  rw [assignments_textOf, find?_settle, lastValue?]

end Assignments

/-- Nothing keeps the variables of a plain file from being set. -/
theorem obstacle?_of_mem_settle {assignments : List Assignment} {entry : Text × Text}
    (h : entry ∈ settle assignments) : obstacle? entry = none := by
  obtain ⟨a, -, rfl⟩ := exists_of_mem_settle h
  have hequals : CodePoint.ofChar '=' ∉ a.name := fun hmem =>
    (a.isName.of_mem hmem).1 rfl
  simp [obstacle?, a.isName.last, a.isPlain.last, hequals]

/-- The variables that a plain file adds to those that are there. -/
def additions (env : Environment) (lines : List Line) : List (Text × Text) :=
  (assignments env (textOf lines)).filter fun v => (env.get? v.1).isNone

/-- The reader puts the variables that a plain file adds behind those that are there. -/
theorem reader_of_decode (encoding : Text) (env : Environment) {bytes : List UInt8}
    {lines : List Line} (hdecode : Utf8.decode? bytes = some (textOf lines)) :
    reader encoding env (.file bytes) = .ok (env ++ additions env lines) := by
  have hclear : (additions env lines).findSome? obstacle? = none := by
    refine List.findSome?_eq_none_iff.mpr fun entry hentry => ?_
    have hmem := (List.mem_filter.mp hentry).1
    rw [assignments_textOf] at hmem
    exact obstacle?_of_mem_settle hmem
  rw [reader, hdecode]
  dsimp only
  rw [complete, ← additions, hclear]
  rfl

end KotlinNullability.Dotenv
