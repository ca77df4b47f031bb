import KotlinNullability.Config
import KotlinNullability.Text.Utf8
import KotlinNullability.Text.WhiteSpace

/-!
# A reader of variable files

One reader of variable files, for programs that bring none of their own. A variable file holds
statements `NAME=value`, each to the end of its line. The word `export` may stand in front, `#` starts
a comment, and a value may stand in single or double quotes, inside of which a backslash escapes. A
statement without `=` names a variable and gives it no value. A line that is no statement is skipped.

A value may refer to variables: a reference is a dollar sign and a name in braces, and a default may
follow the name after `:-`. The environment answers first, then the earlier statements. Variables that
are in the environment already stay as they are.
-/

namespace KotlinNullability.Dotenv

/-- A statement of a variable file. -/
structure Binding where
  name : Text
  value : Option Text
  deriving DecidableEq, Repr

/-- One kind of line end in place of three: a carriage return alone or before a line feed is a line
feed. -/
def unifyLineEnds : Text → Text
  | [] => []
  | c :: rest =>
    if c = '\r' then
      match rest with
      | [] => ['\n']
      | d :: rest => if d = '\n' then (d :: unifyLineEnds rest) else '\n' :: unifyLineEnds (d :: rest)
    else c :: unifyLineEnds rest

/-- White space: the property, and the separators among the control characters. -/
def isBlank (c : CodePoint) : Bool := c.isWhiteSpace || decide (0x1C ≤ c.val ∧ c.val ≤ 0x1F)

/-- White space inside a line. -/
def isInlineBlank (c : CodePoint) : Bool := isBlank c && !(c = '\n')

/-- A text without the white space at its start that does not end the line. -/
def skipInlineBlank (t : Text) : Text := t.dropWhile isInlineBlank

/-- The rest of a text after its first line. -/
def nextLine (t : Text) : Text := (t.dropWhile (· ≠ CodePoint.ofChar '\n')).drop 1

/-- A text without the word `export` and the white space after it, if both are there. -/
def skipExport (t : Text) : Text :=
  match Text.dropStart? "export" t with
  | some (c :: rest) => if isInlineBlank c then skipInlineBlank (c :: rest) else t
  | _ => t

/-- The code points that a bare name is made of. -/
def isNamePart (c : CodePoint) : Bool := !(c = '=' || c = '#' || isBlank c)

/-- The name at the start of a statement, and the rest; a comment has no name. A statement that is
broken gives the text from where it is broken. -/
def readName (t : Text) : Except Text (Option Text × Text) :=
  match t with
  | [] => .error []
  | c :: rest =>
    if c = '#' then .ok (none, t)
    else if c = '\'' then
      match rest.span (· ≠ CodePoint.ofChar '\'') with
      | (name, _ :: after) => if name.isEmpty then .error t else .ok (some name, after)
      | (_, []) => .error t
    else
      let name := t.takeWhile isNamePart
      if name.isEmpty then .error t else .ok (some name, t.dropWhile isNamePart)

/-- The text up to a closing quote, and the rest. What follows a backslash closes nothing. -/
def upToQuote (quote : CodePoint) : Text → Option (Text × Text)
  | [] => none
  | c :: rest =>
    if c = quote then some ([], rest)
    else if c = '\\' then
      match rest with
      | [] => none
      | d :: rest => (upToQuote quote rest).map fun (inner, after) => (c :: d :: inner, after)
    else (upToQuote quote rest).map fun (inner, after) => (c :: inner, after)

/-- The code point of an escape in single quotes. -/
def singleEscape? (c : CodePoint) : Option CodePoint :=
  if c = '\\' ∨ c = '\'' then some c else none

/-- The code point of an escape in double quotes. -/
def doubleEscape? (c : CodePoint) : Option CodePoint :=
  if c = '\\' ∨ c = '\'' ∨ c = '"' then some c
  else if c = 'a' then some (CodePoint.ofChar '\x07')
  else if c = 'b' then some (CodePoint.ofChar '\x08')
  else if c = 'f' then some (CodePoint.ofChar '\x0c')
  else if c = 'n' then some (CodePoint.ofChar '\n')
  else if c = 'r' then some (CodePoint.ofChar '\r')
  else if c = 't' then some (CodePoint.ofChar '\t')
  else if c = 'v' then some (CodePoint.ofChar '\x0b')
  else none

/-- Put the code points of escapes in their places. -/
def unescape (escape? : CodePoint → Option CodePoint) : Text → Text
  | [] => []
  | [c] => [c]
  | c :: d :: rest =>
    if c = '\\' then
      match escape? d with
      | some e => e :: unescape escape? rest
      | none => c :: unescape escape? (d :: rest)
    else c :: unescape escape? (d :: rest)

/-- A bare value up to a comment; a comment has white space in front of it. -/
def beforeComment : Text → Text
  | [] => []
  | [c] => [c]
  | c :: d :: rest => if isBlank c ∧ d = '#' then [] else c :: beforeComment (d :: rest)

/-- A text without the white space at its two ends. -/
def trimBlank (t : Text) : Text := ((t.dropWhile isBlank).reverse.dropWhile isBlank).reverse

/-- The value at the start of a text, and the rest. -/
def readValue (t : Text) : Except Text (Text × Text) :=
  match skipInlineBlank t with
  | [] => .ok ([], [])
  | c :: rest =>
    if c = '\'' ∨ c = '"' then
      match upToQuote c rest with
      | some (inner, after) =>
        .ok (unescape (if c = '"' then doubleEscape? else singleEscape?) inner, after)
      | none => .error (c :: rest)
    else
      let (line, after) := t.span (· ≠ CodePoint.ofChar '\n')
      .ok (trimBlank (beforeComment line), after)

/-- What follows a statement, if that is a comment or nothing up to the end of the line. -/
def finishLine (t : Text) : Except Text Text :=
  match skipInlineBlank t with
  | [] => .ok []
  | c :: rest =>
    if c = '#' then .ok (nextLine rest)
    else if c = '\n' then .ok rest
    else .error (c :: rest)

/-- One statement or comment, and the rest. -/
def readStatement (t : Text) : Except Text (Option Binding × Text) := do
  let (name, rest) ← readName (skipExport t)
  match skipInlineBlank rest with
  | [] => return (name.map fun n => ⟨n, none⟩, [])
  | c :: rest =>
    if c = '=' then
      let (value, rest) ← readValue rest
      let rest ← finishLine rest
      return (name.map fun n => ⟨n, some value⟩, rest)
    else
      let rest ← finishLine (c :: rest)
      return (name.map fun n => ⟨n, none⟩, rest)

/-- The statements of a text; the fuel bounds their number. -/
def statements : Nat → Text → List Binding
  | 0, _ => []
  | fuel + 1, t =>
    match t.dropWhile isBlank with
    | [] => []
    | start =>
      match readStatement start with
      | .ok (binding, rest) => binding.toList ++ statements fuel rest
      | .error rest => statements fuel (nextLine rest)

/-- The statements of a variable file. -/
def read (t : Text) : List Binding := statements (t.length + 1) (unifyLineEnds t)

/-- A reference to a variable, with what stands for it if there is none. -/
structure Reference where
  name : Text
  absent : Text
  deriving DecidableEq, Repr

/-- The reference at the start of a text, and the rest. -/
def readReference? (t : Text) : Option (Reference × Text) := do
  let inner ← Text.dropStart? "$\x7b" t
  let (name, rest) := inner.span fun (c : CodePoint) => !(c = '\x7d' || c = ':')
  match Text.dropStart? ":-" rest with
  | none => return (⟨name, []⟩, ← Text.dropStart? "\x7d" rest)
  | some rest =>
    let (absent, rest) := rest.span (· ≠ CodePoint.ofChar '\x7d')
    return (⟨name, absent⟩, ← Text.dropStart? "\x7d" rest)

/-- A piece of a value: a code point as it is, or a reference. -/
inductive Piece where
  | plain (c : CodePoint)
  | reference (r : Reference)
  deriving DecidableEq, Repr

/-- The pieces of a value; the fuel bounds their number. -/
def pieces : Nat → Text → List Piece
  | 0, _ => []
  | _ + 1, [] => []
  | fuel + 1, c :: rest =>
    match readReference? (c :: rest) with
    | some (r, after) => .reference r :: pieces fuel after
    | none => .plain c :: pieces fuel rest

/-- The text of a piece. The value of a variable comes from a lookup, which also knows variables
without a value. -/
def Piece.resolve (lookup : Text → Option (Option Text)) : Piece → Text
  | plain c => [c]
  | reference r => match lookup r.name with
    | some value => value.getD []
    | none => r.absent

/-- A value with the variables that it refers to in their places. -/
def interpolate (lookup : Text → Option (Option Text)) (value : Text) : Text :=
  (pieces value.length value).flatMap (Piece.resolve lookup)

/-- The variables that a file names, with their values, next to those of the environment: of several
statements for a name the last one counts. -/
def resolve (env : List (Text × Text)) (bindings : List Binding) : List (Text × Option Text) :=
  bindings.foldl (fun all b =>
    let lookup name := ((Association.find? name env).map some).or (Association.find? name all)
    Association.set b.name (b.value.map (interpolate lookup)) all) []

/-- The variables that a file sets next to those of the environment. -/
def assignments (env : List (Text × Text)) (t : Text) : List (Text × Text) :=
  (resolve env (read t)).filterMap fun (name, value) => value.map (name, ·)

/-- Why a variable cannot be set. -/
inductive SetError where
  /-- The name or the value holds the code point that ends both. -/
  | embeddedEnd
  /-- The name holds an equals sign. -/
  | illegalName
  deriving DecidableEq, Repr

/-- The wording of the error. -/
def SetError.message : SetError → Text
  | embeddedEnd => "embedded null byte"
  | illegalName => "illegal environment variable name"

/-- What keeps a variable from being set. -/
def obstacle? (entry : Text × Text) : Option SetError :=
  let last := CodePoint.ofChar '\x00'
  if entry.1.contains last || entry.2.contains last then some .embeddedEnd
  else if entry.1.contains (CodePoint.ofChar '=') then some .illegalName
  else none

/-- Add variables that are not there yet. -/
def complete (env : Environment) (added : List (Text × Text)) : Except SetError Environment :=
  let added := added.filter fun v => (env.get? v.1).isNone
  match added.findSome? obstacle? with
  | some e => .error e
  | none => .ok (env ++ added)

/-- The reader, given what it says of bytes that are no UTF-8. Only a file holds variables. -/
def reader (encoding : Text) : Environment.VariableReader := fun env node =>
  match node with
  | .file bytes =>
    match Utf8.decode? bytes with
    | none => .error (.refused encoding)
    | some t => (complete env (assignments env t)).mapError fun e => .refused e.message
  | .directory | .device => .ok env

example : assignments [] "# c\nA=1\nexport B='x y' # z\nA=2\nC= # n\n" =
    [(Text.ofString "A", Text.ofString "2"), (Text.ofString "B", Text.ofString "x y"),
      (Text.ofString "C", [])] := by
  decide +kernel

example : assignments [(Text.ofString "H", Text.ofString "h")] "A=$\x7bH\x7d/$\x7bN:-z\x7d$\x7bN\n" =
    [(Text.ofString "A", Text.ofString "h/z$\x7bN")] := by
  decide +kernel

end KotlinNullability.Dotenv
