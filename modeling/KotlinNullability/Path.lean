import KotlinNullability.Text.Utf8

/-!
# Paths

A path starts at the root or at the working directory and goes through names. Reading a path drops
what does not matter: repeated slashes, a slash at the end, and the name `.`; the name `..` stays.
Two slashes at the start, and no more, are a root of their own.
-/

namespace KotlinNullability

/-- Where a path starts. -/
inductive Path.Start where
  | workingDirectory
  | root
  | doubleRoot
  deriving DecidableEq, Repr

/-- A way through a file tree. -/
structure Path where
  start : Path.Start
  names : List Text
  deriving DecidableEq, Repr

namespace Path

/-- The spelling of a start. -/
def Start.spelling : Start → Text
  | workingDirectory => []
  | root => "/"
  | doubleRoot => "//"

/-- The start that so many slashes spell. -/
def Start.ofSlashes : Nat → Start
  | 0 => workingDirectory
  | 2 => doubleRoot
  | _ => root

/-- Whether a piece between slashes names something. -/
def isName (piece : Text) : Bool := !piece.isEmpty && piece ≠ Text.ofString "."

/-- Read a path. -/
def read (t : Text) : Path where
  start := .ofSlashes (t.takeWhile (· = CodePoint.ofChar '/')).length
  names := (t.splitOn '/').filter isName

/-- The spelling of a path. -/
def toText (p : Path) : Text :=
  match p.start.spelling ++ Text.join "/" p.names with
  | [] => "."
  | t => t

/-- The path of a name inside a directory. -/
def child (p : Path) (name : Text) : Path := { p with names := p.names ++ [name] }

/-- The last name of a path; the path of a start has none. -/
def name (p : Path) : Text := p.names.getLast?.getD []

/-- What stands before the last dot of a name, if something stands on both sides of it; otherwise
the name. -/
def stemOf (name : Text) : Text :=
  match name.reverse.span (· ≠ CodePoint.ofChar '.') with
  | (_ :: _, _ :: c :: front) => (c :: front).reverse
  | _ => name

/-- The last name of a path without its extension. -/
def stem (p : Path) : Text := stemOf p.name

/-- The byte that a code point stands for in names that are no text: a surrogate from U+DC80 on
stands for an undecoded byte. -/
def strayByte? (c : CodePoint) : Option UInt8 :=
  if 0xDC80 ≤ c.val ∧ c.val ≤ 0xDCFF then some c.toByte else none

/-- Why the operating system can have no file with a name. -/
inductive Unspeakable where
  /-- The name holds the code point that ends every name. -/
  | embeddedEnd
  /-- The name holds a surrogate that stands for no byte. -/
  | surrogate
  deriving DecidableEq, Repr

/-- The bytes of a code point of a name. -/
def bytesOf (c : CodePoint) : Except Unspeakable (List UInt8) :=
  match strayByte? c with
  | some b => .ok [b]
  | none => if c.isSurrogate then .error .surrogate else .ok (Utf8.encodeOne c)

/-- The bytes by which the operating system knows a name or the spelling of a path. -/
def systemBytes (t : Text) : Except Unspeakable (List UInt8) := do
  let bytes := (← t.mapM bytesOf).flatten
  if bytes.contains 0 then .error .embeddedEnd else return bytes

/-- The number of bytes by which the operating system knows a name. -/
def systemLength (t : Text) : Nat :=
  match systemBytes t with
  | .ok bytes => bytes.length
  | .error _ => 0

example : (read "./a//b/./c.json/").toText = Text.ofString "a/b/c.json" := by decide +kernel

example : (read "//a").toText = Text.ofString "//a" ∧ (read "///a").toText = Text.ofString "/a" := by
  decide +kernel

example : (read "..x").stem = Text.ofString "." ∧ (read "x.").stem = Text.ofString "x." := by
  decide +kernel

end Path

end KotlinNullability
