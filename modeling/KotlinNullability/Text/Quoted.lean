import KotlinNullability.Text.Numeral
import KotlinNullability.Text.Printable

/-!
# Quoted text

Texts of unknown origin are shown in quotes inside messages. The quotes are single, unless the text
holds a single quote and no double quote. The quote in use and the backslash are escaped by a
backslash, tab, line feed and carriage return have their short escapes, and every other unprintable
code point is written in hexadecimal by the shortest of the forms with two, four and eight digits.
-/

namespace KotlinNullability.Text

/-- The quote that encloses a text. -/
def quoteMark (t : Text) : CodePoint :=
  if t.contains '\'' && !t.contains '"' then '"' else '\''

/-- The hexadecimal escape of a code point. -/
def hexEscape (c : CodePoint) : Text :=
  if c.val < 0x100 then "\\x" ++ Numeral.hexPadded 2 c.val
  else if c.val < 0x10000 then "\\u" ++ Numeral.hexPadded 4 c.val
  else "\\U" ++ Numeral.hexPadded 8 c.val

/-- How one code point is written between quotes. -/
def escape (mark c : CodePoint) : Text :=
  if c = mark ∨ c = '\\' then ['\\', c]
  else if c = '\t' then "\\t"
  else if c = '\n' then "\\n"
  else if c = '\r' then "\\r"
  else if c.isPrintable then [c]
  else hexEscape c

/-- A text in quotes. -/
def quoted (t : Text) : Text :=
  let mark := quoteMark t
  mark :: t.flatMap (escape mark) ++ [mark]

end KotlinNullability.Text
