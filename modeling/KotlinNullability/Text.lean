/-!
# Text

Names in class metadata are sequences of Unicode code points, and a code point may be a surrogate
that stands alone. A text is therefore a list of code points; lengths, positions and replacements
count code points. Literal strings and characters of the source become texts by coercion.
-/

namespace KotlinNullability

/-- A Unicode code point, surrogates included. -/
abbrev CodePoint := Fin 0x110000

/-- A sequence of code points. -/
abbrev Text := List CodePoint

namespace CodePoint

/-- Every character is a code point. -/
def ofChar (c : Char) : CodePoint :=
  ⟨c.toNat, by
    rcases c.valid with h | ⟨_, h⟩
    · exact Nat.lt_trans h (by decide)
    · exact h⟩

instance : Coe Char CodePoint := ⟨ofChar⟩

@[simp] theorem val_ofChar (c : Char) : (ofChar c).val = c.toNat := rfl

/-- The code points of UTF-16 surrogates, which are no characters. -/
def isSurrogate (c : CodePoint) : Bool :=
  decide (0xD800 ≤ c.val ∧ c.val ≤ 0xDFFF)

/-- The character of a code point, unless it is a surrogate. -/
def toChar? (c : CodePoint) : Option Char :=
  if h : c.val.isValidChar then some ⟨c.val.toUInt32, by
    have hlt : c.val < UInt32.size := Nat.lt_trans c.isLt (by decide)
    simpa [UInt32.isValidChar, Nat.toUInt32, Nat.mod_eq_of_lt hlt] using h⟩
  else none

/-- A code point taken from the low 16 bits of an integer, as one UTF-16 unit. -/
def ofUnit (value : Int) : CodePoint :=
  ⟨(value % 0x10000).toNat, by omega⟩

/-- The low byte of a code point. -/
def toByte (c : CodePoint) : UInt8 := UInt8.ofNat c.val

/-- Lower case of the letters `A` to `Z`; every other code point is kept. -/
def toAsciiLower (c : CodePoint) : CodePoint :=
  if h : 0x41 ≤ c.val ∧ c.val ≤ 0x5A then ⟨c.val + 0x20, by omega⟩ else c

end CodePoint

namespace Text

/-- The code points of a string. -/
def ofString (s : String) : Text := s.toList.map CodePoint.ofChar

instance : Coe String Text := ⟨ofString⟩

/-- The spelling of a truth value. -/
def ofBool (b : Bool) : Text := if b then "True" else "False"

/-- The characters of a text, unless it holds a surrogate. -/
def toChars? (t : Text) : Option (List Char) := t.mapM CodePoint.toChar?

/-- The string that shows a text; a surrogate shows as the replacement character. -/
def display (t : Text) : String :=
  String.ofList (t.map fun c => c.toChar?.getD '\uFFFD')

/-- Replace every occurrence of one code point by another. -/
def replace (old new : CodePoint) (t : Text) : Text :=
  t.map fun c => if c = old then new else c

/-- Lower case of the letters `A` to `Z`. -/
def toAsciiLower (t : Text) : Text := t.map CodePoint.toAsciiLower

/-- The pieces of a text between the occurrences of a separator; there is always one more piece
than there are separators. -/
def splitOn (separator : CodePoint) : Text → List Text
  | [] => [[]]
  | c :: rest =>
    if c = separator then [] :: splitOn separator rest
    else
      match splitOn separator rest with
      | [] => [[c]]
      | piece :: pieces => (c :: piece) :: pieces

theorem splitOn_ne_nil (separator : CodePoint) (t : Text) : splitOn separator t ≠ [] := by
  cases t with
  | nil => simp [splitOn]
  | cons c rest =>
    rw [splitOn]
    split
    · simp
    · split <;> simp

/-- Joining the pieces with the separator gives the text back. -/
theorem intercalate_splitOn (separator : CodePoint) (t : Text) :
    List.intercalate [separator] (splitOn separator t) = t := by
  induction t with
  | nil => simp [splitOn]
  | cons c rest ih =>
    rw [splitOn]
    cases hs : splitOn separator rest with
    | nil => exact absurd hs (splitOn_ne_nil separator rest)
    | cons piece pieces =>
      rw [hs] at ih
      by_cases hc : c = separator
      · simp only [hc, if_true]
        cases pieces <;> simp_all [List.intercalate, List.intersperse]
      · simp only [hc, if_false]
        cases pieces <;> simp_all [List.intercalate, List.intersperse]

/-- The first text followed by each of the others with the separator in front of it. -/
def join (separator : Text) (texts : List Text) : Text := separator.intercalate texts

/-- What remains of a text after a text that it starts with. -/
def dropStart? : (start t : Text) → Option Text
  | [], t => some t
  | _ :: _, [] => none
  | a :: start, c :: t => if a = c then dropStart? start t else none

theorem dropStart?_eq_some {start t rest : Text} :
    dropStart? start t = some rest ↔ t = start ++ rest := by
  induction start generalizing t with
  | nil => simp [dropStart?, eq_comm]
  | cons a start ih =>
    cases t with
    | nil => simp [dropStart?]
    | cons c t =>
      by_cases h : a = c
      · simp [dropStart?, h, ih]
      · simp [dropStart?, h, Ne.symm h]

end Text

end KotlinNullability
