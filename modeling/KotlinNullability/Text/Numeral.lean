import KotlinNullability.Text.WhiteSpace
import KotlinNullability.Text.DecimalDigit

/-!
# Numerals

Whole numbers in decimal notation. Writing gives the shortest digits with a minus sign where one is
needed. Reading is more liberal: white space around the numeral, one sign, decimal digits of any
script, leading zeros, and single underscores between digits. A numeral of more than `digitLimit`
digits is neither read nor written: what would be worded with such a number is not worded, and the
failure to write the number takes its place.
-/

namespace KotlinNullability.Numeral

/-- The digit `0` to `9` of a value below ten. -/
def digit (d : Nat) : CodePoint := ⟨0x30 + d % 10, by omega⟩

/-- The decimal digits of a natural number. -/
def ofNat (n : Nat) : Text :=
  if n < 10 then [digit n] else ofNat (n / 10) ++ [digit (n % 10)]
termination_by n
decreasing_by omega

/-- The decimal notation of an integer. -/
def ofInt : Int → Text
  | .ofNat n => ofNat n
  | .negSucc n => '-' :: ofNat (n + 1)

/-- The most digits a numeral may have. -/
def digitLimit : Nat := 4300

/-- Whether a natural number has more than so many digits. -/
def isLonger : (digits n : Nat) → Bool
  | 0, n => n != 0
  | digits + 1, n => n != 0 && isLonger digits (n / 10)

/-- Whether a whole number is short enough to be written. -/
def isWritable (n : Int) : Bool := !isLonger digitLimit n.natAbs

/-- What is said about a number that is too long to be written. -/
def unwritableMessage : Text :=
  "Exceeds the limit (" ++ ofNat digitLimit ++ " digits) for integer string conversion; " ++
    "use sys.set_int_max_str_digits() to increase the limit"

/-- An error that is worded with some numbers, or what comes instead if they cannot be written. -/
def worded {ε : Type} (numbers : List Int) (unwritable error : ε) : ε :=
  if numbers.all isWritable then error else unwritable

/-- Numbers that can be written leave an error as it is. -/
theorem worded_eq {ε : Type} {numbers : List Int} (h : ∀ n ∈ numbers, isWritable n = true)
    (unwritable error : ε) : worded numbers unwritable error = error :=
  if_pos (List.all_eq_true.mpr h)

theorem worded_singleton {ε : Type} {n : Int} (h : isWritable n = true) (unwritable error : ε) :
    worded [n] unwritable error = error :=
  worded_eq (by simpa using h) unwritable error

/-- The number that a list of decimal digits stands for, the most significant digit first. -/
def valueOf (digits : List Nat) : Nat := digits.foldl (fun value d => 10 * value + d) 0

/-- Why a text is not read as a whole number. -/
inductive ReadError where
  /-- The text is no numeral. -/
  | malformed
  /-- The numeral has more digits than are read. -/
  | tooLong (digits : Nat)
  deriving DecidableEq, Repr

/-- The digits of a non-empty group of digits. -/
def groupDigits? (group : Text) : Option (List Nat) :=
  if group.isEmpty then none else group.mapM CodePoint.digit?

/-- The digits of an unsigned numeral: groups of digits with one underscore between two groups. -/
def digits? (t : Text) : Option (List Nat) :=
  ((t.splitOn '_').mapM groupDigits?).map List.flatten

/-- Whether a code point may stand inside an unsigned numeral. -/
def isPart (c : CodePoint) : Bool := c = '_' || c.digit?.isSome

/-- Read an unsigned numeral. -/
def readNat (t : Text) : Except ReadError Nat :=
  let run := t.takeWhile isPart
  match digits? run with
  | none => .error .malformed
  | some digits =>
    if digitLimit < digits.length then .error (.tooLong digits.length)
    else if run.length = t.length then .ok (valueOf digits)
    else .error .malformed

/-- Read a numeral with an optional sign and white space around it. -/
def read (t : Text) : Except ReadError Int :=
  match t.trim with
  | [] => .error .malformed
  | c :: rest =>
    if c = '-' then (readNat rest).map fun n => -(n : Int)
    else if c = '+' then (readNat rest).map Int.ofNat
    else (readNat (c :: rest)).map Int.ofNat

/-- The lower-case hexadecimal digit of a value below sixteen. -/
def hexDigit (d : Nat) : CodePoint :=
  if d % 16 < 10 then ⟨0x30 + d % 16, by omega⟩ else ⟨0x57 + d % 16, by omega⟩

/-- The hexadecimal digits of a natural number. -/
def hexOfNat (n : Nat) : Text :=
  if n < 16 then [hexDigit n] else hexOfNat (n / 16) ++ [hexDigit (n % 16)]
termination_by n
decreasing_by omega

/-- The hexadecimal digits of a natural number, padded with zeros to a width. -/
def hexPadded (width n : Nat) : Text :=
  let digits := hexOfNat n
  List.replicate (width - digits.length) (CodePoint.ofChar '0') ++ digits

end KotlinNullability.Numeral
