import KotlinNullability.Json.Misfit
import KotlinNullability.Wire.Tag

/-!
# Errors of decoding

Class metadata fails to decode for one of three reasons: a message is structurally wrong, a string
index does not resolve, or the interned strings are no strings and are not allowed what is done with
them. An index that does not resolve and is too long to be written fails for this alone.
-/

namespace KotlinNullability

/-- Why a string index does not resolve. -/
inductive IndexError where
  /-- The string table has no such slot. -/
  | outsideTable (index : Int) (size : Nat)
  /-- The slot falls back to the interned strings, which are fewer. -/
  | outsidePool (index : Nat) (size : Nat)
  deriving DecidableEq, Repr

/-- The wording of the error. -/
def IndexError.message : IndexError → Text
  | outsideTable index size =>
    "String index " ++ Numeral.ofInt index ++ " out of bounds for string table of size " ++
      Numeral.ofNat size
  | outsidePool index size =>
    "String index " ++ Numeral.ofNat index ++ " out of bounds for " ++ Numeral.ofNat size ++
      " interned strings"

/-- Why class metadata does not decode. -/
inductive DecodeError where
  | wire (fault : Wire.Fault)
  | index (error : IndexError)
  | misuse (error : Json.Misuse)
  /-- A string index in the wording of another error cannot be written. -/
  | unwritable
  deriving DecidableEq, Repr

/-- The error for a string index that does not resolve. -/
def DecodeError.ofIndex (index : Int) (error : IndexError) : DecodeError :=
  Numeral.worded [index] .unwritable (.index error)

/-- The wording of the error. -/
def DecodeError.message : DecodeError → Text
  | wire fault => fault.message
  | index error => error.message
  | misuse error => error.message
  | unwritable => Numeral.unwritableMessage

end KotlinNullability
