import KotlinNullability.Header
import KotlinNullability.Json.Reader
import KotlinNullability.Text.Utf8

/-!
# Header files

A header file is UTF-8 text that holds one JSON object with the fields of a header.
-/

namespace KotlinNullability.Header

/-- Why a file yields no header. -/
inductive FileError where
  /-- The bytes are no UTF-8. -/
  | encoding
  /-- The text is not read as JSON. -/
  | json (error : Json.ReadError)
  /-- The JSON value is no object. -/
  | notObject
  /-- The object is no header. -/
  | header (error : HeaderError)
  deriving DecidableEq, Repr

/-- What is said about ill-formed bytes and malformed JSON. -/
structure Wording where
  encoding : Text
  /-- The text of malformed JSON that was not read has so many code points. -/
  malformed : (remaining : Nat) → Text

/-- The wording of those errors that blame the content of the file. A value of a type that never
passes for the one needed, an infinite number and excessive nesting have none. -/
def FileError.message? (wording : Wording) : FileError → Option Text
  | encoding => some wording.encoding
  | json (.malformed remaining) =>
    some ("Header file is not valid JSON: " ++ wording.malformed remaining)
  | json (.longNumeral digits) => some (Json.ConversionError.longNumeralMessage digits)
  | json .tooDeep => none
  | notObject => some "Header file must contain a JSON object"
  | header error => error.message?

/-- The header in a file whose arrays and objects are nested at most `depth` deep. -/
def ofFile (depth : Nat) (content : List UInt8) : Except FileError Header :=
  match Utf8.decode? content with
  | none => .error .encoding
  | some t =>
    match Json.read depth t with
    | .error e => .error (.json e)
    | .ok (.object members) => (ofMembers members).mapError .header
    | .ok _ => .error .notObject

end KotlinNullability.Header
