import KotlinNullability.Json
import KotlinNullability.Packing
import KotlinNullability.Version

/-!
# Class headers

A header holds the fields of the metadata annotation of a class. It is built from a JSON object
whose values may be of neighbouring types: numbers may be written as text, and whatever yields items
passes for an array. The items of the two string arrays are kept as they are and judged only when
they are used.
-/

namespace KotlinNullability

/-- Why a JSON object is no header. -/
inductive HeaderError where
  /-- Required keys are missing. -/
  | missing (keys : List Text)
  /-- A value does not pass for a number, or not for an array. -/
  | conversion (error : Json.ConversionError)
  deriving DecidableEq, Repr

/-- The wording of those errors that have one. -/
def HeaderError.message? : HeaderError → Option Text
  | missing keys => some ("Header is missing required keys: " ++ Text.join ", " keys)
  | conversion error => error.message?

/-- The fields of a class's metadata annotation. -/
structure Header where
  kind : Int
  versionParts : List Int
  data1 : List Json := []
  data2 : List Json := []
  extraInt : Int := 0
  deriving DecidableEq, Repr

namespace Header

/-- The kind of a class. -/
def classKind : Int := 1

/-- The keys that a header must have. -/
def requiredKeys : List Text := ["kind", "metadata_version", "data1"]

/-- The items of a value that must pass for an array. -/
def itemsOf (value : Json) : Except HeaderError (List Json) :=
  match value.items? with
  | some items => .ok items
  | none => .error (.conversion .unsuitable)

/-- The number of a value that must pass for one. -/
def numberOf (value : Json) : Except HeaderError Int := value.toInt.mapError .conversion

/-- The value of a field of an object. -/
def field? (key : Text) (members : List (Text × Json)) : Option Json :=
  Association.find? key members

/-- Build a header from the members of an object. -/
def ofMembers (members : List (Text × Json)) : Except HeaderError Header :=
  match field? "kind" members, field? "metadata_version" members,
    field? "data1" members with
  | some kind, some versionParts, some data1 => do
    let kind ← numberOf kind
    let versionParts ← (← itemsOf versionParts).mapM numberOf
    let data1 ← itemsOf data1
    let data2 ← itemsOf ((field? "data2" members).getD (.array []))
    let extraInt ← numberOf ((field? "extra_int" members).getD (.whole 0))
    return { kind, versionParts, data1, data2, extraInt }
  | _, _, _ => .error (.missing (requiredKeys.filter fun key => (field? key members).isNone))

/-- Whether the version is to be compared strictly: bit 3 of the flags in two's complement. -/
def isStrict (h : Header) : Bool := h.extraInt / 8 % 2 = 1

/-- The version of the metadata, unless it has no number. -/
def version? (h : Header) : Option Version := Version.ofParts? h.versionParts h.isStrict

/-- The text that a value spells item by item. -/
def spelled? (value : Json) : Option Text := do (← value.items?).mapM Json.codePoint?

/-- The mode that the first of the packed strings tells; nothing can be told from a value without
positions. -/
def modeOf? (first : Json) : Option Packing.Mode :=
  if first.isVoid then some .sevenBit
  else
    match first with
    | .text t => some (.ofMark t.head?)
    | .array (item :: _) => some (.ofMark item.codePoint?)
    | _ => none

/-- The mode in which the payload is packed. -/
def mode? (h : Header) : Option Packing.Mode :=
  match h.data1 with
  | [] => some .sevenBit
  | first :: _ => modeOf? first

/-- Why the packed strings hold no payload. -/
inductive PayloadError where
  /-- The first of them is an object, which has no first item. -/
  | keyed
  /-- Not all of them spell something. -/
  | notSpelled
  deriving DecidableEq, Repr

/-- Whether a value is an object with members. -/
def isKeyed : Json → Bool
  | .object members => !members.isEmpty
  | _ => false

/-- The payload. -/
def payload (h : Header) : Except PayloadError (List UInt8) :=
  if h.data1.head?.any isKeyed then .error .keyed
  else
    match h.data1.mapM spelled? with
    | some texts => .ok (Packing.unpack texts)
    | none => .error .notSpelled

end Header

end KotlinNullability
