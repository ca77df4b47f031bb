import KotlinNullability.Text.Numeral

/-!
# Tags and faults of the wire format

A message is a run of fields, each a tag and a value. The tag holds the number of the field and the
wire type of its value; only the four wire types below are understood. A `Fault` is a structural
error in a message, and `Fault.message` is its wording. A wording that takes a number from a caller
fails if the number is too long to be written.
-/

namespace KotlinNullability.Wire

/-- How the value of a field is laid out. -/
inductive WireType where
  /-- A variable-length integer. -/
  | varint
  /-- Eight bytes. -/
  | fixed64
  /-- A length and so many bytes. -/
  | delimited
  /-- Four bytes. -/
  | fixed32
  deriving DecidableEq, Repr

namespace WireType

/-- The number of a wire type in a tag. -/
def code : WireType → Nat
  | varint => 0
  | fixed64 => 1
  | delimited => 2
  | fixed32 => 5

/-- The wire type of a number; the group markers 3 and 4 and the reserved 6 and 7 have none. -/
def ofCode? : Nat → Option WireType
  | 0 => some varint
  | 1 => some fixed64
  | 2 => some delimited
  | 5 => some fixed32
  | _ => none

@[simp] theorem ofCode?_code (w : WireType) : ofCode? w.code = some w := by
  cases w <;> rfl

theorem ofCode?_eq_some {n : Nat} {w : WireType} : ofCode? n = some w ↔ n = w.code := by
  constructor
  · intro h
    unfold ofCode? at h
    split at h <;> cases h <;> rfl
  · rintro rfl
    exact ofCode?_code w

/-- The name of a wire type. -/
def label : WireType → Text
  | varint => "VARINT"
  | fixed64 => "I64"
  | delimited => "SIZE_DELIMITED"
  | fixed32 => "I32"

end WireType

/-- A field number with the wire type of the value that follows. -/
structure Tag where
  field : Nat
  wire : WireType
  deriving DecidableEq, Repr

/-- What a read wanted when the input ended. -/
inductive Shortage where
  /-- One more byte. -/
  | oneByte
  /-- A span of bytes longer than what is left. -/
  | span (available requested : Nat)
  deriving DecidableEq, Repr

/-- Where a wire type was met that is not understood. -/
inductive UnsupportedSite where
  /-- In the tag of a field. -/
  | tag (code field : Nat)
  /-- In a request to skip a value, or no wire type at all. -/
  | skip (code : Option Int)
  deriving DecidableEq, Repr

/-- A structural error in a message. -/
inductive Fault where
  /-- A read ran past the end of its window. -/
  | endOfInput (shortage : Shortage)
  /-- A varint has more bytes than its width allows. -/
  | varintTooLong (bits : Nat)
  /-- A declared length is negative. -/
  | negativeLength (length : Int)
  /-- A wire type is not understood. -/
  | unsupportedWireType (site : UnsupportedSite)
  /-- A tag has field number zero. -/
  | invalidTag (header : Nat)
  /-- A field was read as another wire type than its tag says. -/
  | wireTypeMismatch (expected : WireType) (current : Option Tag)
  /-- A number in the wording of another fault cannot be written. -/
  | unwritable
  deriving DecidableEq, Repr

namespace Fault

/-- The wording of a fault. -/
def message : Fault → Text
  | endOfInput .oneByte => "Unexpected EOF"
  | endOfInput (.span available requested) =>
    "Unexpected EOF, available " ++ Numeral.ofNat available ++ " bytes, requested: " ++
      Numeral.ofNat requested
  | varintTooLong bits =>
    "Input stream is malformed: Varint too long (exceeded " ++ Numeral.ofNat bits ++ " bits)"
  | negativeLength length => "Unexpected negative length: " ++ Numeral.ofInt length
  | unsupportedWireType (.tag code field) =>
    "Unsupported wire type " ++ Numeral.ofNat code ++ " for field " ++ Numeral.ofNat field
  | unsupportedWireType (.skip code) =>
    "Unsupported start group or end group wire type: " ++
      (match code with
        | some code => Numeral.ofInt code
        | none => Text.ofString "None")
  | invalidTag header =>
    "Invalid tag with field number 0 (header 0x" ++ Numeral.hexOfNat header ++ ")"
  | wireTypeMismatch expected current =>
    "Expected wire type " ++ expected.label ++ " for field " ++
      (match current with
        | some tag => Numeral.ofNat tag.field ++ ", but found " ++ tag.wire.label
        | none => Text.ofString "-1, but found None")
  | unwritable => Numeral.unwritableMessage

end Fault

namespace Tag

/-- The number that stands for a tag on the wire. -/
def header (tag : Tag) : Nat := tag.field * 8 + tag.wire.code

/-- The tag of a number below `2 ^ 32`. -/
def ofHeader (header : Nat) : Except Fault Tag :=
  if header / 8 = 0 then .error (.invalidTag header)
  else
    match WireType.ofCode? (header % 8) with
    | some wire => .ok ⟨header / 8, wire⟩
    | none => .error (.unsupportedWireType (.tag (header % 8) (header / 8)))

theorem ofHeader_header {tag : Tag} (h : tag.field ≠ 0) : ofHeader tag.header = .ok tag := by
  obtain ⟨field, wire⟩ := tag
  have hcode : wire.code < 8 := by cases wire <;> decide
  have hdiv : (field * 8 + wire.code) / 8 = field := by omega
  have hmod : (field * 8 + wire.code) % 8 = wire.code := by omega
  simp only [header, ofHeader, hdiv, hmod, WireType.ofCode?_code]
  exact if_neg h

end Tag

end KotlinNullability.Wire
