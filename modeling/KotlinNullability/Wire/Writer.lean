import KotlinNullability.Wire.Reader

/-!
# Fields as data

A field is a number and a value in one of the four wire types. `Field.bytes` writes a field with the
shortest varints, and `fields` splits the window of a reader into its fields without asking what they
mean. Reading back a varint that was written gives its number and leaves what follows it.
-/

namespace KotlinNullability.Wire

namespace Varint

/-- The shortest varint of a number. -/
def encode (n : Nat) : List UInt8 :=
  if n < 0x80 then [UInt8.ofNat n] else UInt8.ofNat (n % 0x80 + 0x80) :: encode (n / 0x80)
termination_by n
decreasing_by omega

/-- The shortest varint of an integer in the two's complement of 64 bits. -/
def ofInt (n : Int) : List UInt8 := encode (n % 0x10000000000000000).toNat

theorem encode_ne_nil (n : Nat) : encode n ≠ [] := by
  rw [encode]
  split <;> simp

/-- A varint stands for the number that it was written for. -/
@[simp] theorem valueOf_encode (n : Nat) : valueOf (encode n) = n := by
  induction n using encode.induct with
  | case1 n h =>
    rw [encode, if_pos h, valueOf, valueOf, UInt8.toNat_ofNat']
    omega
  | case2 n h ih =>
    rw [encode, if_neg h, valueOf, ih, UInt8.toNat_ofNat']
    omega

/-- A varint that was written is found whole in front of anything else, if it may have enough
bytes. -/
theorem scan_encode {cap n : Nat} (h : n < Nat.pow 0x80 (cap + 1)) (rest : List UInt8) :
    scan (cap + 1) (encode n ++ rest) = .complete (encode n) rest := by
  induction n using encode.induct generalizing cap with
  | case1 n hn =>
    have hlow : (UInt8.ofNat n).toNat < 0x80 := by
      rw [UInt8.toNat_ofNat']
      omega
    rw [encode, if_pos hn, List.singleton_append, scan, if_pos hlow]
  | case2 n hn ih =>
    cases cap with
    | zero =>
      have hone : Nat.pow 0x80 (0 + 1) = 0x80 := rfl
      exact absurd (hone ▸ h) hn
    | succ cap =>
      have hhigh : ¬ (UInt8.ofNat (n % 0x80 + 0x80)).toNat < 0x80 := by
        rw [UInt8.toNat_ofNat']
        omega
      have hpow : Nat.pow 0x80 (cap + 1 + 1) = Nat.pow 0x80 (cap + 1) * 0x80 := rfl
      have hrest : n / 0x80 < Nat.pow 0x80 (cap + 1) := by
        rw [hpow] at h
        omega
      rw [encode, if_neg hn, List.cons_append, scan, if_neg hhigh, ih hrest]

end Varint

/-- The value of a field as it stands in its message. -/
inductive Value where
  | varint (n : Int)
  | fixed64 (bytes : List UInt8)
  | delimited (bytes : List UInt8)
  | fixed32 (bytes : List UInt8)
  deriving DecidableEq, Repr

namespace Value

/-- The wire type of a value. -/
def wire : Value → WireType
  | varint _ => .varint
  | fixed64 _ => .fixed64
  | delimited _ => .delimited
  | fixed32 _ => .fixed32

/-- The bytes of a value. -/
def bytes : Value → List UInt8
  | varint n => Varint.ofInt n
  | fixed64 bytes | fixed32 bytes => bytes
  | delimited bytes => Varint.encode bytes.length ++ bytes

end Value

/-- A field of a message. -/
structure Field where
  number : Nat
  value : Value
  deriving DecidableEq, Repr

namespace Field

/-- The tag of a field. -/
def tag (f : Field) : Tag := ⟨f.number, f.value.wire⟩

/-- The bytes of a field. -/
def bytes (f : Field) : List UInt8 := Varint.encode f.tag.header ++ f.value.bytes

/-- An integer field. -/
def ofInt (number : Nat) (n : Int) : Field := ⟨number, .varint n⟩

/-- A field with a run of packed integers. -/
def ofInts (number : Nat) (ns : List Int) : Field :=
  ⟨number, .delimited (ns.flatMap Varint.ofInt)⟩

/-- A text field. -/
def ofText (number : Nat) (t : Text) : Field := ⟨number, .delimited (Utf8.encode t)⟩

/-- A field with a nested message. -/
def ofMessage (number : Nat) (fields : List Field) : Field :=
  ⟨number, .delimited (fields.flatMap bytes)⟩

end Field

/-- The bytes of a message. -/
def messageBytes (fields : List Field) : List UInt8 := fields.flatMap Field.bytes

/-- Read a value of a wire type without asking what it means. -/
def Cursor.readValue : WireType → Read Cursor Value
  | .varint => return .varint (← readVarint 64 false)
  | .fixed64 => return .fixed64 (← readExact 8)
  | .delimited => return .delimited (← readDelimited)
  | .fixed32 => return .fixed32 (← readExact 4)

theorem Forward.readValue (wire : WireType) : Forward (Cursor.readValue wire) := by
  cases wire with
  | varint => exact .bind (.readVarint 64 false) fun _ => .pure _
  | fixed64 => exact .bind (.readExact 8) fun _ => .pure _
  | delimited => exact .bind .readDelimited fun _ => .pure _
  | fixed32 => exact .bind (.readExact 4) fun _ => .pure _

/-- The fields of a message from a reader on, in order. -/
def fields (r : Reader) : Except Fault (List Field) :=
  match _htag : Reader.readTag r with
  | .error fault _ => .error fault
  | .ok none _ => .ok []
  | .ok (some tag) atValue =>
    match _hvalue : Cursor.readValue tag.wire atValue.cursor with
    | .error fault _ => .error fault
    | .ok value after => (fields ⟨after, some tag⟩).map (⟨tag.field, value⟩ :: ·)
termination_by r.cursor.unread.length
decreasing_by
  have hforward := Forward.readValue tag.wire atValue.cursor
  rw [_hvalue] at hforward
  exact Nat.lt_of_le_of_lt hforward.length_le (Reader.readTag_shortens _htag)

/-- The fields of a message that was written, in a small case. -/
example : (fields (.ofBytes (messageBytes [.ofInt 2 (-1), .ofMessage 9 [.ofText 6 "x"]]))).toOption =
    some [.ofInt 2 (-1), .ofMessage 9 [.ofText 6 "x"]] := by decide +kernel

end KotlinNullability.Wire
