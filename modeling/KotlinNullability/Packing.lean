import KotlinNullability.Text

/-!
# Bytes packed into strings

Class files store the metadata payload as an array of strings, in one of two modes. In UTF-8 mode
the first string starts with U+0000 and every later code point is one byte. In seven-bit mode the
bits of the payload, lowest first, are cut into groups of seven; each group plus one modulo 128 is a
code point, and the first string may start with U+FFFF.

`unpack` reads both modes; `packBytes` and `packGroups` write them.
-/

namespace KotlinNullability.Packing

/-- The lowest bits of a number, lowest first. -/
def bits (width n : Nat) : List Bool := (List.range width).map n.testBit

/-- The number of some bits, lowest first. -/
def ofBits : List Bool → Nat
  | [] => 0
  | b :: rest => b.toNat + 2 * ofBits rest

/-- Cut so many numbers of a width off a list of bits; bits that are missing count as zero. -/
def regroup (width : Nat) : (count : Nat) → List Bool → List Nat
  | 0, _ => []
  | count + 1, rest => ofBits (rest.take width) :: regroup width count (rest.drop width)

@[simp] theorem length_bits (width n : Nat) : (bits width n).length = width := by
  simp [bits]

@[simp] theorem length_regroup (width count : Nat) (rest : List Bool) :
    (regroup width count rest).length = count := by
  induction count generalizing rest with
  | zero => rfl
  | succ count ih => simp [regroup, ih]

/-- The bytes that seven-bit groups hold; bits beyond the last whole byte are padding. -/
def bytesOfGroups (groups : List Nat) : List UInt8 :=
  (regroup 8 (7 * groups.length / 8) (groups.flatMap (bits 7))).map UInt8.ofNat

/-- The fewest seven-bit groups that hold some bytes. -/
def groupsOfBytes (bytes : List UInt8) : List Nat :=
  regroup 7 ((8 * bytes.length + 6) / 7) (bytes.flatMap fun b => bits 8 b.toNat)

theorem length_bytesOfGroups (groups : List Nat) :
    (bytesOfGroups groups).length = 7 * groups.length / 8 := by
  simp [bytesOfGroups]

/-- The mark of UTF-8 mode. -/
def utf8Mark : CodePoint := '\x00'

/-- The optional mark of seven-bit mode. -/
def sevenBitMark : CodePoint := '\uFFFF'

/-- How a payload is packed. -/
inductive Mode where
  | utf8
  | sevenBit
  deriving DecidableEq, Repr

/-- The mode that the first code point of the first string tells. -/
def Mode.ofMark (mark : Option CodePoint) : Mode :=
  if mark = some utf8Mark then .utf8 else .sevenBit

/-- The mode of some strings and the strings without a mark. -/
def unmark : List Text → Mode × List Text
  | (c :: first) :: rest =>
    if c = utf8Mark then (.utf8, first :: rest)
    else if c = sevenBitMark then (.sevenBit, first :: rest)
    else (.sevenBit, (c :: first) :: rest)
  | texts => (.sevenBit, texts)

/-- The seven-bit group of a code point. -/
def group (c : CodePoint) : Nat := (c.toByte.toNat + 127) % 128

/-- The bytes of code points in a mode. -/
def Mode.bytes : Mode → Text → List UInt8
  | utf8, t => t.map CodePoint.toByte
  | sevenBit, t => bytesOfGroups (t.map group)

/-- The bytes packed into some strings. -/
def unpack (texts : List Text) : List UInt8 :=
  let (mode, texts) := unmark texts
  mode.bytes texts.flatten

/-- The text of some bytes in UTF-8 mode. -/
def packBytes (bytes : List UInt8) : Text :=
  utf8Mark :: bytes.map fun b => ⟨b.toNat, Nat.lt_trans b.toNat_lt (by decide)⟩

/-- The text of some bytes in seven-bit mode, without a mark. -/
def packGroups (bytes : List UInt8) : Text :=
  (groupsOfBytes bytes).map fun g => ⟨(g + 1) % 128, by omega⟩

end KotlinNullability.Packing
