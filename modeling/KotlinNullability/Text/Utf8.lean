import KotlinNullability.Text

/-!
# UTF-8

Bytes are read as UTF-8 in two ways: `decode?` refuses ill-formed bytes, `decodeLossy` puts U+FFFD
for each maximal ill-formed subpart, that is for the longest start of a well-formed sequence or else
for a single byte. Surrogates have no well-formed sequence.
-/

namespace KotlinNullability.Utf8

/-- What the first byte of a sequence says about the sequence. -/
structure Lead where
  /-- The bits of the code point that the first byte holds. -/
  bits : Nat
  /-- The number of bytes that follow. -/
  more : Nat
  /-- The least second byte. -/
  low : Nat
  /-- The greatest second byte. -/
  high : Nat

/-- The sequences that a byte may start. -/
def lead? (b : Nat) : Option Lead :=
  if b < 0x80 then some ⟨b, 0, 0, 0⟩
  else if b < 0xC2 then none
  else if b < 0xE0 then some ⟨b - 0xC0, 1, 0x80, 0xBF⟩
  else if b = 0xE0 then some ⟨0, 2, 0xA0, 0xBF⟩
  else if b = 0xED then some ⟨0xD, 2, 0x80, 0x9F⟩
  else if b < 0xF0 then some ⟨b - 0xE0, 2, 0x80, 0xBF⟩
  else if b = 0xF0 then some ⟨0, 3, 0x90, 0xBF⟩
  else if b < 0xF4 then some ⟨b - 0xF0, 3, 0x80, 0xBF⟩
  else if b = 0xF4 then some ⟨4, 3, 0x80, 0x8F⟩
  else none

/-- Read the bytes that follow the first one. The result is the code point, unless a byte is missing
or out of its bounds, and the bytes after those that were taken. -/
def follow : (more bits low high : Nat) → List UInt8 → Option Nat × List UInt8
  | 0, bits, _, _, bytes => (some bits, bytes)
  | _ + 1, _, _, _, [] => (none, [])
  | more + 1, bits, low, high, b :: bytes =>
    if low ≤ b.toNat ∧ b.toNat ≤ high then
      follow more (bits * 64 + b.toNat % 64) 0x80 0xBF bytes
    else (none, b :: bytes)

theorem length_follow_le (more bits low high : Nat) (bytes : List UInt8) :
    (follow more bits low high bytes).2.length ≤ bytes.length := by
  induction bytes generalizing more bits low high with
  | nil => cases more <;> simp [follow]
  | cons b bytes ih =>
    cases more with
    | zero => simp [follow]
    | succ more =>
      rw [follow]
      split
      · exact Nat.le_succ_of_le (ih ..)
      · simp

/-- Read one sequence or one ill-formed subpart, of at least one byte. -/
def next (b : UInt8) (bytes : List UInt8) : Option CodePoint × List UInt8 :=
  match lead? b.toNat with
  | none => (none, bytes)
  | some lead =>
    let read := follow lead.more lead.bits lead.low lead.high bytes
    (read.1.bind fun value => if h : value < 0x110000 then some ⟨value, h⟩ else none, read.2)

theorem length_next_le (b : UInt8) (bytes : List UInt8) :
    (next b bytes).2.length ≤ bytes.length := by
  unfold next
  split
  · simp
  · exact length_follow_le ..

/-- The sequences of some bytes in order, `none` for an ill-formed subpart. -/
def sequences : List UInt8 → List (Option CodePoint)
  | [] => []
  | b :: bytes =>
    have : (next b bytes).2.length ≤ bytes.length := length_next_le b bytes
    (next b bytes).1 :: sequences (next b bytes).2
termination_by bytes => bytes.length
decreasing_by simp; omega

/-- The code point that stands for what could not be read. -/
def replacement : CodePoint := ⟨0xFFFD, by decide⟩

/-- The text of some bytes, with U+FFFD for each ill-formed subpart. -/
def decodeLossy (bytes : List UInt8) : Text := (sequences bytes).map (·.getD replacement)

/-- The text of some bytes, if they are well formed. -/
def decode? (bytes : List UInt8) : Option Text := (sequences bytes).mapM id

/-- The bytes of a code point. -/
def encodeOne (c : CodePoint) : List UInt8 :=
  let tail (n : Nat) : UInt8 := UInt8.ofNat (0x80 + n % 64)
  if c.val < 0x80 then [UInt8.ofNat c.val]
  else if c.val < 0x800 then [UInt8.ofNat (0xC0 + c.val / 64), tail c.val]
  else if c.val < 0x10000 then
    [UInt8.ofNat (0xE0 + c.val / 4096), tail (c.val / 64), tail c.val]
  else
    [UInt8.ofNat (0xF0 + c.val / 262144), tail (c.val / 4096), tail (c.val / 64), tail c.val]

/-- The bytes of a text; they are well formed if it holds no surrogate. -/
def encode (t : Text) : List UInt8 := t.flatMap encodeOne

end KotlinNullability.Utf8
