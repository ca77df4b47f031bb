import KotlinNullability.Wire.Cursor

/-!
# Integers on the wire

A varint writes a number in groups of seven bits, the lowest first; every byte but the last has its
high bit set. A varint of width 32 or 64 has at most five or ten bytes, and its value is taken modulo
two to the width as a two's complement number. Fixed-width integers are little-endian, and the
zigzag form interleaves the numbers of either sign.
-/

namespace KotlinNullability.Wire

/-- The two's complement value of an integer's low bits. -/
def signed (bits : Nat) (n : Int) : Int := n.bmod (Nat.pow 2 bits)

theorem signed_lt (bits : Nat) (n : Int) : signed (bits + 1) n < (Nat.pow 2 bits : Nat) := by
  have hpos : 0 < Nat.pow 2 bits := Nat.two_pow_pos bits
  have hpow : Nat.pow 2 (bits + 1) = Nat.pow 2 bits * 2 := rfl
  have h : signed (bits + 1) n < _ := Int.bmod_lt (Nat.two_pow_pos (bits + 1))
  change _ < ((Nat.pow 2 (bits + 1) : Nat) + 1 : Int) / 2 at h
  rw [hpow] at h
  omega

theorem le_signed (bits : Nat) (n : Int) : -(Nat.pow 2 bits : Nat) ≤ signed (bits + 1) n := by
  have hpow : Nat.pow 2 (bits + 1) = Nat.pow 2 bits * 2 := rfl
  have h : _ ≤ signed (bits + 1) n := Int.le_bmod (Nat.two_pow_pos (bits + 1))
  change -((Nat.pow 2 (bits + 1) : Nat) / 2 : Int) ≤ _ at h
  rw [hpow] at h
  omega

namespace Varint

/-- What the start of some bytes holds when so many bytes may be taken. -/
inductive Scan where
  /-- A complete varint, and the bytes after it. -/
  | complete (groups : List UInt8) (rest : List UInt8)
  /-- All bytes are taken and the varint goes on. -/
  | unfinished
  /-- The varint goes on after the last byte that may be taken. -/
  | tooLong (rest : List UInt8)
  deriving DecidableEq, Repr

/-- Look for a varint of at most `cap` bytes. -/
def scan : (cap : Nat) → List UInt8 → Scan
  | 0, bytes => .tooLong bytes
  | _ + 1, [] => .unfinished
  | cap + 1, b :: bytes =>
    if b.toNat < 0x80 then .complete [b] bytes
    else
      match scan cap bytes with
      | .complete groups rest => .complete (b :: groups) rest
      | .unfinished => .unfinished
      | .tooLong rest => .tooLong rest

/-- The number that groups of seven bits stand for, the lowest group first. -/
def valueOf : List UInt8 → Nat
  | [] => 0
  | b :: groups => b.toNat % 0x80 + 0x80 * valueOf groups

/-- The most bytes that a varint of a width may have. -/
def capOf (bits : Nat) : Nat := (bits + 6) / 7

theorem scan_complete {cap : Nat} {bytes groups rest : List UInt8}
    (h : scan cap bytes = .complete groups rest) : bytes = groups ++ rest ∧ groups ≠ [] := by
  induction cap generalizing bytes groups with
  | zero => simp [scan] at h
  | succ cap ih =>
    cases bytes with
    | nil => simp [scan] at h
    | cons b bytes =>
      rw [scan] at h
      split at h
      · cases h
        simp
      · cases hs : scan cap bytes with
        | complete gs r =>
          rw [hs] at h
          cases h
          simp [(ih hs).1]
        | unfinished => rw [hs] at h; cases h
        | tooLong r => rw [hs] at h; cases h

theorem scan_tooLong {cap : Nat} {bytes rest : List UInt8} (h : scan cap bytes = .tooLong rest) :
    cap ≤ bytes.length ∧ rest = bytes.drop cap := by
  induction cap generalizing bytes with
  | zero =>
    rw [scan] at h
    cases h
    simp
  | succ cap ih =>
    cases bytes with
    | nil => simp [scan] at h
    | cons b bytes =>
      rw [scan] at h
      split at h
      · cases h
      · cases hs : scan cap bytes with
        | complete gs r => rw [hs] at h; cases h
        | unfinished => rw [hs] at h; cases h
        | tooLong r =>
          rw [hs] at h
          cases h
          have := ih hs
          simp only [List.length_cons, List.drop_succ_cons]
          exact ⟨by omega, this.2⟩

end Varint

namespace Cursor

/-- Read a varint of a width as a two's complement number. At the end of the window the result is
`-1` if the end is allowed there. -/
def readVarint (bits : Nat) (endAllowed : Bool) : Read Cursor Int := fun c =>
  if c.unread.isEmpty && endAllowed then .ok (-1) c
  else
    match Varint.scan (Varint.capOf bits) c.unread with
    | .complete groups rest =>
      .ok (signed bits (Varint.valueOf groups)) ⟨c.position + groups.length, rest⟩
    | .unfinished => .error (.endOfInput .oneByte) ⟨c.stop, []⟩
    | .tooLong rest => .error (.varintTooLong bits) ⟨c.position + Varint.capOf bits, rest⟩

end Cursor

/-- The number that little-endian bytes stand for. -/
def littleEndian : List UInt8 → Nat
  | [] => 0
  | b :: bytes => b.toNat + 0x100 * littleEndian bytes

/-- Read so many little-endian bytes as a two's complement number. -/
def Cursor.readFixed (count : Nat) : Read Cursor Int := do
  let bytes ← Cursor.readExact count
  pure (signed (8 * count) (littleEndian bytes))

namespace Forward

theorem readVarint (bits : Nat) (endAllowed : Bool) :
    Forward (Cursor.readVarint bits endAllowed) := by
  intro c
  unfold Cursor.readVarint
  split
  · exact Cursor.Follows.refl c
  · split
    · next groups rest h => exact ⟨groups, (Varint.scan_complete h).1, rfl⟩
    · exact ⟨c.unread, by simp, rfl⟩
    · next rest h =>
      have ⟨hlen, hrest⟩ := Varint.scan_tooLong h
      subst hrest
      exact ⟨c.unread.take (Varint.capOf bits), by simp, by
        simp [Nat.min_eq_left hlen]⟩

theorem readFixed (count : Nat) : Forward (Cursor.readFixed count) :=
  .bind (.readExact count) fun _ => .pure _

end Forward

/-- The number behind a zigzag code: codes count 0, -1, 1, -2, 2 and so on. -/
def unzigzag (code : Nat) : Int :=
  if code % 2 = 0 then (code / 2 : Nat) else -((code / 2 : Nat) : Int) - 1

/-- The zigzag code of a number. -/
def zigzag : Int → Nat
  | .ofNat n => 2 * n
  | .negSucc n => 2 * n + 1

@[simp] theorem unzigzag_zigzag (n : Int) : unzigzag (zigzag n) = n := by
  cases n with
  | ofNat n => simp [zigzag, unzigzag]
  | negSucc n =>
    have h : (2 * n + 1) % 2 = 1 := by omega
    have hd : (2 * n + 1) / 2 = n := by omega
    simp only [zigzag, unzigzag, h, hd]
    simp
    omega

end KotlinNullability.Wire
