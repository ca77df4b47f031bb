import KotlinNullability.Proofs.Wire.ReadBack
import KotlinNullability.Proofs.Wire.Spelling
import KotlinNullability.Proofs.Wire.VarintValue

/-!
# Integers of either width in each kind

An integer is written as a varint of its two's complement in 64 bits, as a varint of its zigzag code,
or as little-endian bytes. Whatever bytes follow, each kind is read back as the integer it was written
for, and takes the bytes of the integer and no more. From any bytes at all, what is read lies in the
range of its width.
-/

namespace KotlinNullability.Wire

/-! ## Written integers -/

namespace Width

/-- The number of bytes. -/
def size : Width → Nat
  | short => 4
  | long => 8

/-- The number of integers. -/
def modulus : Width → Nat
  | short => 0x100000000
  | long => 0x10000000000000000

/-- The integer lies in the range of the width. -/
def Holds : Width → Int → Prop
  | short, n => -2 ^ 31 ≤ n ∧ n < 2 ^ 31
  | long, n => -2 ^ 63 ≤ n ∧ n < 2 ^ 63

instance : (width : Width) → (n : Int) → Decidable (width.Holds n)
  | short, n => inferInstanceAs (Decidable (-2 ^ 31 ≤ n ∧ n < 2 ^ 31))
  | long, n => inferInstanceAs (Decidable (-2 ^ 63 ≤ n ∧ n < 2 ^ 63))

theorem signed_bits (width : Width) (n : Int) : signed width.bits n = n.bmod width.modulus := by
  cases width <;> rfl

end Width

/-- The lowest bytes of a number, the lowest first. -/
def lowBytes : (count : Nat) → Nat → List UInt8
  | 0, _ => []
  | count + 1, n => UInt8.ofNat n :: lowBytes count (n / 0x100)

@[simp] theorem length_lowBytes (count n : Nat) : (lowBytes count n).length = count := by
  induction count generalizing n with
  | zero => rfl
  | succ count ih => rw [lowBytes, List.length_cons, ih]

/-- The lowest bytes of a number stand for its residue. -/
theorem littleEndian_lowBytes (count n : Nat) :
    littleEndian (lowBytes count n) = n % Nat.pow 0x100 count := by
  induction count generalizing n with
  | zero => exact (Nat.mod_one n).symm
  | succ count ih =>
    have hpow : Nat.pow 0x100 (count + 1) = 0x100 * Nat.pow 0x100 count := Nat.mul_comm ..
    rw [lowBytes, littleEndian, ih, UInt8.toNat_ofNat', hpow, Nat.mod_mul]

namespace IntegerKind

/-- The wire type of an integer. -/
def wire : Width → IntegerKind → WireType
  | _, .plain | _, .zigzag => .varint
  | .short, .fixed => .fixed32
  | .long, .fixed => .fixed64

/-- The bytes of an integer. -/
def write (width : Width) : IntegerKind → Int → List UInt8
  | .plain, n => Varint.ofInt n
  | .zigzag, n => Varint.encode (Wire.zigzag n)
  | .fixed, n => lowBytes width.size (n % width.modulus).toNat

end IntegerKind

/-- Read the current field as an integer of a width. -/
def Reader.readInteger : Width → IntegerKind → Read Reader Int
  | .short => readInt
  | .long => readLong

/-! ## Reading them back -/

namespace Width

variable {width : Width} {n : Int}

theorem modulus_pos (width : Width) : 0 < (width.modulus : Int) := by
  cases width <;> decide

theorem toNat_emod_lt (width : Width) (n : Int) : (n % width.modulus).toNat < width.modulus := by
  have hpos := width.modulus_pos
  have hmod := Int.emod_lt_of_pos n hpos
  omega

/-- Half of the integers of a width are negative. -/
theorem exists_half (width : Width) :
    ∃ half : Int, width.modulus = 2 * half ∧ ∀ n, width.Holds n ↔ -half ≤ n ∧ n < half := by
  cases width with
  | short => exact ⟨2 ^ 31, rfl, fun _ => Iff.rfl⟩
  | long => exact ⟨2 ^ 63, rfl, fun _ => Iff.rfl⟩

theorem Holds.bmod_eq (h : width.Holds n) : n.bmod width.modulus = n := by
  obtain ⟨half, hmodulus, hholds⟩ := width.exists_half
  obtain ⟨hlow, hhigh⟩ := (hholds n).mp h
  exact Int.bmod_eq_of_le (by omega) (by omega)

/-- An integer of a width is the two's complement value of its residue. -/
theorem Holds.signed_emod (h : width.Holds n) :
    signed width.bits (n % width.modulus).toNat = n := by
  have hnat : ((n % width.modulus).toNat : Int) = n % width.modulus :=
    Int.toNat_of_nonneg (Int.emod_nonneg _ (Int.ne_of_gt width.modulus_pos))
  rw [width.signed_bits, hnat, Int.emod_bmod, h.bmod_eq]

/-- The codes of a width's integers have no more bits than the width. -/
theorem Holds.zigzag_lt (h : width.Holds n) : zigzag n < width.modulus := by
  have hcode : (zigzag n : Int) = if 0 ≤ n then 2 * n else -2 * n - 1 := by
    cases n with
    | ofNat n => simp [zigzag]
    | negSucc n =>
      simp only [zigzag, Int.negSucc_eq]
      split <;> omega
  obtain ⟨half, hmodulus, hholds⟩ := width.exists_half
  obtain ⟨hlow, hhigh⟩ := (hholds n).mp h
  apply Int.ofNat_lt.mp
  rw [hcode]
  split <;> omega

end Width

namespace Takes

/-- A varint is taken whole by a read of its width. -/
theorem varintOf (width : Width) {n : Nat} (h : n < width.modulus) (endAllowed : Bool) :
    Takes id (Cursor.readVarint width.bits endAllowed) (Varint.encode n)
      (· = signed width.bits n) := by
  intro position rest
  have hne : (Varint.encode n ++ rest).isEmpty = false := by simp [Varint.encode_ne_nil]
  have hscan : Varint.scan width.cap (Varint.encode n ++ rest) =
      .complete (Varint.encode n) rest := by
    cases width with
    | short => exact Varint.scan_encode (Nat.lt_trans h (by decide : 0x100000000 < 128 ^ (4 + 1))) rest
    | long =>
      exact Varint.scan_encode (Nat.lt_trans h (by decide : 0x10000000000000000 < 128 ^ (9 + 1))) rest
  refine ⟨_, rfl, ?_⟩
  simp only [Cursor.readVarint, id, hne, Bool.false_and, Bool.false_eq_true, if_false,
    Width.capOf_bits, hscan, Varint.valueOf_encode]

variable {width : Width} {n : Int}

/-- The varint of an integer's two's complement gives the integer. -/
theorem plainOf (h : width.Holds n) (endAllowed : Bool) :
    Takes id (Cursor.readVarint width.bits endAllowed)
      (Varint.encode (n % width.modulus).toNat) (· = n) := by
  intro position rest
  obtain ⟨_, rfl, hrun⟩ := varintOf width (width.toNat_emod_lt n) endAllowed position rest
  exact ⟨_, h.signed_emod, hrun⟩

/-- A zigzag code that was written gives its integer. -/
theorem zigzagOf (h : width.Holds n) :
    Takes id (Cursor.readVarint width.bits false) (Varint.encode (zigzag n))
      fun m => unzigzag (m % width.modulus).toNat = n := by
  have hcode := h.zigzag_lt
  intro position rest
  obtain ⟨_, rfl, hrun⟩ := varintOf width hcode false position rest
  refine ⟨_, ?_, hrun⟩
  have hnat : (zigzag n : Int) % width.modulus = zigzag n :=
    Int.emod_eq_of_lt (Int.natCast_nonneg _) (Int.ofNat_lt.mpr hcode)
  change unzigzag (signed width.bits (zigzag n) % width.modulus).toNat = n
  rw [width.signed_bits, Int.bmod_emod, hnat, Int.toNat_natCast, unzigzag_zigzag]

/-- Little-endian bytes that were written give their integer. -/
theorem fixedOf (h : width.Holds n) :
    Takes id (Cursor.readFixed width.size) (lowBytes width.size (n % width.modulus).toNat)
      (· = n) := by
  have hexact := exact (lowBytes width.size (n % width.modulus).toNat)
  rw [length_lowBytes] at hexact
  refine hexact.map fun bytes hbytes => ?_
  have hpow : Nat.pow 0x100 width.size = width.modulus := by cases width <;> rfl
  have hbits : 8 * width.size = width.bits := by cases width <;> rfl
  rw [hbytes, hbits, littleEndian_lowBytes, hpow, Nat.mod_eq_of_lt (width.toNat_emod_lt n),
    h.signed_emod]

/-- The integers of a width are read back from each kind. -/
theorem integer (kind : IntegerKind) (h : width.Holds n) (field : Nat) :
    Takes (Reader.mk · (some ⟨field, kind.wire width⟩)) (Reader.readInteger width kind)
      (kind.write width n) (· = n) := by
  match width, kind with
  | .short, .plain =>
    have hn : (Int32.ofInt n).toInt = n := Int32.toInt_ofInt_of_le h.1 h.2
    have hread := int32 (Int32.ofInt n)
    rw [hn] at hread
    exact (expect rfl).after (onCursor hread)
  | .short, .zigzag =>
    have hread : Takes id (Cursor.readInt32 .zigzag) (Varint.encode (zigzag n)) (· = n) :=
      (zigzagOf h).map fun _ => id
    exact (expect rfl).after (onCursor hread)
  | .short, .fixed =>
    exact (expect rfl).after (onCursor (fixedOf h))
  | .long, .plain =>
    have hread := plainOf h false
    exact (expect rfl).after (onCursor hread)
  | .long, .zigzag =>
    have hread : Takes id (Cursor.readInt64 .zigzag) (Varint.encode (zigzag n)) (· = n) :=
      (zigzagOf h).map fun _ => id
    exact (expect rfl).after (onCursor hread)
  | .long, .fixed =>
    exact (expect rfl).after (onCursor (fixedOf h))

/-- An integer of 32 bits is read back from the varint of its two's complement in 32 bits, too. -/
theorem lowBits (h : Width.short.Holds n) (field : Nat) :
    Takes (Reader.mk · (some ⟨field, .varint⟩)) (Reader.readInt .plain)
      (Varint.encode (n % Width.short.modulus).toNat) (· = n) := by
  have hsmall : (n % Width.short.modulus).toNat < 0x100000000 := Width.short.toNat_emod_lt n
  have hread : Takes id (Cursor.readInt32 .plain)
      (Varint.encode (n % Width.short.modulus).toNat) (· = n) := by
    refine (varint (Nat.lt_trans hsmall (by decide)) false).map fun a ha => ?_
    have hwide : Width.long.Holds (n % Width.short.modulus).toNat := by
      constructor <;> omega
    have hsame : signed 64 (n % Width.short.modulus).toNat = (n % Width.short.modulus).toNat := by
      exact (Width.long.signed_bits _).trans hwide.bmod_eq
    rw [ha, hsame]
    exact h.signed_emod
  exact (expect rfl).after (onCursor hread)

end Takes

/-! ## The range of what is read -/

/-- Every result of the read has the property. -/
def Gives {ε σ α : Type} (m : EStateM ε σ α) (P : α → Prop) : Prop :=
  ∀ s a after, m s = .ok a after → P a

namespace Gives

variable {ε σ α β : Type} {m : EStateM ε σ α} {P : α → Prop}

theorem bind {f : β → EStateM ε σ α} (m : EStateM ε σ β) (h : ∀ b, Gives (f b) P) :
    Gives (m >>= f) P := by
  intro s a after hrun
  obtain ⟨b, mid, -, hnext⟩ := bind_eq_ok_iff.mp hrun
  exact h b mid a after hnext

theorem map (m : EStateM ε σ β) {g : β → α} (h : ∀ b, P (g b)) :
    Gives (m >>= fun b => Pure.pure (g b)) P :=
  bind m fun b _ _ _ hrun => by cases hrun; exact h b

theorem onCursor {α : Type} {m : Read Cursor α} {P : α → Prop} (h : Gives m P) :
    Gives (Reader.onCursor m) P := by
  intro r a after hrun
  unfold Reader.onCursor at hrun
  cases hm : m r.cursor with
  | ok b c =>
    rw [hm] at hrun
    cases hrun
    exact h _ _ _ hm
  | error fault c =>
    rw [hm] at hrun
    cases hrun

end Gives

theorem Width.holds_signed (width : Width) (n : Int) : width.Holds (signed width.bits n) := by
  cases width with
  | short => exact ⟨le_signed 31 n, signed_lt 31 n⟩
  | long => exact ⟨le_signed 63 n, signed_lt 63 n⟩

/-- A zigzag code with no more bits than the width stands for an integer in its range. -/
theorem Width.holds_unzigzag (width : Width) (n : Int) :
    width.Holds (unzigzag (n % width.modulus).toNat) := by
  obtain ⟨half, hmodulus, hholds⟩ := width.exists_half
  have hcode := width.toNat_emod_lt n
  rw [hholds]
  unfold unzigzag
  split <;> omega

theorem Gives.varint (width : Width) (endAllowed : Bool) :
    Gives (Cursor.readVarint width.bits endAllowed) width.Holds := by
  intro c n after hrun
  unfold Cursor.readVarint at hrun
  split at hrun
  · cases hrun
    cases width <;> decide
  · split at hrun
    · cases hrun
      exact width.holds_signed _
    · cases hrun
    · cases hrun

/-- What is read lies in the range of its width. -/
theorem Gives.integer (width : Width) (kind : IntegerKind) :
    Gives (Reader.readInteger width kind) width.Holds := by
  match width, kind with
  | .short, .plain => exact bind _ fun _ => onCursor (map _ fun n => Width.holds_signed .short n)
  | .short, .zigzag => exact bind _ fun _ => onCursor (map _ fun n => Width.holds_unzigzag .short n)
  | .short, .fixed => exact bind _ fun _ => onCursor (map _ fun n => Width.holds_signed .short _)
  | .long, .plain => exact bind _ fun _ => onCursor (varint .long false)
  | .long, .zigzag => exact bind _ fun _ => onCursor (map _ fun n => Width.holds_unzigzag .long n)
  | .long, .fixed => exact bind _ fun _ => onCursor (map _ fun n => Width.holds_signed .long _)

/-- Each kind of integer is read back as it was written, from its own bytes and no more, and from any
bytes only integers in the range of the width are read. -/
theorem readInteger_written_and_held :
    (∀ (width : Width) (kind : IntegerKind) (n : Int), width.Holds n → ∀ field : Nat,
      Takes (Reader.mk · (some ⟨field, kind.wire width⟩)) (Reader.readInteger width kind)
        (kind.write width n) (· = n)) ∧
    (∀ n : Int, Width.short.Holds n → ∀ field : Nat,
      Takes (Reader.mk · (some ⟨field, .varint⟩)) (Reader.readInt .plain)
        (Varint.encode (n % Width.short.modulus).toNat) (· = n)) ∧
    ∀ (width : Width) (kind : IntegerKind) (r after : Reader) (n : Int),
      Reader.readInteger width kind r = .ok n after → width.Holds n :=
  ⟨fun _ kind _ h field => Takes.integer kind h field, fun _ h field => Takes.lowBits h field,
    fun width kind r after n h => Gives.integer width kind r n after h⟩

/-- The least integer of 32 bits in its zigzag form and in the two's complement of 32 bits, the least
one of 64 bits in eight bytes, and what is read from the first of these. -/
theorem readInteger_least :
    Width.short.Holds (-2 ^ 31) ∧ Width.long.Holds (-2 ^ 63) ∧
      Takes (Reader.mk · (some ⟨1, .varint⟩)) (Reader.readInteger .short .zigzag)
        (IntegerKind.write .short .zigzag (-2 ^ 31)) (· = -2 ^ 31) ∧
      Takes (Reader.mk · (some ⟨1, .varint⟩)) (Reader.readInt .plain)
        (Varint.encode ((-2 ^ 31 : Int) % Width.short.modulus).toNat) (· = -2 ^ 31) ∧
      Takes (Reader.mk · (some ⟨1, .fixed64⟩)) (Reader.readInteger .long .fixed)
        (IntegerKind.write .long .fixed (-2 ^ 63)) (· = -2 ^ 63) ∧
      ∃ r after n, Reader.readInteger .short .zigzag r = .ok n after ∧ Width.short.Holds n := by
  have hzigzag := readInteger_written_and_held.1 .short .zigzag (-2 ^ 31) (by decide) 1
  obtain ⟨n, -, hrun⟩ := hzigzag 0 []
  exact ⟨by decide, by decide, hzigzag,
    readInteger_written_and_held.2.1 (-2 ^ 31) (by decide) 1,
    readInteger_written_and_held.1 .long .fixed (-2 ^ 63) (by decide) 1,
    _, _, n, hrun, readInteger_written_and_held.2.2 .short .zigzag _ _ n hrun⟩

end KotlinNullability.Wire
