import KotlinNullability.Proofs.Wire.Session
import KotlinNullability.Proofs.Wire.Truncation

/-!
# Declared lengths

In front of some bytes a varint of 64 bits declares how many they are. Six operations of a reader take
a length from it: they all slice off so many bytes and make their result of the slice, so they read on
at the same place. `Honours` says that an operation keeps to what is declared. It may not succeed if
fewer bytes are left, and has to take exactly the declared ones otherwise.

The length is taken from the lowest 32 bits of what is declared. An overrun is found where these bits
overrun the bytes that are left, or are negative with their sign; a declared length that overruns
them by its higher bits alone passes for a shorter one.
-/

namespace KotlinNullability.Wire

open Varint (Whole valueOf)

/-- The number that a varint of 64 bits declares. -/
def Varint.declared (groups : List UInt8) : Nat := valueOf groups % 2 ^ 64

/-- The result that leaves a state with a value or with a fault. -/
def give {ε σ α : Type} (outcome : Except ε α) (after : σ) : EStateM.Result ε σ α :=
  match outcome with
  | .ok a => .ok a after
  | .error e => .error e after

/-- What a reader gives that takes a slice and makes its result of it; the slice may fail. -/
def ofSlice {α : Type} (make : Cursor → Except Fault α) (current : Option Tag) :
    EStateM.Result Fault Cursor Cursor → EStateM.Result Fault Reader α
  | .ok span after => give (make span) ⟨after, current⟩
  | .error fault after => .error fault ⟨after, current⟩

/-! ## The operations that take a length -/

/-- An operation that takes a length in front of what it reads. -/
inductive LengthOp where
  | enter
  | enterTagless
  | bytes
  | text
  | ints
  /-- Skip the value of the current field, or a value whose wire type is given. -/
  | skip (given : Bool)
  deriving DecidableEq, Repr

namespace LengthOp

/-- The operation on a reader. -/
def op : LengthOp → ReaderOp
  | enter => .enter
  | enterTagless => .enterTagless
  | bytes => .bytes
  | text => .text
  | ints => .ints
  | skip given => .skip (if given then some WireType.delimited.code else none)

/-- What the operation makes of the bytes that the length covers. -/
def content : LengthOp → Cursor → Except Fault (Datum ⊕ Reader)
  | enter, span | enterTagless, span => .ok (.inr (.ofCursor span))
  | bytes, span => .ok (.inl (.bytes span.unread))
  | text, span => .ok (.inl (.text (Utf8.decodeLossy span.unread)))
  | ints, span => (packedInts span).map fun ns => .inl (.ints ns)
  | skip _, _ => .ok (.inl .nothing)

end LengthOp

section Slices

variable {α β : Type} {c : Cursor} {current : Option Tag}

theorem run_map {σ : Type} (m : Read σ α) (g : α → β) (s : σ) :
    (do return g (← m)) s = carry id g id (m s) := by
  change EStateM.bind m (fun a => pure (g a)) s = _
  unfold EStateM.bind
  cases m s <;> rfl

theorem carry_ofSlice (make : Cursor → Except Fault α) (g : α → β)
    (taken : EStateM.Result Fault Cursor Cursor) :
    carry id g id (ofSlice make current taken) =
      ofSlice (fun span => (make span).map g) current taken := by
  cases taken with
  | error fault after => rfl
  | ok span after =>
    rw [ofSlice, ofSlice]
    cases make span <;> rfl

/-- A check that holds is passed. -/
theorem Reader.expect_bind {wire : WireType} (h : current.map (·.wire) = some wire)
    (m : Read Reader α) : (do Reader.expect wire; m) ⟨c, current⟩ = m ⟨c, current⟩ := by
  have hexpect : Reader.expect wire ⟨c, current⟩ = .ok () ⟨c, current⟩ := if_pos h
  change EStateM.bind (Reader.expect wire) (fun _ => m) ⟨c, current⟩ = _
  rw [EStateM.bind, hexpect]

/-- The bytes behind a length are those of the slice. -/
theorem Cursor.readDelimited_eq :
    Cursor.readDelimited c = carry id Cursor.unread id (Cursor.sliceDelimited c) := by
  change EStateM.bind Cursor.readLength Cursor.readExact c =
    carry id Cursor.unread id (EStateM.bind Cursor.readLength Cursor.slice c)
  unfold EStateM.bind
  cases Cursor.readLength c with
  | error fault after => rfl
  | ok count after =>
    dsimp only
    unfold Cursor.slice
    cases Cursor.readExact count after <;> rfl

theorem Reader.enterTagless_eq : Reader.enterTagless ⟨c, current⟩ =
    ofSlice (fun span => .ok (.ofCursor span)) current (Cursor.sliceDelimited c) := by
  rw [Reader.enterTagless, run_map, Reader.onCursor]
  cases Cursor.sliceDelimited c <;> rfl

theorem Reader.enter_eq (h : current.map (·.wire) = some .delimited) : Reader.enter ⟨c, current⟩ =
    ofSlice (fun span => .ok (.ofCursor span)) current (Cursor.sliceDelimited c) := by
  rw [Reader.enter, expect_bind h, enterTagless_eq]

theorem Reader.readBytes_eq (h : current.map (·.wire) = some .delimited) :
    Reader.readBytes ⟨c, current⟩ =
      ofSlice (fun span => .ok span.unread) current (Cursor.sliceDelimited c) := by
  rw [Reader.readBytes, expect_bind h, Reader.onCursor, Cursor.readDelimited_eq]
  cases Cursor.sliceDelimited c <;> rfl

theorem Reader.readInts_eq (h : current.map (·.wire) = some .delimited) :
    Reader.readInts ⟨c, current⟩ = ofSlice packedInts current (Cursor.sliceDelimited c) := by
  rw [Reader.readInts, if_neg (by rw [h]; decide), enter_eq h]
  cases Cursor.sliceDelimited c with
  | error fault after => rfl
  | ok span after =>
    simp only [ofSlice, give, ofCursor]
    cases packedInts span <;> rfl

theorem Reader.skipField_eq (h : current.map (·.wire) = some .delimited) (given : Bool) :
    Reader.skipField (if given then some WireType.delimited.code else none) ⟨c, current⟩ =
      ofSlice (fun _ => .ok ()) current (Cursor.sliceDelimited c) := by
  have hskip : Reader.skipField (if given then some WireType.delimited.code else none) ⟨c, current⟩ =
      Reader.onCursor (Cursor.skip .delimited) ⟨c, current⟩ := by
    cases given with
    | true => rfl
    | false => simp [Reader.skipField, h]
  have hdiscard : Cursor.skip .delimited c = carry id (fun _ => ()) id (Cursor.readDelimited c) :=
    run_map Cursor.readDelimited (fun _ => ()) c
  rw [hskip, Reader.onCursor, hdiscard, Cursor.readDelimited_eq]
  cases Cursor.sliceDelimited c <;> rfl

/-- On a delimited field, every operation takes a slice behind the length and makes its result of it. -/
theorem LengthOp.act_eq (o : LengthOp) (h : current.map (·.wire) = some .delimited) :
    o.op.act ⟨c, current⟩ = ofSlice o.content current (Cursor.sliceDelimited c) := by
  cases o with
  | enter =>
    change (do return .inr (← Reader.enter) : Read Reader (Datum ⊕ Reader)) _ = _
    rw [run_map, Reader.enter_eq h, carry_ofSlice]
    rfl
  | enterTagless =>
    change (do return .inr (← Reader.enterTagless) : Read Reader (Datum ⊕ Reader)) _ = _
    rw [run_map, Reader.enterTagless_eq, carry_ofSlice]
    rfl
  | bytes =>
    change (do return .inl (.bytes (← Reader.readBytes)) : Read Reader (Datum ⊕ Reader)) _ = _
    rw [run_map, Reader.readBytes_eq h, carry_ofSlice]
    rfl
  | text =>
    change (do return .inl (.text (← Reader.readText)) : Read Reader (Datum ⊕ Reader)) _ = _
    rw [run_map, Reader.readText, run_map, Reader.readBytes_eq h, carry_ofSlice, carry_ofSlice]
    rfl
  | ints =>
    change (do return .inl (.ints (← Reader.readInts)) : Read Reader (Datum ⊕ Reader)) _ = _
    rw [run_map, Reader.readInts_eq h, carry_ofSlice]
    rfl
  | skip given =>
    change (do let _ ← Reader.skipField _; return .inl .nothing : Read Reader (Datum ⊕ Reader)) _ = _
    rw [run_map, Reader.skipField_eq h, carry_ofSlice]
    rfl

end Slices

/-! ## Declared lengths -/

/-- A length is what the lowest 32 bits of the declared number hold with their sign. -/
theorem Varint.signed_declared (groups : List UInt8) :
    signed 32 (signed 64 (valueOf groups)) = twosComplement 32 (declared groups) := by
  have hdvd : Nat.pow 2 32 ∣ Nat.pow 2 64 := by decide
  have hlow : declared groups % 2 ^ 32 = valueOf groups % 2 ^ 32 :=
    Nat.mod_mod_of_dvd _ (by decide)
  rw [signed, signed, Int.bmod_bmod_of_dvd hdvd, ← signed, signed_eq_twosComplement (by decide),
    twosComplement, twosComplement, hlow]

/-- Behind a length the cursor goes on, or finds that the length is negative. -/
theorem Cursor.readLength_of_whole {groups : List UInt8} (hwhole : Whole groups) (position : Nat)
    (rest : List UInt8) :
    let length : Nat := Varint.declared groups % 2 ^ 32
    let behind : Cursor := ⟨position + groups.length, rest⟩
    Cursor.readLength ⟨position, groups ++ rest⟩ =
      if length < 2 ^ 31 then .ok length behind
      else .error (.negativeLength ((length : Int) - 2 ^ 32)) behind := by
  intro length behind
  have hvarint : Cursor.readVarint 64 false ⟨position, groups ++ rest⟩ =
      .ok (signed 64 (valueOf groups)) behind :=
    (Parses.varint position (groups ++ rest) _ _).mpr ⟨groups, rest, ⟨hwhole, rfl⟩, rfl, rfl⟩
  have hint : Cursor.readInt32 .plain ⟨position, groups ++ rest⟩ =
      .ok (twosComplement 32 (Varint.declared groups)) behind := by
    rw [Cursor.readInt32, run_map, hvarint, carry, Varint.signed_declared]
    rfl
  change EStateM.bind (Cursor.readInt32 .plain) _ _ = _
  rw [EStateM.bind, hint]
  dsimp only
  have hlow : length < 2 ^ 32 := Nat.mod_lt _ (by decide)
  by_cases hsign : length < 2 ^ 31
  · have hvalue : twosComplement 32 (Varint.declared groups) = length := if_pos hsign
    rw [if_pos hsign, hvalue, if_neg (by omega)]
    rfl
  · have hvalue : twosComplement 32 (Varint.declared groups) = (length : Int) - 2 ^ 32 :=
      if_neg hsign
    rw [if_neg hsign, hvalue, if_pos (by omega)]
    rfl

/-- An operation keeps to a declared length: with fewer bytes behind it, the operation fails for want
of bytes or for a negative length, and otherwise its result is made of exactly so many bytes, and the
reader stands behind them. -/
structure Honours (o : LengthOp) (declared : Nat) (behind : Cursor) (current : Option Tag)
    (result : EStateM.Result Fault Reader (Datum ⊕ Reader)) : Prop where
  short : behind.available < declared →
    ∃ fault after, result = .error fault after ∧
      (fault.IsShortage ∨ ∃ length, fault = .negativeLength length)
  exact : declared ≤ behind.available →
    result = give (o.content ⟨behind.position, behind.unread.take declared⟩)
      ⟨⟨behind.position + declared, behind.unread.drop declared⟩, current⟩

/-- What an operation on a delimited field does with a length, by the lowest 32 bits of what is
declared: a length that is negative with its sign is a fault, and so is one that overruns the bytes
left; the result is made of so many bytes otherwise. -/
theorem LengthOp.act_of_whole {groups rest : List UInt8} {current : Option Tag}
    (hwhole : Whole groups) (hcurrent : current.map (·.wire) = some .delimited) (position : Nat)
    (o : LengthOp) :
    let length : Nat := Varint.declared groups % 2 ^ 32
    let behind : Cursor := ⟨position + groups.length, rest⟩
    o.op.act ⟨⟨position, groups ++ rest⟩, current⟩ =
      if 2 ^ 31 ≤ length then .error (.negativeLength ((length : Int) - 2 ^ 32)) ⟨behind, current⟩
      else if rest.length < length then
        .error (.endOfInput (.span rest.length length)) ⟨behind, current⟩
      else give (o.content ⟨behind.position, rest.take length⟩)
        ⟨⟨behind.position + length, rest.drop length⟩, current⟩ := by
  intro length behind
  rw [o.act_eq hcurrent]
  change ofSlice _ _ (EStateM.bind Cursor.readLength Cursor.slice _) = _
  rw [EStateM.bind, Cursor.readLength_of_whole hwhole]
  by_cases hsign : length < 2 ^ 31
  · rw [if_pos hsign, if_neg (Nat.not_le.mpr hsign)]
    dsimp only
    unfold Cursor.slice Cursor.readExact Cursor.available
    have hwritable : Numeral.isWritable (length : Nat) = true :=
      Numeral.isWritable_of_lt (by omega)
    rw [Numeral.worded_singleton hwritable]
    by_cases hshort : rest.length < length
    · rw [if_pos hshort, if_pos hshort]
      rfl
    · rw [if_neg hshort, if_neg hshort]
      rfl
  · rw [if_neg hsign, if_pos (Nat.le_of_not_lt hsign)]
    rfl

/-- Every operation on a delimited field keeps to the length in the lowest 32 bits of what is declared,
as long as fewer than two to the 31 bytes are left. -/
theorem LengthOp.honours_low_bits {groups rest : List UInt8} {current : Option Tag}
    (hwhole : Whole groups) (hcurrent : current.map (·.wire) = some .delimited)
    (hrest : rest.length < 2 ^ 31) (position : Nat) (o : LengthOp) :
    Honours o (Varint.declared groups % 2 ^ 32) ⟨position + groups.length, rest⟩ current
      (o.op.act ⟨⟨position, groups ++ rest⟩, current⟩) := by
  have hresult := @act_of_whole groups rest current hwhole hcurrent position o
  generalize Varint.declared groups % 2 ^ 32 = length at hresult
  constructor
  · intro (hshort : rest.length < length)
    by_cases hsign : 2 ^ 31 ≤ length
    · rw [hresult, if_pos hsign]
      exact ⟨_, _, rfl, .inr ⟨_, rfl⟩⟩
    · rw [hresult, if_neg hsign, if_pos hshort]
      exact ⟨_, _, rfl, .inl ⟨_, rfl⟩⟩
  · intro (hfits : length ≤ rest.length)
    rw [hresult, if_neg (by omega), if_neg (by omega)]

/-- Operations on a delimited field keep to the length in the lowest 32 bits of what is declared. So
they keep to the declared length itself if it is within the bytes left, or if its lowest 32 bits
overrun these bytes as well, and otherwise they do not all keep to it. -/
theorem honours_declared_iff {groups rest : List UInt8} {current : Option Tag}
    (hwhole : Whole groups) (hcurrent : current.map (·.wire) = some .delimited)
    (hrest : rest.length < 2 ^ 31) (position : Nat) :
    let declared := Varint.declared groups
    let length : Nat := declared % 2 ^ 32
    let behind : Cursor := ⟨position + groups.length, rest⟩
    let result (o : LengthOp) := o.op.act ⟨⟨position, groups ++ rest⟩, current⟩
    (∀ o, Honours o length behind current (result o)) ∧
      ((∀ o, Honours o declared behind current (result o)) ↔
        declared ≤ rest.length ∨ rest.length < length) := by
  intro declared length behind result
  have hlow (o : LengthOp) : Honours o length behind current (result o) :=
    o.honours_low_bits hwhole hcurrent hrest position
  refine ⟨hlow, fun h => ?_, ?_⟩
  · by_contra hmissed
    obtain ⟨hover, hfits⟩ := not_or.mp hmissed
    -- Bytes are handed out, although fewer are left than declared.
    obtain ⟨fault, after, herror, -⟩ := (h .bytes).short (Nat.lt_of_not_le hover)
    have hbytes := (hlow .bytes).exact (Nat.le_of_not_lt hfits)
    rw [herror] at hbytes
    cases hbytes
  · rintro (hfits | hover) o
    · have hsame : length = declared := Nat.mod_eq_of_lt (by omega)
      exact hsame ▸ hlow o
    · have hle : length ≤ declared := Nat.mod_le _ _
      exact ⟨fun _ => (hlow o).short hover, fun (hfits : declared ≤ rest.length) => by omega⟩

/-- Three bytes are declared with four bytes left, and five with four. -/
theorem honours_declared_iff_three_and_five :
    let current : Option Tag := some ⟨9, .delimited⟩
    let result (groups : List UInt8) (o : LengthOp) :=
      o.op.act ⟨⟨1, groups ++ [10, 20, 30, 40]⟩, current⟩
    (∀ o, Honours o 3 ⟨2, [10, 20, 30, 40]⟩ current (result [3] o)) ∧
      ∀ o, Honours o 5 ⟨2, [10, 20, 30, 40]⟩ current (result [5] o) := by
  intro current result
  have hthree := @honours_declared_iff [3] [10, 20, 30, 40] current (by decide) rfl (by decide) 1
  have hfive := @honours_declared_iff [5] [10, 20, 30, 40] current (by decide) rfl (by decide) 1
  exact ⟨hthree.2.mpr (.inl (by decide)), hfive.2.mpr (.inr (by decide))⟩

/-- If two to the 32 bytes are declared and none are left, no operation finds the overrun: each
succeeds with what it makes of no bytes. -/
theorem not_honours_two_pow_32 :
    let groups : List UInt8 := [0x80, 0x80, 0x80, 0x80, 0x10]
    let current : Option Tag := some ⟨9, .delimited⟩
    Whole groups ∧ Varint.declared groups = 2 ^ 32 ∧
      ∀ o : LengthOp, (∃ a, o.op.act ⟨⟨1, groups⟩, current⟩ = .ok a ⟨⟨6, []⟩, current⟩) ∧
        ¬ Honours o (2 ^ 32) ⟨6, []⟩ current (o.op.act ⟨⟨1, groups⟩, current⟩) := by
  intro groups current
  have hwhole : Whole groups := by decide
  have hempty : packedInts ⟨6, []⟩ = .ok [] := by
    rw [packedInts]
    rfl
  have hcontent (o : LengthOp) : ∃ a, o.content ⟨6, []⟩ = .ok a := by
    cases o with
    | ints => exact ⟨_, congrArg (Except.map _) hempty⟩
    | _ => exact ⟨_, rfl⟩
  refine ⟨hwhole, by decide, fun o => ?_⟩
  obtain ⟨a, ha⟩ := hcontent o
  have hlow := @LengthOp.honours_low_bits groups [] current hwhole rfl (by decide) 1 o
  have hzero : Varint.declared groups % 2 ^ 32 = 0 := by decide
  rw [hzero] at hlow
  have hresult : o.op.act ⟨⟨1, groups⟩, current⟩ = give (o.content ⟨6, []⟩) ⟨⟨6, []⟩, current⟩ :=
    hlow.exact (Nat.zero_le _)
  rw [ha] at hresult
  refine ⟨⟨a, hresult⟩, fun h => ?_⟩
  obtain ⟨fault, after, herror, -⟩ := h.short (by decide)
  rw [hresult] at herror
  cases herror

end KotlinNullability.Wire
