import KotlinNullability.Proofs.Text.Utf8
import KotlinNullability.Wire.Message
import KotlinNullability.Wire.Writer

/-!
# Reading fields that were written

A read takes some bytes if it succeeds on them wherever they stand, whatever follows them, and stops
right behind them. Reads in sequence take their bytes one after the other, so a value that was
written is taken whole by the read of its wire type, and a field by its rule.

Integers of 32 bits are given as such: every one of them is read as itself.
-/

namespace KotlinNullability.Wire

/-- In states that are made of a cursor, the read takes exactly these bytes, and its result has the
property. -/
def Takes {ε σ α : Type} (state : Cursor → σ) (m : EStateM ε σ α) (bytes : List UInt8)
    (result : α → Prop) : Prop :=
  ∀ position rest, ∃ a, result a ∧
    m (state ⟨position, bytes ++ rest⟩) = .ok a (state ⟨position + bytes.length, rest⟩)

namespace Takes

variable {ε σ α β : Type} {state : Cursor → σ} {m : EStateM ε σ α} {f : α → EStateM ε σ β}
  {bytes more : List UInt8} {P : α → Prop} {Q : β → Prop}

/-- A result that is there already takes no byte. -/
theorem pure {a : α} (h : P a) : Takes state (Pure.pure a : EStateM ε σ α) [] P :=
  fun _ _ => ⟨a, h, rfl⟩

/-- Two reads in sequence take the bytes of the one and then those of the other. -/
theorem bind (hm : Takes state m bytes P) (hf : ∀ a, P a → Takes state (f a) more Q) :
    Takes state (m >>= f) (bytes ++ more) Q := by
  intro position rest
  obtain ⟨a, ha, hrun⟩ := hm position (more ++ rest)
  obtain ⟨b, hb, hnext⟩ := hf a ha (position + bytes.length) rest
  refine ⟨b, hb, ?_⟩
  change EStateM.bind m f _ = _
  rw [EStateM.bind, List.append_assoc, hrun, List.length_append, ← Nat.add_assoc]
  exact hnext

/-- What takes no further byte after a read leaves the bytes of the read. -/
theorem bind_nil (hm : Takes state m bytes P) (hf : ∀ a, P a → Takes state (f a) [] Q) :
    Takes state (m >>= f) bytes Q := by
  have h := hm.bind hf
  rwa [List.append_nil] at h

/-- A result that is made after a read takes no further byte. -/
theorem map {g : α → β} (hm : Takes state m bytes P) (hg : ∀ a, P a → Q (g a)) :
    Takes state (m >>= fun a => Pure.pure (g a)) bytes Q :=
  hm.bind_nil fun a ha => pure (hg a ha)

/-- What is only checked takes no byte before the read that follows. -/
theorem after {check : EStateM ε σ PUnit} {next : EStateM ε σ β}
    (hc : Takes state check [] fun _ => True) (hn : Takes state next more Q) :
    Takes state (check >>= fun _ => next) more Q :=
  hc.bind fun _ _ => hn

end Takes

/-- An integer of 32 bits is what its sign-extended varint stands for. -/
theorem signed_of_int32 (n : Int32) :
    signed 32 (signed 64 (n.toInt % 0x10000000000000000).toNat) = n.toInt := by
  have hlow : -2 ^ 31 ≤ n.toInt := n.le_toInt
  have hhigh : n.toInt < 2 ^ 31 := n.toInt_lt
  have hnat :
      ((n.toInt % 0x10000000000000000).toNat : Int) = n.toInt % (0x10000000000000000 : Nat) :=
    Int.toNat_of_nonneg (Int.emod_nonneg _ (by decide))
  have hdvd : Nat.pow 2 32 ∣ Nat.pow 2 64 := ⟨Nat.pow 2 32, by decide⟩
  unfold signed
  rw [hnat, show Nat.pow 2 64 = 0x10000000000000000 from rfl, Int.emod_bmod,
    Int.bmod_bmod_of_dvd hdvd]
  exact Int.bmod_eq_of_le (by change -(4294967296 / 2 : Int) ≤ _; omega)
    (by change _ < ((4294967296 : Int) + 1) / 2; omega)

/-- Below two to the 64 the two's complement of 64 bits changes nothing. -/
theorem Varint.ofInt_natCast {n : Nat} (h : n < 0x10000000000000000) :
    Varint.ofInt n = Varint.encode n := by
  rw [Varint.ofInt]
  congr 1
  omega

namespace Takes

/-- A varint is taken whole. -/
theorem varint {n : Nat} (h : n < 0x10000000000000000) (endAllowed : Bool) :
    Takes id (Cursor.readVarint 64 endAllowed) (Varint.encode n) (· = signed 64 n) := by
  intro position rest
  have hne : (Varint.encode n ++ rest).isEmpty = false := by
    simp [Varint.encode_ne_nil]
  have hcap : n < Nat.pow 0x80 (9 + 1) := Nat.lt_trans h (by decide)
  refine ⟨_, rfl, ?_⟩
  unfold Cursor.readVarint
  simp only [id, hne, Bool.false_and, Bool.false_eq_true, if_false]
  rw [show Varint.capOf 64 = 9 + 1 from rfl, Varint.scan_encode hcap]
  simp only [Varint.valueOf_encode]

/-- The varint of any integer is taken whole. -/
theorem varint_ofInt (n : Int) (endAllowed : Bool) :
    Takes id (Cursor.readVarint 64 endAllowed) (Varint.ofInt n)
      (· = signed 64 (n % 0x10000000000000000).toNat) :=
  varint (by omega) endAllowed

/-- An integer of 32 bits is taken from its varint. -/
theorem int32 (n : Int32) :
    Takes id (Cursor.readInt32 .plain) (Varint.ofInt n.toInt) (· = n.toInt) := by
  change Takes id (Cursor.readVarint 64 false >>= fun a => Pure.pure (signed 32 a)) _ _
  refine (varint_ofInt n.toInt false).map fun a ha => ?_
  rw [ha, signed_of_int32]

/-- A length is taken from its varint. -/
theorem length {n : Nat} (h : n < 0x80000000) :
    Takes id Cursor.readLength (Varint.encode n) (· = n) := by
  have hn : (Int32.ofInt n).toInt = n := Int32.toInt_ofInt_of_le (by omega) (by omega)
  have hbytes : Varint.encode n ++ [] = Varint.ofInt (Int32.ofInt n).toInt ++ [] := by
    rw [hn, Varint.ofInt_natCast (by omega)]
  rw [← List.append_nil (Varint.encode n), hbytes]
  refine (int32 (Int32.ofInt n)).bind ?_
  rintro _ rfl
  rw [hn, if_neg (by omega)]
  exact pure (Int.toNat_natCast n)

/-- So many bytes are taken as they stand. -/
theorem exact (bytes : List UInt8) :
    Takes id (Cursor.readExact bytes.length) bytes (· = bytes) := by
  intro position rest
  refine ⟨bytes, rfl, ?_⟩
  have hlen : ¬ (bytes ++ rest).length < bytes.length := by simp
  unfold Cursor.readExact Cursor.available
  simp only [id]
  rw [if_neg hlen, List.take_left' rfl, List.drop_left' rfl]

/-- A cursor over so many bytes takes them from the cursor that hands it out. -/
theorem slice (bytes : List UInt8) :
    Takes id (Cursor.slice bytes.length) bytes fun c => c.unread = bytes := by
  intro position rest
  obtain ⟨_, hresult, hrun⟩ := exact bytes position rest
  refine ⟨⟨position, bytes⟩, rfl, ?_⟩
  rw [hresult] at hrun
  simp only [id] at hrun
  simp only [Cursor.slice, id, hrun]

/-- Bytes with their length in front are taken together with the length. -/
theorem delimited {bytes : List UInt8} (h : bytes.length < 0x80000000) :
    Takes id Cursor.readDelimited (Varint.encode bytes.length ++ bytes) (· = bytes) := by
  refine (length h).bind ?_
  rintro _ rfl
  exact exact bytes

/-- A window over bytes with their length in front takes both. -/
theorem sliceDelimited {bytes : List UInt8} (h : bytes.length < 0x80000000) :
    Takes id Cursor.sliceDelimited (Varint.encode bytes.length ++ bytes)
      fun c => c.unread = bytes := by
  refine (length h).bind ?_
  rintro _ rfl
  exact slice bytes

variable {α : Type} {bytes : List UInt8} {P : α → Prop} {current : Option Tag}

/-- What is read on the cursor of a reader takes the same bytes from the reader. -/
theorem onCursor {m : Read Cursor α} (h : Takes id m bytes P) :
    Takes (Reader.mk · current) (Reader.onCursor m) bytes P := by
  intro position rest
  obtain ⟨a, ha, hrun⟩ := h position rest
  refine ⟨a, ha, ?_⟩
  simp only [id] at hrun
  simp only [Reader.onCursor, hrun]

/-- A field of the right wire type passes its check. -/
theorem expect {wire : WireType} (h : current.map (·.wire) = some wire) :
    Takes (Reader.mk · current) (Reader.expect wire) [] fun _ => True :=
  fun _ _ => ⟨(), trivial, if_pos h⟩

/-- A reader over bytes with their length in front takes both. -/
theorem enterTagless (h : bytes.length < 0x80000000) :
    Takes (Reader.mk · current) Reader.enterTagless (Varint.encode bytes.length ++ bytes)
      fun r => ∃ position, r = .ofCursor ⟨position, bytes⟩ :=
  (onCursor (sliceDelimited h)).map fun c hc => ⟨c.position, by rw [← hc]⟩

/-- A nested message takes its bytes with their length in front. -/
theorem enter (h : bytes.length < 0x80000000) (hwire : current.map (·.wire) = some .delimited) :
    Takes (Reader.mk · current) Reader.enter (Varint.encode bytes.length ++ bytes)
      fun r => ∃ position, r = .ofCursor ⟨position, bytes⟩ :=
  (expect hwire).after (enterTagless h)

/-- Faults that do not occur are not turned into errors. -/
theorem liftFault {m : Read Reader α} {state : Cursor → Reader} (h : Takes state m bytes P) :
    Takes state (Wire.liftFault m) bytes P := by
  intro position rest
  obtain ⟨a, ha, hrun⟩ := h position rest
  exact ⟨a, ha, by simp only [Wire.liftFault, hrun]⟩

end Takes

end KotlinNullability.Wire
