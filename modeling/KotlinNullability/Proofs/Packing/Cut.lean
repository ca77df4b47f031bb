import KotlinNullability.Proofs.Packing.Reassembly

/-!
# Marked text under any cut

A payload is written as text behind a mark, and the text is cut into strings. Where it is cut makes no
difference as long as the first string is not empty, because only the first code point of the first
string tells the mode, and everything behind it is read as one text. So the payload comes back, even if
its own text begins with a code point that would be a mark in front.

`HoldsBits` says which texts are seven-bit text of a payload, bit by bit and without an encoder.
-/

namespace KotlinNullability.Packing

/-- The code points hold the bits of the bytes, seven each: lowered by one, a code point has its bits
in the lowest places, and there are no more code points than the bits need. -/
structure HoldsBits (bytes : List UInt8) (text : Text) : Prop where
  length : text.length = (8 * bytes.length + 6) / 7
  bit : ∀ k < 8 * bytes.length, ∃ b ∈ bytes[k / 8]?, ∃ c ∈ text[k / 7]?,
    (((c.val : Int) - 1) % 128).toNat.testBit (k % 7) = b.toNat.testBit (k % 8)

/-- The text that is written for some bytes holds their bits. -/
theorem holdsBits_packGroups (bytes : List UInt8) : HoldsBits bytes (packGroups bytes) := by
  have hlength : (packGroups bytes).length = (8 * bytes.length + 6) / 7 := by
    rw [packGroups, List.length_map, groupsOfBytes, length_regroup]
  refine ⟨hlength, fun k hk => ?_⟩
  have hbyte : bytes[k / 8]? = some bytes[k / 8] := List.getElem?_eq_getElem (by omega)
  have hgroup : (packGroups bytes)[k / 7]? = some (packGroups bytes)[k / 7] :=
    List.getElem?_eq_getElem (by omega)
  refine ⟨_, hbyte, _, hgroup, ?_⟩
  -- The group of the code point is the one that was cut off the bits of the bytes.
  have hcut : (groupsOfBytes bytes)[k / 7]? = some (group (packGroups bytes)[k / 7]) := by
    rw [← map_group_packGroups, List.getElem?_map, hgroup]
    rfl
  have hstream : (bytes.flatMap fun b => bits 8 b.toNat) =
      (bytes.map UInt8.toNat).flatMap (bits 8) := by
    rw [List.flatMap_map]
  rw [groupsOfBytes, getElem?_regroup (by omega), Option.some.injEq, hstream] at hcut
  rw [← group_eq, ← hcut, testBit_ofBits, List.getElem?_take_of_lt (Nat.mod_lt k (by decide)),
    List.getElem?_drop, Nat.div_add_mod, getElem?_flatMap_bits (by decide), List.getElem?_map, hbyte]
  rfl

/-- Seven-bit text behind its mark unpacks to the bytes whose bits it holds. -/
theorem unpack_of_holdsBits {bytes : List UInt8} {text : Text} (h : HoldsBits bytes text) :
    unpack [sevenBitMark :: text] = bytes := by
  have hmark : sevenBitText [sevenBitMark :: text] = text := by
    simp [sevenBitText]
  have hunpack : unpack [sevenBitMark :: text] = bytesOfGroups (text.map group) := by
    rw [unpack_eq_bytesOfGroups rfl, hmark]
  have hlength : 7 * (text.map group).length / 8 = bytes.length := by
    rw [List.length_map, h.length]
    omega
  rw [hunpack]
  apply List.ext_getElem?
  intro i
  by_cases hi : i < bytes.length
  · obtain ⟨b, hb, hbits⟩ := @exists_byte (text.map group) i (hlength ▸ hi)
    have hbyte : bytes[i]? = some bytes[i] := List.getElem?_eq_getElem hi
    rw [hb, hbyte, Option.some.injEq]
    refine eq_of_testBit fun j hj => ?_
    obtain ⟨g, hg, hbit⟩ := hbits j hj
    obtain ⟨b', hb', c, hc, hsame⟩ := h.bit (8 * i + j) (by omega)
    have hplace : (8 * i + j) / 8 = i := by omega
    have hrest : (8 * i + j) % 8 = j := by omega
    rw [hplace, hbyte] at hb'
    rw [List.getElem?_map, hc] at hg
    cases hb'
    cases hg
    rw [hbit, group_eq, hsame, hrest]
  · rw [List.getElem?_eq_none (by rw [length_bytesOfGroups]; omega),
      List.getElem?_eq_none (Nat.le_of_not_lt hi)]

/-- Strings of which the first is not empty unpack to the bytes of the one text that they make. If
this text is seven-bit text of some bytes behind its mark, or their text in UTF-8 mode, the strings
unpack to these bytes; and every payload has seven-bit text. -/
theorem unpack_cut {texts : List Text} (h : texts.head? ≠ some []) :
    unpack texts = unpack [texts.flatten] ∧
      ∀ bytes : List UInt8,
        HoldsBits bytes (packGroups bytes) ∧
        (∀ text, HoldsBits bytes text → texts.flatten = sevenBitMark :: text →
          unpack texts = bytes) ∧
        (texts.flatten = packBytes bytes → unpack texts = bytes) := by
  have hone := unpack_flatten h
  refine ⟨hone, fun bytes => ⟨holdsBits_packGroups bytes, fun text htext hflat => ?_,
    fun hflat => unpack_of_packs ⟨h, .inl hflat⟩⟩⟩
  rw [hone, hflat, unpack_of_holdsBits htext]

/-- The bytes 127 and 0, whose seven-bit text begins with the mark of UTF-8 mode, are cut behind the
mark and in front of an empty string; in UTF-8 mode, the bytes 0 and 255. -/
theorem unpack_cut_twice :
    let texts : List Text := [[sevenBitMark], [], [0x0, 0x1], [0x1]]
    let utf8 : List Text := [[utf8Mark], [0x0], [], [0xFF]]
    texts.head? ≠ some [] ∧ unpack texts = [127, 0] ∧
      utf8.head? ≠ some [] ∧ unpack utf8 = [0, 255] := by
  intro texts utf8
  have h := @unpack_cut texts (by decide)
  have h' := @unpack_cut utf8 (by decide)
  exact ⟨by decide, (h.2 [127, 0]).2.1 _ (h.2 [127, 0]).1 (by decide), by decide,
    (h'.2 [0, 255]).2.2 (by decide)⟩

end KotlinNullability.Packing
