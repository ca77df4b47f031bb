import KotlinNullability.Proofs.Packing

/-!
# Seven-bit text without a mark

A payload may be written in seven-bit mode with no mark in front. Its text unpacks to the payload
unless it begins with U+0000, which is the mark of UTF-8 mode and also the code point of the group
whose bits are all set. So the payloads that are lost are those whose first byte has its seven low
bits set; of such a payload the other groups come back, one byte for each, and that is never the
payload itself.
-/

namespace KotlinNullability.Packing

/-- The bits of a number that stand in front of others are its low part. -/
theorem ofBits_append (l m : List Bool) : ofBits (l ++ m) = ofBits l + 2 ^ l.length * ofBits m := by
  induction l with
  | nil => simp [ofBits]
  | cons b rest ih =>
    rw [List.cons_append, ofBits, ih, ofBits, List.length_cons, Nat.pow_succ, Nat.mul_add,
      Nat.add_assoc, Nat.mul_comm (2 ^ rest.length) 2, Nat.mul_assoc]

/-- Cutting bits off divides their number by a power of two: what is cut off is the remainder. -/
theorem ofBits_take_drop (width : Nat) (l : List Bool) :
    ofBits (l.take width) = ofBits l % 2 ^ width ∧
      ofBits (l.drop width) = ofBits l / 2 ^ width := by
  rcases Nat.lt_or_ge l.length width with hshort | hlong
  · have hlt : ofBits l < 2 ^ width :=
      Nat.lt_trans (ofBits_lt l) (Nat.pow_lt_pow_right (by decide) hshort)
    rw [List.take_of_length_le (Nat.le_of_lt hshort), List.drop_of_length_le (Nat.le_of_lt hshort),
      Nat.mod_eq_of_lt hlt, Nat.div_eq_of_lt hlt]
    exact ⟨rfl, rfl⟩
  · have hlength : (l.take width).length = width := List.length_take_of_le hlong
    have hsplit := ofBits_append (l.take width) (l.drop width)
    have hlow := ofBits_lt (l.take width)
    rw [List.take_append_drop, hlength] at hsplit
    rw [hlength] at hlow
    rw [hsplit, Nat.add_mul_mod_self_left, Nat.mod_eq_of_lt hlow,
      Nat.add_mul_div_left _ _ (Nat.two_pow_pos width), Nat.div_eq_of_lt hlow, Nat.zero_add]
    exact ⟨rfl, rfl⟩

/-- The first of the numbers that bits are cut into is what is left over when their number is
divided, and the quotient gives the others. -/
theorem regroup_succ (width count : Nat) (l : List Bool) :
    regroup width (count + 1) l = ofBits l % 2 ^ width :: regroup width count (l.drop width) := by
  rw [regroup, (ofBits_take_drop width l).1]

/-- The number of all bits of a payload, the bytes counting from the lowest. -/
def number (bytes : List UInt8) : Nat := ofBits (bytes.flatMap fun b => bits 8 b.toNat)

theorem number_cons (b : UInt8) (bytes : List UInt8) :
    number (b :: bytes) = b.toNat + 256 * number bytes := by
  rw [number, List.flatMap_cons, ofBits_append, ofBits_bits, length_bits,
    Nat.mod_eq_of_lt b.toNat_lt]
  rfl

/-- The code points of a payload's text are its groups, each raised by one. -/
theorem packGroups_cons (b : UInt8) (bytes : List UInt8) :
    ∃ text, packGroups (b :: bytes) = ⟨(b.toNat + 1) % 128, by omega⟩ :: text := by
  have hcount : (8 * (b :: bytes).length + 6) / 7 = (8 * bytes.length + 7) / 7 + 1 := by
    rw [List.length_cons]
    omega
  have hfirst : (number (b :: bytes) % 2 ^ 7 + 1) % 128 = (b.toNat + 1) % 128 := by
    rw [number_cons]
    omega
  rw [packGroups, groupsOfBytes, hcount, regroup_succ, ← number]
  exact ⟨_, congrArg₂ List.cons (Fin.ext hfirst) rfl⟩

/-- The second and the third group of a payload are the next digits of its number. -/
theorem groupsOfBytes_cons_cons (b c : UInt8) (bytes : List UInt8) :
    ∃ first rest, groupsOfBytes (b :: c :: bytes) =
      first :: number (b :: c :: bytes) / 128 % 128 ::
        number (b :: c :: bytes) / 16384 % 128 :: rest := by
  have hcount : (8 * (b :: c :: bytes).length + 6) / 7 = (8 * bytes.length + 1) / 7 + 3 := by
    simp only [List.length_cons]
    omega
  rw [groupsOfBytes, hcount, regroup_succ, regroup_succ, regroup_succ]
  simp only [(ofBits_take_drop 7 _).2, Nat.div_div_eq_div_mul]
  exact ⟨_, _, rfl⟩

/-- Text that does not begin with the mark of UTF-8 mode unpacks to the payload that it holds. -/
theorem unpack_packGroups {bytes : List UInt8} (h : (packGroups bytes).head? ≠ some utf8Mark) :
    unpack [packGroups bytes] = bytes := by
  have hmode : unmark [packGroups bytes] = (.sevenBit, [packGroups bytes]) := by
    cases htext : packGroups bytes with
    | nil => rfl
    | cons c text =>
      have hutf8 : c ≠ utf8Mark := by simpa [htext] using h
      have hseven : c ≠ sevenBitMark := by
        -- The code points of groups are below 128.
        have hmem : c ∈ packGroups bytes := by simp [htext]
        obtain ⟨g, -, rfl⟩ := List.mem_map.mp hmem
        intro hmark
        have hval : (g + 1) % 128 = 0xFFFF := congrArg Fin.val hmark
        omega
      rw [unmark, if_neg hutf8, if_neg hseven]
  rw [unpack, hmode]
  simpa [Mode.bytes, map_group_packGroups] using bytesOfGroups_groupsOfBytes bytes

/-- Text that begins with this mark unpacks to the low bytes of its other code points. -/
theorem unpack_cons_utf8Mark (text : Text) :
    unpack [utf8Mark :: text] = text.map CodePoint.toByte := by
  rw [unpack, unmark, if_pos rfl]
  simp [Mode.bytes]

/-- The second and the third group of a number whose first one has all bits set are not, each raised
by one, its first and its second byte. -/
theorem second_or_third_ne {b c n : Nat} (h : b % 128 = 127)
    (hsecond : ((b + 256 * (c + 256 * n)) / 128 % 128 + 1) % 128 = b)
    (hthird : ((b + 256 * (c + 256 * n)) / 16384 % 128 + 1) % 128 = c) : False := by
  obtain rfl : b = 127 := by
    clear hthird
    omega
  have hsecondGroup : (127 + 256 * (c + 256 * n)) / 128 = 2 * c + 512 * n := by
    clear hsecond hthird
    omega
  have hthirdGroup : (127 + 256 * (c + 256 * n)) / 16384 = c / 64 + 4 * n := by
    clear hsecond hthird
    omega
  rw [hsecondGroup] at hsecond
  rw [hthirdGroup] at hthird
  -- The second group leaves two values for the second byte, and neither of them is the third group.
  have hbits : c % 64 = 63 := by
    clear hthird
    omega
  have hsmall : c < 128 := by
    clear hsecond
    omega
  have hvalues : c = 63 ∨ c = 127 := by
    clear hsecond hthird
    omega
  clear hsecond
  rcases hvalues with rfl | rfl
  · omega
  · omega

/-- Of a payload whose first byte has its seven low bits set, the other groups as bytes are not the
payload. -/
theorem map_toByte_tail_packGroups_ne {b : UInt8} {bytes : List UInt8} (h : b.toNat % 128 = 127) :
    (packGroups (b :: bytes)).tail.map CodePoint.toByte ≠ b :: bytes := by
  intro hsame
  -- The bytes that come back are groups raised by one.
  have hgroups : (groupsOfBytes (b :: bytes)).tail.map (fun g => (g + 1) % 128) =
      (b :: bytes).map UInt8.toNat := by
    refine Eq.trans ?_ (congrArg (List.map UInt8.toNat) hsame)
    rw [packGroups, ← List.map_tail, List.map_map, List.map_map]
    refine List.map_congr_left fun g _ => ?_
    have hsmall : (g + 1) % 128 < 256 := by omega
    exact (Nat.mod_eq_of_lt hsmall).symm
  cases bytes with
  | nil =>
    have hvalue : b.toNat = 127 ∨ b.toNat = 255 := by
      have hb := b.toNat_lt
      omega
    rcases hvalue with hvalue | hvalue
    · obtain rfl : b = 127 := UInt8.toNat_inj.mp hvalue
      revert hgroups
      decide
    · obtain rfl : b = 255 := UInt8.toNat_inj.mp hvalue
      revert hgroups
      decide
  | cons c bytes =>
    obtain ⟨first, rest, hshape⟩ := groupsOfBytes_cons_cons b c bytes
    rw [hshape, number_cons, number_cons] at hgroups
    simp only [List.tail_cons, List.map_cons, List.cons.injEq] at hgroups
    obtain ⟨hb, hc, -⟩ := hgroups
    exact second_or_third_ne h hb hc

/-- Seven-bit text without a mark unpacks to the payload that it holds exactly if the first byte of
the payload, should there be one, has a zero among its seven low bits. -/
theorem unpack_packGroups_eq_iff (bytes : List UInt8) :
    unpack [packGroups bytes] = bytes ↔ ∀ b ∈ bytes.head?, b.toNat % 128 ≠ 127 := by
  cases bytes with
  | nil => exact iff_of_true rfl fun b hb => by cases hb
  | cons b bytes =>
    obtain ⟨text, htext⟩ := packGroups_cons b bytes
    have hhead : (packGroups (b :: bytes)).head? = some utf8Mark ↔ b.toNat % 128 = 127 := by
      have hmark : utf8Mark.val = 0 := rfl
      rw [htext, List.head?_cons, Option.some.injEq, Fin.ext_iff, hmark]
      dsimp only
      omega
    simp only [List.head?_cons, Option.mem_some_iff, forall_eq']
    by_cases hlow : b.toNat % 128 = 127
    · refine iff_of_false ?_ (not_not_intro hlow)
      obtain ⟨rest, hrest⟩ := List.head?_eq_some_iff.mp (hhead.mpr hlow)
      have hlost : (packGroups (b :: bytes)).tail.map CodePoint.toByte ≠ b :: bytes :=
        map_toByte_tail_packGroups_ne hlow
      rw [hrest, List.tail_cons] at hlost
      rwa [hrest, unpack_cons_utf8Mark]
    · exact iff_of_true (unpack_packGroups (mt hhead.mp hlow)) hlow

/-- The payload of the one byte 127 is written as U+0000 and U+0001, and these are the byte 1 in
UTF-8 mode. -/
theorem unpack_packGroups_seven_ones :
    packGroups [127] = [utf8Mark, CodePoint.ofChar '\x01'] ∧ unpack [packGroups [127]] = [1] ∧
      ¬ ∀ bytes, unpack [packGroups bytes] = bytes := by
  refine ⟨by decide, by decide, fun hall => ?_⟩
  have hbyte : unpack [packGroups [127]] ≠ [127] := by decide
  exact hbyte (hall [127])

end KotlinNullability.Packing
