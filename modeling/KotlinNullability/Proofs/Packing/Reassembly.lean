import KotlinNullability.Proofs.Packing

/-!
# Seven-bit text, bit by bit

The low seven bits of the code points of seven-bit text, each lowered by one, are one string of bits,
and its whole bytes are the payload. Here that string is read bit by bit, and the bytes are also put
together one after another: a byte is what is left of one group and the low bits of the next one. In
front of the byte `i` the loop stands in the group `i + i / 7`, of which `i % 7` bits are used up, and
from this it never leaves the groups.
-/

namespace KotlinNullability.Packing

/-! ## The bits of a payload -/

/-- The bits of a number are those that it was made of, and zeros above them. -/
theorem testBit_ofBits (l : List Bool) (j : Nat) : (ofBits l).testBit j = l[j]?.getD false := by
  induction l generalizing j with
  | nil => simp [ofBits]
  | cons b rest ih =>
    have hb : b.toNat < 2 := Bool.toNat_lt b
    cases j with
    | zero =>
      have hmod : ofBits (b :: rest) % 2 = b.toNat := by
        rw [ofBits]
        omega
      rw [Nat.testBit_zero, hmod]
      cases b <;> rfl
    | succ j =>
      have hhalf : ofBits (b :: rest) / 2 = ofBits rest := by
        rw [ofBits]
        omega
      rw [Nat.testBit_succ, hhalf, ih, List.getElem?_cons_succ]

/-- A bit among those of several numbers belongs to one of them. -/
theorem getElem?_flatMap_bits {width : Nat} (hwidth : 0 < width) (ns : List Nat) (k : Nat) :
    (ns.flatMap (bits width))[k]? = ns[k / width]?.map (·.testBit (k % width)) := by
  induction ns generalizing k with
  | nil => simp
  | cons n ns ih =>
    have hlength : (bits width n).length = width := length_bits width n
    rw [List.flatMap_cons]
    by_cases hk : k < width
    · rw [List.getElem?_append_left (by omega), Nat.div_eq_of_lt hk, Nat.mod_eq_of_lt hk]
      simp [bits, hk]
    · have hle : width ≤ k := Nat.le_of_not_lt hk
      rw [List.getElem?_append_right (by omega), hlength, ih, Nat.div_eq_sub_div hwidth hle,
        Nat.mod_eq_sub_mod hle, List.getElem?_cons_succ]

/-- Each of the numbers that bits are cut into has the bits of its own place. -/
theorem getElem?_regroup {width count i : Nat} (hi : i < count) (l : List Bool) :
    (regroup width count l)[i]? = some (ofBits ((l.drop (width * i)).take width)) := by
  induction count generalizing i l with
  | zero => cases hi
  | succ count ih =>
    cases i with
    | zero => simp [regroup]
    | succ i =>
      rw [regroup, List.getElem?_cons_succ, ih (Nat.lt_of_succ_lt_succ hi), List.drop_drop,
        Nat.mul_succ, Nat.add_comm]

/-- The bits of a byte that groups hold are bits of the groups, in the same order. -/
theorem exists_byte {groups : List Nat} {i : Nat} (hi : i < 7 * groups.length / 8) :
    ∃ b, (bytesOfGroups groups)[i]? = some b ∧
      ∀ j < 8, ∃ g, groups[(8 * i + j) / 7]? = some g ∧
        b.toNat.testBit j = g.testBit ((8 * i + j) % 7) := by
  let stream := groups.flatMap (bits 7)
  let byte := (stream.drop (8 * i)).take 8
  have hbyte : (ofBits byte) < 256 := by
    have hlength : byte.length ≤ 8 := List.length_take_le ..
    exact Nat.lt_of_lt_of_le (ofBits_lt byte) (Nat.pow_le_pow_right (by decide) hlength)
  refine ⟨UInt8.ofNat (ofBits byte), ?_, fun j hj => ?_⟩
  · rw [bytesOfGroups, List.getElem?_map, getElem?_regroup hi]
    rfl
  · have hgroup : (8 * i + j) / 7 < groups.length := by omega
    refine ⟨groups[(8 * i + j) / 7], List.getElem?_eq_getElem hgroup, ?_⟩
    have hbit : byte[j]? = stream[8 * i + j]? := by
      rw [List.getElem?_take_of_lt hj, List.getElem?_drop]
    rw [UInt8.toNat_ofNat', Nat.mod_eq_of_lt hbyte, testBit_ofBits, hbit,
      getElem?_flatMap_bits (by decide), List.getElem?_eq_getElem hgroup]
    rfl

/-! ## Bytes put together one after another -/

/-- A byte made of what is left of a group and of the low bits of the next one. -/
def joinGroups (low high used : Nat) : Nat :=
  ((low >>> used) + ((high &&& ((1 <<< (used + 1)) - 1)) <<< (7 - used))) &&& 0xFF

/-- Put so many bytes together, from the group at an index of which some low bits are used up. There
is no result if an index is outside of the groups. -/
def reassembleFrom (groups : List Nat) : (count index used : Nat) → Option (List UInt8)
  | 0, _, _ => some []
  | count + 1, index, used => do
    let low ← groups[index]?
    let high ← groups[index + 1]?
    let (next, nextUsed) := if used = 6 then (index + 2, 0) else (index + 1, used + 1)
    return UInt8.ofNat (joinGroups low high used) :: (← reassembleFrom groups count next nextUsed)

/-- Put all whole bytes of some groups together. -/
def reassemble (groups : List Nat) : Option (List UInt8) :=
  reassembleFrom groups (7 * groups.length / 8) 0 0

/-- The bits of a byte go on in the next group where the first one ends. -/
theorem testBit_joinGroups {low used j : Nat} (hlow : low < 2 ^ 7) (hused : used < 7) (hj : j < 8)
    (high : Nat) : (joinGroups low high used).testBit j =
      if used + j < 7 then low.testBit (used + j) else high.testBit (used + j - 7) := by
  have hleft : low >>> used < 2 ^ (7 - used) := by
    rw [Nat.shiftRight_eq_div_pow]
    apply Nat.div_lt_of_lt_mul
    rw [← Nat.pow_add, Nat.add_sub_cancel' (Nat.le_of_lt hused)]
    exact hlow
  have hjoin : joinGroups low high used =
      (((high &&& (2 ^ (used + 1) - 1)) <<< (7 - used)) ||| (low >>> used)) &&& (2 ^ 8 - 1) := by
    rw [joinGroups, Nat.one_shiftLeft, Nat.add_comm, Nat.shiftLeft_add_eq_or_of_lt hleft]
    rfl
  rw [hjoin]
  simp only [Nat.testBit_and, Nat.testBit_or, Nat.testBit_shiftLeft, Nat.testBit_shiftRight,
    Nat.testBit_two_pow_sub_one, hj, decide_true, Bool.and_true]
  by_cases hinside : used + j < 7
  · have hbelow : ¬ 7 - used ≤ j := by omega
    simp [hinside, hbelow]
  · -- Above its seven bits the first group has none.
    have hnone : low.testBit (used + j) = false :=
      Nat.testBit_lt_two_pow (Nat.lt_of_lt_of_le hlow (Nat.pow_le_pow_right (by decide) (by omega)))
    have habove : 7 - used ≤ j := by omega
    have hplace : j - (7 - used) = used + j - 7 := by omega
    have hmask : used + j - 7 < used + 1 := by omega
    simp only [habove, hnone, hinside, hplace, hmask, decide_true, Bool.true_and, Bool.and_true,
      Bool.or_false, if_false]

/-- Two bytes are equal if their eight bits are. -/
theorem eq_of_testBit {a b : UInt8}
    (h : ∀ j < 8, a.toNat.testBit j = b.toNat.testBit j) : a = b := by
  apply UInt8.toNat_inj.mp
  apply Nat.eq_of_testBit_eq
  intro j
  rcases Nat.lt_or_ge j 8 with hj | hj
  · exact h j hj
  · have hpow : 256 ≤ 2 ^ j := Nat.pow_le_pow_right (n := 2) (by decide) hj
    rw [Nat.testBit_lt_two_pow (Nat.lt_of_lt_of_le a.toNat_lt hpow),
      Nat.testBit_lt_two_pow (Nat.lt_of_lt_of_le b.toNat_lt hpow)]

/-- From the place of the byte `i` on, the loop puts the bytes from there on together. -/
theorem reassembleFrom_eq {groups : List Nat} (hgroups : ∀ g ∈ groups, g < 2 ^ 7) {count i : Nat}
    (h : i + count = 7 * groups.length / 8) :
    reassembleFrom groups count (i + i / 7) (i % 7) = some ((bytesOfGroups groups).drop i) := by
  induction count generalizing i with
  | zero =>
    have hlength : (bytesOfGroups groups).length ≤ i := by
      rw [length_bytesOfGroups]
      omega
    rw [reassembleFrom, List.drop_of_length_le hlength]
  | succ count ih =>
    have hwhole : i < 7 * groups.length / 8 := by omega
    obtain ⟨b, hb, hbits⟩ := exists_byte hwhole
    have hindex : i + i / 7 + 1 < groups.length := by omega
    let low := groups[i + i / 7]
    let high := groups[i + i / 7 + 1]
    have hlow : groups[i + i / 7]? = some low := List.getElem?_eq_getElem (by omega)
    have hhigh : groups[i + i / 7 + 1]? = some high := List.getElem?_eq_getElem hindex
    have hsmall : low < 2 ^ 7 := hgroups low (List.getElem_mem _)
    have hused : i % 7 < 7 := Nat.mod_lt i (by decide)
    have hbyte : UInt8.ofNat (joinGroups low high (i % 7)) = b := by
      refine eq_of_testBit fun j hj => ?_
      have hlt : joinGroups low high (i % 7) < 256 := Nat.and_lt_two_pow _ (n := 8) (by decide)
      obtain ⟨g, hg, hbit⟩ := hbits j hj
      rw [UInt8.toNat_ofNat', Nat.mod_eq_of_lt hlt, testBit_joinGroups hsmall hused hj, hbit]
      by_cases hinside : i % 7 + j < 7
      · have hplace : (8 * i + j) / 7 = i + i / 7 := by omega
        have hrest : (8 * i + j) % 7 = i % 7 + j := by omega
        rw [hplace, hlow] at hg
        cases hg
        rw [if_pos hinside, hrest]
      · have hplace : (8 * i + j) / 7 = i + i / 7 + 1 := by omega
        have hrest : (8 * i + j) % 7 = i % 7 + j - 7 := by omega
        rw [hplace, hhigh] at hg
        cases hg
        rw [if_neg hinside, hrest]
    have hnext : (if i % 7 = 6 then (i + i / 7 + 2, 0) else (i + i / 7 + 1, i % 7 + 1)) =
        (i + 1 + (i + 1) / 7, (i + 1) % 7) := by
      split <;> simp only [Prod.mk.injEq] <;> omega
    have hdrop : (bytesOfGroups groups).drop i = b :: (bytesOfGroups groups).drop (i + 1) := by
      obtain ⟨hlt, hget⟩ := List.getElem?_eq_some_iff.mp hb
      rw [List.drop_eq_getElem_cons hlt, hget]
    simp only [reassembleFrom, hlow, hhigh, hnext, hdrop, hbyte, ih (i := i + 1) (by omega),
      Option.bind_eq_bind, Option.bind_some, Option.pure_def]

/-- Putting the bytes of some groups together never leaves the groups, and gives their bytes. -/
theorem reassemble_eq {groups : List Nat} (hgroups : ∀ g ∈ groups, g < 2 ^ 7) :
    reassemble groups = some (bytesOfGroups groups) :=
  reassembleFrom_eq hgroups (i := 0) (Nat.zero_add _)

/-! ## Seven-bit text -/

/-- The code points of some strings behind an optional mark of seven-bit mode. -/
def sevenBitText (texts : List Text) : Text :=
  if texts.head?.bind List.head? = some sevenBitMark then texts.flatten.tail else texts.flatten

/-- Strings that do not begin with the mark of UTF-8 mode are unpacked in seven-bit mode. -/
theorem unpack_eq_bytesOfGroups {texts : List Text}
    (h : Mode.ofMark (texts.head?.bind List.head?) = .sevenBit) :
    unpack texts = bytesOfGroups ((sevenBitText texts).map group) := by
  match texts with
  | [] => rfl
  | [] :: rest => rfl
  | (c :: first) :: rest =>
    have hutf8 : c ≠ utf8Mark := by
      rintro rfl
      cases h
    unfold unpack unmark sevenBitText
    simp only [List.head?_cons, Option.bind_some, Option.some.injEq, if_neg hutf8]
    split <;> rfl

/-- The group of a code point is what is left over when it is lowered by one and divided by 128. -/
theorem group_eq (c : CodePoint) : group c = (((c.val : Int) - 1) % 128).toNat := by
  rw [group, CodePoint.toByte, UInt8.toNat_ofNat']
  omega

theorem group_eq_of_mod (c : CodePoint) : group c = (c.val % 128 + 127) % 128 := by
  rw [group, CodePoint.toByte, UInt8.toNat_ofNat']
  omega

theorem group_lt {t : Text} {g : Nat} (h : g ∈ t.map group) : g < 2 ^ 7 := by
  obtain ⟨c, -, rfl⟩ := List.mem_map.mp h
  exact Nat.mod_lt _ (by decide)

/-- Seven-bit text of `n` code points unpacks to `7 * n / 8` bytes, and each bit of them is a bit of a
code point lowered by one. Putting the bytes together one after another gives them without leaving
the text, and text whose code points are the same modulo 128 unpacks to the same bytes. -/
theorem unpack_bit_by_bit {texts : List Text}
    (h : Mode.ofMark (texts.head?.bind List.head?) = .sevenBit) :
    (unpack texts).length = 7 * (sevenBitText texts).length / 8 ∧
      (∀ k < 8 * (7 * (sevenBitText texts).length / 8),
        ∃ b ∈ (unpack texts)[k / 8]?, ∃ c ∈ (sevenBitText texts)[k / 7]?,
          b.toNat.testBit (k % 8) = (((c.val : Int) - 1) % 128).toNat.testBit (k % 7)) ∧
      reassemble ((sevenBitText texts).map group) = some (unpack texts) ∧
      ∀ texts' : List Text, Mode.ofMark (texts'.head?.bind List.head?) = .sevenBit →
        (sevenBitText texts').map (·.val % 128) = (sevenBitText texts).map (·.val % 128) →
        unpack texts' = unpack texts := by
  rw [unpack_eq_bytesOfGroups h]
  refine ⟨?_, fun k hk => ?_, reassemble_eq fun g => group_lt, fun texts' h' hsame => ?_⟩
  · rw [length_bytesOfGroups, List.length_map]
  · have hplace : k / 8 < 7 * ((sevenBitText texts).map group).length / 8 := by
      rw [List.length_map]
      omega
    obtain ⟨b, hb, hbits⟩ := exists_byte hplace
    obtain ⟨g, hg, hbit⟩ := hbits (k % 8) (Nat.mod_lt k (by decide))
    rw [Nat.div_add_mod] at hg hbit
    rw [List.getElem?_map] at hg
    obtain ⟨c, hc, rfl⟩ := Option.map_eq_some_iff.mp hg
    refine ⟨b, hb, c, hc, ?_⟩
    rw [hbit, group_eq]
  · have hgroups (t : Text) : t.map group = (t.map (·.val % 128)).map fun n => (n + 127) % 128 := by
      rw [List.map_map]
      exact List.map_congr_left fun c _ => group_eq_of_mod c
    rw [unpack_eq_bytesOfGroups h', hgroups, hsame, ← hgroups]

/-- The strings U+FFFF U+0080 and U+1F600 U+0003 hold, behind the mark, three groups and so two
bytes. -/
theorem unpack_bit_by_bit_marked :
    let texts : List Text := [[sevenBitMark, 0x80], [0x1F600, 0x3]]
    Mode.ofMark (texts.head?.bind List.head?) = .sevenBit ∧ (unpack texts).length = 2 ∧
      reassemble [127, 127, 2] = some (unpack texts) ∧
      unpack [[0x100, 0x0, 0x83]] = unpack texts := by
  have h := @unpack_bit_by_bit [[sevenBitMark, 0x80], [0x1F600, 0x3]] (by decide)
  exact ⟨by decide, h.1, h.2.2.1, h.2.2.2 [[0x100, 0x0, 0x83]] (by decide) (by decide)⟩

end KotlinNullability.Packing
