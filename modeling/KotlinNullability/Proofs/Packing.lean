import KotlinNullability.Packing
import Mathlib.Algebra.Group.Nat.Defs

/-!
# Unpacking what was packed

The groups of a payload hold its bits with zeros after them, and cutting them into bytes again drops
exactly these zeros. Only the first code point of the first string tells the mode, so a packed text
unpacks to the same bytes however it is cut, as long as the first string keeps its mark.

`Packs` says which strings hold a payload, and `unpack_of_packs` reads the payload back.
-/

namespace KotlinNullability.Packing

/-- The lowest bit of a number stands before the bits of its half. -/
theorem bits_succ (width n : Nat) : bits (width + 1) n = (n % 2 == 1) :: bits width (n / 2) := by
  have hlow : n.testBit 0 = (n % 2 == 1) := by
    rw [Nat.testBit_zero]
    by_cases h : n % 2 = 1 <;> simp [h]
  have hrest : (List.range width).map (n.testBit ∘ Nat.succ) = bits width (n / 2) :=
    List.map_congr_left fun i _ => Nat.testBit_succ n i
  rw [bits, List.range_succ_eq_map, List.map_cons, List.map_map, hlow, hrest]

/-- Writing a number as bits keeps its residue. -/
theorem ofBits_bits (width n : Nat) : ofBits (bits width n) = n % 2 ^ width := by
  induction width generalizing n with
  | zero => simp [bits, ofBits, Nat.mod_one]
  | succ width ih =>
    rw [bits_succ, ofBits, ih, Nat.pow_succ, Nat.mul_comm (2 ^ width) 2, Nat.mod_mul]
    rcases Nat.mod_two_eq_zero_or_one n with h | h <;> simp [h]

/-- The number of some bits has no more bits than there are. -/
theorem ofBits_lt (l : List Bool) : ofBits l < 2 ^ l.length := by
  induction l with
  | nil => decide
  | cons b rest ih =>
    have hb : b.toNat < 2 := Bool.toNat_lt b
    rw [ofBits, List.length_cons, Nat.pow_succ]
    omega

/-- Bits are read off their number again, zeros filling the width. -/
theorem bits_ofBits {width : Nat} {l : List Bool} (h : l.length ≤ width) :
    bits width (ofBits l) = l ++ List.replicate (width - l.length) false := by
  induction width generalizing l with
  | zero =>
    have hl : l = [] := List.length_eq_zero_iff.mp (Nat.le_zero.mp h)
    simp [hl, bits]
  | succ width ih =>
    rw [bits_succ]
    cases l with
    | nil =>
      have hzeros := ih (l := []) (Nat.zero_le width)
      change (0 % 2 == 1) :: bits width (ofBits []) = _
      rw [hzeros]
      simp [List.replicate_succ]
    | cons b rest =>
      have hrest : rest.length ≤ width := by simpa using h
      have hb : b.toNat < 2 := Bool.toNat_lt b
      have hhalf : ofBits (b :: rest) / 2 = ofBits rest := by
        rw [ofBits]
        omega
      have hlow : (ofBits (b :: rest) % 2 == 1) = b := by
        cases b <;> simp [ofBits, Nat.add_mul_mod_self_left]
      rw [hhalf, hlow, ih hrest]
      simp

/-- The groups that cover a list of bits hold it with zeros after it. -/
theorem flatMap_bits_regroup (width count : Nat) (l : List Bool) (h : l.length ≤ count * width) :
    (regroup width count l).flatMap (bits width) =
      l ++ List.replicate (count * width - l.length) false := by
  induction count generalizing l with
  | zero =>
    have hl : l = [] := List.length_eq_zero_iff.mp (by omega)
    simp [hl, regroup]
  | succ count ih =>
    rw [Nat.succ_mul] at h ⊢
    have hdrop : (l.drop width).length ≤ count * width := by
      rw [List.length_drop]
      omega
    rw [regroup, List.flatMap_cons, ih _ hdrop, bits_ofBits (List.length_take_le ..),
      List.length_take, List.length_drop]
    by_cases hl : width ≤ l.length
    · -- The group is full, so the zeros all come from the groups after it.
      rw [Nat.min_eq_left hl, Nat.sub_self, List.replicate_zero, List.append_nil,
        ← List.append_assoc, List.take_append_drop]
      congr 2
      omega
    · have hlt : l.length ≤ width := by omega
      rw [Nat.min_eq_right hlt, List.take_of_length_le hlt, List.drop_of_length_le hlt,
        List.nil_append, List.append_assoc, List.replicate_append_replicate]
      congr 2
      omega

/-- Cutting the bits of some numbers into groups of their width gives the numbers back. -/
theorem regroup_flatMap_bits (width : Nat) (ns : List Nat) (padding : List Bool)
    (h : ∀ n ∈ ns, n < 2 ^ width) :
    regroup width ns.length (ns.flatMap (bits width) ++ padding) = ns := by
  induction ns with
  | nil => rfl
  | cons n ns ih =>
    have hlen : (bits width n).length = width := length_bits width n
    have hn : n < 2 ^ width := h n List.mem_cons_self
    have hns : ∀ m ∈ ns, m < 2 ^ width := fun m hm => h m (List.mem_cons_of_mem _ hm)
    rw [List.length_cons, regroup, List.flatMap_cons, List.append_assoc, List.take_left' hlen,
      List.drop_left' hlen, ofBits_bits, Nat.mod_eq_of_lt hn, ih hns]

/-- The groups of a payload hold the payload. -/
theorem bytesOfGroups_groupsOfBytes (bytes : List UInt8) :
    bytesOfGroups (groupsOfBytes bytes) = bytes := by
  let ns := bytes.map UInt8.toNat
  let count := (8 * bytes.length + 6) / 7
  have hns : ns.length = bytes.length := List.length_map ..
  have hstream : (bytes.flatMap fun b => bits 8 b.toNat) = ns.flatMap (bits 8) := by
    rw [List.flatMap_map]
  have hlen : (ns.flatMap (bits 8)).length = 8 * bytes.length := by
    rw [List.length_flatMap, List.map_congr_left fun n _ => length_bits 8 n, List.map_const',
      List.sum_replicate_nat, hns, Nat.mul_comm]
  have hcover : (ns.flatMap (bits 8)).length ≤ count * 7 := by
    rw [hlen]
    omega
  have hbytes : 7 * count / 8 = ns.length := by
    rw [hns]
    omega
  have hbound : ∀ n ∈ ns, n < 2 ^ 8 := by
    intro n hn
    obtain ⟨b, _, rfl⟩ := List.mem_map.mp hn
    exact b.toNat_lt
  rw [bytesOfGroups, groupsOfBytes, length_regroup, hstream, flatMap_bits_regroup 7 count _ hcover,
    hbytes, regroup_flatMap_bits 8 ns _ hbound, List.map_map]
  exact (List.map_congr_left fun b _ => UInt8.ofNat_toNat).trans (List.map_id bytes)

/-- Every group has at most as many bits as its width. -/
theorem lt_of_mem_regroup {width count g : Nat} {l : List Bool} (h : g ∈ regroup width count l) :
    g < 2 ^ width := by
  induction count generalizing l with
  | zero => cases h
  | succ count ih =>
    rcases List.mem_cons.mp h with rfl | h
    · exact Nat.lt_of_lt_of_le (ofBits_lt _)
        (Nat.pow_le_pow_right (by decide) (List.length_take_le ..))
    · exact ih h

/-- The code points of seven-bit mode give the groups back that they were made of. -/
theorem map_group_packGroups (bytes : List UInt8) :
    (packGroups bytes).map group = groupsOfBytes bytes := by
  rw [packGroups, List.map_map]
  refine (List.map_congr_left fun g hg => ?_).trans (List.map_id _)
  have hg : g < 128 := lt_of_mem_regroup hg
  change (((UInt8.ofNat ((g + 1) % 128)).toNat + 127) % 128) = g
  rw [UInt8.toNat_ofNat']
  omega

/-- The code points of UTF-8 mode give the bytes back that they were made of. -/
theorem map_toByte_packBytes (bytes : List UInt8) :
    (packBytes bytes).tail.map CodePoint.toByte = bytes := by
  rw [packBytes, List.tail_cons, List.map_map]
  exact (List.map_congr_left fun b _ => UInt8.ofNat_toNat).trans (List.map_id bytes)

/-- Strings without an empty one in front unpack to the same bytes as the text that they make. -/
theorem unpack_flatten {texts : List Text} (h : texts.head? ≠ some []) :
    unpack texts = unpack [texts.flatten] := by
  cases texts with
  | nil => rfl
  | cons first rest =>
    cases first with
    | nil => exact absurd rfl h
    | cons c first =>
      unfold unpack unmark
      rw [List.flatten_cons, List.cons_append]
      dsimp only
      split
      · simp
      · split <;> simp

/-- The strings hold the bytes, in UTF-8 mode or in seven-bit mode with its mark. Where they are cut
is left open; only the first string must not be empty. -/
def Packs (bytes : List UInt8) (texts : List Text) : Prop :=
  texts.head? ≠ some [] ∧
    (texts.flatten = packBytes bytes ∨ texts.flatten = sevenBitMark :: packGroups bytes)

/-- Strings that hold some bytes unpack to them. -/
theorem unpack_of_packs {bytes : List UInt8} {texts : List Text} (h : Packs bytes texts) :
    unpack texts = bytes := by
  obtain ⟨hfirst, hmode⟩ := h
  rw [unpack_flatten hfirst]
  rcases hmode with htext | htext <;> rw [htext]
  · have hunmark : unmark [packBytes bytes] = (.utf8, [(packBytes bytes).tail]) := rfl
    rw [unpack, hunmark]
    simpa [Mode.bytes] using map_toByte_packBytes bytes
  · have hunmark : unmark [sevenBitMark :: packGroups bytes] = (.sevenBit, [packGroups bytes]) :=
      rfl
    rw [unpack, hunmark]
    simpa [Mode.bytes, map_group_packGroups] using bytesOfGroups_groupsOfBytes bytes

end KotlinNullability.Packing
