import KotlinNullability.Text.Utf8

/-!
# Reading UTF-8 that was written

A code point that is no surrogate is written as one well-formed sequence, of one to four bytes, and
reading that sequence gives the code point back and leaves what follows. So a text without
surrogates survives writing and reading, with no replacement.
-/

namespace KotlinNullability.Utf8

/-- A sequence of well-formed bytes after its first one is followed to its end. -/
theorem follow_cons {more bits low high : Nat} {b : UInt8} {bytes : List UInt8}
    (hlow : low ≤ b.toNat) (hhigh : b.toNat ≤ high) :
    follow (more + 1) bits low high (b :: bytes) =
      follow more (bits * 64 + b.toNat % 64) 0x80 0xBF bytes := by
  rw [follow, if_pos ⟨hlow, hhigh⟩]

/-- The byte that holds six bits of a code point after the first byte of its sequence. -/
theorem toNat_continuation (n : Nat) : (UInt8.ofNat (0x80 + n % 64)).toNat = 0x80 + n % 64 := by
  rw [UInt8.toNat_ofNat']
  omega

/-- What a first byte promises is read as soon as the bytes after it hold the code point. -/
theorem next_eq {b : UInt8} {bytes rest : List UInt8} {lead : Lead} {c : CodePoint}
    (hlead : lead? b.toNat = some lead)
    (hfollow : follow lead.more lead.bits lead.low lead.high bytes = (some c.val, rest)) :
    next b bytes = (some c, rest) := by
  unfold next
  rw [hlead]
  dsimp only
  rw [hfollow]
  simp [c.isLt]

/-- A first byte of two promises one more. -/
theorem lead?_two {n : Nat} (hlow : 0x80 ≤ n) (hhigh : n < 0x800) :
    lead? (0xC0 + n / 64) = some ⟨n / 64, 1, 0x80, 0xBF⟩ := by
  unfold lead?
  rw [if_neg (by omega), if_neg (by omega), if_pos (by omega), Nat.add_sub_cancel_left]

/-- A first byte of three promises two more, the next of which rules out shorter sequences and
surrogates but not the code point. -/
theorem lead?_three {n : Nat} (hlow : 0x800 ≤ n) (hhigh : n < 0x10000)
    (hsurrogate : ¬ (0xD800 ≤ n ∧ n ≤ 0xDFFF)) :
    ∃ low high, lead? (0xE0 + n / 4096) = some ⟨n / 4096, 2, low, high⟩ ∧
      low ≤ 0x80 + n / 64 % 64 ∧ 0x80 + n / 64 % 64 ≤ high := by
  unfold lead?
  rw [if_neg (by omega), if_neg (by omega), if_neg (by omega)]
  split
  · have hzero : n / 4096 = 0 := by omega
    exact ⟨0xA0, 0xBF, by rw [hzero], by omega, by omega⟩
  · split
    · have hthirteen : n / 4096 = 0xD := by omega
      exact ⟨0x80, 0x9F, by rw [hthirteen], by omega, by omega⟩
    · rw [if_pos (by omega), Nat.add_sub_cancel_left]
      exact ⟨0x80, 0xBF, rfl, by omega, by omega⟩

/-- A first byte of four promises three more, the next of which rules out shorter sequences and
numbers beyond the last code point. -/
theorem lead?_four {n : Nat} (hlow : 0x10000 ≤ n) (hhigh : n < 0x110000) :
    ∃ low high, lead? (0xF0 + n / 262144) = some ⟨n / 262144, 3, low, high⟩ ∧
      low ≤ 0x80 + n / 4096 % 64 ∧ 0x80 + n / 4096 % 64 ≤ high := by
  unfold lead?
  rw [if_neg (by omega), if_neg (by omega), if_neg (by omega), if_neg (by omega),
    if_neg (by omega), if_neg (by omega)]
  split
  · have hzero : n / 262144 = 0 := by omega
    exact ⟨0x90, 0xBF, by rw [hzero], by omega, by omega⟩
  · split
    · rw [Nat.add_sub_cancel_left]
      exact ⟨0x80, 0xBF, rfl, by omega, by omega⟩
    · have hfour : n / 262144 = 4 := by omega
      rw [if_pos (by omega)]
      exact ⟨0x80, 0x8F, by rw [hfour], by omega, by omega⟩

/-- The bytes after the first one are read in turn, each of which adds six bits. -/
theorem follow_continuation {more bits low high n : Nat} {bytes : List UInt8}
    (hlow : low ≤ 0x80 + n % 64) (hhigh : 0x80 + n % 64 ≤ high) :
    follow (more + 1) bits low high (UInt8.ofNat (0x80 + n % 64) :: bytes) =
      follow more (bits * 64 + n % 64) 0x80 0xBF bytes := by
  have hbyte := toNat_continuation n
  rw [follow_cons (by omega) (by omega), hbyte]
  congr 2
  omega

/-- The sequence of a code point is read as that code point, whatever follows it. -/
theorem sequences_encodeOne {c : CodePoint} (hc : c.isSurrogate = false) (rest : List UInt8) :
    sequences (encodeOne c ++ rest) = some c :: sequences rest := by
  have hmax : c.val < 0x110000 := c.isLt
  have hsurrogate : ¬ (0xD800 ≤ c.val ∧ c.val ≤ 0xDFFF) := by
    simpa [CodePoint.isSurrogate] using hc
  -- Each length has its own first byte; the bytes after it are all read by the same rule.
  suffices h : ∃ b bytes, encodeOne c ++ rest = b :: bytes ∧ next b bytes = (some c, rest) by
    obtain ⟨b, bytes, hbytes, hnext⟩ := h
    rw [hbytes, sequences, hnext]
  unfold encodeOne
  dsimp only
  by_cases hone : c.val < 0x80
  · rw [if_pos hone]
    have hbyte : (UInt8.ofNat c.val).toNat = c.val :=
      UInt8.toNat_ofNat_of_lt' (show _ < 256 by omega)
    have hlead : lead? (UInt8.ofNat c.val).toNat = some ⟨c.val, 0, 0, 0⟩ := by
      rw [hbyte, lead?, if_pos hone]
    exact ⟨_, _, rfl, next_eq hlead rfl⟩
  rw [if_neg hone]
  by_cases htwo : c.val < 0x800
  · rw [if_pos htwo]
    have hbyte : (UInt8.ofNat (0xC0 + c.val / 64)).toNat = 0xC0 + c.val / 64 :=
      UInt8.toNat_ofNat_of_lt' (show _ < 256 by omega)
    refine ⟨_, _, rfl, next_eq (by rw [hbyte, lead?_two (by omega) htwo]) ?_⟩
    dsimp only [List.append_eq, List.nil_append, List.cons_append]
    rw [follow_continuation (by omega) (by omega), follow]
    congr 2
    omega
  rw [if_neg htwo]
  by_cases hthree : c.val < 0x10000
  · rw [if_pos hthree]
    obtain ⟨low, high, hlead, hlow, hhigh⟩ := lead?_three (by omega) hthree hsurrogate
    have hbyte : (UInt8.ofNat (0xE0 + c.val / 4096)).toNat = 0xE0 + c.val / 4096 :=
      UInt8.toNat_ofNat_of_lt' (show _ < 256 by omega)
    refine ⟨_, _, rfl, next_eq (by rw [hbyte, hlead]) ?_⟩
    dsimp only [List.append_eq, List.nil_append, List.cons_append]
    rw [follow_continuation hlow hhigh, follow_continuation (by omega) (by omega), follow]
    congr 2
    omega
  · rw [if_neg hthree]
    obtain ⟨low, high, hlead, hlow, hhigh⟩ := lead?_four (n := c.val) (by omega) hmax
    have hbyte : (UInt8.ofNat (0xF0 + c.val / 262144)).toNat = 0xF0 + c.val / 262144 :=
      UInt8.toNat_ofNat_of_lt' (show _ < 256 by omega)
    refine ⟨_, _, rfl, next_eq (by rw [hbyte, hlead]) ?_⟩
    dsimp only [List.append_eq, List.nil_append, List.cons_append]
    rw [follow_continuation hlow hhigh, follow_continuation (by omega) (by omega),
      follow_continuation (by omega) (by omega), follow]
    congr 2
    omega

/-- A text without surrogates is read as it was written. -/
theorem decodeLossy_encode {t : Text} (h : ∀ c ∈ t, c.isSurrogate = false) :
    decodeLossy (encode t) = t := by
  unfold decodeLossy
  induction t with
  | nil => simp [encode, sequences]
  | cons c t ih =>
    have hc : c.isSurrogate = false := h c List.mem_cons_self
    have ht := ih fun d hd => h d (List.mem_cons_of_mem _ hd)
    rw [encode, List.flatMap_cons, sequences_encodeOne hc, List.map_cons, ← encode, ht]
    rfl

end KotlinNullability.Utf8
