import KotlinNullability.Proofs.Guarded.Window
import Mathlib.Algebra.BigOperators.Fin

/-!
# What a varint read gives

A varint ends at the first byte below 128, if that is among the bytes that its width allows. Then its
value is the sum of the low seven bits of its bytes, the first byte counting lowest, in two's
complement; padding and bits above the width do not change this. Otherwise the window ends too early,
or the varint is too long. The reader by index takes one or two bytes at once and more of them byte by
byte, and on every window both ways come to the same end.
-/

namespace KotlinNullability

namespace Wire

/-- The widths in which integers are read. -/
inductive Width where
  /-- 32 bits. -/
  | short
  /-- 64 bits. -/
  | long
  deriving DecidableEq, Repr

namespace Width

/-- The number of bits. -/
def bits : Width → Nat
  | short => 32
  | long => 64

/-- The most bytes that a varint may have. -/
def cap : Width → Nat
  | short => 5
  | long => 10

theorem capOf_bits (width : Width) : Varint.capOf width.bits = width.cap := by
  cases width <;> rfl

theorem lt_bits (width : Width) : 14 < width.bits := by
  cases width <;> decide

end Width

/-- The integer that the lowest bits of a number stand for if the highest of them counts negative. -/
def twosComplement (bits n : Nat) : Int :=
  if n % 2 ^ bits < 2 ^ (bits - 1) then (n % 2 ^ bits : Nat)
  else (n % 2 ^ bits : Nat) - (2 : Int) ^ bits

theorem signed_eq_twosComplement {bits : Nat} (hbits : 0 < bits) (n : Nat) :
    signed bits n = twosComplement bits n := by
  obtain ⟨more, rfl⟩ : ∃ more, bits = more + 1 := ⟨bits - 1, by omega⟩
  have hhalf : ((Nat.pow 2 (more + 1) : Nat) + 1 : Int) / 2 = (2 ^ more : Nat) := by
    have hdouble : Nat.pow 2 (more + 1) = 2 ^ more * 2 := rfl
    omega
  have hpow : ((Nat.pow 2 (more + 1) : Nat) : Int) = (2 : Int) ^ (more + 1) :=
    Int.natCast_pow 2 (more + 1)
  have hrest : (n : Int) % (Nat.pow 2 (more + 1) : Nat) = (n % 2 ^ (more + 1) : Nat) := rfl
  rw [signed, Int.bmod_def, hhalf, hrest, hpow, twosComplement, Nat.add_sub_cancel]
  simp only [Int.ofNat_lt]

namespace Varint

/-- The value of some groups is the sum of what each byte holds at its place. -/
theorem valueOf_eq_sum (groups : List UInt8) :
    valueOf groups =
      ∑ i ∈ Finset.range groups.length, (groups.getD i 0).toNat % 128 * 2 ^ (7 * i) := by
  induction groups with
  | nil => rfl
  | cons b groups ih =>
    have hshift (i : Nat) : ((b :: groups).getD (i + 1) 0).toNat % 128 * 2 ^ (7 * (i + 1)) =
        128 * ((groups.getD i 0).toNat % 128 * 2 ^ (7 * i)) := by
      rw [List.getD_cons_succ, Nat.mul_succ, Nat.pow_add, ← Nat.mul_assoc, Nat.mul_comm]
    rw [valueOf, ih, List.length_cons, Finset.sum_range_succ', Finset.mul_sum, Nat.add_comm,
      Finset.sum_congr rfl fun i _ => hshift i]
    simp

/-- A varint ends at the first byte below 128, if it may have so many bytes. -/
theorem scan_eq (cap : Nat) (bytes : List UInt8) :
    scan cap bytes =
      match (bytes.take cap).findIdx? (·.toNat < 0x80) with
      | some k => .complete (bytes.take (k + 1)) (bytes.drop (k + 1))
      | none => if bytes.length < cap then .unfinished else .tooLong (bytes.drop cap) := by
  induction cap generalizing bytes with
  | zero => simp [scan]
  | succ cap ih =>
    cases bytes with
    | nil => simp [scan]
    | cons b bytes =>
      rw [scan, List.take_succ_cons, List.findIdx?_cons]
      by_cases hlast : b.toNat < 0x80
      · simp [hlast]
      · rw [if_neg hlast, ih]
        cases (bytes.take cap).findIdx? (·.toNat < 0x80) with
        | some k => simp [hlast]
        | none =>
          simp only [hlast, decide_false, Bool.false_eq_true, if_false, Option.map_none,
            List.length_cons, Nat.add_lt_add_iff_right, List.drop_succ_cons]
          by_cases hshort : bytes.length < cap <;> simp only [hshort, if_true, if_false]

end Varint

end Wire

namespace Guarded

open Wire (Cursor Width)

variable {data : List UInt8} {w : Window} {c : Cursor}

/-- The window that shows a cursor has the positions of the cursor. -/
theorem Shows.eq (h : Shows data w c) : w = ⟨c.position, c.stop⟩ := by
  obtain ⟨before, after, -, hposition, rfl⟩ := h
  rw [Cursor.stop, hposition]

/-- Guarded results that agree with the same result are the same. -/
theorem Agrees.unique {α : Type} {x y : EStateM.Result (Halt Wire.Fault) Window α}
    {r : EStateM.Result Wire.Fault Cursor α} (hx : Agrees id (Shows data) Eq x r)
    (hy : Agrees id (Shows data) Eq y r) : x = y := by
  cases r with
  | ok a s =>
    obtain ⟨_, t, rfl, rfl, ht⟩ := hx.of_ok
    obtain ⟨_, t', rfl, rfl, ht'⟩ := hy.of_ok
    rw [ht.eq, ht'.eq]
  | error fault s =>
    obtain ⟨_, t, rfl, rfl, ht⟩ := hx.of_error
    obtain ⟨_, t', rfl, rfl, ht'⟩ := hy.of_error
    rw [ht.eq, ht'.eq]

/-- Taking one or two bytes at once, where that is possible, gives what taking them byte by byte
gives. -/
theorem readVarint_eq_readGroups (h : Shows data w c) (width : Width) (endAllowed : Bool) :
    readVarint data width.bits endAllowed w =
      if c.unread = [] ∧ endAllowed then .ok (-1) w else readGroups data width.bits 0 0 w := by
  have hfast := Matches.readVarint width.lt_bits endAllowed w c h
  split
  · next hend =>
    have hposition : w.position = w.stop := by
      rw [h.stop_eq_add, hend.1]
      rfl
    rw [readVarint, if_pos hposition, if_pos hend.2]
  · next hgo =>
    have hcap : Wire.Varint.capOf width.bits = (width.bits - 0 + 6) / 7 := rfl
    have hslow := Matches.readGroups h hcap (by decide : 0 < 2 ^ 0)
    have hread : (c.unread.isEmpty && endAllowed) = false := by
      simpa [Bool.and_eq_true, ← Bool.not_eq_true] using hgo
    rw [Cursor.readVarint, hread] at hfast
    simp only [Nat.pow_zero, Nat.one_mul, Nat.zero_add] at hslow
    exact hfast.unique hslow

end Guarded

namespace Wire

/-- What a varint read gives, for every width, every cursor and every window content, and that the two
ways to read by index agree. -/
theorem readVarint_eq_value (width : Width) (endAllowed : Bool) (c : Cursor) :
    (Cursor.readVarint width.bits endAllowed c =
      match (c.unread.take width.cap).findIdx? (·.toNat < 0x80) with
      | some k =>
        .ok (twosComplement width.bits
            (∑ i ∈ Finset.range (k + 1), (c.unread.getD i 0).toNat % 128 * 2 ^ (7 * i)))
          ⟨c.position + (k + 1), c.unread.drop (k + 1)⟩
      | none =>
        if c.unread.length < width.cap then
          if c.unread = [] ∧ endAllowed then .ok (-1) c
          else .error (.endOfInput .oneByte) ⟨c.stop, []⟩
        else
          .error (.varintTooLong width.bits) ⟨c.position + width.cap, c.unread.drop width.cap⟩) ∧
    ∀ data w, Guarded.Shows data w c →
      Guarded.Agrees id (Guarded.Shows data) Eq (Guarded.readVarint data width.bits endAllowed w)
          (Cursor.readVarint width.bits endAllowed c) ∧
        Guarded.readVarint data width.bits endAllowed w =
          if c.unread = [] ∧ endAllowed then .ok (-1) w
          else Guarded.readGroups data width.bits 0 0 w := by
  refine ⟨?_, fun data w h => ⟨Guarded.Matches.readVarint width.lt_bits endAllowed w c h,
    Guarded.readVarint_eq_readGroups h width endAllowed⟩⟩
  unfold Cursor.readVarint
  rw [Width.capOf_bits, Varint.scan_eq]
  by_cases hend : c.unread = [] ∧ endAllowed
  · have hcap : 0 < width.cap := by cases width <;> decide
    simp [hend.1, hend.2, hcap]
  · have hread : (c.unread.isEmpty && endAllowed) = false := by
      simpa [Bool.and_eq_true, ← Bool.not_eq_true] using hend
    rw [hread, if_neg Bool.false_ne_true]
    cases hlast : (c.unread.take width.cap).findIdx? (·.toNat < 0x80) with
    | none =>
      by_cases hshort : c.unread.length < width.cap
      · simp only [if_pos hshort, if_neg hend]
      · simp only [if_neg hshort]
    | some k =>
      have hk : k < c.unread.length := by
        have hlt := (List.findIdx?_eq_some_iff_findIdx_eq.mp hlast).1
        rw [List.length_take] at hlt
        omega
      have hlength : (c.unread.take (k + 1)).length = k + 1 := List.length_take_of_le hk
      have hsum : Varint.valueOf (c.unread.take (k + 1)) =
          ∑ i ∈ Finset.range (k + 1), (c.unread.getD i 0).toNat % 128 * 2 ^ (7 * i) := by
        rw [Varint.valueOf_eq_sum, hlength]
        refine Finset.sum_congr rfl fun i hi => ?_
        rw [List.getD_eq_getElem?_getD, List.getD_eq_getElem?_getD,
          List.getElem?_take_of_lt (Finset.mem_range.mp hi)]
      have hbits : 0 < width.bits := Nat.lt_trans (by decide) width.lt_bits
      dsimp only
      rw [signed_eq_twosComplement hbits, hsum, hlength]

/-- Two bytes that hold the number 128, behind one byte and in front of another one. -/
theorem readVarint_eq_value_two :
    Guarded.Shows [7, 0x80, 0x01, 9] ⟨1, 3⟩ ⟨1, [0x80, 0x01]⟩ ∧
      Guarded.readVarint [7, 0x80, 0x01, 9] Width.short.bits false ⟨1, 3⟩ =
        Guarded.readGroups [7, 0x80, 0x01, 9] Width.short.bits 0 0 ⟨1, 3⟩ := by
  have hshows : Guarded.Shows [7, 0x80, 0x01, 9] ⟨1, 3⟩ ⟨1, [0x80, 0x01]⟩ := ⟨[7], [9], rfl, rfl, rfl⟩
  exact ⟨hshows, ((readVarint_eq_value .short false ⟨1, [0x80, 0x01]⟩).2 _ _ hshows).2⟩

end Wire

end KotlinNullability
