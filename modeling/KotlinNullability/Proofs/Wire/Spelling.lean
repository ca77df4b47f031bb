import KotlinNullability.Wire.Message
import KotlinNullability.Wire.Writer

/-!
# The bytes that spell a value

One value may be written in many ways: a varint may be padded with groups that hold nothing, and a
length keeps its meaning with other bits above its lowest 32. `SpelledBy` says of a tag, a value or
a field that some bytes are one way to write it. Reading and spelling determine each other:
`Parses` says of a read that it succeeds with a result exactly on the bytes that spell the result,
whatever follows them.

A message ends where its window ends, or in front of an end mark, which is the longest varint with
the value `-1`.
-/

namespace KotlinNullability.Wire

section Success

variable {ε σ α β : Type} {m : EStateM ε σ α} {s after : σ} {b : β}

/-- Two steps succeed when each of them does. -/
theorem bind_eq_ok_iff {f : α → EStateM ε σ β} :
    (m >>= f) s = .ok b after ↔ ∃ a mid, m s = .ok a mid ∧ f a mid = .ok b after := by
  refine ⟨FieldRule.bind_eq_ok, ?_⟩
  rintro ⟨a, mid, hm, hf⟩
  change EStateM.bind m f s = _
  rw [EStateM.bind, hm]
  exact hf

/-- A result that is made from another succeeds when the other does. -/
theorem map_eq_ok_iff {g : α → β} :
    (m >>= fun a => pure (g a)) s = .ok b after ↔ ∃ a, m s = .ok a after ∧ g a = b := by
  rw [bind_eq_ok_iff]
  constructor
  · rintro ⟨a, mid, hm, hpure⟩
    cases hpure
    exact ⟨a, hm, rfl⟩
  · rintro ⟨a, hm, rfl⟩
    exact ⟨a, after, hm, rfl⟩

end Success

/-- The read succeeds with a result exactly on the bytes that spell it, and moves past them. -/
def Parses {α : Type} (m : Read Cursor α) (spells : α → List UInt8 → Prop) : Prop :=
  ∀ position bytes a after, m ⟨position, bytes⟩ = .ok a after ↔
    ∃ raw rest, spells a raw ∧ bytes = raw ++ rest ∧ after = ⟨position + raw.length, rest⟩

namespace Parses

variable {α β : Type} {m : Read Cursor α} {spells : α → List UInt8 → Prop}

/-- What spells a result may be said in other words. -/
theorem congr {spells' : α → List UInt8 → Prop} (h : Parses m spells)
    (hspells : ∀ a raw, spells a raw ↔ spells' a raw) : Parses m spells' := by
  intro position bytes a after
  simp only [h position bytes a after, hspells]

/-- A result that is made from another one is spelled as the other one. -/
theorem map (h : Parses m spells) (g : α → β) :
    Parses (m >>= fun a => pure (g a)) fun b raw => ∃ a, g a = b ∧ spells a raw := by
  intro position bytes b after
  rw [map_eq_ok_iff]
  constructor
  · rintro ⟨a, hm, rfl⟩
    obtain ⟨raw, rest, hraw, hbytes, hafter⟩ := (h ..).mp hm
    exact ⟨raw, rest, ⟨a, rfl, hraw⟩, hbytes, hafter⟩
  · rintro ⟨raw, rest, ⟨a, rfl, hraw⟩, hbytes, hafter⟩
    exact ⟨a, (h ..).mpr ⟨raw, rest, hraw, hbytes, hafter⟩, rfl⟩

/-- Two reads in sequence are spelled by the bytes of the one and then those of the other. -/
theorem bind {f : α → Read Cursor β} {next : α → β → List UInt8 → Prop} (h : Parses m spells)
    (hf : ∀ a, Parses (f a) (next a)) :
    Parses (m >>= f) fun b raw =>
      ∃ a first second, spells a first ∧ next a b second ∧ raw = first ++ second := by
  intro position bytes b after
  rw [bind_eq_ok_iff]
  constructor
  · rintro ⟨a, mid, hm, hnext⟩
    obtain ⟨first, mid', hfirst, rfl, rfl⟩ := (h ..).mp hm
    obtain ⟨second, rest, hsecond, rfl, rfl⟩ := (hf a ..).mp hnext
    refine ⟨first ++ second, rest, ⟨a, first, second, hfirst, hsecond, rfl⟩, ?_, ?_⟩
    · rw [List.append_assoc]
    · rw [List.length_append, Nat.add_assoc]
  · rintro ⟨_, rest, ⟨a, first, second, hfirst, hsecond, rfl⟩, rfl, rfl⟩
    refine ⟨a, ⟨position + first.length, second ++ rest⟩, ?_, ?_⟩
    · exact (h ..).mpr ⟨first, second ++ rest, hfirst, List.append_assoc .., rfl⟩
    · refine (hf a ..).mpr ⟨second, rest, hsecond, rfl, ?_⟩
      rw [List.length_append, Nat.add_assoc]

/-- The bytes at the start of a window spell at most one result, and no start of them spells
another. -/
theorem unique (h : Parses m spells) {a a' : α} {raw raw' rest rest' : List UInt8}
    (ha : spells a raw) (ha' : spells a' raw') (hbytes : raw ++ rest = raw' ++ rest') :
    a = a' ∧ raw = raw' ∧ rest = rest' := by
  have hrun := (h 0 (raw ++ rest) a _).mpr ⟨raw, rest, ha, rfl, rfl⟩
  have hrun' := (h 0 (raw ++ rest) a' _).mpr ⟨raw', rest', ha', hbytes, rfl⟩
  rw [hrun] at hrun'
  simp only [EStateM.Result.ok.injEq, Cursor.mk.injEq] at hrun'
  obtain ⟨rfl, -, rfl⟩ := hrun'
  exact ⟨rfl, List.append_cancel_right hbytes, rfl⟩

end Parses

namespace Varint

/-- The bytes are one varint of 64 bits. -/
def Whole (groups : List UInt8) : Prop := scan (capOf 64) groups = .complete groups []

/-- A varint ends at its first byte, or goes on behind it. -/
theorem scan_cons_eq_complete_iff {cap : Nat} {b : UInt8} {bytes groups rest : List UInt8} :
    scan (cap + 1) (b :: bytes) = .complete groups rest ↔
      b.toNat < 0x80 ∧ groups = [b] ∧ rest = bytes ∨
        ¬ b.toNat < 0x80 ∧ ∃ more, groups = b :: more ∧ scan cap bytes = .complete more rest := by
  rw [scan]
  by_cases hlast : b.toNat < 0x80
  · simp [hlast, eq_comm]
  · cases scan cap bytes with
    | complete => simp only [hlast, if_false, Scan.complete.injEq]; grind
    | unfinished => simp [hlast]
    | tooLong => simp [hlast]

/-- What is found in front of other bytes is found by itself, and in front of any others. -/
theorem scan_eq_complete_iff {cap : Nat} {bytes groups rest : List UInt8} :
    scan cap bytes = .complete groups rest ↔
      scan cap groups = .complete groups [] ∧ bytes = groups ++ rest := by
  induction cap generalizing bytes groups with
  | zero => simp [scan]
  | succ cap ih =>
    cases groups with
    | nil =>
      cases bytes with
      | nil => simp [scan]
      | cons b bytes =>
        rw [scan_cons_eq_complete_iff]
        simp [scan]
    | cons g groups =>
      cases bytes with
      | nil => simp [scan]
      | cons b bytes =>
        simp only [scan_cons_eq_complete_iff, @ih bytes, List.cons_append,
          List.cons.injEq]
        grind

instance : DecidablePred Whole := fun _ => inferInstanceAs (Decidable (_ = _))

/-- The shortest varint of a number below two to the 64 is a varint. -/
theorem whole_encode {n : Nat} (h : n < 0x10000000000000000) : Whole (encode n) := by
  have hscan : scan (9 + 1) (encode n ++ []) = _ := scan_encode (Nat.lt_trans h (by decide)) []
  rwa [List.append_nil] at hscan

/-- Some bytes are at the end or start with a varint of 64 bits that is the length. -/
def IsLength (groups : List UInt8) (length : Nat) : Prop :=
  Whole groups ∧ signed 32 (signed 64 (valueOf groups)) = length

instance (groups : List UInt8) (length : Nat) : Decidable (IsLength groups length) :=
  inferInstanceAs (Decidable (_ ∧ _))

end Varint

open Varint (Whole IsLength valueOf)

namespace Parses

/-- A varint of 64 bits is spelled by any varint with its value. -/
theorem varint : Parses (Cursor.readVarint 64 false) fun n raw =>
    Whole raw ∧ signed 64 (valueOf raw) = n := by
  intro position bytes n after
  unfold Cursor.readVarint
  simp only [Bool.and_false, Bool.false_eq_true, if_false]
  constructor
  · intro h
    split at h
    · next groups rest hs =>
      simp only [EStateM.Result.ok.injEq] at h
      obtain ⟨rfl, rfl⟩ := h
      obtain ⟨hwhole, hbytes⟩ := Varint.scan_eq_complete_iff.mp hs
      exact ⟨groups, rest, ⟨hwhole, rfl⟩, hbytes, rfl⟩
    · cases h
    · cases h
  · rintro ⟨raw, rest, ⟨hwhole, rfl⟩, rfl, rfl⟩
    rw [Varint.scan_eq_complete_iff.mpr ⟨hwhole, rfl⟩]

/-- So many bytes are spelled by themselves. -/
theorem exact (count : Nat) : Parses (Cursor.readExact count) fun taken raw =>
    taken.length = count ∧ raw = taken := by
  intro position bytes taken after
  unfold Cursor.readExact Cursor.available
  constructor
  · intro h
    split at h
    · cases h
    · next hcount =>
      cases h
      have hlength : (bytes.take count).length = count :=
        List.length_take_of_le (Nat.le_of_not_lt hcount)
      exact ⟨bytes.take count, bytes.drop count, ⟨hlength, rfl⟩,
        (List.take_append_drop count bytes).symm, by rw [hlength]⟩
  · rintro ⟨_, rest, ⟨rfl, rfl⟩, rfl, rfl⟩
    rw [if_neg (by simp), List.take_left' rfl, List.drop_left' rfl]

/-- A length is spelled by any varint with its value in the lowest 32 bits. -/
theorem length : Parses Cursor.readLength fun n raw => IsLength raw n := by
  have hsigned : ∀ length : Int, Parses
      (if length < 0 then throw (.negativeLength length) else pure length.toNat)
      fun n raw => length = (n : Int) ∧ raw = [] := by
    intro length position bytes n after
    constructor
    · intro h
      by_cases hnegative : length < 0
      · rw [if_pos hnegative] at h
        cases h
      · rw [if_neg hnegative] at h
        cases h
        exact ⟨[], bytes, ⟨(Int.toNat_of_nonneg (by omega)).symm, rfl⟩, rfl, rfl⟩
    · rintro ⟨_, rest, ⟨rfl, rfl⟩, rfl, rfl⟩
      rw [if_neg (by omega), Int.toNat_natCast]
      rfl
  refine congr (m := Cursor.readLength) (bind (map varint (signed 32)) hsigned) fun n raw => ?_
  constructor
  · rintro ⟨_, first, _, ⟨_, rfl, hwhole, rfl⟩, ⟨hlength, rfl⟩, rfl⟩
    rw [List.append_nil]
    exact ⟨hwhole, hlength⟩
  · rintro ⟨hwhole, hlength⟩
    exact ⟨_, raw, [], ⟨_, rfl, hwhole, rfl⟩, ⟨hlength, rfl⟩, (List.append_nil raw).symm⟩

/-- Bytes with a length are spelled by the length and themselves. -/
theorem delimited : Parses Cursor.readDelimited fun taken raw =>
    ∃ groups, IsLength groups taken.length ∧ raw = groups ++ taken := by
  refine congr (bind length exact) fun taken raw => ?_
  constructor
  · rintro ⟨_, groups, _, hlength, ⟨rfl, rfl⟩, rfl⟩
    exact ⟨groups, hlength, rfl⟩
  · rintro ⟨groups, hlength, rfl⟩
    exact ⟨taken.length, groups, taken, hlength, ⟨rfl, rfl⟩, rfl⟩

end Parses

/-- The bytes are one way to write the value. -/
inductive Value.SpelledBy : Value → List UInt8 → Prop
  | varint {n : Int} {groups : List UInt8} (h : Whole groups)
      (value : signed 64 (valueOf groups) = n) : Value.SpelledBy (.varint n) groups
  | fixed64 {bytes : List UInt8} (h : bytes.length = 8) : Value.SpelledBy (.fixed64 bytes) bytes
  | delimited {groups bytes : List UInt8} (h : IsLength groups bytes.length) :
      Value.SpelledBy (.delimited bytes) (groups ++ bytes)
  | fixed32 {bytes : List UInt8} (h : bytes.length = 4) : Value.SpelledBy (.fixed32 bytes) bytes

/-- A value is read from the bytes that spell it. -/
theorem Parses.value (wire : WireType) : Parses (Cursor.readValue wire) fun v raw =>
    v.wire = wire ∧ v.SpelledBy raw := by
  cases wire with
  | varint =>
    refine (Parses.varint.map Value.varint).congr fun v raw => ?_
    constructor
    · rintro ⟨n, rfl, hwhole, hn⟩
      exact ⟨rfl, .varint hwhole hn⟩
    · rintro ⟨hwire, hraw⟩
      cases hraw with
      | varint hwhole hn => exact ⟨_, rfl, hwhole, hn⟩
      | fixed64 => cases hwire
      | delimited => cases hwire
      | fixed32 => cases hwire
  | fixed64 =>
    refine ((Parses.exact 8).map Value.fixed64).congr fun v raw => ?_
    constructor
    · rintro ⟨_, rfl, hlength, rfl⟩
      exact ⟨rfl, .fixed64 hlength⟩
    · rintro ⟨hwire, hraw⟩
      cases hraw <;> cases hwire
      exact ⟨_, rfl, ‹_›, rfl⟩
  | delimited =>
    refine (Parses.delimited.map Value.delimited).congr fun v raw => ?_
    constructor
    · rintro ⟨_, rfl, groups, hlength, rfl⟩
      exact ⟨rfl, .delimited hlength⟩
    · rintro ⟨hwire, hraw⟩
      cases hraw <;> cases hwire
      exact ⟨_, rfl, _, ‹_›, rfl⟩
  | fixed32 =>
    refine ((Parses.exact 4).map Value.fixed32).congr fun v raw => ?_
    constructor
    · rintro ⟨_, rfl, hlength, rfl⟩
      exact ⟨rfl, .fixed32 hlength⟩
    · rintro ⟨hwire, hraw⟩
      cases hraw <;> cases hwire
      exact ⟨_, rfl, ‹_›, rfl⟩

/-- The bytes are one way to write the tag. -/
def Tag.SpelledBy (tag : Tag) (groups : List UInt8) : Prop :=
  Whole groups ∧ valueOf groups % 0x100000000 = tag.header ∧ tag.field ≠ 0

instance (tag : Tag) (groups : List UInt8) : Decidable (tag.SpelledBy groups) :=
  inferInstanceAs (Decidable (_ ∧ _))

/-- The bytes are one way to write the field. -/
inductive Field.SpelledBy (f : Field) : List UInt8 → Prop
  | intro {groups raw : List UInt8} (tag : f.tag.SpelledBy groups) (value : f.value.SpelledBy raw) :
      Field.SpelledBy f (groups ++ raw)

/-- The bytes are the longest varint with the value `-1`: nine groups with all bits set, and a last
one that holds the sign. -/
def EndMark (groups : List UInt8) : Prop :=
  ∃ last : UInt8, groups = List.replicate 9 0xFF ++ [last] ∧ last.toNat < 0x80 ∧ last.toNat % 2 = 1

/-- The bytes start with an end mark. -/
def Marked (bytes : List UInt8) : Prop := ∃ mark rest, EndMark mark ∧ bytes = mark ++ rest

/-- A message ends in front of the bytes. -/
def Ends (bytes : List UInt8) : Prop := bytes = [] ∨ Marked bytes

/-- The numbers that make tags are the numbers of tags. -/
theorem Tag.ofHeader_eq_ok_iff {header : Nat} {tag : Tag} :
    Tag.ofHeader header = .ok tag ↔ header = tag.header ∧ tag.field ≠ 0 := by
  constructor
  · intro h
    unfold Tag.ofHeader at h
    split at h
    · cases h
    · next hfield =>
      split at h
      · next wire hwire =>
        cases h
        rw [WireType.ofCode?_eq_some] at hwire
        refine ⟨?_, hfield⟩
        change header = header / 8 * 8 + wire.code
        omega
      · cases h
  · rintro ⟨rfl, hfield⟩
    exact Tag.ofHeader_header hfield

/-- The lowest 32 bits of a number stay when the number is taken with a sign. -/
theorem signed_emod (n : Nat) : (signed 64 n % 0x100000000).toNat = n % 0x100000000 := by
  have hdvd : (0x100000000 : Int) ∣ ((Nat.pow 2 64 : Nat) : Int) := ⟨0x100000000, by decide⟩
  have h : signed 64 n % 0x100000000 = (n : Int) % 0x100000000 := by
    rw [← Int.emod_emod_of_dvd (signed 64 n) hdvd, signed, Int.bmod_emod,
      Int.emod_emod_of_dvd _ hdvd]
  rw [h]
  omega

/-- A number is `-1` with its sign when its lowest 64 bits are all set. -/
theorem signed_eq_neg_one_iff (n : Nat) :
    signed 64 n = -1 ↔ n % 0x10000000000000000 = 0xFFFFFFFFFFFFFFFF := by
  have hmod : ((Nat.pow 2 64 : Nat) : Int) = 0x10000000000000000 := rfl
  rw [signed, Int.bmod_def, hmod]
  split <;> omega

namespace Varint

/-- All bits below a bound are set in a number when they are in its first group and in the rest. -/
theorem valueOf_cons_mod {b : UInt8} {groups : List UInt8} {n : Nat} (hn : 0 < n) :
    valueOf (b :: groups) % (0x80 * n) = 0x80 * n - 1 ↔
      b.toNat % 0x80 = 0x7F ∧ valueOf groups % n = n - 1 := by
  have hlow : b.toNat % 0x80 < 0x80 := Nat.mod_lt _ (by decide)
  have hrest : valueOf groups % n < n := Nat.mod_lt _ hn
  have hsum : valueOf (b :: groups) % (0x80 * n) =
      b.toNat % 0x80 + 0x80 * (valueOf groups % n) := by
    rw [valueOf, Nat.mod_mul, Nat.add_mul_mod_self_left, Nat.mod_mod,
      Nat.add_mul_div_left _ _ (by decide), Nat.div_eq_of_lt hlow, Nat.zero_add]
  rw [hsum]
  omega

/-- A varint has all bits below a bound set only if it is as long as it may be. -/
theorem scan_all_set_iff {cap : Nat} {groups : List UInt8}
    (h : scan (cap + 1) groups = .complete groups []) :
    valueOf groups % (Nat.pow 0x80 cap * 2) = Nat.pow 0x80 cap * 2 - 1 ↔
      ∃ last : UInt8, groups = List.replicate cap 0xFF ++ [last] ∧ last.toNat < 0x80 ∧
        last.toNat % 2 = 1 := by
  induction cap generalizing groups with
  | zero =>
    cases groups with
    | nil => simp [scan] at h
    | cons b groups =>
      rw [scan_cons_eq_complete_iff] at h
      obtain ⟨hlast, hone, -⟩ | ⟨-, _, -, hnone⟩ := h
      · have hpow : Nat.pow 0x80 0 = 1 := rfl
        rw [hone, hpow, valueOf, valueOf]
        constructor
        · intro hset
          exact ⟨b, rfl, hlast, by omega⟩
        · rintro ⟨_, hb, -, hodd⟩
          cases hb
          omega
      · cases hnone
  | succ cap ih =>
    cases groups with
    | nil => simp [scan] at h
    | cons b groups =>
      have hpow : Nat.pow 0x80 (cap + 1) * 2 = 0x80 * (Nat.pow 0x80 cap * 2) := by
        change Nat.pow 0x80 cap * 0x80 * 2 = _
        omega
      have hpos : 0 < Nat.pow 0x80 cap := Nat.pow_pos (by decide)
      rw [hpow, valueOf_cons_mod (by omega)]
      rw [scan_cons_eq_complete_iff] at h
      obtain ⟨hlast, hone, -⟩ | ⟨hmore, more, hcons, hrest⟩ := h
      · cases hone
        constructor
        · rintro ⟨-, hset⟩
          rw [valueOf, Nat.zero_mod] at hset
          omega
        · rintro ⟨_, hb, -, -⟩
          cases cap <;> cases hb
      · cases hcons
        have hb : b.toNat % 0x80 = 0x7F ↔ b = 0xFF := by
          rw [← UInt8.toNat_inj]
          change _ ↔ b.toNat = 0xFF
          have := b.toNat_lt
          omega
        simp only [ih hrest, hb, List.replicate_succ, List.cons_append, List.cons.injEq, and_assoc,
          exists_and_left]

end Varint

/-- A varint has the value `-1` when it is an end mark. -/
theorem Varint.Whole.endMark_iff {groups : List UInt8} (h : Whole groups) :
    signed 64 (valueOf groups) = -1 ↔ EndMark groups := by
  rw [signed_eq_neg_one_iff]
  have hscan : Varint.scan (9 + 1) groups = .complete groups [] := h
  exact Varint.scan_all_set_iff hscan

/-- An end mark is a varint. -/
theorem EndMark.whole {groups : List UInt8} (h : EndMark groups) : Whole groups := by
  obtain ⟨last, rfl, hlast, -⟩ := h
  simp [Whole, Varint.capOf, Varint.scan, List.replicate, hlast]

/-- The end mark is the only kind of number that makes no tag and no error. -/
theorem Tag.SpelledBy.not_endMark {tag : Tag} {groups : List UInt8} (h : tag.SpelledBy groups) :
    ¬ EndMark groups := by
  intro hmark
  have hset := (signed_eq_neg_one_iff _).mp (h.1.endMark_iff.mpr hmark)
  have hheader : tag.field * 8 + tag.wire.code = 0xFFFFFFFF := by
    change tag.header = _
    rw [← h.2.1]
    omega
  have hcode : tag.wire.code < 7 := by cases tag.wire <;> decide
  omega

/-- A varint is found in one way. -/
theorem Varint.Whole.unique {groups groups' rest rest' : List UInt8} (h : Whole groups)
    (h' : Whole groups') (hbytes : groups ++ rest = groups' ++ rest') :
    groups = groups' ∧ rest = rest' := by
  have hscan : Varint.scan _ (groups ++ rest) = _ := Varint.scan_eq_complete_iff.mpr ⟨h, rfl⟩
  rw [Varint.scan_eq_complete_iff.mpr ⟨h', hbytes⟩] at hscan
  cases hscan
  exact ⟨rfl, rfl⟩

/-- The bytes at the start of a window spell at most one tag. -/
theorem Tag.SpelledBy.unique {tag tag' : Tag} {groups groups' rest rest' : List UInt8}
    (h : tag.SpelledBy groups) (h' : tag'.SpelledBy groups')
    (hbytes : groups ++ rest = groups' ++ rest') :
    tag = tag' ∧ groups = groups' ∧ rest = rest' := by
  obtain ⟨rfl, rfl⟩ := h.1.unique h'.1 hbytes
  have htag := Tag.ofHeader_eq_ok_iff.mpr h.2
  rw [Tag.ofHeader_eq_ok_iff.mpr h'.2] at htag
  cases htag
  exact ⟨rfl, rfl, rfl⟩

/-- The bytes at the start of a window spell at most one field. -/
theorem Field.SpelledBy.unique {f f' : Field} {raw raw' rest rest' : List UInt8}
    (h : f.SpelledBy raw) (h' : f'.SpelledBy raw') (hbytes : raw ++ rest = raw' ++ rest') :
    f = f' ∧ raw = raw' ∧ rest = rest' := by
  obtain ⟨htag, hvalue⟩ := h
  obtain ⟨htag', hvalue'⟩ := h'
  simp only [List.append_assoc] at hbytes
  obtain ⟨hsame, rfl, hmid⟩ := htag.unique htag' hbytes
  have hwire : f'.value.wire = f.value.wire := congrArg Tag.wire hsame.symm
  obtain ⟨hvalues, rfl, rfl⟩ := (Parses.value f.value.wire).unique ⟨rfl, hvalue⟩
    ⟨hwire, hvalue'⟩ hmid
  have hnumber : f.number = f'.number := congrArg Tag.field hsame
  cases f
  cases f'
  cases hnumber
  cases hvalues
  exact ⟨rfl, rfl, rfl⟩

/-- No message ends in front of a field. -/
theorem Field.SpelledBy.not_ends {f : Field} {raw rest : List UInt8} (h : f.SpelledBy raw) :
    ¬ Ends (raw ++ rest) := by
  obtain ⟨htag, -⟩ := h
  rintro (hnil | ⟨mark, more, hmark, hbytes⟩)
  · have hgroups := (List.append_eq_nil_iff.mp (List.append_eq_nil_iff.mp hnil).1).1
    rw [hgroups] at htag
    cases htag.1
  · rw [List.append_assoc] at hbytes
    obtain ⟨rfl, -⟩ := htag.1.unique hmark.whole hbytes
    exact htag.not_endMark hmark

/-- The shortest varint of a tag spells it. -/
theorem Tag.spelledBy_encode {tag : Tag} (hfield : tag.field ≠ 0) (h : tag.field < 0x20000000) :
    tag.SpelledBy (Varint.encode tag.header) := by
  have hcode : tag.wire.code < 8 := by cases tag.wire <;> decide
  have hheader : tag.header < 0x100000000 := by
    change tag.field * 8 + tag.wire.code < _
    omega
  refine ⟨Varint.whole_encode (by omega), ?_, hfield⟩
  rw [Varint.valueOf_encode, Nat.mod_eq_of_lt hheader]

/-- The shortest varint of a length below two to the 31 is that length. -/
theorem Varint.isLength_encode {n : Nat} (h : n < 0x80000000) : IsLength (encode n) n := by
  refine ⟨whole_encode (by omega), ?_⟩
  rw [valueOf_encode, signed, signed,
    Int.bmod_eq_of_le (n := n) (by change -(18446744073709551616 / 2 : Int) ≤ _; omega)
      (by change _ < ((18446744073709551616 : Int) + 1) / 2; omega)]
  exact Int.bmod_eq_of_le (by change -(4294967296 / 2 : Int) ≤ _; omega)
    (by change _ < ((4294967296 : Int) + 1) / 2; omega)

/-- In front of bytes, the end is allowed but not met. -/
theorem Cursor.readVarint_of_ne_nil {c : Cursor} (h : c.unread ≠ []) :
    readVarint 64 true c = readVarint 64 false c := by
  simp [readVarint, h]

namespace Reader

/-- A varint in front of bytes is the end mark, makes a tag, or makes none. -/
theorem readTag_of_whole {position : Nat} {groups rest : List UInt8} (h : Whole groups)
    (current : Option Tag) :
    readTag ⟨⟨position, groups ++ rest⟩, current⟩ =
      if signed 64 (valueOf groups) = -1 then .ok none ⟨⟨position + groups.length, rest⟩, none⟩
      else match Tag.ofHeader (valueOf groups % 0x100000000) with
        | .ok tag => .ok (some tag) ⟨⟨position + groups.length, rest⟩, some tag⟩
        | .error fault => .error fault ⟨⟨position + groups.length, rest⟩, current⟩ := by
  have hne : groups ++ rest ≠ [] := by
    intro hnil
    rw [(List.append_eq_nil_iff.mp hnil).1] at h
    cases h
  have hrun := (Parses.varint position (groups ++ rest) _ _).mpr ⟨groups, rest, ⟨h, rfl⟩, rfl, rfl⟩
  have hend : Cursor.readVarint 64 true ⟨position, groups ++ rest⟩ = _ :=
    (Cursor.readVarint_of_ne_nil hne).trans hrun
  cases hheader : Tag.ofHeader (valueOf groups % 0x100000000) with
  | ok tag => simp only [readTag, hend, signed_emod, hheader]
  | error fault => simp only [readTag, hend, signed_emod, hheader]

/-- A reader that finds a tag or the end is at the end, or in front of a varint. -/
theorem exists_whole_of_readTag {position : Nat} {bytes : List UInt8} {current found : Option Tag}
    {after : Reader} (h : readTag ⟨⟨position, bytes⟩, current⟩ = .ok found after) :
    bytes = [] ∧ found = none ∨ ∃ groups rest, Whole groups ∧ bytes = groups ++ rest := by
  by_cases hne : bytes = []
  · subst hne
    cases h
    exact .inl ⟨rfl, rfl⟩
  · cases hrun : Cursor.readVarint 64 false ⟨position, bytes⟩ with
    | ok n mid =>
      obtain ⟨groups, rest, ⟨hwhole, -⟩, hbytes, -⟩ := (Parses.varint ..).mp hrun
      exact .inr ⟨groups, rest, hwhole, hbytes⟩
    | error fault mid =>
      rw [readTag, Cursor.readVarint_of_ne_nil hne, hrun] at h
      cases h

/-- A tag is read from the bytes that spell it. -/
theorem readTag_eq_some_iff {position : Nat} {bytes : List UInt8} {current : Option Tag} {tag : Tag}
    {after : Reader} : readTag ⟨⟨position, bytes⟩, current⟩ = .ok (some tag) after ↔
      ∃ groups rest, tag.SpelledBy groups ∧ bytes = groups ++ rest ∧
        after = ⟨⟨position + groups.length, rest⟩, some tag⟩ := by
  constructor
  · intro h
    obtain ⟨-, hnone⟩ | ⟨groups, rest, hwhole, rfl⟩ := exists_whole_of_readTag h
    · cases hnone
    · rw [readTag_of_whole hwhole] at h
      split at h
      · cases h
      · split at h
        · next hheader =>
          cases h
          exact ⟨groups, rest, ⟨hwhole, Tag.ofHeader_eq_ok_iff.mp hheader⟩, rfl, rfl⟩
        · cases h
  · rintro ⟨groups, rest, htag, rfl, rfl⟩
    have hnot : ¬ signed 64 (valueOf groups) = -1 := by
      rw [htag.1.endMark_iff]
      exact htag.not_endMark
    rw [readTag_of_whole htag.1, if_neg hnot, Tag.ofHeader_eq_ok_iff.mpr htag.2]

/-- The end of a message is found where the message ends. -/
theorem readTag_eq_none_iff {position : Nat} {bytes : List UInt8} {current : Option Tag} :
    (∃ after, readTag ⟨⟨position, bytes⟩, current⟩ = .ok none after) ↔ Ends bytes := by
  constructor
  · rintro ⟨after, h⟩
    obtain ⟨hnil, -⟩ | ⟨groups, rest, hwhole, rfl⟩ := exists_whole_of_readTag h
    · exact .inl hnil
    · rw [readTag_of_whole hwhole] at h
      split at h
      · next hmark => exact .inr ⟨groups, rest, hwhole.endMark_iff.mp hmark, rfl⟩
      · split at h <;> cases h
  · rintro (rfl | ⟨mark, rest, hmark, rfl⟩)
    · exact ⟨_, rfl⟩
    · exact ⟨_, by rw [readTag_of_whole hmark.whole, if_pos (hmark.whole.endMark_iff.mpr hmark)]⟩

end Reader

end KotlinNullability.Wire
