import KotlinNullability.Header.File
import KotlinNullability.Proofs.Association
import KotlinNullability.Proofs.Results
import KotlinNullability.Proofs.Text.Numeral

/-!
# The numbers of a header file

No number that is read is too long to be written: numerals are read up to the length that is written,
and a number with a fraction or an exponent is far smaller when its fraction is dropped. So the kind and
the version of a header that comes from a file can be named.
-/

namespace KotlinNullability

namespace Binary64

/-- The magnitude, if there is one, is below two to the 1024. -/
def InRange : Binary64 → Prop
  | finite _ mantissa exponent => mantissa = 0 ∨ (mantissa.log2 : Int) + exponent < 1024
  | nan | infinite _ => True

theorem inRange_ofRatio (negative : Bool) (num den : Nat) : (ofRatio negative num den).InRange := by
  have hrounded (mantissa : Nat) (exponent : Int) :
      (if (mantissa.log2 : Int) + exponent < 1024 then finite negative mantissa exponent
        else infinite negative).InRange := by
    split
    · next hlog => exact .inr hlog
    · trivial
  unfold ofRatio
  split
  · exact .inl rfl
  · exact hrounded _ _

theorem inRange_ofDecimal (negative : Bool) (significand : Nat) (exponent : Int) :
    (ofDecimal negative significand exponent).InRange := by
  unfold ofDecimal
  dsimp only
  split
  · exact .inl rfl
  · split
    · trivial
    · split <;> exact inRange_ofRatio ..

/-- A magnitude below a power of two is so as a quotient, too. -/
theorem scale_div_lt {mantissa bits : Nat} {exponent : Int}
    (h : mantissa = 0 ∨ (mantissa.log2 : Int) + exponent < bits) :
    (scale mantissa 1 exponent).1 / (scale mantissa 1 exponent).2 < 2 ^ bits := by
  rcases h with rfl | hlog
  · cases exponent <;> simp [scale]
  · have hmantissa : mantissa < 2 ^ (mantissa.log2 + 1) := Nat.lt_log2_self
    cases exponent with
    | ofNat shift =>
      have hsum : mantissa.log2 + 1 + shift ≤ bits := by
        have hlog : (mantissa.log2 : Int) + shift < bits := hlog
        omega
      simp only [scale, Nat.div_one, Nat.shiftLeft_eq]
      calc mantissa * 2 ^ shift
          < 2 ^ (mantissa.log2 + 1) * 2 ^ shift :=
            Nat.mul_lt_mul_of_pos_right hmantissa (Nat.two_pow_pos shift)
        _ = 2 ^ (mantissa.log2 + 1 + shift) := (Nat.pow_add ..).symm
        _ ≤ 2 ^ bits := Nat.pow_le_pow_right (by decide) hsum
    | negSucc shift =>
      have hsum : mantissa.log2 + 1 ≤ shift + 1 + bits := by omega
      simp only [scale, Nat.one_shiftLeft]
      refine Nat.div_lt_of_lt_mul (Nat.lt_of_lt_of_le hmantissa ?_)
      rw [← Nat.pow_add]
      exact Nat.pow_le_pow_right (by decide) hsum

/-- A number in range is short when its fraction is dropped. -/
theorem natAbs_truncate_lt {negative : Bool} {mantissa : Nat} {exponent : Int}
    (h : (finite negative mantissa exponent).InRange) :
    (truncate negative mantissa exponent).natAbs < 10 ^ Numeral.digitLimit := by
  have hbits (bits : Nat) (hbits : bits ≤ Numeral.digitLimit) :
      (2 : Nat) ^ bits ≤ 10 ^ Numeral.digitLimit :=
    Nat.le_trans (Nat.pow_le_pow_left (by decide) bits) (Nat.pow_le_pow_right (by decide) hbits)
  have hquotient :=
    Nat.lt_of_lt_of_le (@scale_div_lt mantissa 1024 exponent h) (hbits 1024 (by decide))
  unfold truncate
  dsimp only
  split
  · rwa [Int.natAbs_neg, Int.natAbs_natCast]
  · rwa [Int.natAbs_natCast]

end Binary64

namespace Json

/-- The numbers in a value are short enough to be written, also as whole numbers. -/
inductive Short : Json → Prop
  | null : Short .null
  | bool (b : Bool) : Short (.bool b)
  | whole {n : Int} (h : n.natAbs < 10 ^ Numeral.digitLimit) : Short (.whole n)
  | real {x : Binary64} (h : x.InRange) : Short (.real x)
  | text (t : Text) : Short (.text t)
  | array {items : List Json} (h : ∀ item ∈ items, Short item) : Short (.array items)
  | object {members : List (Text × Json)} (h : ∀ entry ∈ members, Short entry.2) :
      Short (.object members)

/-- A short value passes for short whole numbers. -/
theorem Short.natAbs_lt {value : Json} (h : value.Short) {n : Int} (hn : value.toInt = .ok n) :
    n.natAbs < 10 ^ Numeral.digitLimit := by
  cases h with
  | null | array h | object h => cases hn
  | bool b =>
    cases hn
    exact Nat.lt_of_le_of_lt (by cases b <;> decide)
      (Nat.one_lt_pow (by decide) (by decide : 1 < 10))
  | whole h =>
    cases hn
    exact h
  | @real x h =>
    cases x with
    | nan => cases hn
    | infinite negative => cases hn
    | finite negative mantissa exponent =>
      cases hn
      exact Binary64.natAbs_truncate_lt h
  | text t =>
    rw [toInt, readNumeral] at hn
    split at hn
    · next hread =>
      cases hn
      exact (Numeral.read_eq_ok_iff.mp hread).natAbs_lt
    · cases hn
    · cases hn

/-- The items of a short value are short. -/
theorem Short.items {value : Json} (h : value.Short) {items : List Json}
    (hitems : value.items? = some items) : ∀ item ∈ items, item.Short := by
  cases h with
  | null | bool | whole | real => cases hitems
  | text t =>
    cases hitems
    simp only [List.forall_mem_map]
    exact fun c _ => .text [c]
  | array h =>
    cases hitems
    exact h
  | object h =>
    cases hitems
    simp only [List.forall_mem_map]
    exact fun entry _ => .text entry.1

namespace Reader

theorem lt_of_mem_digits {t : Text} : ∀ d ∈ (digits t).1, d < 10 := by
  simp only [digits, List.forall_mem_map]
  intro c hc
  have hdigit := List.mem_takeWhile_imp hc
  simp only [CodePoint.isAsciiDigit, decide_eq_true_eq] at hdigit
  omega

theorem short_number {negative : Bool} {t rest : Text} {value : Json}
    (h : number negative t = .ok (value, rest)) : value.Short := by
  unfold number at h
  split at h
  next wholeDigits behind hstart =>
  have hdigits : ∀ d ∈ wholeDigits, d < 10 := by
    split at hstart
    · cases hstart
      exact List.forall_mem_nil _
    · split at hstart
      · cases hstart
        simp
      · have hwhole : (digits _).1 = wholeDigits := congrArg Prod.fst hstart
        rw [← hwhole]
        exact lt_of_mem_digits
  split at h
  · cases h
  · dsimp only at h
    split at h
    · split at h
      · cases h
      · next hlimit =>
        cases h
        have hvalue := Nat.lt_of_lt_of_le (Numeral.valueOf_lt hdigits)
          (Nat.pow_le_pow_right (by decide) (Nat.le_of_not_lt hlimit))
        refine .whole ?_
        cases negative with
        | true => rwa [if_pos rfl, Int.natAbs_neg, Int.natAbs_natCast]
        | false => rwa [if_neg Bool.false_ne_true, Int.natAbs_natCast]
    · cases h
      exact .real (Binary64.inRange_ofDecimal ..)

theorem short_scalar {t rest : Text} {value : Json} (h : scalar t = .ok (value, rest)) :
    value.Short := by
  have hnames : ∀ name ∈ names, name.2.Short := by
    simp only [names, List.forall_mem_cons]
    exact ⟨.null, .bool true, .bool false, .real trivial, .real trivial, .real trivial,
      List.forall_mem_nil _⟩
  unfold scalar at h
  split at h
  · next hreading =>
    cases h
    obtain ⟨name, hname, hread⟩ := List.exists_of_findSome?_eq_some hreading
    obtain ⟨left, -, hpair⟩ := Option.map_eq_some_iff.mp hread
    obtain rfl := congrArg Prod.fst hpair
    exact hnames name hname
  · split at h
    · cases h
    · split at h <;> exact short_number h

/-- With so much fuel, values are read that are short. -/
def ReadsShort (fuel : Nat) : Prop :=
  ∀ depth t value rest, Reader.value fuel depth t = .ok (value, rest) → value.Short

/-- With so much fuel, items are read that are short. -/
def ReadsShortItems (fuel : Nat) : Prop :=
  ∀ depth t items rest, elements fuel depth t = .ok (items, rest) → ∀ item ∈ items, item.Short

/-- With so much fuel, members are read that are short. -/
def ReadsShortMembers (fuel : Nat) : Prop :=
  ∀ depth t read all rest, members fuel depth t read = .ok (all, rest) →
    (∀ entry ∈ read, entry.2.Short) → ∀ entry ∈ all, entry.2.Short

variable {fuel : Nat}

theorem readsShort_succ (hitems : ReadsShortItems fuel) (hmembers : ReadsShortMembers fuel) :
    ReadsShort (fuel + 1) := by
  intro depth t value rest h
  cases t with
  | nil => cases h
  | cons c t =>
    unfold Reader.value at h
    dsimp only at h
    split at h
    · obtain ⟨⟨s, behind⟩, -, h⟩ := exists_of_bind_eq_ok h
      cases h
      exact .text s
    split at h
    · split at h
      · cases h
      · cases h
      split at h
      · cases h
        exact .array (List.forall_mem_nil _)
      · obtain ⟨⟨items, behind⟩, hread, h⟩ := exists_of_bind_eq_ok h
        cases h
        exact .array (hitems _ _ _ _ hread)
    split at h
    · split at h
      · cases h
      · cases h
      split at h
      · cases h
        exact .object (List.forall_mem_nil _)
      · obtain ⟨⟨entries, behind⟩, hread, h⟩ := exists_of_bind_eq_ok h
        cases h
        exact .object (hmembers _ _ _ _ _ hread (List.forall_mem_nil _))
    · exact short_scalar h

theorem readsShortItems_succ (hvalue : ReadsShort fuel) (hitems : ReadsShortItems fuel) :
    ReadsShortItems (fuel + 1) := by
  intro depth t items rest h
  rw [elements] at h
  obtain ⟨⟨item, behind⟩, hread, h⟩ := exists_of_bind_eq_ok h
  have hitem := hvalue _ _ _ _ hread
  dsimp only at h
  split at h
  · cases h
  split at h
  · cases h
    exact List.forall_mem_singleton.mpr hitem
  split at h
  · obtain ⟨⟨others, behind⟩, hothers, h⟩ := exists_of_bind_eq_ok h
    cases h
    exact List.forall_mem_cons.mpr ⟨hitem, hitems _ _ _ _ hothers⟩
  · cases h

theorem readsShortMembers_succ (hvalue : ReadsShort fuel) (hmembers : ReadsShortMembers fuel) :
    ReadsShortMembers (fuel + 1) := by
  intro depth t read all rest h hread
  cases t with
  | nil => cases h
  | cons c t =>
    rw [members] at h
    split at h
    · obtain ⟨⟨key, behind⟩, -, h⟩ := exists_of_bind_eq_ok h
      dsimp only at h
      split at h
      · cases h
      split at h
      · obtain ⟨⟨item, behind⟩, hitem, h⟩ := exists_of_bind_eq_ok h
        have hset : ∀ entry ∈ Association.set key item read, entry.2.Short := by
          intro entry hentry
          rcases Association.eq_or_mem_of_mem_set hentry with rfl | hold
          · exact hvalue _ _ item _ hitem
          · exact hread entry hold
        dsimp only at h
        split at h
        · cases h
        split at h
        · cases h
          exact hset
        split at h
        · exact hmembers _ _ _ _ _ h hset
        · cases h
      · cases h
    · cases h

/-- Whatever is read is short. -/
theorem readsShort (fuel : Nat) :
    ReadsShort fuel ∧ ReadsShortItems fuel ∧ ReadsShortMembers fuel := by
  induction fuel with
  | zero =>
    refine ⟨fun depth t value rest h => ?_, fun depth t items rest h => ?_,
      fun depth t read all rest h => ?_⟩
    · simp [Reader.value, broken] at h
    · simp [elements, broken] at h
    · simp [members, broken] at h
  | succ fuel ih =>
    obtain ⟨hvalue, hitems, hmembers⟩ := ih
    exact ⟨readsShort_succ hitems hmembers, readsShortItems_succ hvalue hitems,
      readsShortMembers_succ hvalue hmembers⟩

end Reader

/-- A value that is read is short. -/
theorem short_read {depth : Nat} {t : Text} {value : Json} (h : read depth t = .ok value) :
    value.Short := by
  obtain ⟨⟨value', rest⟩, hvalue, h⟩ := exists_of_bind_eq_ok h
  dsimp only at h
  split at h
  · cases h
    exact (Reader.readsShort _).1 _ _ _ _ hvalue
  · cases h

end Json

namespace Header

/-- The kind and the numbers of the version are short enough to be written. -/
def IsShort (h : Header) : Prop :=
  ∀ n ∈ h.kind :: h.versionParts, n.natAbs < 10 ^ Numeral.digitLimit

theorem natAbs_lt_of_numberOf {value : Json} (hvalue : value.Short) {n : Int}
    (h : numberOf value = .ok n) : n.natAbs < 10 ^ Numeral.digitLimit :=
  hvalue.natAbs_lt (eq_ok_of_mapError_eq_ok h)

theorem isShort_of_ofMembers {members : List (Text × Json)} {header : Header}
    (hmembers : ∀ entry ∈ members, entry.2.Short) (h : ofMembers members = .ok header) :
    header.IsShort := by
  unfold ofMembers at h
  split at h
  · next kind versionParts data1 hkind hversion hdata1 =>
    obtain ⟨kindNumber, hkindNumber, h⟩ := exists_of_bind_eq_ok h
    obtain ⟨items, hitems, h⟩ := exists_of_bind_eq_ok h
    obtain ⟨numbers, hnumbers, h⟩ := exists_of_bind_eq_ok h
    obtain ⟨_, -, h⟩ := exists_of_bind_eq_ok h
    obtain ⟨_, -, h⟩ := exists_of_bind_eq_ok h
    obtain ⟨_, -, h⟩ := exists_of_bind_eq_ok h
    cases h
    have hparts : ∀ item ∈ items, item.Short := by
      unfold itemsOf at hitems
      split at hitems
      · next hsome =>
        cases hitems
        exact (hmembers _ (Association.mem_of_find? hversion)).items hsome
      · cases hitems
    refine List.forall_mem_cons.mpr
      ⟨natAbs_lt_of_numberOf (hmembers _ (Association.mem_of_find? hkind)) hkindNumber, ?_⟩
    exact forall_of_mapM_eq_ok hnumbers fun item hitem n =>
      natAbs_lt_of_numberOf (hparts item hitem)
  · cases h

/-- A header that comes from a file is short. -/
theorem isShort_of_ofFile {depth : Nat} {content : List UInt8} {header : Header}
    (h : ofFile depth content = .ok header) : header.IsShort := by
  unfold ofFile at h
  split at h
  · cases h
  · split at h
    · cases h
    · next members hread =>
      have hshort := Json.short_read hread
      cases hshort with
      | object hmembers => exact isShort_of_ofMembers hmembers (eq_ok_of_mapError_eq_ok h)
    · cases h

end Header

end KotlinNullability
