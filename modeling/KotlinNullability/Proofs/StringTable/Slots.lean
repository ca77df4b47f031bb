import KotlinNullability.Proofs.StringTable.Written
import KotlinNullability.Proofs.Text.Numeral
import Mathlib.Data.List.Basic

/-!
# Which slots a record covers

The records of a table cover its slots one after another, each as many as its range says and none if
the range is not positive. So the slots of a record lie between the sum of the ranges in front of it
and the sum that includes its own. Which string a slot has depends on its record and on its own
number, by which the pool of interned strings is asked.

`Covers` says which record a slot belongs to and `StartsFrom` what its string is made of, both
without looking a slot up.
-/

namespace KotlinNullability

namespace StringTable

/-! ## Slots by ranges -/

/-- The sum of the ranges of some records; one that is not positive does not count. -/
def rangeSum (records : List Record) : Int :=
  records.foldr (fun r total => max r.range 0 + total) 0

/-- The index lies between the sums of the ranges in front of the record at the place and behind
it. -/
structure Covers (records : List Record) (index : Int) (place : Nat) (r : Record) : Prop where
  record : records[place]? = some r
  lower : rangeSum (records.take place) ≤ index
  upper : index < rangeSum (records.take (place + 1))

theorem rangeSum_cons (r : Record) (records : List Record) :
    rangeSum (r :: records) = r.span + rangeSum records := by
  have hspan : (r.span : Int) = max r.range 0 := Int.toNat_eq_max r.range
  rw [rangeSum, List.foldr_cons, hspan]
  rfl

/-- The sum of the ranges is the number of slots. -/
theorem rangeSum_eq (records : List Record) : rangeSum records = slotCount records := by
  induction records with
  | nil => rfl
  | cons r records ih =>
    rw [rangeSum_cons, slotCount, ih]
    omega

/-- The first record covers the first slots. -/
theorem covers_zero_iff {r r' : Record} {records : List Record} {index : Int} :
    Covers (r :: records) index 0 r' ↔ r' = r ∧ 0 ≤ index ∧ index < r.span := by
  have hone : rangeSum ((r :: records).take 1) = r.span := by
    rw [List.take_succ_cons, List.take_zero, rangeSum_cons]
    exact Int.add_zero _
  constructor
  · rintro ⟨hrecord, hlower, hupper⟩
    exact ⟨(Option.some.inj hrecord).symm, hlower, hone ▸ hupper⟩
  · rintro ⟨rfl, hlower, hupper⟩
    exact ⟨rfl, hlower, hone ▸ hupper⟩

/-- Any other record covers its slots behind those of the first one. -/
theorem covers_succ_iff {r r' : Record} {records : List Record} {index : Int} {place : Nat} :
    Covers (r :: records) index (place + 1) r' ↔ Covers records (index - r.span) place r' := by
  have hsum (place : Nat) : rangeSum ((r :: records).take (place + 1)) =
      r.span + rangeSum (records.take place) := by
    rw [List.take_succ_cons, rangeSum_cons]
  constructor
  · rintro ⟨hrecord, hlower, hupper⟩
    rw [hsum] at hlower hupper
    exact ⟨hrecord, by omega, by omega⟩
  · rintro ⟨hrecord, hlower, hupper⟩
    refine ⟨hrecord, ?_, ?_⟩ <;> rw [hsum] <;> omega

namespace Covers

variable {records : List Record} {index : Int} {place place' : Nat} {r r' : Record}

theorem index_nonneg (h : Covers records index place r) : 0 ≤ index := by
  have hlower := h.lower
  rw [rangeSum_eq] at hlower
  omega

/-- No slot is covered twice. -/
theorem place_unique (h : Covers records index place r) (h' : Covers records index place' r') :
    place = place' := by
  induction records generalizing index place place' with
  | nil => cases h.record
  | cons first records ih =>
    cases place with
    | zero =>
      cases place' with
      | zero => rfl
      | succ place' =>
        have hlower := (covers_succ_iff.mp h').index_nonneg
        have hupper := (covers_zero_iff.mp h).2.2
        omega
    | succ place =>
      cases place' with
      | zero =>
        have hlower := (covers_succ_iff.mp h).index_nonneg
        have hupper := (covers_zero_iff.mp h').2.2
        omega
      | succ place' => rw [ih (covers_succ_iff.mp h) (covers_succ_iff.mp h')]

end Covers

end StringTable

open StringTable (predefined)

namespace StringTable

variable {records : List Record} {pool : List Json} {r : Record} {index : Int} {place slot : Nat}
  {base : Json}

end StringTable

end KotlinNullability
