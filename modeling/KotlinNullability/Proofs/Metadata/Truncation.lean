import KotlinNullability.Proofs.Metadata.Kind
import KotlinNullability.Proofs.Wire.Truncation

/-!
# Payloads that are cut off

A payload that is cut off is not taken for another one. Either the decoding runs out of bytes, or
the cut is at a boundary between fields of the class, and then the functions in front of it are
decoded as they are in the whole payload.
-/

namespace KotlinNullability

open Wire (FieldRule Reader walk)

namespace Metadata

/-- A field of a class adds a function behind those that are there, or nothing. -/
theorem prefix_of_read {table : StringTable} {number : Nat} {functions next : List Function}
    {r after : Reader}
    (h : FieldRule.read (classSchema table number) functions r = .ok next after) :
    functions <+: next := by
  unfold classSchema at h
  split at h
  · obtain ⟨nested, _, -, hread⟩ := FieldRule.bind_eq_ok h
    dsimp only at hread
    cases hfunction : Function.read table nested with
    | ok f =>
      simp only [hfunction, Except.map] at hread
      cases hread
      exact List.prefix_append ..
    | error e =>
      simp only [hfunction, Except.map] at hread
      cases hread
  · obtain ⟨_, _, -, hpure⟩ := FieldRule.bind_eq_ok h
    cases hpure
    exact List.prefix_rfl

/-- A walk over a class keeps the functions that are there in front of those that it reads. -/
theorem prefix_of_walk (table : StringTable) (functions : List Function) (r : Reader) :
    functions <+: (walk (classSchema table) functions r).state := by
  fun_induction walk (classSchema table) functions r with
  | case1 => exact List.prefix_rfl
  | case2 => exact List.prefix_rfl
  | case3 => exact List.prefix_rfl
  | case4 functions r tag atValue htag next after hread ih => exact (prefix_of_read hread).trans ih

/-- The functions of a class that is cut off are the first ones of the class, unless the bytes run
out. -/
theorem readClass_truncated {table : StringTable} {r : Reader} {more : List UInt8}
    {functions : List Function} (h : readClass table (r.feed more) = .ok functions) :
    (∃ e, e.IsShortage ∧ readClass table r = .error e) ∨
      ∃ shown, readClass table r = .ok shown ∧ shown <+: functions := by
  have hwalk := Wire.Walk.result_eq_ok_iff.mp h
  unfold readClass
  obtain ⟨e, he, herror⟩ | ⟨herror, rest, hrest⟩ | hsame :=
    Wire.walk_feed (classSchema table) [] r more
  · rw [Wire.Walk.result, herror]
    exact .inl ⟨e, he, rfl⟩
  · rw [Wire.Walk.result, herror]
    refine .inr ⟨_, rfl, ?_⟩
    have hprefix := prefix_of_walk table (walk (classSchema table) [] r).state rest
    rwa [← hrest, hwalk] at hprefix
  · rw [← hsame, hwalk]
    exact .inr ⟨functions, rfl, List.prefix_rfl⟩

/-- A start of a payload that is decoded runs out of bytes, or is decoded to the first functions of
the payload. -/
theorem decode_truncated {payload cut : List UInt8} {pool : List Json} {functions : List Function}
    (h : decode payload pool = .ok functions) (hcut : cut <+: payload) :
    (∃ shortage, decode cut pool = .error (.wire (.endOfInput shortage))) ∨
      ∃ shown, decode cut pool = .ok shown ∧ shown <+: functions := by
  obtain ⟨more, rfl⟩ := hcut
  rw [decode_eq] at h ⊢
  cases hcut : Reader.enterTagless (.ofBytes cut) with
  | error fault after =>
    have hsteady := Wire.Steady.enterTagless (.ofBytes cut)
    obtain ⟨shortage, rfl⟩ | hfed := hsteady.of_error hcut more
    · exact .inl ⟨shortage, rfl⟩
    · change Reader.enterTagless (.ofBytes (cut ++ more)) = _ at hfed
      rw [hfed] at h
      cases h
  | ok tableReader classReader =>
    have hfed := (Wire.Steady.enterTagless (.ofBytes cut)).of_ok hcut more
    change Reader.enterTagless (.ofBytes (cut ++ more)) = _ at hfed
    rw [hfed] at h
    dsimp only at h ⊢
    cases htable : StringTable.readRecords tableReader with
    | error e =>
      rw [htable] at h
      cases h
    | ok records =>
      rw [htable] at h
      obtain ⟨_, ⟨shortage, rfl⟩, hclass⟩ | hclass := readClass_truncated h
      · exact .inl ⟨shortage, hclass⟩
      · exact .inr hclass

/-- A payload with two functions that is cut off behind the tag of the second one. -/
theorem decode_truncated_behind_tag :
    decode [2, 0x0A, 0, 0x4A, 2, 0x10, 0, 0x4A, 2, 0x10, 0] [.text "f"] =
        .ok [⟨0, {}, none, .text "f", none⟩, ⟨0, {}, none, .text "f", none⟩] ∧
      ((∃ shortage, decode [2, 0x0A, 0, 0x4A, 2, 0x10, 0, 0x4A] [.text "f"] =
          .error (.wire (.endOfInput shortage))) ∨
        ∃ shown, decode [2, 0x0A, 0, 0x4A, 2, 0x10, 0, 0x4A] [.text "f"] = .ok shown ∧
          shown <+: [⟨0, {}, none, .text "f", none⟩, ⟨0, {}, none, .text "f", none⟩]) := by
  have hdecode : decode [2, 0x0A, 0, 0x4A, 2, 0x10, 0, 0x4A, 2, 0x10, 0] [.text "f"] =
      .ok [⟨0, {}, none, .text "f", none⟩, ⟨0, {}, none, .text "f", none⟩] :=
    Wire.toOption_eq_some_iff.mp (by decide +kernel)
  exact ⟨hdecode, decode_truncated hdecode ⟨[2, 0x10, 0], rfl⟩⟩

end Metadata

end KotlinNullability
