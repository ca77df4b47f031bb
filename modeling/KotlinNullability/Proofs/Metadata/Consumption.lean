import KotlinNullability.Proofs.Metadata.Kind

/-!
# What decoding consumes

A message is consumed when it is fields up to its last byte, and every message in them that is read
is consumed as well. Decoding reads the fields of each message up to where it ends. That is the end
of its window or an end mark in front of a field, and what stands behind an end mark is dropped
without an error. So a payload that is decoded is consumed exactly when no boundary between fields
that is reached has an end mark.
-/

namespace KotlinNullability

open Wire (Field Marked Schema)

namespace MessageKind

/-- The message is fields up to its end, and so are the messages that are read in it. -/
inductive Consumed : MessageKind → List UInt8 → Prop
  | nil {kind : MessageKind} : Consumed kind []
  | field {kind : MessageKind} {f : Field} {raw rest : List UInt8} (spelled : f.SpelledBy raw)
      (inside : ∀ inner bytes, kind.nested? f.number = some inner → f.value = .delimited bytes →
        Consumed inner bytes)
      (tail : Consumed kind rest) : Consumed kind (raw ++ rest)

/-- In front of the rest there is a boundary between the fields of the message, or between the
fields of a message that is read in it. -/
inductive Reaches (rest : List UInt8) : MessageKind → List UInt8 → Prop
  | here {kind : MessageKind} : Reaches rest kind rest
  | past {kind : MessageKind} {f : Field} {raw bytes : List UInt8} (spelled : f.SpelledBy raw)
      (tail : Reaches rest kind bytes) : Reaches rest kind (raw ++ bytes)
  | within {kind inner : MessageKind} {f : Field} {raw bytes tail : List UInt8}
      (spelled : f.SpelledBy raw) (nested : kind.nested? f.number = some inner)
      (value : f.value = .delimited bytes) (inside : Reaches rest inner bytes) :
      Reaches rest kind (raw ++ tail)

variable {kind : MessageKind} {f : Field} {raw rest bytes : List UInt8}

/-- A message is consumed when its first field and what follows it are. -/
theorem consumed_field_iff (h : f.SpelledBy raw) : kind.Consumed (raw ++ rest) ↔
    (∀ inner bytes, kind.nested? f.number = some inner → f.value = .delimited bytes →
      inner.Consumed bytes) ∧ kind.Consumed rest := by
  constructor
  · intro hconsumed
    generalize hbytes : raw ++ rest = bytes at hconsumed
    cases hconsumed with
    | nil => exact absurd (.inl hbytes) h.not_ends
    | field spelled inside tail =>
      obtain ⟨rfl, -, rfl⟩ := h.unique spelled hbytes
      exact ⟨inside, tail⟩
  · rintro ⟨inside, tail⟩
    exact .field h inside tail

/-- A boundary is in front of the first field, behind it, or in it. -/
theorem reaches_field_iff (h : f.SpelledBy raw) : Reaches rest kind (raw ++ bytes) ↔
    rest = raw ++ bytes ∨ Reaches rest kind bytes ∨
      ∃ inner content, kind.nested? f.number = some inner ∧ f.value = .delimited content ∧
        Reaches rest inner content := by
  constructor
  · intro hreaches
    generalize hall : raw ++ bytes = all at hreaches
    cases hreaches with
    | here => exact .inl rfl
    | past spelled tail =>
      obtain ⟨-, -, rfl⟩ := h.unique spelled hall
      exact .inr (.inl tail)
    | within spelled nested value inside =>
      obtain ⟨rfl, -, -⟩ := h.unique spelled hall
      exact .inr (.inr ⟨_, _, nested, value, inside⟩)
  · rintro (rfl | tail | ⟨inner, content, nested, value, inside⟩)
    · exact .here
    · exact .past h tail
    · exact .within h nested value inside

/-- No boundary of an empty message has an end mark. -/
theorem Reaches.not_marked_of_nil (h : Reaches rest kind []) : ¬ Marked rest := by
  generalize hnil : [] = bytes at h
  cases h with
  | here =>
    rintro ⟨mark, more, ⟨last, rfl, -⟩, hbytes⟩
    rw [← hnil] at hbytes
    cases hbytes
  | past spelled => exact absurd (.inl hnil.symm) spelled.not_ends
  | within spelled => exact absurd (.inl hnil.symm) spelled.not_ends

/-- A message in front of an end mark is not consumed. -/
theorem Consumed.not_marked (h : kind.Consumed bytes) : ¬ Marked bytes := by
  cases h with
  | nil => exact (Reaches.here : Reaches [] kind []).not_marked_of_nil
  | field spelled => exact fun hmarked => spelled.not_ends (.inr hmarked)

/-- A message that is read is consumed when it reaches no end mark, if this is so of the messages in
it. -/
theorem consumed_iff_of_runs {σ : Type} {schema : Schema σ} {state last : σ}
    (shape : kind.Shapes schema)
    (hinner : ∀ number innerKind inner, kind.nested? number = some innerKind →
      schema number = some (.message inner) → ∀ content update,
      inner (.ofCursor ⟨0, content⟩) = .ok update →
      (innerKind.Consumed content ↔ ∀ rest, Reaches rest innerKind content → ¬ Marked rest))
    (h : schema.Runs state bytes last) :
    kind.Consumed bytes ↔ ∀ rest, Reaches rest kind bytes → ¬ Marked rest := by
  induction h with
  | stop hends =>
    obtain rfl | hmarked := hends
    · exact iff_of_true .nil fun rest => Reaches.not_marked_of_nil
    · exact iff_of_false (fun hconsumed => hconsumed.not_marked hmarked)
        fun hreaches => hreaches _ .here hmarked
  | @field state last f raw tail update spelled meaning _ ih =>
    have hinside : ∀ innerKind content, kind.nested? f.number = some innerKind →
        f.value = .delimited content →
        (innerKind.Consumed content ↔ ∀ rest, Reaches rest innerKind content → ¬ Marked rest) := by
      intro innerKind content hkind hvalue
      obtain ⟨inner, hrule⟩ := (shape.nests f.number).mp (by rw [hkind]; rfl)
      rw [hrule, hvalue] at meaning
      exact hinner f.number innerKind inner hkind hrule content update
        (Wire.toOption_eq_some_iff.mp meaning)
    have hfront : ¬ Marked (raw ++ tail) := fun hmarked => spelled.not_ends (.inr hmarked)
    simp only [consumed_field_iff spelled, reaches_field_iff spelled, ih]
    constructor
    · rintro ⟨hconsumed, htail⟩ rest (rfl | hrest | ⟨innerKind, content, hkind, hvalue, hrest⟩)
      · exact hfront
      · exact htail rest hrest
      · exact (hinside innerKind content hkind hvalue).mp
          (hconsumed innerKind content hkind hvalue) rest hrest
    · intro hreaches
      refine ⟨fun innerKind content hkind hvalue => ?_, fun rest hrest => ?_⟩
      · refine (hinside innerKind content hkind hvalue).mpr fun rest hrest => ?_
        exact hreaches rest (.inr (.inr ⟨innerKind, content, hkind, hvalue, hrest⟩))
      · exact hreaches rest (.inr (.inl hrest))

end MessageKind

open MessageKind (Reaches)

/-- A message that is read by a reader of its kind is consumed when it reaches no end mark. -/
theorem Serves.consumed_iff {kind : MessageKind} {α : Type}
    {read : Wire.Reader → Except DecodeError α} (h : Serves kind read) {bytes : List UInt8} {a : α}
    (hread : read (.ofCursor ⟨0, bytes⟩) = .ok a) :
    kind.Consumed bytes ↔ ∀ rest, Reaches rest kind bytes → ¬ Marked rest := by
  induction h generalizing bytes with
  | intro start finish eq shape nested ih =>
    obtain ⟨last, hruns, -⟩ := (read_eq_ok_iff eq shape nested).mp hread
    refine MessageKind.consumed_iff_of_runs shape ?_ hruns
    intro number innerKind inner hkind hinner content update hupdate
    exact ih number innerKind inner hkind hinner hupdate

namespace Metadata

/-- The payload is a string table and a class which are consumed. -/
def Consumed (payload : List UInt8) : Prop :=
  ∃ table message, Splits payload table message ∧ MessageKind.Consumed .stringTable table ∧
    MessageKind.Consumed .classMessage message

/-- In front of the rest there is a boundary between fields of the string table, of the class, or of
a message that is read in them. -/
def Reaches (payload rest : List UInt8) : Prop :=
  ∃ table message, Splits payload table message ∧
    (MessageKind.Reaches rest .stringTable table ∨ MessageKind.Reaches rest .classMessage message)

/-- No tag is found where a window ends or has an end mark, and nowhere else. A payload that is
decoded is consumed when it reaches no end mark, and not otherwise. -/
theorem consumed_iff_not_marked (r : Wire.Reader) {payload : List UInt8} {pool : List Json}
    {functions : List Function} (h : decode payload pool = .ok functions) :
    ((∃ after, r.readTag = .ok none after) ↔ r.cursor.unread = [] ∨ Marked r.cursor.unread) ∧
      (Consumed payload ↔ ∀ rest, Reaches payload rest → ¬ Marked rest) := by
  refine ⟨Wire.Reader.readTag_eq_none_iff, ?_⟩
  obtain ⟨table, message, records, hsplits, htable, hclass⟩ := decode_eq_ok_iff.mp h
  have htableIff := Serves.stringTable.consumed_iff htable
  have hclassIff := (Serves.classMessage _).consumed_iff hclass
  constructor
  · rintro ⟨_, _, hsplits', htableConsumed, hclassConsumed⟩ rest ⟨_, _, hsplits'', hrest⟩
    obtain ⟨rfl, rfl⟩ := hsplits.unique hsplits'
    obtain ⟨rfl, rfl⟩ := hsplits.unique hsplits''
    cases hrest with
    | inl hrest => exact htableIff.mp htableConsumed rest hrest
    | inr hrest => exact hclassIff.mp hclassConsumed rest hrest
  · intro hreaches
    refine ⟨table, message, hsplits, htableIff.mpr ?_, hclassIff.mpr ?_⟩
    · exact fun rest hrest => hreaches rest ⟨table, message, hsplits, .inl hrest⟩
    · exact fun rest hrest => hreaches rest ⟨table, message, hsplits, .inr hrest⟩

/-- A payload with one function, and a reader in front of an end mark. -/
theorem consumed_iff_not_marked_once :
    let mark : List UInt8 := [0xFF, 0xFF, 0xFF, 0xFF, 0xFF, 0xFF, 0xFF, 0xFF, 0xFF, 0x01]
    let payload : List UInt8 := [2, 0x0A, 0, 0x4A, 2, 0x10, 0]
    ((∃ after, Wire.Reader.readTag (.ofBytes mark) = .ok none after) ↔ mark = [] ∨ Marked mark) ∧
      (Consumed payload ↔ ∀ rest, Reaches payload rest → ¬ Marked rest) := by
  intro mark payload
  have hdecode : decode payload [.text "f"] = .ok [⟨0, {}, none, .text "f", none⟩] :=
    Wire.toOption_eq_some_iff.mp (by decide +kernel)
  exact consumed_iff_not_marked (.ofBytes mark) hdecode

/-- Behind an end mark, a function is dropped: no tag is found in front of the mark, although bytes
are left there, and the payload is decoded without an error. -/
theorem not_consumed_behind_mark :
    let rest : List UInt8 := [0xFF, 0xFF, 0xFF, 0xFF, 0xFF, 0xFF, 0xFF, 0xFF, 0xFF, 0x01,
      0x4A, 2, 0x10, 0]
    (∃ after, Wire.Reader.readTag (.ofBytes rest) = .ok none after) ∧
      decode ([2, 0x0A, 0] ++ rest) [.text "f"] = .ok [] ∧ ¬ Consumed ([2, 0x0A, 0] ++ rest) := by
  intro rest
  have hmarked : Marked rest := ⟨[0xFF, 0xFF, 0xFF, 0xFF, 0xFF, 0xFF, 0xFF, 0xFF, 0xFF, 0x01],
    [0x4A, 2, 0x10, 0], ⟨0x01, rfl, by decide, by decide⟩, rfl⟩
  refine ⟨Wire.Reader.readTag_eq_none_iff.mpr (.inr hmarked),
    Wire.toOption_eq_some_iff.mp (by decide +kernel), ?_⟩
  rintro ⟨table, message, hsplits, -, hconsumed⟩
  have hrest : Splits ([2, 0x0A, 0] ++ rest) [0x0A, 0] rest := ⟨[2], by decide, rfl⟩
  obtain ⟨rfl, rfl⟩ := hsplits.unique hrest
  exact hconsumed.not_marked hmarked

end Metadata

end KotlinNullability
