import KotlinNullability.Proofs.Metadata.Kind

/-!
# Fields that a kind of message does not use

A payload says the same with further fields in it, as long as the kind of message that they stand
in does not use their numbers. They may stand at any boundary between fields, in any of the messages
that are read, and hold anything: they are skipped by their wire type. The lengths of the messages
around them grow with them.
-/

namespace KotlinNullability

open Wire (Field Schema)

/-- The second message of the kind is the first one with further fields, which the kind does not
use, or which stand in nested messages that do not use them. -/
inductive MessageKind.Padded : MessageKind → List UInt8 → List UInt8 → Prop
  /-- From here on nothing is added. -/
  | rest {kind : MessageKind} (bytes : List UInt8) : Padded kind bytes bytes
  /-- A field is added. -/
  | added {kind : MessageKind} {f : Field} {raw before after : List UInt8}
      (unknown : f.number ∉ kind.uses) (spelled : f.SpelledBy raw)
      (tail : Padded kind before after) : Padded kind before (raw ++ after)
  /-- A field stays as it is. -/
  | kept {kind : MessageKind} {f : Field} {raw before after : List UInt8}
      (spelled : f.SpelledBy raw) (tail : Padded kind before after) :
      Padded kind (raw ++ before) (raw ++ after)
  /-- Fields are added in a nested message, whose length is written anew. -/
  | nested {kind inner : MessageKind} {bytes bytes' raw raw' before after : List UInt8}
      (number : Nat) (inside : kind.nested? number = some inner)
      (padded : Padded inner bytes bytes')
      (spelled : (Wire.Field.mk number (.delimited bytes)).SpelledBy raw)
      (respelled : (Wire.Field.mk number (.delimited bytes')).SpelledBy raw')
      (tail : Padded kind before after) : Padded kind (raw ++ before) (raw' ++ after)

namespace MessageKind.Padded

variable {kind : MessageKind} {before after : List UInt8}

/-- A field with the shortest varint for its tag can be added. -/
theorem encoded {f : Field} {raw : List UInt8} (hunknown : f.number ∉ kind.uses)
    (hpositive : f.number ≠ 0) (hnumber : f.number < 0x20000000) (hraw : f.value.SpelledBy raw)
    (tail : Padded kind before after) :
    Padded kind before (Wire.Varint.encode f.tag.header ++ raw ++ after) :=
  .added hunknown (.intro (Wire.Tag.spelledBy_encode hpositive hnumber) hraw) tail

/-- A nested message can be written anew with the shortest varints for its tag and its length. -/
theorem reencoded {inner : MessageKind} {number : Nat} {bytes bytes' raw : List UInt8}
    (inside : kind.nested? number = some inner) (padded : Padded inner bytes bytes')
    (spelled : (Wire.Field.mk number (.delimited bytes)).SpelledBy raw)
    (hlength : bytes'.length < 0x80000000) (tail : Padded kind before after) :
    Padded kind (raw ++ before) ((Wire.Field.mk number (.delimited bytes')).bytes ++ after) := by
  have hnumber : number ≠ 0 ∧ number < 0x20000000 := by
    unfold nested? at inside
    split at inside <;> simp_all
  exact .nested number inside padded spelled (.intro
    (Wire.Tag.spelledBy_encode hnumber.1 hnumber.2)
    (.delimited (Wire.Varint.isLength_encode hlength))) tail

/-- What a message leads to, the padded message leads to, when this is so of the messages in it. -/
theorem runs {σ : Type} {schema : Schema σ} (hpadded : Padded kind before after)
    (shape : kind.Shapes schema)
    (hnested : ∀ number innerKind inner, kind.nested? number = some innerKind →
      schema number = some (.message inner) → ∀ bytes bytes' update, Padded innerKind bytes bytes' →
      inner (.ofCursor ⟨0, bytes⟩) = .ok update → inner (.ofCursor ⟨0, bytes'⟩) = .ok update)
    {state last : σ} (h : schema.Runs state before last) : schema.Runs state after last := by
  induction hpadded generalizing state with
  | rest bytes => exact h
  | @added kind f raw before after unknown spelled tail ih =>
    have hrule : schema f.number = none := by simpa [unknown] using shape.knows f.number
    have hmeaning : Wire.FieldRule.meaning (schema f.number) f.value = some id := by
      rw [hrule]
      rfl
    exact .field spelled hmeaning (ih shape hnested h)
  | kept spelled tail ih =>
    obtain ⟨update, hmeaning, hrest⟩ := (Wire.Schema.runs_field_iff spelled).mp h
    exact .field spelled hmeaning (ih shape hnested hrest)
  | @nested kind innerKind bytes bytes' raw raw' before after number inside padded spelled
      respelled tail _ ih =>
    obtain ⟨update, hmeaning, hrest⟩ := (Wire.Schema.runs_field_iff spelled).mp h
    obtain ⟨inner, hrule⟩ := (shape.nests number).mp (by rw [inside]; rfl)
    have hmeaning' : Wire.FieldRule.meaning (schema number) (.delimited bytes') = some update := by
      dsimp only at hmeaning
      rw [hrule] at hmeaning ⊢
      exact Wire.toOption_eq_some_iff.mpr (hnested number innerKind inner inside hrule bytes bytes'
        update padded (Wire.toOption_eq_some_iff.mp hmeaning))
    exact .field respelled hmeaning' (ih shape hnested hrest)

end MessageKind.Padded

/-- A reader that serves a kind reads from a padded message what it reads from the message. -/
theorem Serves.read_padded {kind : MessageKind} {α : Type}
    {read : Wire.Reader → Except DecodeError α} (h : Serves kind read) {before after : List UInt8}
    {a : α} (hpadded : kind.Padded before after) (hread : read (.ofCursor ⟨0, before⟩) = .ok a) :
    read (.ofCursor ⟨0, after⟩) = .ok a := by
  induction h generalizing before after with
  | intro start finish eq shape nested ih =>
    rw [read_eq_ok_iff eq shape nested] at hread ⊢
    obtain ⟨last, hruns, hfinish⟩ := hread
    refine ⟨last, hpadded.runs shape ?_ hruns, hfinish⟩
    intro number innerKind inner hkind hinner bytes bytes' update hinside hupdate
    exact ih number innerKind inner hkind hinner hinside hupdate

namespace Metadata

/-- The second payload is the first one with further fields in its messages. -/
def Padded (payload padded : List UInt8) : Prop :=
  ∃ table table' message message', Splits payload table message ∧ Splits padded table' message' ∧
    MessageKind.Padded .stringTable table table' ∧
    MessageKind.Padded .classMessage message message'

/-- Fields that the messages do not use, wherever they stand, change nothing in what is decoded. -/
theorem decode_padded {payload padded : List UInt8} {pool : List Json} {functions : List Function}
    (h : decode payload pool = .ok functions) (hpadded : Padded payload padded) :
    decode padded pool = .ok functions := by
  obtain ⟨table, message, records, hsplits, htable, hclass⟩ := decode_eq_ok_iff.mp h
  obtain ⟨_, table', _, message', hbefore, hafter, htablePadded, hclassPadded⟩ := hpadded
  obtain ⟨rfl, rfl⟩ := hbefore.unique hsplits
  exact decode_eq_ok_iff.mpr ⟨table', message', records, hafter,
    Serves.stringTable.read_padded htablePadded htable,
    (Serves.classMessage _).read_padded hclassPadded hclass⟩

/-- A function whose name stands in an empty record, with a varint added in the record, four bytes
in the function, and bytes that look like another function in front of the function. -/
theorem decode_padded_thrice :
    decode [2, 0x0A, 0, 0x4A, 2, 0x10, 0] [.text "f"] = .ok [⟨0, {}, none, .text "f", none⟩] ∧
      decode [4, 0x0A, 2, 0x38, 5, 0x0A, 4, 0x4A, 2, 0x10, 0, 0x4A, 7, 0x10, 0, 0x0D, 1, 2, 3, 4]
        [.text "f"] = .ok [⟨0, {}, none, .text "f", none⟩] := by
  have hdecode : decode [2, 0x0A, 0, 0x4A, 2, 0x10, 0] [.text "f"] =
      .ok [⟨0, {}, none, .text "f", none⟩] := Wire.toOption_eq_some_iff.mp (by decide +kernel)
  have hrecord : MessageKind.Padded .record [] [0x38, 5] := by
    have htag : Wire.Varint.encode (Wire.Field.tag ⟨7, .varint 5⟩).header = [0x38] := by
      decide +kernel
    have hvalue : (Wire.Value.varint 5).SpelledBy [5] := .varint (by decide) (by decide)
    have hadded : MessageKind.Padded .record []
        (Wire.Varint.encode (Wire.Field.tag ⟨7, .varint 5⟩).header ++ [5] ++ []) :=
      .encoded (by decide) (by decide) (by decide) hvalue (.rest [])
    rwa [htag] at hadded
  have htable : MessageKind.Padded .stringTable ([0x0A] ++ ([0] ++ []) ++ [])
      [0x0A, 2, 0x38, 5] := by
    have hbytes : (Wire.Field.mk 1 (.delimited [0x38, 5])).bytes = [0x0A, 2, 0x38, 5] := by
      decide +kernel
    have hreencoded : MessageKind.Padded .stringTable ([0x0A] ++ ([0] ++ []) ++ [])
        ((Wire.Field.mk 1 (.delimited [0x38, 5])).bytes ++ []) :=
      .reencoded rfl hrecord (.intro (by decide) (.delimited (by decide))) (by decide) (.rest [])
    rwa [hbytes] at hreencoded
  have hfunction : MessageKind.Padded .function ([0x10] ++ [0] ++ [])
      ([0x10] ++ [0] ++ ([0x0D] ++ [1, 2, 3, 4] ++ [])) :=
    .kept (f := ⟨2, .varint 0⟩) (.intro (by decide) (.varint (by decide) (by decide)))
      (.added (f := ⟨1, .fixed32 [1, 2, 3, 4]⟩) (by decide) (.intro (by decide) (.fixed32 rfl))
        (.rest []))
  have hmessage : MessageKind.Padded .classMessage ([0x4A] ++ ([2] ++ [0x10, 0]) ++ [])
      ([0x0A] ++ ([4] ++ [0x4A, 2, 0x10, 0]) ++
        ([0x4A] ++ ([7] ++ [0x10, 0, 0x0D, 1, 2, 3, 4]) ++ [])) :=
    .added (f := ⟨1, .delimited [0x4A, 2, 0x10, 0]⟩) (by decide)
      (.intro (by decide) (.delimited (by decide)))
      (.nested 9 rfl hfunction (.intro (by decide) (.delimited (by decide)))
        (.intro (by decide) (.delimited (by decide))) (.rest []))
  exact ⟨hdecode, decode_padded hdecode ⟨_, _, _, _, ⟨[2], by decide, rfl⟩, ⟨[4], by decide, rfl⟩,
    htable, hmessage⟩⟩

end Metadata

end KotlinNullability
