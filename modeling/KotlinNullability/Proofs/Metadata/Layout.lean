import KotlinNullability.Proofs.Metadata.Kind
import KotlinNullability.Proofs.Wire.Tokens

/-!
# Well-formed messages

A message is cut into fields without asking what they mean. It is well formed when every field that
its kind uses has the wire type that belongs to it, and the messages in it are well formed as well.
A reader that walks over messages of a kind succeeds on the well-formed ones whose nested messages
are accepted, and what it reads is told from the list of their fields.
-/

namespace KotlinNullability

open Wire (Cuts Field FieldRule Schema Value Reader)

/-- How the value of a field is laid out. -/
inductive Layout where
  | int
  /-- An occurrence of a repeated integer. -/
  | ints
  | text
  | message (kind : MessageKind)
  deriving DecidableEq, Repr

/-- The value has the wire type that belongs to the layout. A packed run also has to be made of
varints. -/
def Layout.Admits : Layout → Value → Prop
  | int, value => value.wire = .varint
  | ints, value => value.wire = .varint ∨
      ∃ run, value = .delimited run ∧ ∀ piece ∈ Wire.Varint.pieces run, Wire.Varint.Whole piece
  | text, value => value.wire = .delimited
  | message _, value => value.wire = .delimited

namespace MessageKind

/-- The layouts of the fields that messages of the kind use. -/
def layout? : MessageKind → Nat → Option Layout
  | stringTable, 1 => some (.message record)
  | record, 1 => some .int
  | record, 2 => some .int
  | record, 3 => some .int
  | record, 4 => some .ints
  | record, 5 => some .ints
  | record, 6 => some .text
  | classMessage, 9 => some (.message function)
  | function, 2 => some .int
  | function, 3 => some (.message returnType)
  | function, 100 => some (.message signature)
  | returnType, 3 => some .int
  | returnType, 6 => some .int
  | signature, 1 => some .int
  | signature, 2 => some .int
  | _, _ => none

/-- The message can be cut into fields, those that the kind uses have the wire types of their
layouts, and the messages in them are well formed. -/
inductive WellFormed : MessageKind → List UInt8 → Prop
  | intro {kind : MessageKind} {bytes : List UInt8} {message : List Field}
      (cut : Wire.cut bytes = .ok message)
      (typed : ∀ f ∈ message, ∀ layout, kind.layout? f.number = some layout →
        layout.Admits f.value)
      (nested : ∀ f ∈ message, ∀ inner content, kind.layout? f.number = some (.message inner) →
        f.value = .delimited content → WellFormed inner content) :
      WellFormed kind bytes

end MessageKind

namespace Wire

/-- The fields of a message; bytes that cannot be cut have none. -/
def messageOf (bytes : List UInt8) : List Field := (cut bytes).toOption.getD []

/-- The messages in the fields with a number, in order. -/
def nestedMessages (number : Nat) (message : List Field) : List (List Field) :=
  (occurrences Value.content? number message).map messageOf

theorem Cuts.messageOf_eq {bytes : List UInt8} {message : List Field} (h : Cuts bytes message) :
    messageOf bytes = message := by
  rw [messageOf, cut_eq_ok_iff.mpr h]
  rfl

/-- The integers of an occurrence of a repeated integer. -/
def Value.integers : Value → List Int
  | varint n => [signed 32 n]
  | delimited run => (Varint.pieces run).map Varint.int32
  | _ => []

/-- An occurrence of a repeated integer is read when its wire type is right, and as its integers. -/
theorem Value.ints?_eq_some_iff {value : Value} {ns : List Int} :
    value.ints? = some ns ↔ Layout.ints.Admits value ∧ ns = value.integers := by
  cases value with
  | varint n => simp [ints?, Layout.Admits, wire, integers, eq_comm]
  | delimited run =>
    rw [ints?, toOption_eq_some_iff, packedInts_eq_ok_iff]
    simp [Layout.Admits, wire, integers]
  | fixed64 bytes => simp [ints?, Layout.Admits, wire]
  | fixed32 bytes => simp [ints?, Layout.Admits, wire]

end Wire

open Wire (messageOf nestedMessages)

/-- A rule takes the values of a layout, and of nested messages those that are accepted. -/
inductive Layout.Rules {σ : Type} (accepts : MessageKind → List UInt8 → Prop) :
    Option (FieldRule σ) → Option Layout → Prop
  | none : Layout.Rules accepts none none
  | int (set : Int → σ → σ) : Layout.Rules accepts (some (.int set)) (some .int)
  | ints (add : List Int → σ → σ) : Layout.Rules accepts (some (.ints add)) (some .ints)
  | text (set : Text → σ → σ) : Layout.Rules accepts (some (.text set)) (some .text)
  | message {read : Reader → Except DecodeError (σ → σ)} {inner : MessageKind}
      (h : ∀ bytes, (∃ update, read (.ofCursor ⟨0, bytes⟩) = .ok update) ↔ accepts inner bytes) :
      Layout.Rules accepts (some (.message read)) (some (.message inner))

/-- A value means a change by a rule when it is one of the layout and accepted. -/
theorem Layout.Rules.isSome_meaning_iff {σ : Type} {accepts : MessageKind → List UInt8 → Prop}
    {rule : Option (FieldRule σ)} {layout? : Option Layout} (h : Rules accepts rule layout?)
    (value : Value) :
    (FieldRule.meaning rule value).isSome ↔ ∀ layout, layout? = some layout →
      layout.Admits value ∧ ∀ inner content, layout = .message inner →
        value = .delimited content → accepts inner content := by
  cases h with
  | none => simp [FieldRule.meaning]
  | int set => cases value <;> simp [FieldRule.meaning, Value.int?, Admits, Value.wire]
  | ints add =>
    simp only [FieldRule.meaning, Option.isSome_map, Option.isSome_iff_exists,
      Value.ints?_eq_some_iff]
    simp
  | text set => cases value <;> simp [FieldRule.meaning, Value.content?, Admits, Value.wire]
  | message h =>
    cases value with
    | delimited content =>
      have hread := h content
      simp only [← Wire.toOption_eq_some_iff, ← Option.isSome_iff_exists] at hread
      simpa [FieldRule.meaning, Value.content?, Admits, Value.wire] using hread
    | varint n => simp [FieldRule.meaning, Value.content?, Admits, Value.wire]
    | fixed64 bytes => simp [FieldRule.meaning, Value.content?, Admits, Value.wire]
    | fixed32 bytes => simp [FieldRule.meaning, Value.content?, Admits, Value.wire]

namespace MessageKind

variable {kind : MessageKind} {σ α : Type} {schema : Schema σ} {start : σ}
  {finish : σ → Except DecodeError α} {extra : MessageKind → List UInt8 → Prop}

/-- A message that can be cut is well formed when its fields are. -/
theorem wellFormed_iff {bytes : List UInt8} {message : List Field} (h : Cuts bytes message) :
    kind.WellFormed bytes ↔ ∀ f ∈ message, ∀ layout, kind.layout? f.number = some layout →
      layout.Admits f.value ∧ ∀ inner content, layout = .message inner →
        f.value = .delimited content → inner.WellFormed content := by
  have hcut : Wire.cut bytes = .ok message := Wire.cut_eq_ok_iff.mpr h
  constructor
  · rintro ⟨hcut', htyped, hnested⟩ f hf layout hlayout
    obtain rfl : message = _ := Except.ok.inj (hcut.symm.trans hcut')
    refine ⟨htyped f hf layout hlayout, ?_⟩
    rintro inner content rfl hvalue
    exact hnested f hf inner content hlayout hvalue
  · intro hfields
    refine .intro hcut (fun f hf layout hlayout => (hfields f hf layout hlayout).1) ?_
    intro f hf inner content hlayout hvalue
    exact (hfields f hf _ hlayout).2 inner content rfl hvalue

/-- A message of the kind is read when it is well formed, when what else is asked of the messages in
it holds, and when something is made of what its fields lead to. -/
theorem walk_bind_eq_ok_iff (placeless : schema.Placeless)
    (rules : ∀ number, Layout.Rules
      (fun inner content => inner.WellFormed content ∧ extra inner content)
      (schema number) (kind.layout? number)) {bytes : List UInt8} {a : α} :
    ((Wire.walk schema start (.ofCursor ⟨0, bytes⟩)).result >>= finish) = .ok a ↔
      kind.WellFormed bytes ∧
        (∀ f ∈ messageOf bytes, ∀ inner content, kind.layout? f.number = some (.message inner) →
          f.value = .delimited content → extra inner content) ∧
        finish ((messageOf bytes).foldl schema.change start) = .ok a := by
  -- What the rules accept splits into what the fields look like and what else is asked of them.
  have hmeanings (message : List Field) : (∀ f ∈ message, (schema.meaning f).isSome) ↔
      (∀ f ∈ message, ∀ layout, kind.layout? f.number = some layout →
        layout.Admits f.value ∧ ∀ inner content, layout = .message inner →
          f.value = .delimited content → inner.WellFormed content) ∧
      ∀ f ∈ message, ∀ inner content, kind.layout? f.number = some (.message inner) →
        f.value = .delimited content → extra inner content := by
    simp only [Schema.meaning, (rules _).isSome_meaning_iff]
    grind
  rw [Schema.walk_result_bind_eq_ok_iff placeless]
  simp only [Schema.runs_iff]
  constructor
  · rintro ⟨_, ⟨message, hcuts, hmessage, rfl⟩, hfinish⟩
    obtain ⟨htyped, hextra⟩ := (hmeanings message).mp hmessage
    rw [hcuts.messageOf_eq]
    exact ⟨(wellFormed_iff hcuts).mpr htyped, hextra, hfinish⟩
  · rintro ⟨hformed, hextra, hfinish⟩
    obtain ⟨message, hcuts⟩ : ∃ message, Cuts bytes message := by
      obtain ⟨hcut, -, -⟩ := hformed
      exact ⟨_, Wire.cut_eq_ok_iff.mp hcut⟩
    rw [hcuts.messageOf_eq] at hextra hfinish
    exact ⟨_, ⟨message, hcuts, (hmeanings message).mpr ⟨(wellFormed_iff hcuts).mp hformed, hextra⟩,
      rfl⟩, hfinish⟩

/-- A message of the kind is read when it is well formed and something is made of what its fields
lead to, if nothing else is asked of the messages in it. -/
theorem walk_bind_eq_ok_iff_wellFormed (placeless : schema.Placeless)
    (rules : ∀ number, Layout.Rules WellFormed (schema number) (kind.layout? number))
    {bytes : List UInt8} {a : α} :
    ((Wire.walk schema start (.ofCursor ⟨0, bytes⟩)).result >>= finish) = .ok a ↔
      kind.WellFormed bytes ∧ finish ((messageOf bytes).foldl schema.change start) = .ok a := by
  have hrules (number : Nat) : Layout.Rules (fun inner content => inner.WellFormed content ∧ True)
      (schema number) (kind.layout? number) := by
    simpa only [and_true] using rules number
  simpa using walk_bind_eq_ok_iff placeless hrules

/-- The fields that a well-formed message of the kind uses have the wire types of their layouts. -/
theorem WellFormed.admits {bytes : List UInt8} (h : kind.WellFormed bytes) {f : Field}
    (hf : f ∈ messageOf bytes) {layout : Layout} (hlayout : kind.layout? f.number = some layout) :
    layout.Admits f.value := by
  obtain ⟨hcut, htyped, -⟩ := h
  rw [(Wire.cut_eq_ok_iff.mp hcut).messageOf_eq] at hf
  exact htyped f hf layout hlayout

/-- The messages in a well-formed message are well formed. -/
theorem WellFormed.nested {bytes : List UInt8} (h : kind.WellFormed bytes) {f : Field}
    (hf : f ∈ messageOf bytes) {inner : MessageKind} {content : List UInt8}
    (hlayout : kind.layout? f.number = some (.message inner))
    (hvalue : f.value = .delimited content) : inner.WellFormed content := by
  obtain ⟨hcut, -, hnested⟩ := h
  rw [(Wire.cut_eq_ok_iff.mp hcut).messageOf_eq] at hf
  exact hnested f hf inner content hlayout hvalue

end MessageKind

end KotlinNullability
