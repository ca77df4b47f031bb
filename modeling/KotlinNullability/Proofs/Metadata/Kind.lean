import KotlinNullability.Proofs.Metadata.Written
import KotlinNullability.Proofs.Wire.Meaning

/-!
# The kinds of messages in class metadata

Six kinds of messages make the payload of a class: the string table with its records, and the class
with its functions, their return types and their signatures. Of a kind it matters which field
numbers it uses and which of them hold messages of what kind. A reader serves a kind when it walks
over messages by a schema of that shape, so whatever is proved of all readers that serve a kind
holds of all six.
-/

namespace KotlinNullability

open Wire (Reader Schema walk)
open Wire.Varint (IsLength)

/-- A kind of message in the payload of a class. -/
inductive MessageKind where
  | stringTable
  | record
  | classMessage
  | function
  | returnType
  | signature
  deriving DecidableEq, Repr

namespace MessageKind

/-- The field numbers that messages of the kind use. -/
def uses : MessageKind → List Nat
  | stringTable => [1]
  | record => [1, 2, 3, 4, 5, 6]
  | classMessage => [9]
  | function => [2, 3, 100]
  | returnType => [3, 6]
  | signature => [1, 2]

/-- The kind of the messages in a field of a message of the kind. -/
def nested? : MessageKind → Nat → Option MessageKind
  | stringTable, 1 => some record
  | classMessage, 9 => some function
  | function, 3 => some returnType
  | function, 100 => some signature
  | _, _ => none

end MessageKind

/-- The schema has rules for the fields of the kind, and reads messages where the kind has them. -/
structure MessageKind.Shapes {σ : Type} (kind : MessageKind) (schema : Schema σ) : Prop where
  knows : schema.Knows kind.uses
  nests : ∀ number, (kind.nested? number).isSome ↔ ∃ inner, schema number = some (.message inner)

/-- If messages of the kind hold no messages, there is none whose place could matter. -/
theorem MessageKind.Shapes.placeless {σ : Type} {kind : MessageKind} {schema : Schema σ}
    (h : kind.Shapes schema) (hflat : ∀ number, kind.nested? number = none) : schema.Placeless := by
  intro number read hrule
  have hnested := (h.nests number).mpr ⟨read, hrule⟩
  rw [hflat] at hnested
  cases hnested

theorem StringTable.recordSchema_shape : MessageKind.record.Shapes recordSchema := by
  refine ⟨recordSchema_knows, fun number => ?_⟩
  unfold recordSchema
  split <;> simp_all [MessageKind.nested?]

theorem StringTable.schema_shape : MessageKind.stringTable.Shapes schema := by
  refine ⟨schema_knows, fun number => ?_⟩
  unfold schema
  split <;> simp_all [MessageKind.nested?]

theorem ReturnType.schema_shape : MessageKind.returnType.Shapes schema := by
  refine ⟨schema_knows, fun number => ?_⟩
  unfold schema
  split <;> simp_all [MessageKind.nested?]

theorem Signature.schema_shape : MessageKind.signature.Shapes schema := by
  refine ⟨schema_knows, fun number => ?_⟩
  unfold schema
  split <;> simp_all [MessageKind.nested?]

theorem Function.schema_shape (table : StringTable) :
    MessageKind.function.Shapes (schema table) := by
  refine ⟨schema_knows table, fun number => ?_⟩
  unfold schema
  split <;> simp_all [MessageKind.nested?]

theorem Metadata.classSchema_shape (table : StringTable) :
    MessageKind.classMessage.Shapes (classSchema table) := by
  refine ⟨classSchema_knows table, fun number => ?_⟩
  unfold classSchema
  split <;> simp_all [MessageKind.nested?]

/-- The reader walks over messages of the kind by a schema of its shape, and so do the readers of
the messages in them. -/
inductive Serves : MessageKind → {α : Type} → (Reader → Except DecodeError α) → Prop
  | intro {kind : MessageKind} {σ α : Type} {schema : Schema σ}
      {read : Reader → Except DecodeError α} (start : σ) (finish : σ → Except DecodeError α)
      (eq : ∀ r, read r = (walk schema start r).result >>= finish) (shape : kind.Shapes schema)
      (nested : ∀ number innerKind inner, kind.nested? number = some innerKind →
        schema number = some (.message inner) → Serves innerKind inner) :
      Serves kind read

namespace Serves

section Walks

variable {kind : MessageKind} {σ α β : Type} {schema : Schema σ} {start : σ}
  {finish : σ → Except DecodeError α} {read : Reader → Except DecodeError α}

/-- What is made of a message when it has been read does not matter. -/
theorem map (h : Serves kind read) (g : α → β) : Serves kind fun r => (read r).map g := by
  cases h with
  | intro start finish eq shape nested =>
    refine .intro start (fun s => (finish s).map g) (fun r => ?_) shape nested
    rw [eq]
    cases (walk _ _ r).result <;> rfl

/-- A kind without nested messages is served by any walk of its shape. -/
theorem flat (start : σ) (finish : σ → Except DecodeError α)
    (eq : ∀ r, read r = (walk schema start r).result >>= finish) (shape : kind.Shapes schema)
    (hkind : ∀ number, kind.nested? number = none) : Serves kind read := by
  refine .intro start finish eq shape fun number innerKind inner hnested => ?_
  rw [hkind] at hnested
  cases hnested

/-- When nested messages are read alike wherever they stand, the message around them leads to what
is read of it, wherever it stands. -/
theorem read_eq_ok_iff_of_placeless (eq : ∀ r, read r = (walk schema start r).result >>= finish)
    (shape : kind.Shapes schema)
    (nested : ∀ number innerKind inner, kind.nested? number = some innerKind →
      schema number = some (.message inner) → Wire.Placeless inner)
    {position : Nat} {bytes : List UInt8} {a : α} :
    read (.ofCursor ⟨position, bytes⟩) = .ok a ↔
      ∃ last, schema.Runs start bytes last ∧ finish last = .ok a := by
  rw [eq]
  apply Schema.walk_result_bind_eq_ok_iff
  intro number inner hinner
  obtain ⟨innerKind, hkind⟩ :=
    Option.isSome_iff_exists.mp ((shape.nests number).mpr ⟨inner, hinner⟩)
  exact nested number innerKind inner hkind hinner

/-- A reader that serves a kind reads a message alike wherever it stands. -/
theorem placeless (h : Serves kind read) : Wire.Placeless read := by
  induction h with
  | intro start finish eq shape _ ih =>
    intro position position' bytes a hread
    rwa [read_eq_ok_iff_of_placeless eq shape ih] at hread ⊢

/-- A message leads to what is read of it, wherever it stands. -/
theorem read_eq_ok_iff (eq : ∀ r, read r = (walk schema start r).result >>= finish)
    (shape : kind.Shapes schema)
    (nested : ∀ number innerKind inner, kind.nested? number = some innerKind →
      schema number = some (.message inner) → Serves innerKind inner)
    {position : Nat} {bytes : List UInt8} {a : α} :
    read (.ofCursor ⟨position, bytes⟩) = .ok a ↔
      ∃ last, schema.Runs start bytes last ∧ finish last = .ok a :=
  read_eq_ok_iff_of_placeless eq shape fun number innerKind inner hkind hinner =>
    (nested number innerKind inner hkind hinner).placeless

end Walks

theorem record : Serves .record StringTable.readRecord := by
  refine flat {} .ok (fun r => ?_) StringTable.recordSchema_shape fun _ => rfl
  exact (bind_pure (StringTable.readRecord r)).symm

theorem returnType (table : StringTable) : Serves .returnType (ReturnType.read table) :=
  flat {} (ReturnType.resolve table) (fun _ => rfl) ReturnType.schema_shape fun _ => rfl

theorem signature : Serves .signature Signature.read := by
  refine flat {} .ok (fun r => ?_) Signature.schema_shape fun _ => rfl
  exact (bind_pure (Signature.read r)).symm

theorem stringTable : Serves .stringTable StringTable.readRecords := by
  refine .intro [] .ok (fun r => (bind_pure (StringTable.readRecords r)).symm)
    StringTable.schema_shape fun number innerKind inner hkind hschema => ?_
  unfold StringTable.schema at hschema
  split at hschema
  · cases hkind
    cases hschema
    exact record.map _
  · cases hschema

theorem function (table : StringTable) : Serves .function (Function.read table) := by
  refine .intro {} (Function.Draft.resolve table) (fun _ => rfl) (Function.schema_shape table)
    fun number innerKind inner hkind hschema => ?_
  unfold Function.schema at hschema
  split at hschema
  · cases hschema
  · cases hkind
    cases hschema
    exact (returnType table).map _
  · cases hkind
    cases hschema
    exact signature.map _
  · cases hschema

end Serves

/-- Read the functions of a class. -/
def Metadata.readClass (table : StringTable) (r : Reader) : Except DecodeError (List Function) :=
  (walk (classSchema table) [] r).result

theorem Serves.classMessage (table : StringTable) :
    Serves .classMessage (Metadata.readClass table) := by
  refine .intro [] .ok (fun r => (bind_pure (Metadata.readClass table r)).symm)
    (Metadata.classSchema_shape table) fun number innerKind inner hkind hschema => ?_
  unfold Metadata.classSchema at hschema
  split at hschema
  · cases hkind
    cases hschema
    exact (function table).map _
  · cases hschema

namespace Metadata

/-- The payload is a string table with its length in front, and a class up to the end. -/
def Splits (payload table message : List UInt8) : Prop :=
  ∃ groups, IsLength groups table.length ∧ payload = groups ++ (table ++ message)

/-- A payload is split in one way. -/
theorem Splits.unique {payload table table' message message' : List UInt8}
    (h : Splits payload table message) (h' : Splits payload table' message') :
    table = table' ∧ message = message' := by
  obtain ⟨groups, hlength, hpayload⟩ := h
  obtain ⟨groups', hlength', hpayload'⟩ := h'
  rw [hpayload, ← List.append_assoc, ← List.append_assoc] at hpayload'
  obtain ⟨htable, -, hmessage⟩ := Wire.Parses.delimited.unique ⟨groups, hlength, rfl⟩
    ⟨groups', hlength', rfl⟩ hpayload'
  exact ⟨htable, hmessage⟩

/-- Decoding reads the string table and then the class. -/
theorem decode_eq (payload : List UInt8) (pool : List Json) :
    decode payload pool = match Reader.enterTagless (.ofBytes payload) with
      | .error fault _ => .error (.wire fault)
      | .ok tableReader classReader => StringTable.readRecords tableReader >>= fun records =>
          readClass ⟨records, pool⟩ classReader := by
  unfold decode decoding
  cases Reader.enterTagless (.ofBytes payload) with
  | error fault after => rfl
  | ok tableReader classReader =>
    dsimp only
    rw [StringTable.read]
    cases StringTable.readRecords tableReader <;> rfl

/-- A payload is decoded when its string table and then its class are read. -/
theorem decode_eq_ok_iff {payload : List UInt8} {pool : List Json} {functions : List Function} :
    decode payload pool = .ok functions ↔ ∃ table message records, Splits payload table message ∧
      StringTable.readRecords (.ofCursor ⟨0, table⟩) = .ok records ∧
      readClass ⟨records, pool⟩ (.ofCursor ⟨0, message⟩) = .ok functions := by
  rw [decode_eq]
  constructor
  · intro h
    cases henter : Reader.enterTagless (.ofBytes payload) with
    | error fault after =>
      rw [henter] at h
      cases h
    | ok tableReader classReader =>
      rw [henter] at h
      obtain ⟨groups, table, message, hlength, hpayload, rfl, rfl⟩ :=
        Reader.enterTagless_eq_ok_iff.mp henter
      dsimp only at h
      cases htable : StringTable.readRecords (.ofCursor ⟨0 + groups.length, table⟩) with
      | error e =>
        rw [htable] at h
        cases h
      | ok records =>
        rw [htable] at h
        exact ⟨table, message, records, ⟨groups, hlength, hpayload⟩,
          Serves.stringTable.placeless _ 0 _ _ htable,
          (Serves.classMessage _).placeless _ 0 _ _ h⟩
  · rintro ⟨table, message, records, ⟨groups, hlength, hpayload⟩, htable, hclass⟩
    have henter : Reader.enterTagless (.ofBytes payload) = _ := Reader.enterTagless_eq_ok_iff.mpr
      ⟨groups, table, message, hlength, hpayload, rfl, rfl⟩
    rw [henter]
    dsimp only
    rw [Serves.stringTable.placeless 0 _ _ _ htable]
    exact (Serves.classMessage _).placeless 0 _ _ _ hclass

end Metadata

end KotlinNullability
