import KotlinNullability.Proofs.Metadata.Layout
import KotlinNullability.Proofs.Metadata.RoundTrip

/-!
# What class metadata means

The meaning of a payload can be told in two steps. First its messages are cut into fields, whatever
these mean, and it is checked that they are well formed. Then records, return types, signatures and
functions are read off the lists of fields: of a field that may occur once the last occurrence
counts, a repeated field counts as a whole, and a missing one has its default. Decoding does all of
this in one pass. It succeeds for the payloads whose messages are well formed and whose functions
have names, and gives the functions that are read off.
-/

namespace KotlinNullability

open Wire (Field Schema Value messageOf nestedMessages occurrences)

/-- The record that the fields make. -/
def Record.ofFields (message : List Field) : Record where
  range := (occurrences Value.int? 1 message).getLastD 1
  predefinedIndex := (occurrences Value.int? 2 message).getLastD (-1)
  operation := (occurrences Value.int? 3 message).getLastD 0
  literal := (occurrences Value.content? 6 message).getLast?.map Utf8.decodeLossy
  substring := (occurrences some 4 message).flatMap Value.integers
  replacement := (occurrences some 5 message).flatMap Value.integers

/-- The string table with the records that the fields make. -/
def StringTable.ofFields (message : List Field) (pool : List Text) : StringTable where
  records := (nestedMessages 1 message).map Record.ofFields
  pool := pool.map .text

/-- The string index of the class name in a return type, `-1` if there is none. -/
def ReturnType.classNameIn (message : List Field) : Int :=
  (occurrences Value.int? 6 message).getLastD (-1)

/-- The string indices that a return type needs: that of its class name, if it has one. -/
def ReturnType.neededIn (message : List Field) : List Int :=
  if classNameIn message = -1 then [] else [classNameIn message]

/-- The return type that the fields make. -/
def ReturnType.ofFields (table : StringTable) (message : List Field) : ReturnType where
  nullable := (occurrences Value.int? 3 message).getLastD 0 ≠ 0
  className := classNameIn message
  isUnit := classNameIn message ≠ -1 ∧ table.name (classNameIn message) = StringTable.unitName

/-- The signature that the fields make. -/
def Signature.ofFields (message : List Field) : Signature where
  name := (occurrences Value.int? 1 message).getLastD (-1)
  descriptor := (occurrences Value.int? 2 message).getLastD (-1)

namespace Function

/-- The string index of the name in a function. -/
def nameIndexIn (message : List Field) : Int := (occurrences Value.int? 2 message).getLastD (-1)

/-- The signature in a function. -/
def signatureIn (message : List Field) : Option Signature :=
  (nestedMessages 100 message).getLast?.map Signature.ofFields

/-- The string index of the compiled method's name: that of the signature unless this is `-1` or
there is none, else that of the function. -/
def methodNameIn (message : List Field) : Int :=
  match signatureIn message with
  | some s => if s.name = -1 then nameIndexIn message else s.name
  | none => nameIndexIn message

/-- The string indices that a function needs: those that its return types need, that of the compiled
method's name, and that of its descriptor. -/
def neededIn (message : List Field) : List Int :=
  (nestedMessages 3 message).flatMap ReturnType.neededIn ++
    methodNameIn message :: ((signatureIn message).map Signature.descriptor).toList

/-- The function that the fields make. -/
def ofFields (table : StringTable) (message : List Field) : Function where
  nameIndex := nameIndexIn message
  returnType := ((nestedMessages 3 message).map (ReturnType.ofFields table)).getLastD {}
  signature := signatureIn message
  name := .text (table.name (methodNameIn message))
  key := (signatureIn message).map fun s =>
    .text (table.name (methodNameIn message) ++ table.name s.descriptor)

end Function

/-- Every one of the string indices can be resolved. -/
def StringTable.ResolvesAll (table : StringTable) (indices : List Int) : Prop :=
  ∀ index ∈ indices, ∃ value, table.resolve index = .ok value

/-- The string indices that a message of the kind needs. -/
def MessageKind.neededIn : MessageKind → List Field → List Int
  | returnType, message => ReturnType.neededIn message
  | function, message => Function.neededIn message
  | _, _ => []

section Nested

variable {σ α : Type} {f : Field} {message : List Field}

/-- The messages in the fields with a number are those behind their lengths. -/
theorem Wire.mem_nestedMessages {number : Nat} {m : List Field} :
    m ∈ nestedMessages number message ↔ ∃ f ∈ message, f.number = number ∧
      ∃ content, f.value = .delimited content ∧ m = messageOf content := by
  simp only [nestedMessages, occurrences, List.mem_map, List.mem_filterMap, List.mem_filter,
    decide_eq_true_eq]
  constructor
  · rintro ⟨content, ⟨f, ⟨hf, hnumber⟩, hcontent⟩, rfl⟩
    refine ⟨f, hf, hnumber, content, ?_, rfl⟩
    cases hvalue : f.value <;> simp_all [Value.content?]
  · rintro ⟨f, hf, hnumber, content, hvalue, rfl⟩
    exact ⟨content, ⟨f, ⟨hf, hnumber⟩, by rw [hvalue, Value.content?]⟩, rfl⟩

theorem StringTable.resolvesAll_append {table : StringTable} {indices others : List Int} :
    table.ResolvesAll (indices ++ others) ↔
      table.ResolvesAll indices ∧ table.ResolvesAll others :=
  List.forall_mem_append

/-- What the messages with a number need can be resolved when what each of them needs can. -/
theorem StringTable.resolvesAll_nestedMessages {table : StringTable} {number : Nat}
    {needed : List Field → List Int} :
    table.ResolvesAll ((nestedMessages number message).flatMap needed) ↔
      ∀ f ∈ message, f.number = number → ∀ content, f.value = .delimited content →
        table.ResolvesAll (needed (messageOf content)) := by
  constructor
  · intro h f hf hnumber content hvalue index hindex
    refine h index (List.mem_flatMap.mpr ⟨_, ?_, hindex⟩)
    exact Wire.mem_nestedMessages.mpr ⟨f, hf, hnumber, content, hvalue, rfl⟩
  · intro h index hindex
    obtain ⟨m, hm, hindex⟩ := List.mem_flatMap.mp hindex
    obtain ⟨f, hf, hnumber, content, hvalue, rfl⟩ := Wire.mem_nestedMessages.mp hm
    exact h f hf hnumber content hvalue index hindex

/-- A field with a nested message changes the state by what is read of the message. -/
theorem Wire.Schema.change_message {schema : Schema σ} {read : Wire.Reader → Except DecodeError α}
    {set : α → σ → σ} (hrule : schema f.number = some (.message fun r => (read r).map set))
    {g : List Field → α}
    (hread : ∀ content, f.value = .delimited content →
      read (.ofCursor ⟨0, content⟩) = .ok (g (messageOf content))) (state : σ) :
    schema.change state f =
      (f.value.content?.map fun content => set (g (messageOf content)) state).getD state := by
  rw [change, meaning, hrule]
  cases hvalue : f.value with
  | delimited content =>
    simp [FieldRule.meaning, Value.content?, hread content hvalue, Except.map, Except.toOption]
  | varint n => simp [FieldRule.meaning, Value.content?]
  | fixed64 bytes => simp [FieldRule.meaning, Value.content?]
  | fixed32 bytes => simp [FieldRule.meaning, Value.content?]

/-- A field without a rule changes nothing. -/
theorem Wire.Schema.change_none {schema : Schema σ} (hrule : schema f.number = none) (state : σ) :
    schema.change state f = state := by
  rw [change, meaning, hrule]
  rfl

/-- When a kind of message holds nothing but messages of one number, what is read of these is
collected in order. -/
theorem Wire.Schema.foldl_change_messages {schema : Schema (List α)} {number : Nat}
    {read : Wire.Reader → Except DecodeError α}
    (hrule : schema number = some (.message fun r => (read r).map fun a as => as ++ [a]))
    (hnone : ∀ other, other ≠ number → schema other = none) {g : List Field → α}
    (hread : ∀ f ∈ message, f.number = number → ∀ content, f.value = .delimited content →
      read (.ofCursor ⟨0, content⟩) = .ok (g (messageOf content))) (as : List α) :
    message.foldl schema.change as = as ++ (nestedMessages number message).map g := by
  have hchange : ∀ f ∈ message, ∀ state, schema.change state f = state ++
      if f.number = number then
        (f.value.content?.map fun content => [g (messageOf content)]).getD [] else [] := by
    intro f hf state
    split
    · next hnumber =>
      rw [change_message (hnumber ▸ hrule) (hread f hf hnumber)]
      cases f.value.content? <;> simp
    · next hnumber => rw [change_none (hnone _ hnumber), List.append_nil]
  have hfold : id (message.foldl schema.change as) = id as ++
      (occurrences Value.content? number message).flatMap fun content => [g (messageOf content)] :=
    Wire.foldl_eq_append hchange as
  rw [nestedMessages, List.map_map, List.map_eq_flatMap]
  exact hfold

end Nested

/-! ## Messages without messages in them -/

theorem StringTable.recordSchema_rules (accepts : MessageKind → List UInt8 → Prop) :
    ∀ number, Layout.Rules accepts (recordSchema number) (MessageKind.record.layout? number)
  | 0 => .none
  | 1 => .int _
  | 2 => .int _
  | 3 => .int _
  | 4 => .ints _
  | 5 => .ints _
  | 6 => .text _
  | _ + 7 => .none

theorem ReturnType.schema_rules (accepts : MessageKind → List UInt8 → Prop) :
    ∀ number, Layout.Rules accepts (schema number) (MessageKind.returnType.layout? number)
  | 0 => .none
  | 1 => .none
  | 2 => .none
  | 3 => .int _
  | 4 => .none
  | 5 => .none
  | 6 => .int _
  | _ + 7 => .none

theorem Signature.schema_rules (accepts : MessageKind → List UInt8 → Prop) :
    ∀ number, Layout.Rules accepts (schema number) (MessageKind.signature.layout? number)
  | 0 => .none
  | 1 => .int _
  | 2 => .int _
  | _ + 3 => .none

/-- A field changes the part of a record that belongs to it, if it has the right wire type. -/
theorem StringTable.change_recordSchema {f : Field} (hadmits : ∀ layout,
    MessageKind.record.layout? f.number = some layout → layout.Admits f.value) (r : Record) :
    recordSchema.change r f = {
      range := if f.number = 1 then f.value.int?.getD r.range else r.range
      predefinedIndex :=
        if f.number = 2 then f.value.int?.getD r.predefinedIndex else r.predefinedIndex
      operation := if f.number = 3 then f.value.int?.getD r.operation else r.operation
      literal := if f.number = 6 then
        (f.value.content?.map fun content => some (Utf8.decodeLossy content)).getD r.literal
        else r.literal
      substring := r.substring ++ if f.number = 4 then f.value.integers else []
      replacement := r.replacement ++ if f.number = 5 then f.value.integers else [] } := by
  obtain ⟨number, value⟩ := f
  unfold Schema.change Schema.meaning recordSchema
  dsimp only at hadmits ⊢
  split
  · cases value <;> simp [Wire.FieldRule.meaning, Value.int?]
  · cases value <;> simp [Wire.FieldRule.meaning, Value.int?]
  · cases value <;> simp [Wire.FieldRule.meaning, Value.int?]
  · have hints := Value.ints?_eq_some_iff.mpr ⟨hadmits _ rfl, rfl⟩
    simp [Wire.FieldRule.meaning, hints]
  · have hints := Value.ints?_eq_some_iff.mpr ⟨hadmits _ rfl, rfl⟩
    simp [Wire.FieldRule.meaning, hints]
  · cases value <;> simp [Wire.FieldRule.meaning, Value.content?]
  · simp_all [Wire.FieldRule.meaning]

/-- The fields of a well-formed record make the record that is read off them. -/
theorem Record.foldl_change {message : List Field} (hadmits : ∀ f ∈ message, ∀ layout,
    MessageKind.record.layout? f.number = some layout → layout.Admits f.value) :
    message.foldl StringTable.recordSchema.change {} = ofFields message := by
  have hchange : ∀ f ∈ message, ∀ r, _ :=
    fun f hf r => StringTable.change_recordSchema (hadmits f hf) r
  have hrange : (message.foldl StringTable.recordSchema.change {}).range =
      (ofFields message).range :=
    Wire.foldl_eq_getLastD (fun f hf r => congrArg range (hchange f hf r)) {}
  have hpredefined : (message.foldl StringTable.recordSchema.change {}).predefinedIndex =
      (ofFields message).predefinedIndex :=
    Wire.foldl_eq_getLastD (fun f hf r => congrArg predefinedIndex (hchange f hf r)) {}
  have hoperation : (message.foldl StringTable.recordSchema.change {}).operation =
      (ofFields message).operation :=
    Wire.foldl_eq_getLastD (fun f hf r => congrArg operation (hchange f hf r)) {}
  have hliteral : (message.foldl StringTable.recordSchema.change {}).literal =
      (ofFields message).literal :=
    Wire.foldl_eq_getLast? (fun f hf r => congrArg literal (hchange f hf r)) rfl
  have hsubstring : (message.foldl StringTable.recordSchema.change {}).substring =
      (ofFields message).substring :=
    Wire.foldl_eq_append (fun f hf r => congrArg substring (hchange f hf r)) {}
  have hreplacement : (message.foldl StringTable.recordSchema.change {}).replacement =
      (ofFields message).replacement :=
    Wire.foldl_eq_append (fun f hf r => congrArg replacement (hchange f hf r)) {}
  cases hlast : message.foldl StringTable.recordSchema.change {}
  simp_all

/-- A record is read off the fields of its message, if this is well formed. -/
theorem StringTable.readRecord_eq_ok_iff {bytes : List UInt8} {r : Record} :
    readRecord (.ofCursor ⟨0, bytes⟩) = .ok r ↔
      MessageKind.record.WellFormed bytes ∧ r = Record.ofFields (messageOf bytes) := by
  have hplaceless : recordSchema.Placeless := recordSchema_shape.placeless fun _ => rfl
  rw [readRecord, ← bind_pure (Wire.walk ..).result,
    MessageKind.walk_bind_eq_ok_iff_wellFormed hplaceless (recordSchema_rules _)]
  refine and_congr_right fun hformed => ?_
  rw [Record.foldl_change fun f hf layout hlayout => hformed.admits hf hlayout]
  exact (Except.ok.injEq ..).to_iff.trans eq_comm

/-- A field changes the part of a return type that belongs to it. -/
theorem ReturnType.change_schema (f : Field) (type : ReturnType) :
    schema.change type f = {
      nullable := if f.number = 3 then (f.value.int?.map fun flag => flag != 0).getD type.nullable
        else type.nullable
      className := if f.number = 6 then f.value.int?.getD type.className else type.className
      isUnit := type.isUnit } := by
  obtain ⟨number, value⟩ := f
  unfold Schema.change Schema.meaning schema
  dsimp only
  split
  · cases value <;> simp [Wire.FieldRule.meaning, Value.int?]
  · cases value <;> simp [Wire.FieldRule.meaning, Value.int?]
  · simp_all [Wire.FieldRule.meaning]

/-- The flag and the class name of a return type are read off its fields. -/
theorem ReturnType.foldl_change (table : StringTable) (message : List Field) :
    message.foldl schema.change {} = { ofFields table message with isUnit := false } := by
  have hnullable : (message.foldl schema.change {}).nullable =
      (occurrences (fun value => value.int?.map fun flag => flag != 0) 3 message).getLastD false :=
    Wire.foldl_eq_getLastD (fun f _ type => congrArg nullable (change_schema f type)) {}
  have hclass : (message.foldl schema.change {}).className = classNameIn message :=
    Wire.foldl_eq_getLastD (fun f _ type => congrArg className (change_schema f type)) {}
  have hunit : (message.foldl schema.change {}).isUnit = false :=
    List.foldlRecOn (motive := fun type => type.isUnit = false) message schema.change rfl
      fun type htype f _ => (congrArg isUnit (change_schema f type)).trans htype
  have hflag : (ofFields table message).nullable =
      (occurrences (fun value => value.int?.map fun flag => flag != 0) 3 message).getLastD
        false := by
    rw [Wire.occurrences_map, ofFields, List.getLastD_eq_getLast?, List.getLastD_eq_getLast?,
      List.getLast?_map]
    cases (occurrences Value.int? 3 message).getLast? with
    | none => rfl
    | some flag => exact decide_not ..
  rw [← hflag] at hnullable
  cases hlast : message.foldl schema.change {}
  simp_all [ofFields]

/-! ## Names over interned strings -/

section Names

variable {records : List Record} {pool : List Text}

/-- Over interned strings, a return type is resolved when its class, if it has one, has a name. -/
theorem ReturnType.resolve_eq_ok_iff {type resolved : ReturnType} :
    type.resolve ⟨records, pool.map .text⟩ = .ok resolved ↔
      StringTable.ResolvesAll ⟨records, pool.map .text⟩
        (if type.className = -1 then [] else [type.className]) ∧
      resolved = { type with
        isUnit := type.className ≠ -1 ∧
          StringTable.name ⟨records, pool.map .text⟩ type.className = StringTable.unitName } := by
  by_cases hclass : type.className = -1
  · have hnames : StringTable.NamesAny ⟨records, pool.map .text⟩ type.className none := hclass
    rw [resolve_of_namesAny hnames]
    simp [hclass, StringTable.ResolvesAll, eq_comm]
  · cases hname : StringTable.resolve ⟨records, pool.map .text⟩ type.className with
    | ok value =>
      have hnames : StringTable.NamesAny ⟨records, pool.map .text⟩ type.className (some _) :=
        StringTable.names_name hname
      rw [resolve_of_namesAny hnames]
      simp [hclass, StringTable.ResolvesAll, hname, eq_comm]
    | error e =>
      have hresolve : type.resolve ⟨records, pool.map .text⟩ = .error e := by
        rw [resolve, if_neg hclass, hname]
        rfl
      simp [hresolve, hclass, StringTable.ResolvesAll, hname]

/-- The function that a draft becomes when its indices have names. -/
def Function.Draft.named (table : StringTable) (f : Draft) : Function where
  nameIndex := f.nameIndex
  returnType := f.returnType
  signature := f.signature
  name := .text (table.name f.methodName)
  key := f.signature.map fun s => .text (table.name f.methodName ++ table.name s.descriptor)

/-- The string indices that are resolved behind a function. -/
def Function.Draft.neededIndices (f : Draft) : List Int :=
  f.methodName :: (f.signature.map Signature.descriptor).toList

/-- Over interned strings, a function is resolved when its compiled method has a name and, if it has
a signature, a descriptor. -/
theorem Function.Draft.resolve_eq_ok_iff {f : Draft} {function : Function} :
    f.resolve ⟨records, pool.map .text⟩ = .ok function ↔
      StringTable.ResolvesAll ⟨records, pool.map .text⟩ f.neededIndices ∧
      function = f.named ⟨records, pool.map .text⟩ := by
  have hnamed (hneeded : StringTable.ResolvesAll ⟨records, pool.map .text⟩ f.neededIndices) :
      f.resolve ⟨records, pool.map .text⟩ = .ok (f.named ⟨records, pool.map .text⟩) := by
    obtain ⟨⟨value, hmethod⟩, hdescriptor⟩ := List.forall_mem_cons.mp hneeded
    have hname := StringTable.names_name hmethod
    cases hs : f.signature with
    | none =>
      have hindex : f.methodName = f.nameIndex := by rw [methodName, hs]
      rw [Draft.resolve_of_signature_none hs (hindex ▸ hname), named, hs, hindex]
      rfl
    | some s =>
      obtain ⟨value, hvalue⟩ := hdescriptor s.descriptor (by simp [hs])
      rw [Draft.resolve_of_signature_some hs hname (StringTable.names_name hvalue), named, hs]
      rfl
  constructor
  · intro h
    have hneeded : StringTable.ResolvesAll ⟨records, pool.map .text⟩ f.neededIndices := by
      intro index hindex
      obtain rfl | hindex := List.mem_cons.mp hindex
      · cases hmethod : StringTable.resolve ⟨records, pool.map .text⟩ f.methodName with
        | ok value => exact ⟨value, rfl⟩
        | error e =>
          rw [Draft.resolve, hmethod] at h
          cases h
      · obtain ⟨s, hs, rfl⟩ := Option.map_eq_some_iff.mp (Option.mem_toList.mp hindex)
        cases hdescriptor : StringTable.resolve ⟨records, pool.map .text⟩ s.descriptor with
        | ok value => exact ⟨value, rfl⟩
        | error e =>
          simp only [Draft.resolve, hs, hdescriptor] at h
          cases hmethod : StringTable.resolve ⟨records, pool.map .text⟩ f.methodName <;>
            rw [hmethod] at h <;> cases h
    exact ⟨hneeded, Except.ok.inj (h.symm.trans (hnamed hneeded))⟩
  · rintro ⟨hneeded, rfl⟩
    exact hnamed hneeded

/-- A return type is read off the fields of its message, if this is well formed and the class has a
name. -/
theorem ReturnType.read_eq_ok_iff {bytes : List UInt8} {type : ReturnType} :
    read ⟨records, pool.map .text⟩ (.ofCursor ⟨0, bytes⟩) = .ok type ↔
      MessageKind.returnType.WellFormed bytes ∧
      StringTable.ResolvesAll ⟨records, pool.map .text⟩ (neededIn (messageOf bytes)) ∧
      type = ofFields ⟨records, pool.map .text⟩ (messageOf bytes) := by
  have hplaceless : schema.Placeless := schema_shape.placeless fun _ => rfl
  rw [read, MessageKind.walk_bind_eq_ok_iff_wellFormed hplaceless (schema_rules _),
    resolve_eq_ok_iff, foldl_change ⟨records, pool.map .text⟩]
  rfl

/-- A field changes the part of a signature that belongs to it. -/
theorem Signature.change_schema (f : Field) (s : Signature) :
    schema.change s f = {
      name := if f.number = 1 then f.value.int?.getD s.name else s.name
      descriptor := if f.number = 2 then f.value.int?.getD s.descriptor else s.descriptor } := by
  obtain ⟨number, value⟩ := f
  unfold Schema.change Schema.meaning schema
  dsimp only
  split
  · cases value <;> simp [Wire.FieldRule.meaning, Value.int?]
  · cases value <;> simp [Wire.FieldRule.meaning, Value.int?]
  · simp_all [Wire.FieldRule.meaning]

/-- The fields of a signature make the signature that is read off them. -/
theorem Signature.foldl_change (message : List Field) :
    message.foldl schema.change {} = ofFields message := by
  have hname : (message.foldl schema.change {}).name = (ofFields message).name :=
    Wire.foldl_eq_getLastD (fun f _ s => congrArg name (change_schema f s)) {}
  have hdescriptor : (message.foldl schema.change {}).descriptor = (ofFields message).descriptor :=
    Wire.foldl_eq_getLastD (fun f _ s => congrArg descriptor (change_schema f s)) {}
  cases hlast : message.foldl schema.change {}
  simp_all

/-- A signature is read off the fields of its message, if this is well formed. -/
theorem Signature.read_eq_ok_iff {bytes : List UInt8} {s : Signature} :
    read (.ofCursor ⟨0, bytes⟩) = .ok s ↔
      MessageKind.signature.WellFormed bytes ∧ s = ofFields (messageOf bytes) := by
  have hplaceless : schema.Placeless := schema_shape.placeless fun _ => rfl
  rw [read, ← bind_pure (Wire.walk ..).result,
    MessageKind.walk_bind_eq_ok_iff_wellFormed hplaceless (schema_rules _), foldl_change]
  exact and_congr_right fun _ => (Except.ok.injEq ..).to_iff.trans eq_comm

/-- A message that changes the state by what is read of it is taken when it is read. -/
theorem exists_map_eq_ok_iff {ε α β : Type} {x : Except ε α} {g : α → β} :
    (∃ b, x.map g = .ok b) ↔ ∃ a, x = .ok a := by
  cases x <;> simp [Except.map]

namespace Function

/-- The draft that the fields of a function make. -/
def Draft.ofFields (table : StringTable) (message : List Field) : Draft where
  nameIndex := nameIndexIn message
  returnType := ((nestedMessages 3 message).map (ReturnType.ofFields table)).getLastD {}
  signature := signatureIn message

/-- A field changes the part of a function that belongs to it, when the return types and signatures
in it are read. -/
theorem change_schema {table : StringTable} {f : Field}
    (htype : f.number = 3 → ∀ content, f.value = .delimited content →
      ReturnType.read table (.ofCursor ⟨0, content⟩) =
        .ok (ReturnType.ofFields table (messageOf content)))
    (hsignature : f.number = 100 → ∀ content, f.value = .delimited content →
      Signature.read (.ofCursor ⟨0, content⟩) = .ok (Signature.ofFields (messageOf content)))
    (d : Draft) : (schema table).change d f = {
      nameIndex := if f.number = 2 then f.value.int?.getD d.nameIndex else d.nameIndex
      returnType := if f.number = 3 then
        (f.value.content?.map fun content =>
          ReturnType.ofFields table (messageOf content)).getD d.returnType else d.returnType
      signature := if f.number = 100 then
        (f.value.content?.map fun content =>
          some (Signature.ofFields (messageOf content))).getD d.signature else d.signature } := by
  by_cases hname : f.number = 2
  · rw [Schema.change, Schema.meaning, hname]
    cases f.value <;> simp [schema, Wire.FieldRule.meaning, Value.int?]
  by_cases hthree : f.number = 3
  · have hrule : schema table f.number = some (.message fun r =>
        (ReturnType.read table r).map fun returnType f => { f with returnType }) := by
      rw [hthree]
      rfl
    rw [Schema.change_message hrule (htype hthree), hthree]
    cases f.value.content? <;> simp
  by_cases hhundred : f.number = 100
  · have hrule : schema table f.number = some (.message fun r =>
        (Signature.read r).map fun signature f => { f with signature := some signature }) := by
      rw [hhundred]
      rfl
    rw [Schema.change_message hrule (hsignature hhundred), hhundred]
    cases f.value.content? <;> simp
  · have hrule : schema table f.number = none := by
      simpa [hname, hthree, hhundred] using schema_knows table f.number
    rw [Schema.change_none hrule]
    simp [hname, hthree, hhundred]

/-- The fields of a function make the draft that is read off them, when the return types and
signatures in it are read. -/
theorem foldl_change {table : StringTable} {message : List Field}
    (htype : ∀ f ∈ message, f.number = 3 → ∀ content, f.value = .delimited content →
      ReturnType.read table (.ofCursor ⟨0, content⟩) =
        .ok (ReturnType.ofFields table (messageOf content)))
    (hsignature : ∀ f ∈ message, f.number = 100 → ∀ content, f.value = .delimited content →
      Signature.read (.ofCursor ⟨0, content⟩) = .ok (Signature.ofFields (messageOf content))) :
    message.foldl (schema table).change {} = .ofFields table message := by
  have hchange : ∀ f ∈ message, ∀ d, _ :=
    fun f hf d => change_schema (htype f hf) (hsignature f hf) d
  have hname : (message.foldl (schema table).change {}).nameIndex =
      (Draft.ofFields table message).nameIndex :=
    Wire.foldl_eq_getLastD (fun f hf d => congrArg Draft.nameIndex (hchange f hf d)) {}
  have hreturn : (message.foldl (schema table).change {}).returnType =
      (occurrences (fun value => value.content?.map fun content =>
        ReturnType.ofFields table (messageOf content)) 3 message).getLastD {} :=
    Wire.foldl_eq_getLastD (fun f hf d => congrArg Draft.returnType (hchange f hf d)) {}
  have hcompiled : (message.foldl (schema table).change {}).signature =
      (occurrences Value.content? 100 message).getLast?.map fun content =>
        Signature.ofFields (messageOf content) :=
    Wire.foldl_eq_getLast? (fun f hf d => congrArg Draft.signature (hchange f hf d)) rfl
  have hreturnOf : (Draft.ofFields table message).returnType =
      (message.foldl (schema table).change {}).returnType := by
    rw [hreturn, Wire.occurrences_map, Draft.ofFields, nestedMessages, List.map_map]
    rfl
  have hcompiledOf : (Draft.ofFields table message).signature =
      (message.foldl (schema table).change {}).signature := by
    change signatureIn message = _
    rw [hcompiled, signatureIn, nestedMessages, List.getLast?_map, Option.map_map]
    rfl
  cases hlast : message.foldl (schema table).change {}
  cases hof : Draft.ofFields table message
  simp_all

/-- The messages in a function are its return types and its signatures. -/
theorem layout?_eq_message_iff {number : Nat} {inner : MessageKind} :
    MessageKind.function.layout? number = some (.message inner) ↔
      number = 3 ∧ inner = .returnType ∨ number = 100 ∧ inner = .signature := by
  unfold MessageKind.layout?
  split <;> simp_all [eq_comm]

theorem schema_placeless (table : StringTable) : (schema table).Placeless := by
  intro number inner hrule
  unfold schema at hrule
  split at hrule
  · cases hrule
  · cases hrule
    exact ((Serves.returnType _).map _).placeless
  · cases hrule
    exact (Serves.signature.map _).placeless
  · cases hrule

/-- The rules for functions take the return types whose class has a name, and all signatures. -/
theorem schema_rules (number : Nat) : Layout.Rules
    (fun inner content => inner.WellFormed content ∧
      StringTable.ResolvesAll ⟨records, pool.map .text⟩ (inner.neededIn (messageOf content)))
    (schema ⟨records, pool.map .text⟩ number) (MessageKind.function.layout? number) := by
  unfold schema
  split
  · exact .int _
  · refine .message fun bytes => ?_
    rw [exists_map_eq_ok_iff]
    simp [ReturnType.read_eq_ok_iff, MessageKind.neededIn]
  · refine .message fun bytes => ?_
    rw [exists_map_eq_ok_iff]
    simp [Signature.read_eq_ok_iff, MessageKind.neededIn, StringTable.ResolvesAll]
  · next hname htype hsignature =>
    have hlayout : MessageKind.function.layout? number = none := by
      unfold MessageKind.layout?
      split <;> simp_all
    rw [hlayout]
    exact .none

/-- A function is read off the fields of its message, if this is well formed and the indices that it
needs have names. -/
theorem read_eq_ok_iff {bytes : List UInt8} {f : Function} :
    read ⟨records, pool.map .text⟩ (.ofCursor ⟨0, bytes⟩) = .ok f ↔
      MessageKind.function.WellFormed bytes ∧
      StringTable.ResolvesAll ⟨records, pool.map .text⟩ (neededIn (messageOf bytes)) ∧
      f = ofFields ⟨records, pool.map .text⟩ (messageOf bytes) := by
  have hnested : (∀ f ∈ messageOf bytes, ∀ inner content,
      MessageKind.function.layout? f.number = some (.message inner) →
        f.value = .delimited content →
        StringTable.ResolvesAll ⟨records, pool.map .text⟩ (inner.neededIn (messageOf content))) ↔
      StringTable.ResolvesAll ⟨records, pool.map .text⟩
        ((nestedMessages 3 (messageOf bytes)).flatMap ReturnType.neededIn) := by
    rw [StringTable.resolvesAll_nestedMessages]
    constructor
    · intro h f hf hnumber content
      exact h f hf .returnType content (layout?_eq_message_iff.mpr (.inl ⟨hnumber, rfl⟩))
    · intro h f hf inner content hlayout hvalue
      obtain ⟨hnumber, rfl⟩ | ⟨-, rfl⟩ := layout?_eq_message_iff.mp hlayout
      · exact h f hf hnumber content hvalue
      · intro index hindex
        cases hindex
  have hdraft (hformed : MessageKind.function.WellFormed bytes)
      (htypes : StringTable.ResolvesAll ⟨records, pool.map .text⟩
        ((nestedMessages 3 (messageOf bytes)).flatMap ReturnType.neededIn)) :
      (messageOf bytes).foldl (schema ⟨records, pool.map .text⟩).change {} =
        .ofFields ⟨records, pool.map .text⟩ (messageOf bytes) := by
    rw [StringTable.resolvesAll_nestedMessages] at htypes
    refine foldl_change (fun f hf hnumber content hvalue => ?_) fun f hf hnumber content hvalue => ?_
    · exact ReturnType.read_eq_ok_iff.mpr
        ⟨hformed.nested hf (layout?_eq_message_iff.mpr (.inl ⟨hnumber, rfl⟩)) hvalue,
          htypes f hf hnumber content hvalue, rfl⟩
    · exact Signature.read_eq_ok_iff.mpr
        ⟨hformed.nested hf (layout?_eq_message_iff.mpr (.inr ⟨hnumber, rfl⟩)) hvalue, rfl⟩
  rw [read, MessageKind.walk_bind_eq_ok_iff (schema_placeless _) schema_rules, hnested, neededIn,
    StringTable.resolvesAll_append]
  constructor
  · rintro ⟨hformed, htypes, hf⟩
    rw [hdraft hformed htypes, Draft.resolve_eq_ok_iff] at hf
    exact ⟨hformed, ⟨htypes, hf.1⟩, hf.2⟩
  · rintro ⟨hformed, ⟨htypes, hneeded⟩, rfl⟩
    refine ⟨hformed, htypes, ?_⟩
    rw [hdraft hformed htypes, Draft.resolve_eq_ok_iff]
    exact ⟨hneeded, rfl⟩

end Function

end Names

/-! ## Messages that hold messages of one kind -/

/-- When a kind of message holds nothing but messages of one number, it is read when it is well
formed and what these messages need can be resolved, and then as what is read of them in order. -/
theorem MessageKind.walk_messages_eq_ok_iff {kind inner : MessageKind} {α : Type}
    {schema : Schema (List α)} {number : Nat} {read : Wire.Reader → Except DecodeError α}
    {table : StringTable} {g : List Field → α}
    (hrule : schema number = some (.message fun r => (read r).map fun a as => as ++ [a]))
    (hnone : ∀ other, other ≠ number → schema other = none)
    (hlayout : ∀ other, kind.layout? other = if other = number then some (.message inner) else none)
    (hplaceless : schema.Placeless)
    (hread : ∀ bytes a, read (.ofCursor ⟨0, bytes⟩) = .ok a ↔ inner.WellFormed bytes ∧
      table.ResolvesAll (inner.neededIn (messageOf bytes)) ∧ a = g (messageOf bytes))
    {bytes : List UInt8} {as : List α} :
    (Wire.walk schema [] (.ofCursor ⟨0, bytes⟩)).result = .ok as ↔
      kind.WellFormed bytes ∧
      table.ResolvesAll ((nestedMessages number (messageOf bytes)).flatMap inner.neededIn) ∧
      as = (nestedMessages number (messageOf bytes)).map g := by
  have hrules (other : Nat) : Layout.Rules
      (fun inner content => inner.WellFormed content ∧
        table.ResolvesAll (inner.neededIn (messageOf content)))
      (schema other) (kind.layout? other) := by
    rw [hlayout]
    split
    · next hother =>
      rw [hother, hrule]
      refine .message fun bytes => ?_
      rw [exists_map_eq_ok_iff]
      simp [hread]
    · next hother =>
      rw [hnone other hother]
      exact .none
  have hnested : (∀ f ∈ messageOf bytes, ∀ innerKind content,
      kind.layout? f.number = some (.message innerKind) → f.value = .delimited content →
        table.ResolvesAll (innerKind.neededIn (messageOf content))) ↔
      table.ResolvesAll ((nestedMessages number (messageOf bytes)).flatMap inner.neededIn) := by
    rw [StringTable.resolvesAll_nestedMessages]
    simp only [hlayout]
    grind
  have hfold (hformed : kind.WellFormed bytes) (hneeded : table.ResolvesAll
      ((nestedMessages number (messageOf bytes)).flatMap inner.neededIn)) :
      (messageOf bytes).foldl schema.change [] =
        (nestedMessages number (messageOf bytes)).map g := by
    rw [StringTable.resolvesAll_nestedMessages] at hneeded
    refine Schema.foldl_change_messages hrule hnone (fun f hf hnumber content hvalue => ?_) []
    refine (hread ..).mpr ⟨hformed.nested hf ?_ hvalue, hneeded f hf hnumber content hvalue, rfl⟩
    rw [hlayout, if_pos hnumber]
  rw [← bind_pure (Wire.walk ..).result, walk_bind_eq_ok_iff hplaceless hrules, hnested]
  constructor
  · rintro ⟨hformed, hneeded, has⟩
    rw [hfold hformed hneeded] at has
    exact ⟨hformed, hneeded, (Except.ok.inj has).symm⟩
  · rintro ⟨hformed, hneeded, rfl⟩
    rw [hfold hformed hneeded]
    exact ⟨hformed, hneeded, rfl⟩

theorem StringTable.schema_placeless : schema.Placeless := by
  intro number inner hrule
  unfold schema at hrule
  split at hrule
  · cases hrule
    exact (Serves.record.map _).placeless
  · cases hrule

theorem Metadata.classSchema_placeless (table : StringTable) : (classSchema table).Placeless := by
  intro number inner hrule
  unfold classSchema at hrule
  split at hrule
  · cases hrule
    exact ((Serves.function table).map _).placeless
  · cases hrule

/-- The records of a string table are read off its fields, if it is well formed. -/
theorem StringTable.readRecords_eq_ok_iff {bytes : List UInt8} {records : List Record} :
    readRecords (.ofCursor ⟨0, bytes⟩) = .ok records ↔
      MessageKind.stringTable.WellFormed bytes ∧
      records = (nestedMessages 1 (messageOf bytes)).map Record.ofFields := by
  have hnone : ∀ other, other ≠ 1 → schema other = none := by
    intro other hother
    simpa [hother] using schema_knows other
  have hlayout : ∀ other, MessageKind.stringTable.layout? other =
      if other = 1 then some (.message .record) else none := by
    intro other
    unfold MessageKind.layout?
    split <;> simp_all
  -- A record needs no names, so any table will do.
  have hread : ∀ bytes r, readRecord (.ofCursor ⟨0, bytes⟩) = .ok r ↔
      MessageKind.record.WellFormed bytes ∧
      ResolvesAll ⟨[], []⟩ (MessageKind.record.neededIn (messageOf bytes)) ∧
      r = Record.ofFields (messageOf bytes) := by
    simp [readRecord_eq_ok_iff, ResolvesAll, MessageKind.neededIn]
  rw [readRecords, MessageKind.walk_messages_eq_ok_iff rfl hnone hlayout schema_placeless hread]
  simp [ResolvesAll, MessageKind.neededIn]

namespace Metadata

/-- The functions of a class are read off its fields, if it is well formed and the indices that the
functions need have names. -/
theorem readClass_eq_ok_iff {records : List Record} {pool : List Text} {bytes : List UInt8}
    {functions : List Function} :
    readClass ⟨records, pool.map .text⟩ (.ofCursor ⟨0, bytes⟩) = .ok functions ↔
      MessageKind.classMessage.WellFormed bytes ∧
      StringTable.ResolvesAll ⟨records, pool.map .text⟩
        ((nestedMessages 9 (messageOf bytes)).flatMap Function.neededIn) ∧
      functions = (nestedMessages 9 (messageOf bytes)).map
        (Function.ofFields ⟨records, pool.map .text⟩) := by
  have hnone : ∀ other, other ≠ 9 → classSchema ⟨records, pool.map .text⟩ other = none := by
    intro other hother
    simpa [hother] using classSchema_knows ⟨records, pool.map .text⟩ other
  have hlayout : ∀ other, MessageKind.classMessage.layout? other =
      if other = 9 then some (.message .function) else none := by
    intro other
    unfold MessageKind.layout?
    split <;> simp_all
  rw [readClass, MessageKind.walk_messages_eq_ok_iff rfl hnone hlayout (classSchema_placeless _)
    fun _ _ => Function.read_eq_ok_iff]
  rfl

/-- A payload is decoded when it is a string table and a class, both are well formed, and the
indices that the functions need have names; and then to the functions that are read off the fields
of the class. -/
theorem decode_eq_ok_iff_fields (payload : List UInt8) (pool : List Text)
    (functions : List Function) :
    decode payload (pool.map .text) = .ok functions ↔
      ∃ table message, Splits payload table message ∧
        MessageKind.stringTable.WellFormed table ∧ MessageKind.classMessage.WellFormed message ∧
        (StringTable.ofFields (messageOf table) pool).ResolvesAll
          ((nestedMessages 9 (messageOf message)).flatMap Function.neededIn) ∧
        functions = (nestedMessages 9 (messageOf message)).map
          (Function.ofFields (StringTable.ofFields (messageOf table) pool)) := by
  simp only [decode_eq_ok_iff, StringTable.readRecords_eq_ok_iff, readClass_eq_ok_iff]
  constructor
  · rintro ⟨table, message, _, hsplits, ⟨htable, rfl⟩, hmessage, hneeded, rfl⟩
    exact ⟨table, message, hsplits, htable, hmessage, hneeded, rfl⟩
  · rintro ⟨table, message, hsplits, htable, hmessage, hneeded, rfl⟩
    exact ⟨table, message, _, hsplits, ⟨htable, rfl⟩, hmessage, hneeded, rfl⟩

end Metadata

end KotlinNullability
