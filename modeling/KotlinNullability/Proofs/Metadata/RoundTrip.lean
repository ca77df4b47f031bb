import KotlinNullability.Proofs.Metadata.Kind
import KotlinNullability.Proofs.Metadata.Names

/-!
# Decoding undoes encoding

The records of a string table and the functions of a class are encoded field by field, in the order
of the field numbers, with the shortest varints. When the indices that the functions use can be
resolved, decoding the payload gives the functions back: each with its indices and flags, with the
name of its compiled method, and with the key that this name and the descriptor make.
-/

namespace KotlinNullability

open Wire (Field Holds Piece messageBytes)

namespace Wire

/-- Every field of the message has one of the numbers, and is an integer or has a length. -/
def Plain (known : List Nat) (message : List Field) : Prop :=
  ∀ f ∈ message, f.number ∈ known ∧ (f.value.wire = .varint ∨ f.value.wire = .delimited)

/-- What has a length in a message is not longer than the message. -/
theorem length_content_le {f : Field} {message : List Field} {content : List UInt8}
    (hf : f ∈ message) (hvalue : f.value = .delimited content) :
    content.length ≤ (messageBytes message).length := by
  induction message with
  | nil => cases hf
  | cons g message ih =>
    rw [messageBytes, List.flatMap_cons, List.length_append]
    cases hf with
    | head =>
      simp only [Field.bytes, hvalue, Value.bytes, List.length_append]
      omega
    | tail _ hf => exact Nat.le_trans (ih hf) (Nat.le_add_left ..)

/-- A message holds its fields when the format has room for what has a length in it. -/
theorem Plain.holds {known : List Nat} {message : List Field} (h : Plain known message)
    (hknown : ∀ number ∈ known, number ≠ 0 ∧ number < 0x20000000)
    (hlength : ∀ f ∈ message, ∀ content, f.value = .delimited content →
      content.length < 0x80000000) : Holds known message message := by
  refine ⟨List.filter_eq_self.mpr fun f hf => by simpa using (h f hf).1, fun f hf => ?_⟩
  obtain ⟨hnumber, hwire⟩ := h f hf
  have hcontent := hlength f hf
  refine ⟨(hknown f.number hnumber).1, (hknown f.number hnumber).2, ?_⟩
  cases hvalue : f.value with
  | varint n => trivial
  | delimited content => exact hcontent content hvalue
  | fixed64 bytes => simp [hvalue, Value.wire] at hwire
  | fixed32 bytes => simp [hvalue, Value.wire] at hwire

/-- A message that is shorter than two to the 31 holds its fields. -/
theorem Plain.holds_of_length {known : List Nat} {message : List Field} (h : Plain known message)
    (hknown : ∀ number ∈ known, number ≠ 0 ∧ number < 0x20000000)
    (hlength : (messageBytes message).length < 0x80000000) : Holds known message message :=
  h.holds hknown fun _ hf _ hvalue => Nat.lt_of_le_of_lt (length_content_le hf hvalue) hlength

end Wire

open Wire (Plain)

/-- A piece of a repeated field is an integer or has a length. -/
theorem Wire.Piece.wire_field (number : Nat) (piece : Piece) :
    (piece.field number).value.wire = .varint ∨ (piece.field number).value.wire = .delimited := by
  cases piece with
  | packed ns => exact .inr rfl
  | single n => exact .inl rfl

theorem Record.Form.plain (r : Form) : Plain [1, 2, 3, 4, 5, 6] r.fields := by
  intro f hf
  simp only [fields, List.mem_append, Option.mem_toList, Option.map_eq_some_iff, List.mem_map] at hf
  obtain ⟨n, -, rfl⟩ | ⟨n, -, rfl⟩ | ⟨n, -, rfl⟩ | ⟨piece, -, rfl⟩ | ⟨piece, -, rfl⟩ |
    ⟨s, -, rfl⟩ := hf
  · simp [Field.ofInt, Wire.Value.wire]
  · simp [Field.ofInt, Wire.Value.wire]
  · simp [Field.ofInt, Wire.Value.wire]
  · simp [piece.wire_field]
  · simp [piece.wire_field]
  · simp [Field.ofText, Wire.Value.wire]

theorem ReturnType.Form.plain (t : Form) : Plain [3, 6] t.fields := by
  intro f hf
  simp only [fields, List.mem_append, Option.mem_toList, Option.map_eq_some_iff] at hf
  obtain ⟨n, -, rfl⟩ | ⟨n, -, rfl⟩ := hf <;> simp [Field.ofInt, Wire.Value.wire]

theorem Signature.Form.plain (s : Form) : Plain [1, 2] s.fields := by
  intro f hf
  simp only [fields, List.mem_append, Option.mem_toList, Option.map_eq_some_iff,
    List.mem_singleton] at hf
  obtain ⟨n, -, rfl⟩ | rfl := hf <;> simp [Field.ofInt, Wire.Value.wire]

theorem Function.Form.plain (f : Form) (returnType signature : Option (List Field)) :
    Plain [2, 3, 100] (f.fields returnType signature) := by
  intro g hg
  simp only [fields, List.mem_cons, List.mem_append, Option.mem_toList,
    Option.map_eq_some_iff] at hg
  obtain rfl | ⟨message, -, rfl⟩ | ⟨message, -, rfl⟩ := hg
  · simp [Field.ofInt, Wire.Value.wire]
  · simp [Field.ofMessage, Wire.Value.wire]
  · simp [Field.ofMessage, Wire.Value.wire]

theorem Wire.plain_ofMessage (number : Nat) (messages : List (List Field)) :
    Plain [number] (messages.map (.ofMessage number)) := by
  intro f hf
  obtain ⟨message, -, rfl⟩ := List.mem_map.mp hf
  exact ⟨List.mem_singleton_self _, .inr rfl⟩

/-- The message of a string table. -/
def StringTable.message (records : List Record.Form) : List Field :=
  (records.map Record.Form.fields).map (.ofMessage 1)

/-- The message of a function. -/
def Function.Form.message (f : Form) : List Field :=
  f.fields (f.returnType.map ReturnType.Form.fields) (f.signature.map Signature.Form.fields)

namespace Metadata

/-- The message of a class. -/
def message (functions : List Function.Form) : List Field :=
  (functions.map Function.Form.message).map (.ofMessage 9)

/-- The payload of a class: its string table with the length in front, and the class. -/
def encode (records : List Record.Form) (functions : List Function.Form) : List UInt8 :=
  Wire.Varint.encode (messageBytes (StringTable.message records)).length ++
    messageBytes (StringTable.message records) ++ messageBytes (message functions)

end Metadata

/-- A string table is written as its message. -/
theorem StringTable.writtenAs_message {records : List Record.Form}
    (hlength : (messageBytes (message records)).length < 0x80000000) :
    WrittenAs records (message records) := by
  refine ⟨records.map Record.Form.fields, ?_,
    (Wire.plain_ofMessage 1 _).holds_of_length (by decide) hlength⟩
  rw [List.forall₂_map_right_iff, List.forall₂_same]
  intro r hr
  have hmem : Field.ofMessage 1 r.fields ∈ message records :=
    List.mem_map_of_mem (List.mem_map_of_mem hr)
  have hle : (messageBytes r.fields).length ≤ (messageBytes (message records)).length :=
    Wire.length_content_le hmem rfl
  exact r.plain.holds_of_length (by decide) (by omega)

/-- What is written in a part that may be missing is written as its message. -/
theorem optionRel_map {α β : Type} {R : α → β → Prop} {g : α → β} {o : Option α}
    (h : ∀ a ∈ o, R a (g a)) : Option.Rel R o (o.map g) := by
  cases o with
  | none => exact .none
  | some a => exact .some (h a rfl)

/-- A function is written as its message. -/
theorem Function.Form.writtenAs_message {f : Form}
    (hlength : (messageBytes f.message).length < 0x80000000) : f.WrittenAs f.message := by
  refine ⟨_, _, optionRel_map fun t ht => ?_, optionRel_map fun s hs => ?_,
    (f.plain _ _).holds_of_length (by decide) hlength⟩
  · have hmem : Field.ofMessage 3 t.fields ∈ f.message := by
      simp [message, fields, Option.mem_def.mp ht]
    have hle : (messageBytes t.fields).length ≤ (messageBytes f.message).length :=
      Wire.length_content_le hmem rfl
    exact t.plain.holds_of_length (by decide) (by omega)
  · have hmem : Field.ofMessage 100 s.fields ∈ f.message := by
      simp [message, fields, Option.mem_def.mp hs]
    have hle : (messageBytes s.fields).length ≤ (messageBytes f.message).length :=
      Wire.length_content_le hmem rfl
    exact s.plain.holds_of_length (by decide) (by omega)

/-- The encoding of a class encodes it. -/
theorem Metadata.encodes_encode {records : List Record.Form} {functions : List Function.Form}
    (htable : (messageBytes (StringTable.message records)).length < 0x80000000)
    (hfunctions : ∀ f ∈ functions, (messageBytes f.message).length < 0x80000000) :
    Encodes records functions (encode records functions) := by
  refine ⟨_, _, StringTable.writtenAs_message htable, ⟨functions.map Function.Form.message, ?_, ?_⟩,
    htable, rfl⟩
  · rw [List.forall₂_map_right_iff, List.forall₂_same]
    exact fun f hf => Function.Form.writtenAs_message (hfunctions f hf)
  · refine (Wire.plain_ofMessage 9 _).holds (by decide) fun field hfield content hvalue => ?_
    obtain ⟨_, hmessage, rfl⟩ := List.mem_map.mp hfield
    obtain ⟨f, hf, rfl⟩ := List.mem_map.mp hmessage
    cases hvalue
    exact hfunctions f hf

/-- The name of an index, empty if the index has none. -/
def StringTable.name (table : StringTable) (index : Int) : Text :=
  match table.resolve index with
  | .ok (.text name) => name
  | _ => []

/-- Over interned strings, a slot starts from a text. -/
theorem StringTable.exists_text_of_base? {records : List Record} {pool : List Text} {r : Record}
    {slot : Nat} {base : Json} (h : base? ⟨records, pool.map .text⟩ r slot = some base) :
    ∃ t, base = .text t := by
  unfold base? at h
  split at h
  · cases h
    exact ⟨_, rfl⟩
  · split at h
    · obtain ⟨t, -, rfl⟩ := Option.map_eq_some_iff.mp h
      exact ⟨t, rfl⟩
    · rw [List.getElem?_map] at h
      obtain ⟨t, -, rfl⟩ := Option.map_eq_some_iff.mp h
      exact ⟨t, rfl⟩

/-- Over interned strings, an index that can be resolved has its name. -/
theorem StringTable.names_name {records : List Record} {pool : List Text} {index : Int}
    {value : Json} (h : resolve ⟨records, pool.map .text⟩ index = .ok value) :
    Names ⟨records, pool.map .text⟩ index (name ⟨records, pool.map .text⟩ index) := by
  obtain ⟨t, rfl⟩ : ∃ t, value = .text t := by
    unfold resolve at h
    split at h
    · cases h
    · split at h
      · cases h
      · next r _ =>
        split at h
        · cases h
        · next base hbase =>
          obtain ⟨t, rfl⟩ := exists_text_of_base? hbase
          rw [Record.apply_text] at h
          cases h
          exact ⟨_, rfl⟩
  rw [Names, name, h]

namespace Function.Form

/-- The string index of the compiled method's name: that of the signature, unless it is absent or
`-1`, else that of the function. -/
def methodIndex (f : Form) : Int :=
  match f.signature.bind (·.name) with
  | some index => if index.toInt = -1 then f.nameIndex.toInt else index.toInt
  | none => f.nameIndex.toInt

/-- The string indices that are resolved for the function. -/
def usedIndices (f : Form) : List Int :=
  (if f.type.className = -1 then [] else [f.type.className]) ++
    f.methodIndex :: (f.signature.map fun s => s.descriptor.toInt).toList

/-- The function that the form stands for. -/
def function (table : StringTable) (f : Form) : Function where
  nameIndex := f.nameIndex.toInt
  returnType := { f.type with
    isUnit := f.type.className ≠ -1 ∧ table.name f.type.className = StringTable.unitName }
  signature := f.signature.map Signature.Form.signature
  name := .text (table.name f.methodIndex)
  key := f.signature.map fun s =>
    .text (table.name f.methodIndex ++ table.name s.descriptor.toInt)

/-- The compiled method of a function that was read has the index of the form. -/
theorem methodName_draft (f : Form) (type : ReturnType) :
    (f.draft type).methodName = f.methodIndex := by
  obtain ⟨nameIndex, _, _ | ⟨_ | name, descriptor⟩⟩ := f <;> rfl

/-- When its indices have names, what is read of a function is resolved by them. -/
theorem resolve_draft {table : StringTable} {f : Form}
    (h : ∀ index ∈ f.usedIndices, table.Names index (table.name index)) (type : ReturnType) :
    (f.draft type).resolve table = .ok { f.function table with returnType := type } := by
  have hmethod : table.Names (f.draft type).methodName (table.name f.methodIndex) := by
    rw [methodName_draft]
    exact h _ (by simp [usedIndices])
  cases hs : f.signature with
  | none =>
    have hsignature : (f.draft type).signature = none := by simp [draft, hs]
    have hname : table.Names (f.draft type).nameIndex (table.name f.methodIndex) := by
      rwa [Draft.methodName, hsignature] at hmethod
    rw [Draft.resolve_of_signature_none hsignature hname]
    simp [function, draft, hs]
  | some s =>
    have hsignature : (f.draft type).signature = some s.signature := by simp [draft, hs]
    have hdescriptor : table.Names s.descriptor.toInt (table.name s.descriptor.toInt) :=
      h _ (by simp [usedIndices, hs])
    rw [Draft.resolve_of_signature_some hsignature hmethod hdescriptor]
    simp [function, draft, hs]

/-- A function is resolved when its indices have names. -/
theorem resolves_function {table : StringTable} {f : Form}
    (h : ∀ index ∈ f.usedIndices, table.Names index (table.name index)) :
    f.Resolves table (f.function table) := by
  have hclass : table.NamesAny f.type.className
      (if f.type.className = -1 then none else some (table.name f.type.className)) := by
    split
    · next hnone => exact hnone
    · next hsome => exact h _ (by simp [usedIndices, hsome])
  refine ⟨_, ?_, resolve_draft h _⟩
  rw [ReturnType.resolve_of_namesAny hclass]
  by_cases hnone : f.type.className = -1 <;> simp [hnone]

end Function.Form

namespace Metadata

/-- Decoding the encoding of a class gives its functions back. -/
theorem decode_encode (records : List Record.Form) (functions : List Function.Form)
    (pool : List Text)
    (htable : (messageBytes (StringTable.message records)).length < 0x80000000)
    (hfunctions : ∀ f ∈ functions, (messageBytes f.message).length < 0x80000000)
    (hindices : ∀ f ∈ functions, ∀ index ∈ f.usedIndices, ∃ value,
      StringTable.resolve ⟨records.map Record.Form.record, pool.map .text⟩ index = .ok value) :
    decode (encode records functions) (pool.map .text) =
      .ok (functions.map
        (Function.Form.function ⟨records.map Record.Form.record, pool.map .text⟩)) := by
  have hresolves : List.Forall₂
      (Function.Form.Resolves ⟨records.map Record.Form.record, pool.map .text⟩) functions
      (functions.map
        (Function.Form.function ⟨records.map Record.Form.record, pool.map .text⟩)) := by
    rw [List.forall₂_map_right_iff, List.forall₂_same]
    intro f hf
    refine Function.Form.resolves_function fun index hindex => ?_
    obtain ⟨value, hvalue⟩ := hindices f hf index hindex
    exact StringTable.names_name hvalue
  rw [decode, (encodes_encode htable hfunctions).decoding_eq hresolves]
  rfl

/-- A function that returns `kotlin/Unit` and is compiled under its own name, and one whose name is
cut out of a literal and has no signature. -/
theorem decode_encode_two :
    let records : List Record.Form :=
      [{ range := some 2 },
        { operation := some 1, substring := [.packed [1, 12]], literal := some "xOuter$Innery" },
        { predefinedIndex := some 2 }]
    let functions : List Function.Form :=
      [{ nameIndex := 0, returnType := some { nullable := some 1, className := some 3 },
         signature := some { name := some (-1), descriptor := 1 } },
        { nameIndex := 2, returnType := some { className := some (-1) } }]
    decode (encode records functions) [.text "run", .text "()V"] =
      .ok [⟨0, ⟨true, 3, true⟩, some ⟨-1, 1⟩, .text "run", some (.text "run()V")⟩,
        ⟨2, ⟨false, -1, false⟩, none, .text "Outer.Inner", none⟩] := by
  intro records functions
  let pool : List Text := ["run", "()V"]
  have hindices : ∀ f ∈ functions, ∀ index ∈ f.usedIndices,
      (StringTable.resolve ⟨records.map Record.Form.record, pool.map .text⟩
        index).toOption.isSome := by decide +kernel
  have h := decode_encode records functions pool (by decide +kernel) (by decide +kernel)
    fun f hf index hindex => by
      obtain ⟨value, hvalue⟩ := Option.isSome_iff_exists.mp (hindices f hf index hindex)
      exact ⟨value, Wire.toOption_eq_some_iff.mp hvalue⟩
  exact h.trans (congrArg Except.ok (by decide +kernel))

end Metadata

end KotlinNullability
