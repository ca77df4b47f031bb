import KotlinNullability.Metadata.Class
import KotlinNullability.Proofs.StringTable.Written

/-!
# Class metadata as it is written

A function is written as its name, its return type and its signature, a class as its functions in
order, and the payload of a class as a string table with its length in front, followed by the class.
Fields that mean nothing here may stand anywhere between. Decoding the payload gives the functions
back, each with its names resolved in the table.
-/

namespace KotlinNullability

open Wire (Field FieldRule Holds Reader Schema messageBytes)

/-- A return type as it is written. -/
structure ReturnType.Form where
  nullable : Option Int32 := none
  className : Option Int32 := none
  deriving DecidableEq

namespace ReturnType.Form

/-- The fields of a return type. -/
def fields (t : Form) : List Field :=
  (t.nullable.map fun n => .ofInt 3 n.toInt).toList ++
    (t.className.map fun n => .ofInt 6 n.toInt).toList

/-- The return type before its class name is resolved. -/
def type (t : Form) : ReturnType where
  nullable := t.nullable.elim false (·.toInt != 0)
  className := t.className.elim (-1) Int32.toInt

/-- The message is one that a return type may be written as. -/
def WrittenAs (t : Form) (message : List Field) : Prop := Holds [3, 6] message t.fields

end ReturnType.Form

/-- A signature as it is written. -/
structure Signature.Form where
  name : Option Int32 := none
  descriptor : Int32
  deriving DecidableEq

namespace Signature.Form

/-- The fields of a signature. -/
def fields (s : Form) : List Field :=
  (s.name.map fun n => .ofInt 1 n.toInt).toList ++ [.ofInt 2 s.descriptor.toInt]

/-- The signature that the fields make. -/
def signature (s : Form) : Signature where
  name := s.name.elim (-1) Int32.toInt
  descriptor := s.descriptor.toInt

/-- The message is one that a signature may be written as. -/
def WrittenAs (s : Form) (message : List Field) : Prop := Holds [1, 2] message s.fields

end Signature.Form

/-- A function as it is written. -/
structure Function.Form where
  nameIndex : Int32
  returnType : Option ReturnType.Form := none
  signature : Option Signature.Form := none
  deriving DecidableEq

namespace Function.Form

/-- The fields of a function whose return type and signature are written as these messages. -/
def fields (f : Form) (returnType signature : Option (List Field)) : List Field :=
  .ofInt 2 f.nameIndex.toInt :: ((returnType.map (.ofMessage 3)).toList ++
    (signature.map (.ofMessage 100)).toList)

/-- The message is one that a function may be written as. -/
def WrittenAs (f : Form) (message : List Field) : Prop :=
  ∃ returnType signature, Option.Rel ReturnType.Form.WrittenAs f.returnType returnType ∧
    Option.Rel Signature.Form.WrittenAs f.signature signature ∧
    Holds [2, 3, 100] message (f.fields returnType signature)

/-- The return type before its class name is resolved; a type that is missing is the default one. -/
def type (f : Form) : ReturnType := f.returnType.elim {} ReturnType.Form.type

/-- What is known of a function with this return type before its names are resolved. -/
def draft (f : Form) (type : ReturnType) : Draft :=
  ⟨f.nameIndex.toInt, type, f.signature.map Signature.Form.signature⟩

/-- Over the string table, the form stands for the function. -/
def Resolves (table : StringTable) (f : Form) (function : Function) : Prop :=
  ∃ type, f.type.resolve table = .ok type ∧ (f.draft type).resolve table = .ok function

end Function.Form

namespace Metadata

/-- The functions are the fields of the class message, each as it may be written. -/
def WrittenAs (functions : List Function.Form) (message : List Field) : Prop :=
  ∃ messages, List.Forall₂ Function.Form.WrittenAs functions messages ∧
    Holds [9] message (messages.map (.ofMessage 9))

/-- The payload is one that holds a string table of these records and a class of these functions. -/
def Encodes (records : List Record.Form) (functions : List Function.Form) (payload : List UInt8) :
    Prop :=
  ∃ table message, StringTable.WrittenAs records table ∧ WrittenAs functions message ∧
    (messageBytes table).length < 0x80000000 ∧
    payload = Wire.Varint.encode (messageBytes table).length ++ messageBytes table ++
      messageBytes message

end Metadata

theorem ReturnType.schema_knows : ReturnType.schema.Knows [3, 6] := by
  intro number
  unfold ReturnType.schema
  split <;> simp_all

theorem Signature.schema_knows : Signature.schema.Knows [1, 2] := by
  intro number
  unfold Signature.schema
  split <;> simp_all

theorem Function.schema_knows (table : StringTable) :
    (Function.schema table).Knows [2, 3, 100] := by
  intro number
  unfold Function.schema
  split <;> simp_all

theorem Metadata.classSchema_knows (table : StringTable) : (classSchema table).Knows [9] := by
  intro number
  unfold classSchema
  split <;> simp_all

/-- A return type is read from any message that it may be written as. -/
theorem ReturnType.Form.read_eq {t : Form} {message : List Field} (h : t.WrittenAs message)
    (table : StringTable) (position : Nat) :
    ReturnType.read table (.ofCursor ⟨position, messageBytes message⟩) = t.type.resolve table := by
  have hnullable (s : ReturnType) : ReturnType.schema.Leads
      (t.nullable.map fun n => .ofInt 3 n.toInt).toList s
      { s with nullable := t.nullable.elim s.nullable (·.toInt != 0) } :=
    .option (fun n _ => .int _ 3 n) (by cases t.nullable <;> rfl)
  have hclass (s : ReturnType) : ReturnType.schema.Leads
      (t.className.map fun n => .ofInt 6 n.toInt).toList s
      { s with className := t.className.elim s.className Int32.toInt } :=
    .option (fun n _ => .int _ 6 n) (by cases t.className <;> rfl)
  rw [ReturnType.read, h.walk_eq schema_knows ((hnullable {}).append (hclass _))]
  rfl

/-- A signature is read from any message that it may be written as. -/
theorem Signature.Form.read_eq {s : Form} {message : List Field} (h : s.WrittenAs message)
    (position : Nat) :
    Signature.read (.ofCursor ⟨position, messageBytes message⟩) = .ok s.signature := by
  have hname (state : Signature) : Signature.schema.Leads
      (s.name.map fun n => .ofInt 1 n.toInt).toList state
      { state with name := s.name.elim state.name Int32.toInt } :=
    .option (fun n _ => .int _ 1 n) (by cases s.name <;> rfl)
  have hdescriptor (state : Signature) : Signature.schema.Leads
      [.ofInt 2 s.descriptor.toInt] state { state with descriptor := s.descriptor.toInt } :=
    .cons (.int _ 2 s.descriptor) (.nil _)
  rw [Signature.read, h.walk_eq schema_knows ((hname {}).append (hdescriptor _))]
  rfl

/-- A function whose names can be resolved is read from any message that it may be written as. -/
theorem Function.Form.read_eq {table : StringTable} {f : Form} {function : Function}
    (hresolve : f.Resolves table function) {message : List Field} (h : f.WrittenAs message)
    (position : Nat) :
    Function.read table (.ofCursor ⟨position, messageBytes message⟩) = .ok function := by
  obtain ⟨nameIndex, typeForm, signatureForm⟩ := f
  obtain ⟨typeMessage, signatureMessage, htype, hsignature, hholds⟩ := h
  have hfits {g : Field} : g ∈ fields _ typeMessage signatureMessage → g.Fits := hholds.fits
  have hname : (Function.schema table).Leads [.ofInt 2 nameIndex.toInt] {}
      ⟨nameIndex.toInt, {}, none⟩ :=
    .cons (.int _ 2 nameIndex) (.nil _)
  obtain ⟨type, htypeResolve, hdraft⟩ := hresolve
  have hreturn : (Function.schema table).Leads (typeMessage.map (.ofMessage 3)).toList
      ⟨nameIndex.toInt, {}, none⟩ ⟨nameIndex.toInt, type, none⟩ := by
    cases htype with
    | none =>
      cases htypeResolve
      exact .nil _
    | @some t m ht =>
      have hread : FieldRule.Reads (Function.schema table 3) (.ofMessage 3 m)
          fun f => { f with returnType := type } :=
        .message (hfits (by simp [fields])) fun position => by
          rw [ReturnType.Form.read_eq ht, show t.type.resolve table = .ok type from htypeResolve]
          rfl
      exact .cons hread (.nil _)
  have hcompiled : (Function.schema table).Leads (signatureMessage.map (.ofMessage 100)).toList
      ⟨nameIndex.toInt, type, none⟩
      ⟨nameIndex.toInt, type, signatureForm.map Signature.Form.signature⟩ := by
    cases hsignature with
    | none => exact .nil _
    | @some s m hs =>
      have hread : FieldRule.Reads (Function.schema table 100) (.ofMessage 100 m)
          fun f => { f with signature := some s.signature } :=
        .message (hfits (by simp [fields])) fun position => by
          rw [Signature.Form.read_eq hs]
          rfl
      exact .cons hread (.nil _)
  have hleads := hname.append (hreturn.append hcompiled)
  rw [Function.read, hholds.walk_eq (schema_knows table) hleads]
  exact hdraft

/-- A payload is decoded to the functions that it encodes, when their names can be resolved. -/
theorem Metadata.Encodes.decoding_eq {records : List Record.Form} {forms : List Function.Form}
    {payload : List UInt8} (h : Encodes records forms payload) {pool : List Json}
    {functions : List Function}
    (hresolve : List.Forall₂ (Function.Form.Resolves ⟨records.map Record.Form.record, pool⟩) forms
      functions) :
    decoding payload pool =
      ⟨some (StringTable.size ⟨records.map Record.Form.record, pool⟩), functions, none⟩ := by
  obtain ⟨tableMessage, message, htable, ⟨messages, hforms, hholds⟩, hlength, rfl⟩ := h
  have hfits : ∀ m ∈ messages, (Field.ofMessage 9 m).Fits :=
    fun m hm => hholds.fits (List.mem_map_of_mem hm)
  have hread : List.Forall₂ (fun function m => ∀ position,
      Function.read ⟨records.map Record.Form.record, pool⟩ (.ofCursor ⟨position, messageBytes m⟩) =
        .ok function) functions messages := by
    clear hholds hfits
    induction hresolve generalizing messages with
    | nil =>
      cases hforms
      exact .nil
    | cons hf _ ih =>
      cases hforms with
      | cons hm hms => exact .cons (Function.Form.read_eq hf hm) (ih _ hms)
  have hleads : (classSchema ⟨records.map Record.Form.record, pool⟩).Leads
      (messages.map (.ofMessage 9)) [] ([] ++ functions) :=
    .messages rfl hread hfits []
  obtain ⟨_, ⟨start, rfl⟩, henter⟩ := Wire.Takes.enterTagless hlength 0 (messageBytes message)
  have hrecords : StringTable.read (.ofCursor ⟨start, messageBytes tableMessage⟩) pool =
      .ok ⟨records.map Record.Form.record, pool⟩ := by
    rw [StringTable.read, StringTable.readRecords_eq htable]
    rfl
  have hclass := fun position =>
    hholds.walk_eq (classSchema_knows ⟨records.map Record.Form.record, pool⟩) hleads position
  rw [decoding, Reader.ofBytes, Reader.ofCursor, Wire.Cursor.ofBytes, henter]
  dsimp only
  rw [hrecords]
  dsimp only
  rw [← Reader.ofCursor, hclass, List.nil_append]

end KotlinNullability
