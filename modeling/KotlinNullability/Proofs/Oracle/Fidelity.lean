import KotlinNullability.Proofs.Metadata.Names
import KotlinNullability.Proofs.Metadata.Written
import KotlinNullability.Proofs.Oracle.Verdict
import KotlinNullability.Proofs.Packing

/-!
# What the oracle answers about a class that was described

A class is described by its functions as they stand in the source: a name, the name and the
descriptor of the compiled method where these are known, and what there is to say about the return
type. When a payload encodes such a class, with names that the string table resolves as they are
meant, and a header holds the payload, then the oracle answers every question about the class as the
description would.
-/

namespace KotlinNullability

open Wire (Holds messageBytes)

/-- A function as it stands in the source. -/
structure Description where
  name : Text
  /-- The name of the compiled method, if it has its own. -/
  jvmName : Option Text := none
  /-- The descriptor of the compiled method, if it is known. -/
  descriptor : Option Text := none
  nullable : Bool := false
  /-- The class that is returned, if it is one. -/
  className : Option Text := none
  deriving DecidableEq

namespace Description

/-- The key of the compiled method: its effective name and its descriptor. -/
def key? (d : Description) : Option Text :=
  d.descriptor.map fun descriptor => d.jvmName.getD d.name ++ descriptor

/-- Whether the return type is nullable or `kotlin/Unit`. -/
def returnsNullableOrUnit (d : Description) : Bool :=
  d.nullable || d.className = some StringTable.unitName

end Description

/-- Over the string table, what is written of a function is what its description says. A function
without a descriptor is written without a signature. -/
structure Function.Form.Describes (table : StringTable) (f : Form) (d : Description) : Prop where
  name : f.signature = none ∨ d.jvmName = none → table.Names f.nameIndex.toInt d.name
  jvmName : ∀ s ∈ f.signature, table.NamesAny s.signature.name d.jvmName
  descriptor : Option.Rel (fun s text => table.Names s.signature.descriptor text) f.signature
    d.descriptor
  nullable : f.type.nullable = d.nullable
  className : table.NamesAny f.type.className d.className

/-- The function that was read answers as the description does. -/
structure Function.AnswersAs (f : Function) (d : Description) : Prop where
  key : f.key = d.key?.map .text
  answer : f.returnsNullableOrUnit = d.returnsNullableOrUnit

namespace Function

variable {table : StringTable}

namespace Form.Describes

variable {f : Form} {d : Description}

/-- The compiled method of a described function with a signature has the effective name. -/
theorem methodName (h : f.Describes table d) {s : Signature.Form} (hs : f.signature = some s)
    (type : ReturnType) : table.Names (f.draft type).methodName (d.jvmName.getD d.name) := by
  have hjvm := h.jvmName s hs
  rw [draft, Draft.methodName, hs]
  cases hname : d.jvmName with
  | none =>
    rw [hname] at hjvm
    have hindex : s.signature.name = -1 := hjvm
    change table.Names (if s.signature.name = -1 then _ else _) _
    rw [if_pos hindex]
    exact h.name (.inr hname)
  | some name =>
    rw [hname] at hjvm
    change table.Names (if s.signature.name = -1 then _ else _) _
    rw [if_neg (StringTable.Names.index_ne hjvm)]
    exact hjvm

/-- A described function can be resolved, and the function that it stands for answers as
described. -/
theorem resolves (h : f.Describes table d) :
    ∃ function, f.Resolves table function ∧ function.AnswersAs d := by
  obtain ⟨type, htype, hanswer⟩ : ∃ type, f.type.resolve table = .ok type ∧
      (type.nullable || type.isUnit) = d.returnsNullableOrUnit := by
    refine ⟨_, ReturnType.resolve_of_namesAny h.className, ?_⟩
    rw [Description.returnsNullableOrUnit, ← h.nullable]
  have hrel := h.descriptor
  generalize hs : f.signature = signature, hd : d.descriptor = descriptor at hrel
  cases hrel with
  | none =>
    have hdraft : (f.draft type).signature = none := by rw [draft, hs, Option.map_none]
    have hkey : d.key? = none := by rw [Description.key?, hd, Option.map_none]
    refine ⟨_, ⟨type, htype, Draft.resolve_of_signature_none hdraft (h.name (.inl hs))⟩, ?_,
      hanswer⟩
    rw [hkey, Option.map_none]
  | @some s descriptor hdescriptor =>
    have hdraft : (f.draft type).signature = some s.signature := by rw [draft, hs, Option.map_some]
    have hkey : d.key? = some (d.jvmName.getD d.name ++ descriptor) := by
      rw [Description.key?, hd, Option.map_some]
    refine ⟨_, ⟨type, htype, Draft.resolve_of_signature_some hdraft (h.methodName hs type)
      hdescriptor⟩, ?_, hanswer⟩
    rw [hkey, Option.map_some]

end Form.Describes

end Function

/-- Described functions can be resolved in order. -/
theorem Function.Form.Describes.resolves_all {table : StringTable} {forms : List Form}
    {descriptions : List Description}
    (h : List.Forall₂ (Function.Form.Describes table) forms descriptions) :
    ∃ functions, List.Forall₂ (Function.Form.Resolves table) forms functions ∧
      List.Forall₂ Function.AnswersAs functions descriptions := by
  induction h with
  | nil => exact ⟨[], .nil, .nil⟩
  | cons hf _ ih =>
    obtain ⟨function, hresolves, hanswers⟩ := hf.resolves
    obtain ⟨functions, hall, hallAnswers⟩ := ih
    exact ⟨function :: functions, .cons hresolves hall, .cons hanswers hallAnswers⟩

/-- The functions with a key correspond to the descriptions with that key. -/
theorem Function.AnswersAs.filter {functions : List Function} {descriptions : List Description}
    (h : List.Forall₂ Function.AnswersAs functions descriptions) (key : Text) :
    List.Forall₂ Function.AnswersAs (functions.filter fun f => f.key = some (.text key))
      (descriptions.filter fun d => d.key? = some key) := by
  refine List.rel_filter (fun f d hfd => ?_) h
  have hkey : f.key = some (.text key) ↔ d.key? = some key := by
    rw [hfd.key, Option.map_eq_some_iff]
    simp
  simpa using hkey

/-- A header with strings that hold a payload has this payload. -/
theorem Header.payload_of_packs {header : Header} {texts : List Text} {payload : List UInt8}
    (hdata : header.data1 = texts.map .text) (hpacks : Packing.Packs payload texts) :
    header.payload = .ok payload := by
  rw [Header.payload_of_texts hdata, Packing.unpack_of_packs hpacks]

/-- Strings that hold a payload are not missing. -/
theorem Packing.Packs.ne_nil {payload : List UInt8} {texts : List Text} (h : Packs payload texts) :
    texts ≠ [] := by
  rintro rfl
  rcases h.2 with h | h <;> cases h

/-- A payload that encodes a class is not empty. -/
theorem Metadata.Encodes.ne_nil {records : List Record.Form} {forms : List Function.Form}
    {payload : List UInt8} (h : Encodes records forms payload) : payload ≠ [] := by
  obtain ⟨table, message, -, -, -, rfl⟩ := h
  simp [Wire.Varint.encode_ne_nil]

section Described

variable {records : List Record.Form} {forms : List Function.Form}
  {descriptions : List Description} {payload : List UInt8} {texts : List Text} {header : Header}
  {version : Version}

/-- The metadata of a class that was described is decoded to functions that answer as described. -/
theorem Attempt.ofData_of_describes {baseline : Baseline}
    (hencodes : Metadata.Encodes records forms payload)
    (hdescribes : List.Forall₂
      (Function.Form.Describes ⟨records.map Record.Form.record, header.data2⟩) forms descriptions)
    (hpacks : Packing.Packs payload texts) (hdata : header.data1 = texts.map .text)
    (hkind : header.kind = Header.classKind) (hversion : header.version? = some version)
    (hcompatible : version.isCompatible baseline = true) (key : Text) :
    ∃ functions, (Attempt.ofData key baseline (.header header)).result = .ok functions ∧
      List.Forall₂ Function.AnswersAs functions descriptions := by
  obtain ⟨functions, hresolves, hanswers⟩ := Function.Form.Describes.resolves_all hdescribes
  refine ⟨functions, ?_, hanswers⟩
  have hgate : Attempt.ofData key baseline (.header header) = Attempt.ofHeader key header := by
    rw [Attempt.ofData, hversion]
    simp [Attempt.gate, hcompatible, hkind]
  have hstrings : header.data1.isEmpty = false := by
    rw [hdata, List.isEmpty_map]
    exact List.isEmpty_eq_false_iff.mpr hpacks.ne_nil
  have hdecoding := hencodes.decoding_eq hresolves
  have hunpacked : (Attempt.ofHeader key header).result =
      (Attempt.ofPayload payload header.data2).result := by
    rw [Attempt.ofHeader, hstrings, Header.payload_of_packs hdata hpacks]
    cases hpayload : payload with
    | nil => exact absurd hpayload hencodes.ne_nil
    | cons b bytes => rfl
  rw [hgate, hunpacked, Attempt.ofPayload, hdecoding]

/-- A question about a class that was described, the first one about it, is answered as described:
by the only function that has the key of the method, and with an error if there is none or if there
are several. -/
theorem Oracle.isReturnTypeNullable_of_describes (o : Oracle) {cache : MetadataCache}
    {declaringType : Text}
    (hencodes : Metadata.Encodes records forms payload)
    (hdescribes : List.Forall₂
      (Function.Form.Describes ⟨records.map Record.Form.record, header.data2⟩) forms descriptions)
    (hpacks : Packing.Packs payload texts) (hdata : header.data1 = texts.map .text)
    (hkind : header.kind = Header.classKind) (hversion : header.version? = some version)
    (hcompatible : version.isCompatible o.baseline = true)
    (huncached : cache.find? declaringType = none) (method : Jvm.Method) :
    let result := (o.isReturnTypeNullable cache declaringType (some header) method).result
    let matching := descriptions.filter fun d => d.key? = some method.key
    (∀ d, matching = [d] → result = .ok d.returnsNullableOrUnit) ∧
      (matching = [] → result = .error (.metadata (.unmatched (.absent method.key)))) ∧
      (2 ≤ matching.length →
        result = .error (.metadata (.unmatched (.ambiguous method.key matching.length)))) := by
  intro result matching
  obtain ⟨functions, hload, hanswers⟩ := Attempt.ofData_of_describes hencodes hdescribes hpacks
    hdata hkind hversion hcompatible declaringType
  have hresult : result = ((Function.find functions method.key).map
      Function.returnsNullableOrUnit).mapError (.metadata ∘ .unmatched) := by
    change (Oracle.answer _ method).result = _
    rw [Oracle.answer, Oracle.load_of_find?_none o huncached, hload]
    dsimp only
    cases Function.find functions method.key <;> rfl
  have hmatching : List.Forall₂ Function.AnswersAs _ matching :=
    Function.AnswersAs.filter hanswers method.key
  rw [Function.find] at hresult
  generalize functions.filter (fun f => f.key = some (.text method.key)) = candidates
    at hresult hmatching
  have hlength : candidates.length = matching.length := hmatching.length_eq
  refine ⟨fun d hone => ?_, fun hnone => ?_, fun hmany => ?_⟩
  · rw [hone] at hmatching
    obtain ⟨f, _, hf, hnil, rfl⟩ := List.forall₂_cons_right_iff.mp hmatching
    cases hnil
    rw [hresult, ← hf.answer]
    rfl
  · rw [hnone] at hmatching
    cases hmatching
    exact hresult
  · cases candidates with
    | nil => simp [← hlength] at hmany
    | cons f rest =>
      cases rest with
      | nil => simp [← hlength] at hmany
      | cons g rest => rw [hresult, ← hlength]; rfl

end Described

/-- A class whose only function returns a nullable value, under a name that is not the compiled
one. -/
theorem Oracle.isReturnTypeNullable_renamed :
    let table : List Wire.Field := [.ofMessage 1 [.ofInt 1 3]]
    let message : List Wire.Field :=
      [.ofMessage 9
        [.ofInt 2 0, .ofMessage 3 [.ofInt 3 1], .ofMessage 100 [.ofInt 1 1, .ofInt 2 2]]]
    let payload := Wire.Varint.encode (messageBytes table).length ++ messageBytes table ++
      messageBytes message
    let packed := Packing.sevenBitMark :: Packing.packGroups payload
    let header : Header :=
      { kind := 1, versionParts := [2, 0], data1 := [.text packed],
        data2 := [.text "all", .text "fetchAll", .text "()V"] }
    (Oracle.isReturnTypeNullable ⟨⟨2, 0, 0⟩⟩ {} "com.example.Service" (some header)
      { name := "fetchAll" }).result = .ok true := by
  intro table message payload packed header
  have hencodes : Metadata.Encodes [{ range := some 3 }]
      [{ nameIndex := 0, returnType := some { nullable := some 1 },
         signature := some { name := some 1, descriptor := 2 } }] payload :=
    ⟨table, message, ⟨[[.ofInt 1 3]], .cons ⟨rfl, by decide +kernel⟩ .nil, rfl, by decide +kernel⟩,
      ⟨_, .cons ⟨some [.ofInt 3 1], some [.ofInt 1 1, .ofInt 2 2], .some ⟨rfl, by decide +kernel⟩,
        .some ⟨rfl, by decide +kernel⟩, rfl, by decide +kernel⟩ .nil, rfl, by decide +kernel⟩,
      by decide +kernel, rfl⟩
  have hdescribes : List.Forall₂
      (Function.Form.Describes ⟨[{ range := some 3 }].map Record.Form.record, header.data2⟩)
      [{ nameIndex := 0, returnType := some { nullable := some 1 },
         signature := some { name := some 1, descriptor := 2 } }]
      [{ name := "all", jvmName := some "fetchAll", descriptor := some "()V", nullable := true }] :=
    .cons
      { name := fun _ => rfl
        jvmName := by rintro _ ⟨⟩; exact rfl
        descriptor := .some rfl
        nullable := rfl
        className := rfl } .nil
  have hpacks : Packing.Packs payload [packed] := ⟨by simp [packed], .inr (by simp [packed])⟩
  have huncached : Cache.find? ({} : MetadataCache) "com.example.Service" = none := rfl
  exact (Oracle.isReturnTypeNullable_of_describes ⟨⟨2, 0, 0⟩⟩ hencodes hdescribes hpacks rfl rfl rfl
    (by decide) huncached { name := "fetchAll" }).1 _ rfl

end KotlinNullability
