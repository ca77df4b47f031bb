import KotlinNullability.Proofs.Wire.Loop
import KotlinNullability.Proofs.Wire.Tokens

/-!
# Messages of encoded fields

A message can be given as a list of fields, each with bytes that spell it. A loop over these bytes
reads the fields in order, whatever follows them, and what a loop has read are such fields. Where a
message ends, it is made of encoded fields in one way.
-/

namespace KotlinNullability.Wire

/-- A field with bytes that spell it. The tag is spelled as well, so the number of the field is not zero
and has 29 bits. -/
structure EncodedField where
  field : Field
  raw : List UInt8
  spelled : field.SpelledBy raw

/-- The bytes of encoded fields in a row. -/
def encodedBytes (message : List EncodedField) : List UInt8 := message.flatMap (·.raw)

/-- The fields without their bytes. -/
def encodedFields (message : List EncodedField) : List Field := message.map (·.field)

@[simp] theorem encodedBytes_nil : encodedBytes [] = [] := rfl

@[simp] theorem encodedBytes_cons (e : EncodedField) (message : List EncodedField) :
    encodedBytes (e :: message) = e.raw ++ encodedBytes message := rfl

@[simp] theorem encodedFields_nil : encodedFields [] = [] := rfl

@[simp] theorem encodedFields_cons (e : EncodedField) (message : List EncodedField) :
    encodedFields (e :: message) = e.field :: encodedFields message := rfl

/-- Encoded fields are what their bytes are cut into. -/
theorem cuts_encodedBytes (message : List EncodedField) :
    Cuts (encodedBytes message) (encodedFields message) := by
  induction message with
  | nil => exact .stop (.inl rfl)
  | cons e message ih => exact .field e.spelled ih

/-- Where encoded fields end can be told from the bytes, if the message ends there. -/
theorem encodedBytes_rest_unique {message message' : List EncodedField} {rest rest' : List UInt8}
    (hends : Ends rest) (hends' : Ends rest')
    (hbytes : encodedBytes message ++ rest = encodedBytes message' ++ rest') : rest = rest' := by
  induction message generalizing message' with
  | nil =>
    cases message' with
    | nil => exact hbytes
    | cons e' message' =>
      rw [encodedBytes_cons, List.append_assoc, encodedBytes_nil, List.nil_append] at hbytes
      exact absurd (hbytes ▸ hends) e'.spelled.not_ends
  | cons e message ih =>
    rw [encodedBytes_cons, List.append_assoc] at hbytes
    cases message' with
    | nil =>
      rw [encodedBytes_nil, List.nil_append] at hbytes
      exact absurd (hbytes ▸ hends') e.spelled.not_ends
    | cons e' message' =>
      rw [encodedBytes_cons, List.append_assoc] at hbytes
      obtain ⟨-, -, htail⟩ := e.spelled.unique e'.spelled hbytes
      exact ih htail

section Loops

variable {σ : Type} {schema : Schema σ} {state last : σ} {r after : Reader} {count : Nat}

/-- Fields that mean changes are read in order, whatever follows them. -/
theorem Schema.steps_encoded (hplaceless : schema.Placeless) {message : List EncodedField}
    (hmeaning : ∀ e ∈ message, (schema.meaning e.field).isSome) (position : Nat)
    (rest : List UInt8) (current : Option Tag) :
    ∃ current', schema.Steps message.length state
      ⟨⟨position, encodedBytes message ++ rest⟩, current⟩
      ((encodedFields message).foldl schema.change state)
      ⟨⟨position + (encodedBytes message).length, rest⟩, current'⟩ := by
  induction message generalizing state position current with
  | nil => exact ⟨current, .start⟩
  | cons e message ih =>
    obtain ⟨he, hmessage⟩ := List.forall_mem_cons.mp hmeaning
    obtain ⟨update, hupdate⟩ := Option.isSome_iff_exists.mp he
    obtain ⟨_, htag, hread⟩ := (step_iff hplaceless).mpr
      ⟨e.field, e.raw, encodedBytes message ++ rest, update, rfl, e.spelled, rfl, hupdate, rfl, rfl⟩
    obtain ⟨current', hsteps⟩ := ih hmessage (position + e.raw.length) (some e.field.tag)
    refine ⟨current', ?_⟩
    rw [encodedBytes_cons, encodedFields_cons, List.append_assoc, List.length_append,
      ← Nat.add_assoc, List.foldl_cons, change_of_meaning hupdate]
    exact .field htag hread hsteps

/-- A loop has read encoded fields, which mean the changes that it has made. -/
theorem Schema.Steps.exists_encoded (hplaceless : schema.Placeless)
    (h : schema.Steps count state r last after) :
    ∃ message, r.cursor.unread = encodedBytes message ++ after.cursor.unread ∧
      (∀ e ∈ message, (schema.meaning e.field).isSome) ∧
      last = (encodedFields message).foldl schema.change state := by
  induction h with
  | start => exact ⟨[], rfl, by simp, rfl⟩
  | @field count state next last r atValue behind after tag head value _ ih =>
    obtain ⟨f, raw, rest, update, -, hraw, hbytes, hmeaning, rfl, rfl⟩ :=
      (step_iff hplaceless).mp ⟨atValue, head, value⟩
    obtain ⟨message, hrest, hmessage, rfl⟩ := ih
    have hf : schema.meaning f = some update := hmeaning
    refine ⟨⟨f, raw, hraw⟩ :: message, ?_, ?_, ?_⟩
    · rw [hbytes, encodedBytes_cons, List.append_assoc, ← hrest]
    · exact List.forall_mem_cons.mpr ⟨by rw [hf]; rfl, hmessage⟩
    · rw [encodedFields_cons, List.foldl_cons, change_of_meaning hf]

/-- A walk over fields that mean changes goes on behind them. -/
theorem Schema.walk_encoded (hplaceless : schema.Placeless) {message : List EncodedField}
    (hmeaning : ∀ e ∈ message, (schema.meaning e.field).isSome) (position : Nat)
    (rest : List UInt8) :
    walk schema state (.ofCursor ⟨position, encodedBytes message ++ rest⟩) =
      walk schema ((encodedFields message).foldl schema.change state)
        (.ofCursor ⟨position + (encodedBytes message).length, rest⟩) := by
  obtain ⟨current, hsteps⟩ := steps_encoded hplaceless hmeaning position rest none
  exact hsteps.walk_eq.trans (walk_current schema _ _ current none)

/-- Encoded fields alone lead from a state to a state when each of them means a change. -/
theorem Schema.runs_encoded_iff {message : List EncodedField} :
    schema.Runs state (encodedBytes message) last ↔
      (∀ e ∈ message, (schema.meaning e.field).isSome) ∧
        last = (encodedFields message).foldl schema.change state := by
  have hcut := cut_eq_ok_iff.mpr (cuts_encodedBytes message)
  have hmeaning : (∀ f ∈ encodedFields message, (schema.meaning f).isSome) ↔
      ∀ e ∈ message, (schema.meaning e.field).isSome := List.forall_mem_map
  rw [runs_iff, ← hmeaning]
  constructor
  · rintro ⟨fields, hcuts, hfields, rfl⟩
    obtain rfl : fields = encodedFields message :=
      Except.ok.inj ((cut_eq_ok_iff.mpr hcuts).symm.trans hcut)
    exact ⟨hfields, rfl⟩
  · rintro ⟨hfields, rfl⟩
    exact ⟨_, cuts_encodedBytes message, hfields, rfl⟩

end Loops

end KotlinNullability.Wire
