import KotlinNullability.Proofs.Wire.Walk
import KotlinNullability.StringTable

/-!
# String tables as they are written

A record is written as those of its parts that are given; its repeated integers come as single
fields, as packed runs, or as any mixture of both. A string table is written as its records in
order. Reading what was written gives the records back, a missing part having its default.
-/

namespace KotlinNullability

/-- A piece of a repeated integer field. -/
inductive Wire.Piece where
  /-- A run of packed integers. -/
  | packed (ns : List Int32)
  /-- One integer in a field of its own. -/
  | single (n : Int32)
  deriving DecidableEq

namespace Wire.Piece

/-- The field of a piece. -/
def field (number : Nat) : Piece → Field
  | packed ns => .ofInts number (ns.map Int32.toInt)
  | single n => .ofInt number n.toInt

/-- The integers of a piece. -/
def ints : Piece → List Int
  | packed ns => ns.map Int32.toInt
  | single n => [n.toInt]

@[simp] theorem number_field (number : Nat) (piece : Piece) :
    (piece.field number).number = number := by
  cases piece <;> rfl

/-- A piece is read as its integers. -/
theorem reads_field {σ : Type} (add : List Int → σ → σ) (number : Nat) (piece : Piece)
    (h : (piece.field number).Fits) :
    FieldRule.Reads (some (.ints add)) (piece.field number) (add piece.ints) := by
  cases piece with
  | packed ns => exact .packed add number ns h
  | single n => exact .single add number n

end Wire.Piece

open Wire (Field Holds Piece Reader messageBytes)

/-- A record of a string table as it is written: any part may be missing. -/
structure Record.Form where
  range : Option Int32 := none
  predefinedIndex : Option Int32 := none
  operation : Option Int32 := none
  substring : List Piece := []
  replacement : List Piece := []
  literal : Option String := none
  deriving DecidableEq

namespace Record.Form

/-- The fields of a record. -/
def fields (r : Form) : List Field :=
  (r.range.map fun n => .ofInt 1 n.toInt).toList ++
    ((r.predefinedIndex.map fun n => .ofInt 2 n.toInt).toList ++
      ((r.operation.map fun n => .ofInt 3 n.toInt).toList ++
        (r.substring.map (Piece.field 4) ++
          (r.replacement.map (Piece.field 5) ++
            (r.literal.map fun s => .ofText 6 (Text.ofString s)).toList))))

/-- The record that the parts make. -/
def record (r : Form) : Record where
  range := r.range.elim 1 Int32.toInt
  predefinedIndex := r.predefinedIndex.elim (-1) Int32.toInt
  operation := r.operation.elim 0 Int32.toInt
  literal := r.literal.map Text.ofString
  substring := r.substring.flatMap Piece.ints
  replacement := r.replacement.flatMap Piece.ints

/-- The message is one that a record may be written as. -/
def WrittenAs (r : Form) (message : List Field) : Prop := Holds [1, 2, 3, 4, 5, 6] message r.fields

end Record.Form

namespace StringTable

theorem recordSchema_knows : recordSchema.Knows [1, 2, 3, 4, 5, 6] := by
  intro number
  unfold recordSchema
  split <;> simp_all

theorem schema_knows : schema.Knows [1] := by
  intro number
  unfold schema
  split <;> simp_all

end StringTable

/-- No character of a string is a surrogate. -/
theorem Text.isSurrogate_of_mem_ofString {s : String} {c : CodePoint} (h : c ∈ Text.ofString s) :
    c.isSurrogate = false := by
  obtain ⟨char, _, rfl⟩ := List.mem_map.mp h
  have hvalid : char.toNat < 0xD800 ∨ 0xDFFF < char.toNat ∧ char.toNat < 0x110000 := char.valid
  have hval : (CodePoint.ofChar char).val = char.toNat := rfl
  rw [CodePoint.isSurrogate, hval, decide_eq_false_iff_not]
  omega

/-- The pieces of a repeated field add their integers in order, like one run of all of them. -/
theorem Wire.Piece.leads {σ : Type} {schema : Wire.Schema σ} {number : Nat}
    (add : List Int → σ → σ) (hrule : schema number = some (.ints add))
    (hadd : ∀ xs ys s, add ys (add xs s) = add (xs ++ ys) s) (hnil : ∀ s, add [] s = s)
    {pieces : List Piece} (hfits : ∀ piece ∈ pieces, (piece.field number).Fits) (s : σ) :
    schema.Leads (pieces.map (field number)) s (add (pieces.flatMap ints) s) := by
  induction pieces generalizing s with
  | nil =>
    rw [List.flatMap_nil, hnil]
    exact .nil s
  | cons piece pieces ih =>
    have hhead : Wire.FieldRule.Reads (schema (field number piece).number) (field number piece)
        (add piece.ints) := by
      rw [number_field, hrule]
      exact piece.reads_field add number (hfits piece List.mem_cons_self)
    have htail := ih (fun p hp => hfits p (List.mem_cons_of_mem _ hp)) (add piece.ints s)
    rw [hadd] at htail
    rw [List.flatMap_cons]
    exact .cons hhead htail

namespace Record.Form

/-- The fields of a record lead to the record. -/
theorem leads_record {r : Form} (hfits : ∀ f ∈ r.fields, f.Fits) :
    StringTable.recordSchema.Leads r.fields {} r.record := by
  obtain ⟨range, predefinedIndex, operation, substring, replacement, literal⟩ := r
  simp only [fields, List.forall_mem_append, List.forall_mem_map] at hfits
  obtain ⟨-, -, -, hsubstring, hreplacement, hliteral⟩ := hfits
  have hliteral : ∀ s ∈ literal, (Field.ofText 6 (Text.ofString s)).Fits := by
    rintro s rfl
    exact hliteral _ (List.mem_singleton_self _)
  -- Each part changes its own field of the record, whatever the others hold.
  have hrange (s : Record) : StringTable.recordSchema.Leads
      (range.map fun n => .ofInt 1 n.toInt).toList s
      { s with range := range.elim s.range Int32.toInt } :=
    .option (fun n _ => .int _ 1 n) (by cases range <;> rfl)
  have hpredefined (s : Record) : StringTable.recordSchema.Leads
      (predefinedIndex.map fun n => .ofInt 2 n.toInt).toList s
      { s with predefinedIndex := predefinedIndex.elim s.predefinedIndex Int32.toInt } :=
    .option (fun n _ => .int _ 2 n) (by cases predefinedIndex <;> rfl)
  have hoperation (s : Record) : StringTable.recordSchema.Leads
      (operation.map fun n => .ofInt 3 n.toInt).toList s
      { s with operation := operation.elim s.operation Int32.toInt } :=
    .option (fun n _ => .int _ 3 n) (by cases operation <;> rfl)
  have hcut (s : Record) : StringTable.recordSchema.Leads (substring.map (Piece.field 4)) s
      { s with substring := s.substring ++ substring.flatMap Piece.ints } :=
    Piece.leads (fun bounds s => { s with substring := s.substring ++ bounds }) rfl
      (fun _ _ _ => by simp) (fun _ => by simp) hsubstring s
  have hsubstitute (s : Record) : StringTable.recordSchema.Leads
      (replacement.map (Piece.field 5)) s
      { s with replacement := s.replacement ++ replacement.flatMap Piece.ints } :=
    Piece.leads (fun units s => { s with replacement := s.replacement ++ units }) rfl
      (fun _ _ _ => by simp) (fun _ => by simp) hreplacement s
  have htext (s : Record) : StringTable.recordSchema.Leads
      (literal.map fun t => .ofText 6 (Text.ofString t)).toList s
      { s with literal := literal.elim s.literal fun t => some (Text.ofString t) } :=
    .option (fun t ht => .text _ 6 (fun _ => Text.isSurrogate_of_mem_ofString) (hliteral t ht))
      (by cases literal <;> rfl)
  have hall := (hrange {}).append ((hpredefined _).append ((hoperation _).append
    ((hcut _).append ((hsubstitute _).append (htext _)))))
  cases literal with
  | none => exact hall
  | some t => exact hall

/-- A record is read from any message that it may be written as. -/
theorem readRecord_eq {r : Form} {message : List Field} (h : r.WrittenAs message) (position : Nat) :
    StringTable.readRecord (.ofCursor ⟨position, messageBytes message⟩) = .ok r.record := by
  have hleads := leads_record (r := r) fun f => h.fits
  rw [StringTable.readRecord, h.walk_eq StringTable.recordSchema_knows hleads]
  rfl

end Record.Form

namespace StringTable

/-- The records are the fields of the message, each as it may be written; others may stand
between. -/
def WrittenAs (records : List Record.Form) (message : List Field) : Prop :=
  ∃ messages, List.Forall₂ Record.Form.WrittenAs records messages ∧
    Holds [1] message (messages.map (.ofMessage 1))

/-- The records of a string table are read from any message that they may be written as. -/
theorem readRecords_eq {records : List Record.Form} {message : List Field}
    (h : WrittenAs records message) (position : Nat) :
    readRecords (.ofCursor ⟨position, messageBytes message⟩) =
      .ok (records.map Record.Form.record) := by
  obtain ⟨messages, hrecords, hholds⟩ := h
  have hfits : ∀ nested ∈ messages, (Field.ofMessage 1 nested).Fits :=
    fun nested hnested => hholds.fits (List.mem_map_of_mem hnested)
  have hread : List.Forall₂ (fun a m => ∀ position,
      readRecord (.ofCursor ⟨position, messageBytes m⟩) = .ok a)
      (records.map Record.Form.record) messages :=
    List.forall₂_map_left_iff.mpr (hrecords.imp fun _ _ hr => Record.Form.readRecord_eq hr)
  have hleads :
      schema.Leads (messages.map (.ofMessage 1)) [] ([] ++ records.map Record.Form.record) :=
    .messages rfl hread hfits []
  rw [readRecords, hholds.walk_eq schema_knows hleads]
  rfl

end StringTable

end KotlinNullability
