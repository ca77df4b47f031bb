import KotlinNullability.Proofs.Metadata.Interpretation
import KotlinNullability.Proofs.Wire.DeclaredLength
import KotlinNullability.Proofs.Wire.EncodedFields

/-!
# Lists of integers in records

A record holds two lists of integers of 32 bits. A list may be cut into chunks, and each chunk is
written as one packed field or as single varint fields; between them may stand any other fields.
Whichever way the lists are written, the same lists are read, and the rest of the record is read as if
they were not there.

The run of a packed field ends where its length says. A varint that is not over there is an error, and
the bytes behind the run do not complete it.
-/

namespace KotlinNullability

open Wire (EncodedField Field Reader Schema Value encodedBytes encodedFields occurrences)
open Wire.Varint (Whole)

namespace Wire

/-- The values write a chunk of integers. A varint may be padded, and of its number the lowest 32 bits
count. -/
inductive WritesChunk : List Int32 → List Value → Prop
  | packed {chunk : List Int32} {pieces : List (List UInt8)}
      (h : List.Forall₂ (fun n piece => Whole piece ∧ Varint.int32 piece = n.toInt) chunk pieces) :
      WritesChunk chunk [.delimited pieces.flatten]
  | singles {chunk : List Int32} {ms : List Int}
      (h : List.Forall₂ (fun n m => signed 32 m = n.toInt) chunk ms) :
      WritesChunk chunk (ms.map .varint)

/-- The values write chunks of integers one after another. -/
inductive WritesChunks : List (List Int32) → List Value → Prop
  | nil : WritesChunks [] []
  | cons {chunk : List Int32} {chunks : List (List Int32)} {values more : List Value}
      (head : WritesChunk chunk values) (tail : WritesChunks chunks more) :
      WritesChunks (chunk :: chunks) (values ++ more)

/-- The bytes are varints and then the beginning of one. -/
def CutOff (run : List UInt8) : Prop :=
  ∃ (pieces : List (List UInt8)) (tail : List UInt8), (∀ piece ∈ pieces, Whole piece) ∧
    run = pieces.flatten ++ tail ∧ tail ≠ [] ∧ tail.length < 10 ∧ ∀ b ∈ tail, 0x80 ≤ b.toNat

/-- The values of a chunk are occurrences of a repeated integer, and hold the integers of the chunk. -/
theorem WritesChunk.reads {chunk : List Int32} {values : List Value} (h : WritesChunk chunk values) :
    (∀ value ∈ values, Layout.ints.Admits value) ∧
      values.flatMap Value.integers = chunk.map Int32.toInt := by
  cases h with
  | @packed pieces h =>
    have hpieces : (∀ piece ∈ pieces, Whole piece) ∧
        pieces.map Varint.int32 = chunk.map Int32.toInt := by
      induction h with
      | nil => exact ⟨by simp, rfl⟩
      | cons head _ ih =>
        refine ⟨List.forall_mem_cons.mpr ⟨head.1, ih.1⟩, ?_⟩
        rw [List.map_cons, List.map_cons, head.2, ih.2]
    have hcut := Varint.pieces_flatten hpieces.1
    refine ⟨List.forall_mem_singleton.mpr (.inr ⟨_, rfl, ?_⟩), ?_⟩
    · rw [hcut]
      exact hpieces.1
    · rw [List.flatMap_singleton, Value.integers, hcut, hpieces.2]
  | @singles ms h =>
    constructor
    · intro value hvalue
      obtain ⟨m, -, rfl⟩ := List.mem_map.mp hvalue
      exact .inl rfl
    · induction h with
      | nil => rfl
      | cons head _ ih =>
        rw [List.map_cons, List.flatMap_cons, ih, Value.integers, head]
        rfl

/-- The same of chunks one after another. -/
theorem WritesChunks.reads {chunks : List (List Int32)} {values : List Value}
    (h : WritesChunks chunks values) :
    (∀ value ∈ values, Layout.ints.Admits value) ∧
      values.flatMap Value.integers = chunks.flatten.map Int32.toInt := by
  induction h with
  | nil => exact ⟨by simp, rfl⟩
  | cons head _ ih =>
    exact ⟨List.forall_mem_append.mpr ⟨head.reads.1, ih.1⟩, by
      rw [List.flatMap_append, head.reads.2, ih.2, List.flatten_cons, List.map_append]⟩

/-- The beginning of a varint is found unfinished. -/
theorem Varint.scan_eq_unfinished {cap : Nat} {tail : List UInt8} (hlength : tail.length < cap)
    (hmore : ∀ b ∈ tail, 0x80 ≤ b.toNat) : scan cap tail = .unfinished := by
  have hnone : (tail.take cap).findIdx? (·.toNat < 0x80) = none := by
    rw [List.findIdx?_eq_none_iff]
    exact fun b hb => decide_eq_false (Nat.not_lt.mpr (hmore b (List.mem_of_mem_take hb)))
  rw [scan_eq, hnone]
  exact if_pos hlength

/-- A packed run that is cut off is an error. -/
theorem CutOff.packedInts_eq {run : List UInt8} (h : CutOff run) (position : Nat) :
    packedInts ⟨position, run⟩ = .error (.endOfInput .oneByte) := by
  obtain ⟨pieces, tail, hpieces, rfl, hne, hlength, hmore⟩ := h
  induction pieces generalizing position with
  | nil =>
    have htail : Varint.scan (Varint.capOf 64) tail = .unfinished :=
      Varint.scan_eq_unfinished hlength hmore
    rw [List.flatten_nil, List.nil_append, Wire.packedInts_eq, if_neg hne, htail]
  | cons piece pieces ih =>
    obtain ⟨hpiece, hrest⟩ := List.forall_mem_cons.mp hpieces
    have hscan : Varint.scan _ (piece ++ (pieces.flatten ++ tail)) = _ :=
      Varint.scan_eq_complete_iff.mpr ⟨hpiece, rfl⟩
    have hcons : piece ++ (pieces.flatten ++ tail) ≠ [] := by simp [hne]
    rw [List.flatten_cons, List.append_assoc, Wire.packedInts_eq, if_neg hcons, hscan]
    dsimp only
    rw [ih _ hrest]
    rfl

/-- A repeated integer that is not read is an error of its field. -/
theorem FieldRule.read_ints_error {σ : Type} {add : List Int → σ → σ} {state : σ} {r after : Reader}
    {fault : Fault} (h : Reader.readInts r = .error fault after) :
    FieldRule.read (some (.ints add)) state r = .error (.wire fault) after := by
  change EStateM.bind (liftFault Reader.readInts) (fun ns => pure (add ns state)) r = _
  rw [EStateM.bind, liftFault, h]

/-- What occurs of a number is not changed by leaving out fields of other numbers. -/
theorem occurrences_filter {α : Type} {view : Value → Option α} {number : Nat} {p : Field → Bool}
    {message : List Field} (h : ∀ f, f.number = number → p f = true) :
    occurrences view number (message.filter p) = occurrences view number message := by
  have hboth (f : Field) : (decide (f.number = number) && p f) = decide (f.number = number) := by
    by_cases hnumber : f.number = number <;> simp [hnumber, h f]
  rw [occurrences, occurrences, List.filter_filter, List.filter_congr fun f _ => hboth f]

end Wire

namespace StringTable

/-- The number is none of those of the two lists in a record. -/
def unlisted (number : Nat) : Bool := number != 4 && number != 5

/-- The field of a record has the wire type of its layout, if it has a layout. -/
def Fitting (f : Field) : Prop :=
  ∀ layout, MessageKind.record.layout? f.number = some layout → layout.Admits f.value

/-- The message of a record holds two lists of integers, cut into chunks, and between them any other
fields that are fitting. -/
structure HoldsLists (message : List EncodedField) (bounds units : List (List Int32)) : Prop where
  bounds : Wire.WritesChunks bounds (occurrences some 4 (encodedFields message))
  units : Wire.WritesChunks units (occurrences some 5 (encodedFields message))
  others : ∀ e ∈ message, unlisted e.field.number → Fitting e.field

/-- A fitting field means a change of the record. -/
theorem Fitting.isSome_meaning {f : Field} (h : Fitting f) : (recordSchema.meaning f).isSome :=
  ((recordSchema_rules (fun _ _ => True) f.number).isSome_meaning_iff f.value).mpr
    fun layout hlayout => ⟨h layout hlayout, fun _ _ _ _ => trivial⟩

/-- In front of other bytes, fitting fields make the record with which reading goes on. -/
theorem readRecord_append {message : List EncodedField} (h : ∀ e ∈ message, Fitting e.field)
    (position : Nat) (rest : List UInt8) :
    readRecord (.ofCursor ⟨position, encodedBytes message ++ rest⟩) =
      (Wire.walk recordSchema (Record.ofFields (encodedFields message))
        (.ofCursor ⟨position + (encodedBytes message).length, rest⟩)).result := by
  have hmeaning : ∀ e ∈ message, (recordSchema.meaning e.field).isSome :=
    fun e he => (h e he).isSome_meaning
  have hfold : (encodedFields message).foldl recordSchema.change {} =
      Record.ofFields (encodedFields message) :=
    Record.foldl_change (List.forall_mem_map.mpr h)
  rw [readRecord, Schema.walk_encoded (recordSchema_shape.placeless fun _ => rfl) hmeaning, hfold]

/-- Fitting fields make a record. -/
theorem readRecord_encoded {message : List EncodedField} (h : ∀ e ∈ message, Fitting e.field)
    (position : Nat) :
    readRecord (.ofCursor ⟨position, encodedBytes message⟩) =
      .ok (Record.ofFields (encodedFields message)) := by
  have happend := readRecord_append h position []
  rw [List.append_nil] at happend
  rw [happend, Wire.walk_of_readTag_none rfl]
  rfl

/-- Fields that hold lists are fitting. -/
theorem HoldsLists.fitting {message : List EncodedField} {bounds units : List (List Int32)}
    (h : HoldsLists message bounds units) : ∀ e ∈ message, Fitting e.field := by
  have hoccurs {e : EncodedField} (he : e ∈ message) {number : Nat} (hnumber : e.field.number = number) :
      e.field.value ∈ occurrences some number (encodedFields message) := by
    refine List.mem_filterMap.mpr ⟨e.field, List.mem_filter.mpr ⟨List.mem_map_of_mem he, ?_⟩, rfl⟩
    exact decide_eq_true hnumber
  intro e he
  by_cases hfour : e.field.number = 4
  · rintro layout hlayout
    rw [hfour] at hlayout
    cases hlayout
    exact h.bounds.reads.1 _ (hoccurs he hfour)
  by_cases hfive : e.field.number = 5
  · rintro layout hlayout
    rw [hfive] at hlayout
    cases hlayout
    exact h.units.reads.1 _ (hoccurs he hfive)
  · exact h.others e he (by simp [unlisted, hfour, hfive])

/-- The record of fields that hold lists has these lists, and is otherwise that of the other fields. -/
theorem HoldsLists.ofFields_eq {message : List EncodedField} {bounds units : List (List Int32)}
    (h : HoldsLists message bounds units) :
    Record.ofFields (encodedFields message) =
      { Record.ofFields ((encodedFields message).filter (unlisted ·.number)) with
        substring := bounds.flatten.map Int32.toInt
        replacement := units.flatten.map Int32.toInt } := by
  have hother {α : Type} (view : Value → Option α) {number : Nat} (hnumber : unlisted number) :
      occurrences view number ((encodedFields message).filter (unlisted ·.number)) =
        occurrences view number (encodedFields message) :=
    Wire.occurrences_filter fun f hf => by rwa [hf]
  rw [Record.ofFields, Record.ofFields, h.bounds.reads.2, h.units.reads.2, hother _ rfl, hother _ rfl,
    hother _ rfl, hother _ rfl]

/-- In front of a list whose packed run is cut off, a walk over a record stops. -/
theorem walk_of_cutOff {number : Nat} (hnumber : number = 4 ∨ number = 5) {run raw : List UInt8}
    (hrun : Wire.CutOff run) (hraw : Field.SpelledBy ⟨number, .delimited run⟩ raw) (record : Record)
    (position : Nat) (rest : List UInt8) :
    Wire.walk recordSchema record (.ofCursor ⟨position, raw ++ rest⟩) =
      ⟨record, some (.wire (.endOfInput .oneByte))⟩ := by
  have hrule : ∃ add, recordSchema number = some (.ints add) := by
    obtain rfl | rfl := hnumber <;> exact ⟨_, rfl⟩
  obtain ⟨add, hadd⟩ := hrule
  obtain ⟨htag, hvalue⟩ := hraw
  rename_i groups value
  cases hvalue with
  | @delimited lengthGroups _ hlength =>
    let atValue : Wire.Cursor := ⟨position + groups.length, lengthGroups ++ run ++ rest⟩
    let behind : Wire.Cursor := ⟨atValue.position + (lengthGroups ++ run).length, rest⟩
    -- The run is sliced off first, so nothing of the rest is seen when its varints are read.
    have hslice : atValue.sliceDelimited =
        .ok ⟨atValue.position + lengthGroups.length, run⟩ behind := by
      refine Wire.Cursor.sliceDelimited_eq_ok_iff.mpr ⟨?_, ?_⟩
      · exact (Wire.Parses.delimited ..).mpr ⟨_, rest, ⟨lengthGroups, hlength, rfl⟩, rfl, rfl⟩
      · simp only [behind, List.length_append]
        omega
    have hints : Reader.readInts ⟨atValue, some ⟨number, .delimited⟩⟩ =
        .error (.endOfInput .oneByte) ⟨behind, some ⟨number, .delimited⟩⟩ := by
      rw [Reader.readInts_eq rfl, hslice, Wire.ofSlice, hrun.packedInts_eq]
      rfl
    have hread : Wire.FieldRule.read (recordSchema number) record
        ⟨atValue, some ⟨number, .delimited⟩⟩ =
          .error (.wire (.endOfInput .oneByte)) ⟨behind, some ⟨number, .delimited⟩⟩ := by
      rw [hadd]
      exact Wire.FieldRule.read_ints_error hints
    exact Wire.walk_of_read_error (Reader.readTag_eq_some_iff.mpr
      ⟨groups, lengthGroups ++ run ++ rest, htag, List.append_assoc .., rfl⟩) hread

/-- Lists of integers in a record are read as the integers that were written, whichever way they were
cut and written and whatever stands between them; the rest of the record is read as without them. A
list whose packed run is cut off is an error, whatever stands behind the run. -/
theorem readRecord_lists (position : Nat) :
    (∀ message bounds units, HoldsLists message bounds units → ∃ record,
      readRecord (.ofCursor ⟨position, encodedBytes (message.filter (unlisted ·.field.number))⟩) =
        .ok record ∧
      readRecord (.ofCursor ⟨position, encodedBytes message⟩) =
        .ok { record with
          substring := bounds.flatten.map Int32.toInt
          replacement := units.flatten.map Int32.toInt }) ∧
    ∀ (before : List EncodedField) (number : Nat) (run raw rest : List UInt8),
      (∀ e ∈ before, Fitting e.field) → number = 4 ∨ number = 5 → Wire.CutOff run →
      Field.SpelledBy ⟨number, .delimited run⟩ raw →
      readRecord (.ofCursor ⟨position, encodedBytes before ++ (raw ++ rest)⟩) =
        .error (.wire (.endOfInput .oneByte)) := by
  constructor
  · intro message bounds units h
    have hfilter : encodedFields (message.filter (unlisted ·.field.number)) =
        (encodedFields message).filter (unlisted ·.number) := by
      rw [encodedFields, encodedFields, List.filter_map]
      rfl
    have hothers : ∀ e ∈ message.filter (unlisted ·.field.number), Fitting e.field :=
      fun e he => h.fitting e (List.mem_of_mem_filter he)
    refine ⟨_, readRecord_encoded hothers position, ?_⟩
    rw [readRecord_encoded h.fitting, h.ofFields_eq, hfilter]
  · intro before number run raw rest hbefore hnumber hrun hraw
    rw [readRecord_append hbefore, walk_of_cutOff hnumber hrun hraw]
    rfl

/-- The numbers 1 and 0 in a packed run, an unknown field, -1 for the other list, an empty run, and 300
as a single varint. And a run that breaks off behind its first number, in front of a byte with which its
second number would be whole. -/
theorem readRecord_lists_mixed :
    (∃ message, encodedBytes message = [0x22, 3, 1, 0x80, 0, 0x38, 5, 0x28, 0xFF, 0xFF, 0xFF, 0xFF, 0x0F,
        0x22, 0, 0x20, 0xAC, 2] ∧
      HoldsLists message [[1, 0], [], [300]] [[-1]] ∧ ∃ record,
        readRecord (.ofCursor ⟨0, encodedBytes (message.filter (unlisted ·.field.number))⟩) =
          .ok record ∧
        readRecord (.ofCursor ⟨0, encodedBytes message⟩) =
          .ok { record with substring := [1, 0, 300], replacement := [-1] }) ∧
    Wire.CutOff [2, 0x80] ∧
      readRecord (.ofCursor ⟨0, [0x38, 5, 0x2A, 2, 2, 0x80, 1]⟩) =
        .error (.wire (.endOfInput .oneByte)) := by
  let packed : EncodedField := ⟨⟨4, .delimited [1, 0x80, 0]⟩, [0x22] ++ ([3] ++ [1, 0x80, 0]),
    .intro (by decide) (.delimited (by decide))⟩
  let unknown : EncodedField := ⟨⟨7, .varint 5⟩, [0x38] ++ [5],
    .intro (by decide) (.varint (by decide) (by decide))⟩
  let other : EncodedField := ⟨⟨5, .varint 0xFFFFFFFF⟩, [0x28] ++ [0xFF, 0xFF, 0xFF, 0xFF, 0x0F],
    .intro (by decide) (.varint (by decide) (by decide))⟩
  let empty : EncodedField := ⟨⟨4, .delimited []⟩, [0x22] ++ ([0] ++ []),
    .intro (by decide) (.delimited (by decide))⟩
  let single : EncodedField := ⟨⟨4, .varint 300⟩, [0x20] ++ [0xAC, 2],
    .intro (by decide) (.varint (by decide) (by decide))⟩
  have hpacked : Wire.WritesChunk [1, 0] [.delimited [[1], [0x80, 0]].flatten] :=
    .packed (.cons (by decide) (.cons (by decide) .nil))
  have hempty : Wire.WritesChunk [] [.delimited [].flatten] := .packed .nil
  have hsingle : Wire.WritesChunk [300] ([300].map .varint) := .singles (.cons (by decide) .nil)
  have hother : Wire.WritesChunk [-1] ([0xFFFFFFFF].map .varint) := .singles (.cons (by decide) .nil)
  have hfitting : Fitting unknown.field := fun _ hlayout => by cases hlayout
  have hlists : HoldsLists [packed, unknown, other, empty, single] [[1, 0], [], [300]] [[-1]] := by
    refine ⟨.cons hpacked (.cons hempty (.cons hsingle .nil)), .cons hother .nil, ?_⟩
    intro e he hunlisted
    obtain rfl : e = unknown := by
      simp only [List.mem_cons, List.not_mem_nil, or_false] at he
      rcases he with rfl | rfl | rfl | rfl | rfl <;> first | rfl | cases hunlisted
    exact hfitting
  have hcut : Wire.CutOff [2, 0x80] :=
    ⟨[[2]], [0x80], List.forall_mem_singleton.mpr (by decide), rfl, by decide, by decide,
      List.forall_mem_singleton.mpr (by decide)⟩
  refine ⟨⟨_, rfl, hlists, (readRecord_lists 0).1 _ _ _ hlists⟩, hcut, ?_⟩
  exact (readRecord_lists 0).2 [unknown] 5 [2, 0x80] ([0x2A] ++ ([2] ++ [2, 0x80])) [1]
    (List.forall_mem_singleton.mpr hfitting) (.inr rfl) hcut
    (.intro (by decide) (.delimited (by decide)))

end StringTable

end KotlinNullability
