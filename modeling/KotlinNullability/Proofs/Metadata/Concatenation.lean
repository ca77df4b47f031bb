import KotlinNullability.Proofs.Metadata.Interpretation
import KotlinNullability.Proofs.Wire.EncodedFields

/-!
# Messages one behind the other

A class is a list of functions and a string table a list of records, so two such messages in a row
should be read as one list behind the other. They are if the first one is made of fields alone. But a
message may also be over because of an end mark, and then the bytes behind the mark are not read: a
second message is dropped without an error.
-/

namespace KotlinNullability

open Wire (EncodedField Field FieldRule Reader Schema encodedBytes encodedFields walk)

namespace Wire

/-- The bytes are fields and nothing else. -/
def Fieldwise (bytes : List UInt8) : Prop := ∃ message : List EncodedField, bytes = encodedBytes message

section Seams

variable {α β : Type}

/-- In front of any other message, the message is read as its own results in front of those of the
other one, and with the error of the other one if that has one. -/
def Continues (read : Reader → Except DecodeError (List β)) (bytes : List UInt8) (results : List β) :
    Prop :=
  ∀ position rest, read (.ofCursor ⟨position, bytes ++ rest⟩) =
    (read (.ofBytes rest)).map (results ++ ·)

/-- In front of any other bytes, the message is read as its own results, whatever these bytes are. -/
def Ignores (read : Reader → Except DecodeError (List β)) (bytes : List UInt8) (results : List β) :
    Prop :=
  ∀ position rest, read (.ofCursor ⟨position, bytes ++ rest⟩) = .ok results

/-- Fields of the number hold messages, and what is read of them is collected in order; other fields are
not used. -/
structure Schema.Collects (schema : Schema (List α)) (number : Nat)
    (read : Reader → Except DecodeError α) : Prop where
  rule : schema number = some (.message fun r => (read r).map fun a as => as ++ [a])
  others : ∀ other, other ≠ number → schema other = none

variable {schema : Schema (List α)} {number : Nat} {readOne : Reader → Except DecodeError α}

theorem Reader.shift_ofBytes (position : Nat) (bytes : List UInt8) :
    (ofBytes bytes).shift position = ofCursor ⟨position, bytes⟩ := by
  rw [shift, Cursor.shift, ofBytes, ofCursor, Cursor.ofBytes, Nat.zero_add, ofCursor]

/-- Nested messages are read alike wherever they stand, if the collected ones are. -/
theorem Schema.Collects.unmoved (h : schema.Collects number readOne)
    (hread : ∀ distance r, readOne (Reader.shift distance r) = readOne r) : schema.Unmoved := by
  intro other read hrule distance r
  by_cases hother : other = number
  · rw [hother, h.rule] at hrule
    cases hrule
    exact congrArg (Except.map _) (hread distance r)
  · rw [h.others other hother] at hrule
    cases hrule

/-- What has been collected before a field stays in front. -/
theorem Schema.Collects.read_append (h : schema.Collects number readOne) (other : Nat)
    (as bs : List α) (r : Reader) : FieldRule.read (schema other) (as ++ bs) r =
      carry id (as ++ ·) id (FieldRule.read (schema other) bs r) := by
  by_cases hother : other = number
  · rw [hother, h.rule]
    unfold FieldRule.read
    change EStateM.bind (liftFault Reader.enter) _ r =
      carry id (as ++ ·) id (EStateM.bind (liftFault Reader.enter) _ r)
    unfold EStateM.bind
    cases liftFault Reader.enter r with
    | error e after => rfl
    | ok nested after =>
      dsimp only
      cases readOne nested with
      | error e => rfl
      | ok a => exact congrArg (EStateM.Result.ok · after) (List.append_assoc ..)
  · rw [h.others other hother]
    change EStateM.bind (liftFault (Reader.skipField none)) (fun _ => pure (as ++ bs)) r =
      carry id (as ++ ·) id
        (EStateM.bind (liftFault (Reader.skipField none)) (fun _ => pure bs) r)
    unfold EStateM.bind
    cases liftFault (Reader.skipField none) r <;> rfl

/-- What has been collected before a walk stays in front. -/
theorem Schema.Collects.walk_append (h : schema.Collects number readOne) (as bs : List α) (r : Reader) :
    walk schema (as ++ bs) r = ⟨as ++ (walk schema bs r).state, (walk schema bs r).error⟩ := by
  fun_induction walk schema bs r with
  | case1 bs r fault after htag => exact walk_of_readTag_error htag
  | case2 bs r after htag => exact walk_of_readTag_none htag
  | case3 bs r tag atValue htag e after hread =>
    exact walk_of_read_error htag (by rw [h.read_append, hread]; rfl)
  | case4 bs r tag atValue htag next after hread ih =>
    rw [← ih]
    exact walk_of_read htag (by rw [h.read_append, hread]; rfl)

/-- A walk goes the same way wherever its message stands. -/
theorem walk_ofCursor {σ : Type} {schema : Schema σ} (h : schema.Unmoved) (state : σ)
    (position : Nat) (bytes : List UInt8) :
    walk schema state (.ofCursor ⟨position, bytes⟩) = walk schema state (.ofBytes bytes) := by
  rw [← Reader.shift_ofBytes, walk_shift h]

/-- What is read alike with its errors is read alike without them. -/
theorem Schema.Unmoved.placeless {σ : Type} {schema : Schema σ} (h : schema.Unmoved) :
    schema.Placeless := by
  intro number read hrule position position' bytes a hread
  rwa [← Reader.shift_ofBytes, h number read hrule] at hread ⊢

/-- In front of an end mark, the end of the message is found behind the mark. -/
theorem EndMark.readTag_eq {mark : List UInt8} (h : EndMark mark) (position : Nat)
    (rest : List UInt8) (current : Option Tag) :
    Reader.readTag ⟨⟨position, mark ++ rest⟩, current⟩ =
      .ok none ⟨⟨position + mark.length, rest⟩, none⟩ := by
  rw [Reader.readTag_of_whole h.whole, if_pos (h.whole.endMark_iff.mpr h)]

/-- A walk comes to the end and leaves no bytes when all of them are fields that mean changes, and
perhaps an end mark behind these. -/
theorem Schema.finishes_iff {σ : Type} {schema : Schema σ} (hplaceless : schema.Placeless)
    {state last : σ} {bytes : List UInt8} :
    (∃ after, schema.Finishes state (.ofBytes bytes) last after ∧ after.cursor.unread = []) ↔
      ∃ message rest, (rest = [] ∨ EndMark rest) ∧ bytes = encodedBytes message ++ rest ∧
        (∀ e ∈ message, (schema.meaning e.field).isSome) ∧
        last = (encodedFields message).foldl schema.change state := by
  constructor
  · rintro ⟨after, ⟨count, ⟨⟨position, rest⟩, current⟩, hsteps, hend⟩, hafter⟩
    obtain ⟨message, hbytes, hmessage, hlast⟩ := hsteps.exists_encoded hplaceless
    refine ⟨message, rest, ?_, hbytes, hmessage, hlast⟩
    obtain ⟨hnil, -⟩ | ⟨groups, more, hwhole, rfl⟩ := Reader.exists_whole_of_readTag hend
    · exact .inl hnil
    · rw [Reader.readTag_of_whole hwhole] at hend
      split at hend
      · next hmark =>
        cases hend
        obtain rfl : more = [] := hafter
        rw [List.append_nil]
        exact .inr (hwhole.endMark_iff.mp hmark)
      · split at hend <;> cases hend
  · rintro ⟨message, rest, hrest, rfl, hmessage, rfl⟩
    obtain ⟨current, hsteps⟩ := steps_encoded hplaceless hmessage 0 rest none
    rcases hrest with rfl | hmark
    · exact ⟨_, ⟨_, _, hsteps, rfl⟩, rfl⟩
    · have hend := hmark.readTag_eq (0 + (encodedBytes message).length) [] current
      rw [List.append_nil] at hend
      exact ⟨_, ⟨_, _, hsteps, hend⟩, rfl⟩

/-- Fields with an end mark behind them are not fields alone. -/
theorem EndMark.not_fieldwise {mark : List UInt8} (h : EndMark mark) (message : List EncodedField) :
    ¬ Fieldwise (encodedBytes message ++ mark) := by
  rintro ⟨message', hbytes⟩
  have hends : Ends mark := .inr ⟨mark, [], h, (List.append_nil mark).symm⟩
  obtain rfl : mark = [] :=
    encodedBytes_rest_unique hends (.inl rfl) (hbytes.trans (List.append_nil _).symm)
  cases h.whole

variable {read : Reader → Except DecodeError (List β)} {expand : List α → List β}

/-- Fields that are collected continue with any other message. -/
theorem Schema.Collects.continues (h : schema.Collects number readOne) (hunmoved : schema.Unmoved)
    (eq : ∀ r, read r = (walk schema [] r).result.map expand)
    (happend : ∀ as bs, expand (as ++ bs) = expand as ++ expand bs) {message : List EncodedField}
    (hmessage : ∀ e ∈ message, (schema.meaning e.field).isSome) :
    Continues read (encodedBytes message)
      (expand ((encodedFields message).foldl schema.change [])) := by
  intro position rest
  have hwalk := h.walk_append ((encodedFields message).foldl schema.change []) [] (.ofBytes rest)
  rw [List.append_nil] at hwalk
  rw [eq, eq, Schema.walk_encoded hunmoved.placeless hmessage, walk_ofCursor hunmoved, hwalk]
  obtain ⟨bs, _ | e⟩ := walk schema [] (.ofBytes rest)
  · exact congrArg Except.ok (happend _ bs)
  · rfl

/-- Fields with an end mark behind them ignore any other message. -/
theorem EndMark.ignores {mark : List UInt8} (h : EndMark mark) (hunmoved : schema.Unmoved)
    (eq : ∀ r, read r = (walk schema [] r).result.map expand) {message : List EncodedField}
    (hmessage : ∀ e ∈ message, (schema.meaning e.field).isSome) :
    Ignores read (encodedBytes message ++ mark)
      (expand ((encodedFields message).foldl schema.change [])) := by
  intro position rest
  rw [eq, List.append_assoc, Schema.walk_encoded hunmoved.placeless hmessage, Reader.ofCursor,
    walk_of_readTag_none (h.readTag_eq ..)]
  rfl

/-- A message that ignores any other one does not continue with the beginning of a varint, which is an
error by itself. -/
theorem Ignores.not_continues {bytes : List UInt8} {results : List β}
    (h : Ignores read bytes results) (eq : ∀ r, read r = (walk schema [] r).result.map expand) :
    ¬ Continues read bytes results := by
  intro hcontinues
  have herror : read (.ofBytes [0x80]) = .error (.wire (.endOfInput .oneByte)) := by
    rw [eq, walk_of_readTag_error rfl]
    rfl
  have hresult := hcontinues 0 [0x80]
  rw [h, herror] at hresult
  cases hresult

/-- A message that collects a list and is read to its end is made of fields alone exactly if it continues
with any other message, and otherwise it ignores them all. -/
theorem Schema.Finishes.continues_iff (hcollects : schema.Collects number readOne)
    (hread : ∀ distance r, readOne (Reader.shift distance r) = readOne r)
    (eq : ∀ r, read r = (walk schema [] r).result.map expand)
    (happend : ∀ as bs, expand (as ++ bs) = expand as ++ expand bs) {bytes : List UInt8}
    {as : List α} {after : Reader} (h : schema.Finishes [] (.ofBytes bytes) as after)
    (hafter : after.cursor.unread = []) :
    (Continues read bytes (expand as) ↔ Fieldwise bytes) ∧
      (¬ Fieldwise bytes → Ignores read bytes (expand as)) := by
  have hunmoved := hcollects.unmoved hread
  obtain ⟨message, mark, hmark, rfl, hmessage, rfl⟩ :=
    (finishes_iff hunmoved.placeless).mp ⟨after, h, hafter⟩
  rcases hmark with rfl | hmark
  · rw [List.append_nil]
    have hfieldwise : Fieldwise (encodedBytes message) := ⟨message, rfl⟩
    exact ⟨iff_of_true (hcollects.continues hunmoved eq happend hmessage) hfieldwise,
      fun hnot => absurd hfieldwise hnot⟩
  · have hnot := hmark.not_fieldwise message
    have hignores : Ignores read _ _ := hmark.ignores hunmoved eq hmessage
    exact ⟨iff_of_false (hignores.not_continues eq) hnot, fun _ => hignores⟩

end Seams

end Wire

open Wire (Continues Fieldwise Ignores)

/-- A reader that serves a kind reads a message alike wherever it stands, errors included. -/
theorem Serves.read_shift {kind : MessageKind} {α : Type} {read : Reader → Except DecodeError α}
    (h : Serves kind read) (distance : Nat) (r : Reader) : read (r.shift distance) = read r := by
  induction h generalizing distance r with
  | @intro kind σ α schema read start finish eq shape nested ih =>
    have hunmoved : schema.Unmoved := by
      intro number inner hrule distance r
      obtain ⟨innerKind, hkind⟩ :=
        Option.isSome_iff_exists.mp ((shape.nests number).mpr ⟨inner, hrule⟩)
      exact ih number innerKind inner hkind hrule distance r
    rw [eq, eq, Wire.walk_shift hunmoved]

theorem StringTable.schema_collects : schema.Collects 1 readRecord where
  rule := rfl
  others other hother := by simpa [hother] using schema_knows other

/-- Read the records of the slots of a string table over a pool. -/
def StringTable.readSlots (pool : List Json) (r : Reader) : Except DecodeError (List Record) :=
  (read r pool).map slots

namespace Metadata

theorem classSchema_collects (table : StringTable) :
    (classSchema table).Collects 9 (Function.read table) where
  rule := rfl
  others other hother := by simpa [hother] using classSchema_knows table other

/-- Let a class, or a string table, be read to its end and all its bytes be consumed. If it is made of
fields alone, its functions, or the records of its slots, are those in front when another message
follows, and the errors are those of the other message. If it is not, an end mark stands at its end, and
any message behind it is ignored. -/
theorem continues_iff_fieldwise (table : StringTable) (pool : List Json) (bytes : List UInt8) :
    (∀ functions after, (classSchema table).Finishes [] (.ofBytes bytes) functions after →
      after.cursor.unread = [] →
      (Continues (readClass table) bytes functions ↔ Fieldwise bytes) ∧
        (¬ Fieldwise bytes → Ignores (readClass table) bytes functions)) ∧
    ∀ records after, StringTable.schema.Finishes [] (.ofBytes bytes) records after →
      after.cursor.unread = [] →
      (Continues (StringTable.readSlots pool) bytes (StringTable.slots ⟨records, pool⟩) ↔
          Fieldwise bytes) ∧
        (¬ Fieldwise bytes →
          Ignores (StringTable.readSlots pool) bytes (StringTable.slots ⟨records, pool⟩)) := by
  constructor
  · intro functions after h hafter
    have hmap (result : Except DecodeError (List Function)) : result = result.map id := by
      cases result <;> rfl
    exact h.continues_iff (classSchema_collects table) (Serves.function table).read_shift
      (fun r => hmap _) (fun _ _ => rfl) hafter
  · intro records after h hafter
    have hmap (result : Except DecodeError (List Record)) :
        (result.map fun records => (⟨records, pool⟩ : StringTable)).map StringTable.slots =
          result.map fun records => StringTable.slots ⟨records, pool⟩ := by
      cases result <;> rfl
    exact h.continues_iff StringTable.schema_collects Serves.record.read_shift
      (fun r => hmap _) (fun _ _ => List.flatMap_append) hafter

/-- A function continues with another class, and a record with another string table; with an end mark
behind it, the function is in front of bytes that are ignored. -/
theorem continues_iff_fieldwise_one :
    let table : StringTable := ⟨[{}], [.text "f"]⟩
    let f : Function := ⟨0, {}, none, .text "f", none⟩
    Continues (readClass table) [0x4A, 2, 0x10, 0] [f] ∧
      Continues (StringTable.readSlots []) [0x0A, 2, 8, 2] [{ range := 2 }, { range := 2 }] ∧
      Ignores (readClass table)
        [0x4A, 2, 0x10, 0, 0xFF, 0xFF, 0xFF, 0xFF, 0xFF, 0xFF, 0xFF, 0xFF, 0xFF, 0x01] [f] := by
  intro table f
  let function : EncodedField := ⟨⟨9, .delimited [0x10, 0]⟩, [0x4A] ++ ([2] ++ [0x10, 0]),
    .intro (by decide) (.delimited (by decide))⟩
  let record : EncodedField := ⟨⟨1, .delimited [8, 2]⟩, [0x0A] ++ ([2] ++ [8, 2]),
    .intro (by decide) (.delimited (by decide))⟩
  let mark : List UInt8 := List.replicate 9 0xFF ++ [0x01]
  have hmark : Wire.EndMark mark := ⟨0x01, rfl, by decide, by decide⟩
  have hfunction : ∀ e ∈ [function], ((classSchema table).meaning e.field).isSome :=
    List.forall_mem_singleton.mpr (by decide +kernel)
  have hone : (encodedFields [function]).foldl (classSchema table).change [] = [f] := by
    decide +kernel
  have hrecord : ∀ e ∈ [record], (StringTable.schema.meaning e.field).isSome :=
    List.forall_mem_singleton.mpr (by decide +kernel)
  have htwo : (encodedFields [record]).foldl StringTable.schema.change [] = [{ range := 2 }] := by
    decide +kernel
  obtain ⟨_, hends, hafter⟩ := (Schema.finishes_iff (classSchema_placeless table)).mpr
    ⟨[function], [], .inl rfl, rfl, hfunction, hone.symm⟩
  obtain ⟨_, htable, hbehind⟩ := (Schema.finishes_iff StringTable.schema_placeless).mpr
    ⟨[record], [], .inl rfl, rfl, hrecord, htwo.symm⟩
  obtain ⟨_, hmarked, hleft⟩ := (Schema.finishes_iff (classSchema_placeless table)).mpr
    ⟨[function], mark, .inr hmark, rfl, hfunction, hone.symm⟩
  exact ⟨((continues_iff_fieldwise table [] _).1 _ _ hends hafter).1.mpr ⟨[function], rfl⟩,
    ((continues_iff_fieldwise table [] _).2 _ _ htable hbehind).1.mpr ⟨[record], rfl⟩,
    ((continues_iff_fieldwise table [] _).1 _ _ hmarked hleft).2 (hmark.not_fieldwise [function])⟩

/-- A function with an end mark behind it is a class that is read to its end, and all its bytes are
consumed. But when a class with a function follows, this function is dropped, and no error is found. -/
theorem not_continues_behind_mark :
    let table : StringTable := ⟨[{}], [.text "f"]⟩
    let f : Function := ⟨0, {}, none, .text "f", none⟩
    let marked : List UInt8 :=
      [0x4A, 2, 0x10, 0, 0xFF, 0xFF, 0xFF, 0xFF, 0xFF, 0xFF, 0xFF, 0xFF, 0xFF, 0x01]
    let other : List UInt8 := [0x4A, 2, 0x10, 0]
    (∃ after, (classSchema table).Finishes [] (.ofBytes marked) [f] after ∧
        after.cursor.unread = []) ∧
      readClass table (.ofBytes other) = .ok [f] ∧
      readClass table (.ofBytes (marked ++ other)) = .ok [f] ∧
      ¬ Continues (readClass table) marked [f] := by
  intro table f marked other
  let function : EncodedField := ⟨⟨9, .delimited [0x10, 0]⟩, [0x4A] ++ ([2] ++ [0x10, 0]),
    .intro (by decide) (.delimited (by decide))⟩
  have hmark : Wire.EndMark (List.replicate 9 0xFF ++ [0x01]) := ⟨0x01, rfl, by decide, by decide⟩
  have hfunction : ∀ e ∈ [function], ((classSchema table).meaning e.field).isSome :=
    List.forall_mem_singleton.mpr (by decide +kernel)
  have hone : (encodedFields [function]).foldl (classSchema table).change [] = [f] := by
    decide +kernel
  have hother : readClass table (.ofBytes other) = .ok [f] :=
    Wire.toOption_eq_some_iff.mp (by decide +kernel)
  have hboth : readClass table (.ofBytes (marked ++ other)) = .ok [f] :=
    Wire.toOption_eq_some_iff.mp (by decide +kernel)
  refine ⟨(Schema.finishes_iff (classSchema_placeless table)).mpr
    ⟨[function], _, .inr hmark, rfl, hfunction, hone.symm⟩, hother, hboth, fun hcontinues => ?_⟩
  have hseam : readClass table (.ofBytes (marked ++ other)) = _ := hcontinues 0 other
  rw [hboth, hother] at hseam
  exact absurd (Except.ok.inj hseam) (by decide)

end Metadata

end KotlinNullability
