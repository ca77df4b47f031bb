import KotlinNullability.Proofs.Wire.Spelling
import KotlinNullability.Proofs.Wire.Walk

/-!
# What a walk makes of a message

By its rule, a value means a change of the state that is built up, or nothing that the rule takes.
A walk that comes to the end of a message has read the message field by field up to where it ends,
and has made the changes that the fields mean. `Schema.Runs` says so without a reader: it depends on
the bytes of the message alone, not on where they stand.
-/

namespace KotlinNullability.Wire

open Varint (IsLength)

section Success

variable {α β : Type} {r after : Reader} {a : α}

/-- A result is kept when it is no error. -/
theorem toOption_eq_some_iff {ε : Type} {x : Except ε α} : x.toOption = some a ↔ x = .ok a := by
  cases x <;> simp [Except.toOption]

/-- A result that is dropped succeeds as any result that is made of it. -/
theorem discard_eq_ok_iff {ε σ : Type} {m : EStateM ε σ α} {s after : σ} (g : α → β) :
    (discard m : EStateM ε σ PUnit) s = .ok () after ↔
      ∃ b, (m >>= fun a => pure (g a)) s = .ok b after := by
  change (m >>= fun _ => pure ()) s = _ ↔ _
  simp only [map_eq_ok_iff]
  simp

/-- Faults that do not occur are not turned into errors, and no others. -/
theorem liftFault_eq_ok_iff {m : Read Reader α} :
    liftFault m r = .ok a after ↔ m r = .ok a after := by
  unfold liftFault
  cases m r <;> simp

/-- What is read on the cursor of a reader moves its cursor alone. -/
theorem Reader.onCursor_eq_ok_iff {m : Read Cursor α} :
    Reader.onCursor m r = .ok a after ↔ ∃ c, m r.cursor = .ok a c ∧ after = ⟨c, r.current⟩ := by
  unfold Reader.onCursor
  cases m r.cursor <;> simp [eq_comm]

/-- A field is read when it has the right wire type. -/
theorem Reader.expect_bind_eq_ok_iff {wire : WireType} {m : Read Reader α} :
    (Reader.expect wire >>= fun _ => m) r = .ok a after ↔
      r.current.map (·.wire) = some wire ∧ m r = .ok a after := by
  rw [bind_eq_ok_iff]
  unfold Reader.expect
  by_cases h : r.current.map (·.wire) = some wire <;> simp [h]

end Success

namespace Value

/-- The value as an integer of 32 bits. -/
def int? : Value → Option Int
  | varint n => some (signed 32 n)
  | _ => none

/-- The bytes behind the length of the value. -/
def content? : Value → Option (List UInt8)
  | delimited bytes => some bytes
  | _ => none

/-- The value as an occurrence of a repeated integer of 32 bits. -/
def ints? : Value → Option (List Int)
  | varint n => some [signed 32 n]
  | delimited bytes => (packedInts ⟨0, bytes⟩).toOption
  | _ => none

end Value

/-- The change of the state that a value means by a rule; a field without a rule changes nothing. -/
def FieldRule.meaning {σ : Type} : Option (FieldRule σ) → Value → Option (σ → σ)
  | none, _ => some id
  | some (.int set), value => value.int?.map set
  | some (.ints add), value => value.ints?.map add
  | some (.text set), value => (value.content?.map Utf8.decodeLossy).map set
  | some (.message read), value =>
    value.content?.bind fun bytes => (read (.ofCursor ⟨0, bytes⟩)).toOption

/-- A message is read alike wherever it stands. -/
def Placeless {α : Type} (read : Reader → Except DecodeError α) : Prop :=
  ∀ position position' bytes a, read (.ofCursor ⟨position, bytes⟩) = .ok a →
    read (.ofCursor ⟨position', bytes⟩) = .ok a

/-- Nested messages are read alike wherever they stand. -/
def Schema.Placeless {σ : Type} (schema : Schema σ) : Prop :=
  ∀ number read, schema number = some (.message read) → Wire.Placeless read

/-- A packed run that is not over goes on with a varint. -/
theorem packedInts_eq (position : Nat) (bytes : List UInt8) :
    packedInts ⟨position, bytes⟩ =
      if bytes = [] then .ok []
      else match Varint.scan (Varint.capOf 64) bytes with
        | .complete groups rest => (packedInts ⟨position + groups.length, rest⟩).map
            (signed 32 (signed 64 (Varint.valueOf groups)) :: ·)
        | .unfinished => .error (.endOfInput .oneByte)
        | .tooLong _ => .error (.varintTooLong 64) := by
  rw [packedInts]
  by_cases hne : bytes = []
  · rw [dif_pos hne, if_pos hne]
  · rw [dif_neg hne, if_neg hne]
    split <;> next hrun =>
      simp only [Cursor.readVarint, Bool.and_false, Bool.false_eq_true, if_false] at hrun
      split at hrun <;> simp_all

/-- A packed run is read alike wherever it stands. -/
theorem packedInts_position (position position' : Nat) (bytes : List UInt8) :
    packedInts ⟨position, bytes⟩ = packedInts ⟨position', bytes⟩ := by
  induction hlength : bytes.length using Nat.strongRecOn generalizing position position' bytes
  next length ih =>
  rw [packedInts_eq, packedInts_eq position']
  cases hs : Varint.scan (Varint.capOf 64) bytes with
  | complete groups rest =>
    have hshort := Varint.scan_complete_length hs
    dsimp only
    rw [ih rest.length (by omega) _ (position' + groups.length) rest rfl]
  | unfinished => rfl
  | tooLong rest => rfl

namespace Cursor

/-- Skipping a value succeeds as reading it does. -/
theorem skip_eq_ok_iff {wire : WireType} {c after : Cursor} :
    skip wire c = .ok () after ↔ ∃ value, readValue wire c = .ok value after := by
  cases wire with
  | varint => exact discard_eq_ok_iff Value.varint
  | fixed64 => exact discard_eq_ok_iff Value.fixed64
  | delimited => exact discard_eq_ok_iff Value.delimited
  | fixed32 => exact discard_eq_ok_iff Value.fixed32

/-- A window over bytes with a length is handed out as the bytes are read. -/
theorem sliceDelimited_eq_ok_iff {c inner after : Cursor} :
    sliceDelimited c = .ok inner after ↔
      readDelimited c = .ok inner.unread after ∧
        inner.position = after.position - inner.unread.length := by
  have hslice (length : Nat) (mid : Cursor) : slice length mid = .ok inner after ↔
      readExact length mid = .ok inner.unread after ∧
        inner.position = after.position - inner.unread.length := by
    unfold slice
    cases hrun : readExact length mid with
    | error fault after' => simp
    | ok bytes after' =>
      obtain ⟨raw, rest, ⟨rfl, rfl⟩, -, rfl⟩ := (Parses.exact length ..).mp hrun
      obtain ⟨position, unread⟩ := inner
      simp only [EStateM.Result.ok.injEq, Cursor.mk.injEq]
      grind
  simp only [sliceDelimited, readDelimited, bind_eq_ok_iff, hslice, exists_and_right, ← and_assoc]

end Cursor

/-- A nested message is entered as its bytes are read. -/
theorem Reader.enter_eq_ok_iff {r nested after : Reader} :
    enter r = .ok nested after ↔ ∃ bytes, readBytes r = .ok bytes after ∧
      nested = .ofCursor ⟨after.cursor.position - bytes.length, bytes⟩ := by
  change (expect .delimited >>= fun _ => onCursor Cursor.sliceDelimited >>=
    fun inner => pure (ofCursor inner)) _ = _ ↔ ∃ bytes,
      (expect .delimited >>= fun _ => onCursor Cursor.readDelimited) _ = _ ∧ _
  simp only [map_eq_ok_iff, expect_bind_eq_ok_iff, onCursor_eq_ok_iff,
    Cursor.sliceDelimited_eq_ok_iff]
  constructor
  · rintro ⟨hwire, ⟨position, bytes⟩, ⟨c, ⟨hread, hposition⟩, rfl⟩, rfl⟩
    exact ⟨bytes, ⟨hwire, c, hread, rfl⟩, congrArg (fun p => ofCursor ⟨p, bytes⟩) hposition⟩
  · rintro ⟨bytes, ⟨hwire, c, hread, rfl⟩, rfl⟩
    exact ⟨hwire, ⟨c.position - bytes.length, bytes⟩, ⟨c, ⟨hread, rfl⟩, rfl⟩, rfl⟩

/-- A message with its length in front is entered, and what follows it is left. -/
theorem Reader.enterTagless_eq_ok_iff {position : Nat} {bytes : List UInt8} {current : Option Tag}
    {nested after : Reader} :
    enterTagless ⟨⟨position, bytes⟩, current⟩ = .ok nested after ↔
      ∃ groups inner rest, IsLength groups inner.length ∧ bytes = groups ++ (inner ++ rest) ∧
        nested = .ofCursor ⟨position + groups.length, inner⟩ ∧
        after = ⟨⟨position + (groups.length + inner.length), rest⟩, current⟩ := by
  change (onCursor Cursor.sliceDelimited >>= fun inner => pure (ofCursor inner)) _ = _ ↔ _
  simp only [map_eq_ok_iff, onCursor_eq_ok_iff, Cursor.sliceDelimited_eq_ok_iff]
  constructor
  · rintro ⟨⟨start, inner⟩, ⟨_, ⟨hread, hstart⟩, rfl⟩, rfl⟩
    obtain ⟨_, rest, ⟨groups, hlength, rfl⟩, rfl, rfl⟩ := (Parses.delimited ..).mp hread
    have hstart : start = position + groups.length := by simpa [← Nat.add_assoc] using hstart
    rw [hstart, List.length_append]
    exact ⟨groups, inner, rest, hlength, List.append_assoc .., rfl, rfl⟩
  · rintro ⟨groups, inner, rest, hlength, rfl, rfl, rfl⟩
    refine ⟨⟨position + groups.length, inner⟩, ⟨_, ⟨?_, ?_⟩, rfl⟩, rfl⟩
    · refine (Parses.delimited ..).mpr ⟨groups ++ inner, rest, ⟨groups, hlength, rfl⟩, ?_, ?_⟩
      · exact (List.append_assoc ..).symm
      · rw [List.length_append]
    · simp [← Nat.add_assoc]

/-- Behind a tag, the read takes a value of the wire type in the tag and gives its view. -/
def Views {α : Type} (m : Read Reader α) (view : Value → Option α) : Prop :=
  ∀ c tag a after, m ⟨c, some tag⟩ = .ok a after ↔
    ∃ value c', Cursor.readValue tag.wire c = .ok value c' ∧ view value = some a ∧
      after = ⟨c', some tag⟩

namespace Views

/-- A result that is made from a view is a view. -/
theorem map {α β : Type} {m : Read Reader α} {view : Value → Option α} (h : Views m view)
    (g : α → β) : Views (m >>= fun a => pure (g a)) fun value => (view value).map g := by
  intro c tag b after
  rw [map_eq_ok_iff]
  simp only [h c tag, Option.map_eq_some_iff]
  grind

/-- Every value can be skipped. -/
theorem skip : Views (Reader.skipField none) fun _ => some () := by
  intro c tag ⟨⟩ after
  change Reader.onCursor (Cursor.skip tag.wire) _ = _ ↔ _
  simp only [Reader.onCursor_eq_ok_iff, Cursor.skip_eq_ok_iff]
  grind

/-- A varint is an integer, and no other value is. -/
theorem int : Views (Reader.readInt .plain) Value.int? := by
  intro c tag n after
  have hint (c' : Cursor) : Cursor.readInt32 .plain c = .ok n c' ↔
      ∃ m, Cursor.readVarint 64 false c = .ok m c' ∧ signed 32 m = n := map_eq_ok_iff
  change (Reader.expect .varint >>= fun _ => Reader.onCursor (Cursor.readInt32 .plain)) _ = _ ↔ _
  simp only [Reader.expect_bind_eq_ok_iff, Reader.onCursor_eq_ok_iff, hint, Option.map_some,
    Option.some.injEq]
  cases tag.wire <;> simp [Cursor.readValue, map_eq_ok_iff, Value.int?, -bind_pure_comp]
  grind

/-- A value with a length has bytes, and no other value does. -/
theorem content : Views Reader.readBytes Value.content? := by
  intro c tag bytes after
  change (Reader.expect .delimited >>= fun _ => Reader.onCursor Cursor.readDelimited) _ = _ ↔ _
  simp only [Reader.expect_bind_eq_ok_iff, Reader.onCursor_eq_ok_iff, Option.map_some,
    Option.some.injEq]
  cases tag.wire <;> simp [Cursor.readValue, map_eq_ok_iff, Value.content?, -bind_pure_comp]

/-- An occurrence of a repeated integer is one varint or a packed run. -/
theorem ints : Views Reader.readInts Value.ints? := by
  intro c tag ns after
  unfold Reader.readInts
  by_cases hwire : tag.wire = .varint
  · rw [if_pos (by rw [Option.map_some, hwire])]
    change (Reader.readInt .plain >>= fun n => pure [n]) _ = _ ↔ _
    rw [int.map (fun n => [n]) c tag, hwire]
    refine exists_congr fun value => exists_congr fun c' => and_congr_right fun hread => ?_
    obtain ⟨n, -, rfl⟩ := map_eq_ok_iff.mp hread
    rfl
  · rw [if_neg (by simpa using hwire)]
    constructor
    · intro h
      split at h
      · cases h
      · next run mid henter =>
        obtain ⟨bytes, hread, rfl⟩ := Reader.enter_eq_ok_iff.mp henter
        obtain ⟨value, c', hvalue, hview, rfl⟩ := (content ..).mp hread
        dsimp only [Reader.ofCursor] at h
        rw [packedInts_position _ 0] at h
        split at h
        · next hrun =>
          cases h
          cases value <;> cases hview
          exact ⟨_, c', hvalue, by rw [Value.ints?, hrun]; rfl, rfl⟩
        · cases h
    · rintro ⟨value, c', hvalue, hview, rfl⟩
      cases value with
      | varint n =>
        obtain ⟨_, _, ⟨hvarint, -⟩, -, -⟩ := (Parses.value ..).mp hvalue
        exact absurd hvarint.symm hwire
      | delimited bytes =>
        have hread := (content c tag bytes ⟨c', some tag⟩).mpr ⟨_, c', hvalue, rfl, rfl⟩
        rw [Reader.enter_eq_ok_iff.mpr ⟨bytes, hread, rfl⟩]
        dsimp only [Reader.ofCursor]
        rw [packedInts_position _ 0]
        rw [Value.ints?, toOption_eq_some_iff] at hview
        rw [hview]
      | fixed64 bytes => cases hview
      | fixed32 bytes => cases hview

variable {σ α : Type} {m : Read Reader α} {view : Value → Option α}

/-- A change that is made from a view is made by reading the value. -/
theorem update_eq_ok_iff (h : Views m view) (set : α → σ → σ) {state next : σ} {c : Cursor}
    {tag : Tag} {after : Reader} :
    (liftFault m >>= fun a => pure (set a state)) ⟨c, some tag⟩ = .ok next after ↔
      ∃ value update c', Cursor.readValue tag.wire c = .ok value c' ∧
        (view value).map set = some update ∧ next = update state ∧ after = ⟨c', some tag⟩ := by
  simp only [map_eq_ok_iff, liftFault_eq_ok_iff, h c tag, Option.map_eq_some_iff]
  grind

end Views

/-- Behind a tag, a field is read as what its value means by the rule. -/
theorem FieldRule.read_eq_ok_iff {σ : Type} {rule : Option (FieldRule σ)}
    (hplaceless : ∀ read, rule = some (.message read) → Placeless read) {state next : σ}
    {c : Cursor} {tag : Tag} {after : Reader} :
    FieldRule.read rule state ⟨c, some tag⟩ = .ok next after ↔
      ∃ value update c', Cursor.readValue tag.wire c = .ok value c' ∧
        meaning rule value = some update ∧ next = update state ∧ after = ⟨c', some tag⟩ :=
  match rule with
  | none => Views.skip.update_eq_ok_iff fun _ => id
  | some (.int set) => Views.int.update_eq_ok_iff set
  | some (.ints add) => Views.ints.update_eq_ok_iff add
  | some (.text set) => (Views.content.map Utf8.decodeLossy).update_eq_ok_iff set
  | some (.message read) => by
    simp only [FieldRule.read, bind_eq_ok_iff, liftFault_eq_ok_iff, Reader.enter_eq_ok_iff]
    constructor
    · rintro ⟨_, _, ⟨bytes, hbytes, rfl⟩, hnext⟩
      obtain ⟨value, c', hvalue, hcontent, rfl⟩ := (Views.content ..).mp hbytes
      cases hread : read (.ofCursor ⟨c'.position - bytes.length, bytes⟩) with
      | ok update =>
        rw [hread] at hnext
        cases hnext
        refine ⟨value, update, c', hvalue, ?_, rfl, rfl⟩
        rw [meaning, hcontent]
        exact toOption_eq_some_iff.mpr (hplaceless read rfl _ 0 bytes update hread)
      | error e =>
        rw [hread] at hnext
        cases hnext
    · rintro ⟨value, update, c', hvalue, hmeaning, rfl, rfl⟩
      obtain ⟨bytes, hcontent, hread⟩ := Option.bind_eq_some_iff.mp hmeaning
      have hbytes := (Views.content c tag bytes _).mpr ⟨value, c', hvalue, hcontent, rfl⟩
      refine ⟨_, _, ⟨bytes, hbytes, rfl⟩, ?_⟩
      rw [hplaceless read rfl 0 _ bytes update (toOption_eq_some_iff.mp hread)]
      rfl

/-- A message is made of fields up to where it ends, and its fields lead from a state to a state. -/
inductive Schema.Runs {σ : Type} (schema : Schema σ) : σ → List UInt8 → σ → Prop
  | stop {state : σ} {rest : List UInt8} (h : Ends rest) : Schema.Runs schema state rest state
  | field {state last : σ} {f : Field} {raw rest : List UInt8} {update : σ → σ}
      (spelled : f.SpelledBy raw)
      (meaning : FieldRule.meaning (schema f.number) f.value = some update)
      (tail : Schema.Runs schema (update state) rest last) :
      Schema.Runs schema state (raw ++ rest) last

section Walk

variable {σ : Type} {schema : Schema σ} {state last : σ}

/-- A tag and what follows it are read by the schema when they are a field that means a change. -/
theorem Schema.step_iff (hplaceless : schema.Placeless) {position : Nat} {bytes : List UInt8}
    {current : Option Tag} {tag : Tag} {next : σ} {after : Reader} :
    (∃ atValue, Reader.readTag ⟨⟨position, bytes⟩, current⟩ = .ok (some tag) atValue ∧
        FieldRule.read (schema tag.field) state atValue = .ok next after) ↔
      ∃ (f : Field) (raw rest : List UInt8) (update : σ → σ), f.tag = tag ∧ f.SpelledBy raw ∧
        bytes = raw ++ rest ∧ FieldRule.meaning (schema f.number) f.value = some update ∧
        next = update state ∧ after = ⟨⟨position + raw.length, rest⟩, some tag⟩ := by
  simp only [Reader.readTag_eq_some_iff]
  constructor
  · rintro ⟨_, ⟨groups, mid, htag, rfl, rfl⟩, hread⟩
    obtain ⟨value, update, _, hvalue, hmeaning, rfl, rfl⟩ :=
      (FieldRule.read_eq_ok_iff (hplaceless tag.field)).mp hread
    obtain ⟨raw, rest, ⟨hwire, hraw⟩, rfl, rfl⟩ := (Parses.value ..).mp hvalue
    have hfield : Field.tag ⟨tag.field, value⟩ = tag := by rw [Field.tag, hwire]
    refine ⟨⟨tag.field, value⟩, groups ++ raw, rest, update, hfield, .intro ?_ hraw, ?_, hmeaning,
      rfl, ?_⟩
    · rwa [hfield]
    · rw [List.append_assoc]
    · rw [List.length_append, Nat.add_assoc]
  · rintro ⟨f, _, rest, update, rfl, ⟨htag, hraw⟩, rfl, hmeaning, rfl, rfl⟩
    rename_i groups raw
    refine ⟨_, ⟨groups, raw ++ rest, htag, List.append_assoc .., rfl⟩, ?_⟩
    refine (FieldRule.read_eq_ok_iff (hplaceless f.number)).mpr ⟨f.value, update, _, ?_, hmeaning,
      rfl, rfl⟩
    refine (Parses.value ..).mpr ⟨raw, rest, ⟨rfl, hraw⟩, rfl, ?_⟩
    rw [List.length_append, Nat.add_assoc]

/-- A walk that comes to the end of a message has read the message by the schema. -/
theorem Schema.Runs.of_walk (hplaceless : schema.Placeless) {r : Reader}
    (h : walk schema state r = ⟨last, none⟩) : schema.Runs state r.cursor.unread last := by
  fun_induction walk schema state r with
  | case1 => cases h
  | case2 state r after htag =>
    cases h
    exact .stop (Reader.readTag_eq_none_iff.mp ⟨after, htag⟩)
  | case3 => cases h
  | case4 state r tag atValue htag next after hread ih =>
    obtain ⟨f, raw, rest, update, -, hraw, hbytes, hmeaning, rfl, rfl⟩ :=
      (step_iff hplaceless).mp ⟨atValue, htag, hread⟩
    rw [hbytes]
    exact .field hraw hmeaning (ih h)

/-- A message that leads by the schema to a state is walked over to its end, wherever it stands. -/
theorem Schema.Runs.walk_eq {bytes : List UInt8} (h : schema.Runs state bytes last)
    (hplaceless : schema.Placeless) (position : Nat) (current : Option Tag) :
    walk schema state ⟨⟨position, bytes⟩, current⟩ = ⟨last, none⟩ := by
  induction h generalizing position current with
  | stop hends =>
    obtain ⟨after, htag⟩ := Reader.readTag_eq_none_iff.mpr hends
    exact walk_of_readTag_none htag
  | field hraw hmeaning _ ih =>
    obtain ⟨_, htag, hread⟩ := (step_iff hplaceless).mpr
      ⟨_, _, _, _, rfl, hraw, rfl, hmeaning, rfl, rfl⟩
    rw [walk_of_read htag hread, ih]

/-- A walk has a result when it comes to the end, in the state that it reached. -/
theorem Walk.result_eq_ok_iff {w : Walk σ} : w.result = .ok last ↔ w = ⟨last, none⟩ := by
  obtain ⟨state, _ | e⟩ := w <;> simp [Walk.result]

/-- What is made of a message that has been read is there when the message leads to it. -/
theorem Schema.walk_result_bind_eq_ok_iff {α : Type} {finish : σ → Except DecodeError α} {a : α}
    (hplaceless : schema.Placeless) (position : Nat) (bytes : List UInt8) :
    ((walk schema state (.ofCursor ⟨position, bytes⟩)).result >>= finish) = .ok a ↔
      ∃ last, schema.Runs state bytes last ∧ finish last = .ok a := by
  constructor
  · intro h
    cases hresult : (walk schema state (.ofCursor ⟨position, bytes⟩)).result with
    | ok last =>
      rw [hresult] at h
      exact ⟨last, .of_walk hplaceless (Walk.result_eq_ok_iff.mp hresult), h⟩
    | error e =>
      rw [hresult] at h
      cases h
  · rintro ⟨last, hruns, hfinish⟩
    rw [Reader.ofCursor, hruns.walk_eq hplaceless]
    exact hfinish

/-- In front of a field, a message goes on with what the field means. -/
theorem Schema.runs_field_iff {f : Field} {raw rest : List UInt8} (h : f.SpelledBy raw) :
    schema.Runs state (raw ++ rest) last ↔
      ∃ update, FieldRule.meaning (schema f.number) f.value = some update ∧
        schema.Runs (update state) rest last := by
  constructor
  · intro hruns
    generalize hbytes : raw ++ rest = bytes at hruns
    cases hruns with
    | stop hends =>
      rw [← hbytes] at hends
      exact absurd hends h.not_ends
    | field hraw hmeaning htail =>
      obtain ⟨rfl, -, rfl⟩ := h.unique hraw hbytes
      exact ⟨_, hmeaning, htail⟩
  · rintro ⟨update, hmeaning, htail⟩
    exact .field h hmeaning htail

end Walk

end KotlinNullability.Wire
