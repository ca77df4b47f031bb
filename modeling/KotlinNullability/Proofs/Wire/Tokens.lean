import KotlinNullability.Proofs.Wire.Meaning

/-!
# Messages cut into tokens

`tokens` cuts a message without asking what its fields mean: it reads a tag and skips the value that
follows, until the message ends. A field can be told from the bytes that were skipped. A walk over
the message by a schema comes to the end exactly when the message can be cut and every field means a
change by the schema, and it then makes these changes in order. What a walk keeps of a field that
occurs several times is read off the list of its values: the last of them, or all of them in order.
-/

namespace KotlinNullability.Wire

open Varint (Whole IsLength valueOf)

namespace Varint

/-- The bytes of a varint but the last have their high bit set. -/
theorem Whole.exists_last {groups : List UInt8} (h : Whole groups) :
    ∃ init last, groups = init ++ [last] ∧ (∀ b ∈ init, ¬ b.toNat < 0x80) ∧ last.toNat < 0x80 := by
  suffices hscan : ∀ {cap : Nat} {groups : List UInt8}, scan cap groups = .complete groups [] →
      ∃ init last, groups = init ++ [last] ∧ (∀ b ∈ init, ¬ b.toNat < 0x80) ∧ last.toNat < 0x80 from
    hscan h
  intro cap
  induction cap with
  | zero =>
    intro groups h
    cases h
  | succ cap ih =>
    intro groups h
    cases groups with
    | nil => cases h
    | cons b groups =>
      rw [scan_cons_eq_complete_iff] at h
      obtain ⟨hlast, hone, -⟩ | ⟨hmore, more, hcons, hrest⟩ := h
      · exact ⟨[], b, hone, by simp, hlast⟩
      · cases hcons
        obtain ⟨init, last, rfl, hinit, hlast⟩ := ih hrest
        exact ⟨b :: init, last, rfl, List.forall_mem_cons.mpr ⟨hmore, hinit⟩, hlast⟩

/-- The bytes of a packed run, cut behind every byte whose high bit is not set. -/
def pieces : List UInt8 → List (List UInt8)
  | [] => []
  | b :: bytes =>
    if b.toNat < 0x80 then [b] :: pieces bytes
    else
      match pieces bytes with
      | [] => [[b]]
      | piece :: rest => (b :: piece) :: rest

/-- A varint in front of a run is its first piece. -/
theorem pieces_append {groups : List UInt8} (h : Whole groups) (rest : List UInt8) :
    pieces (groups ++ rest) = groups :: pieces rest := by
  obtain ⟨init, last, rfl, hinit, hlast⟩ := h.exists_last
  clear h
  induction init with
  | nil => rw [List.nil_append, List.singleton_append, pieces, if_pos hlast]
  | cons b init ih =>
    have hmore : ¬ b.toNat < 0x80 := hinit b List.mem_cons_self
    have htail := ih fun c hc => hinit c (List.mem_cons_of_mem _ hc)
    rw [List.cons_append, List.cons_append, pieces, if_neg hmore, htail]

/-- No byte is lost between the pieces of a run. -/
theorem flatten_pieces (bytes : List UInt8) : (pieces bytes).flatten = bytes := by
  induction bytes with
  | nil => rfl
  | cons b bytes ih =>
    rw [pieces]
    split
    · rw [List.flatten_cons, ih, List.singleton_append]
    · split <;> next hpieces =>
        rw [hpieces] at ih
        simp_all

/-- The integer of 32 bits that a varint of 64 bits is taken for. -/
def int32 (groups : List UInt8) : Int := signed 32 (signed 64 (valueOf groups))

end Varint

/-- Varints in a row are the pieces of the run that they make. -/
theorem Varint.pieces_flatten {groups : List (List UInt8)} (h : ∀ piece ∈ groups, Whole piece) :
    pieces groups.flatten = groups := by
  induction groups with
  | nil => rfl
  | cons piece groups ih =>
    obtain ⟨hpiece, hrest⟩ := List.forall_mem_cons.mp h
    rw [List.flatten_cons, pieces_append hpiece, ih hrest]

/-- Varints in a row are read as a packed run. -/
theorem packedInts_flatten {groups : List (List UInt8)} (h : ∀ piece ∈ groups, Whole piece)
    (position : Nat) :
    packedInts ⟨position, groups.flatten⟩ = .ok (groups.map Varint.int32) := by
  induction groups generalizing position with
  | nil => simp [packedInts_eq]
  | cons piece groups ih =>
    obtain ⟨hpiece, hrest⟩ := List.forall_mem_cons.mp h
    have hscan : Varint.scan _ (piece ++ groups.flatten) = _ :=
      Varint.scan_eq_complete_iff.mpr ⟨hpiece, rfl⟩
    have hne : piece ++ groups.flatten ≠ [] := by
      intro hnil
      rw [hnil] at hscan
      cases hscan
    rw [List.flatten_cons, packedInts_eq, if_neg hne, hscan]
    dsimp only
    rw [ih hrest]
    rfl

/-- A packed run that is read is made of varints. -/
theorem exists_flatten_of_packedInts {c : Cursor} {ns : List Int} (h : packedInts c = .ok ns) :
    ∃ groups : List (List UInt8), (∀ piece ∈ groups, Whole piece) ∧ c.unread = groups.flatten := by
  fun_induction packedInts c generalizing ns with
  | case1 c hnil => exact ⟨[], by simp, hnil⟩
  | case2 => cases h
  | case3 c hne n after hrun ih =>
    obtain ⟨piece, rest, ⟨hpiece, -⟩, hbytes, rfl⟩ := (Parses.varint ..).mp hrun
    cases hrest : packedInts ⟨c.position + piece.length, rest⟩ with
    | ok ms =>
      obtain ⟨groups, hgroups, hflatten⟩ := ih hrest
      exact ⟨piece :: groups, List.forall_mem_cons.mpr ⟨hpiece, hgroups⟩, by
        rw [hbytes, List.flatten_cons, ← hflatten]⟩
    | error fault =>
      rw [hrest] at h
      cases h

/-- A packed run is read when all its pieces are varints, and then as their integers. -/
theorem packedInts_eq_ok_iff {position : Nat} {bytes : List UInt8} {ns : List Int} :
    packedInts ⟨position, bytes⟩ = .ok ns ↔
      (∀ piece ∈ Varint.pieces bytes, Whole piece) ∧
        ns = (Varint.pieces bytes).map Varint.int32 := by
  constructor
  · intro h
    obtain ⟨groups, hgroups, hbytes⟩ := exists_flatten_of_packedInts h
    obtain rfl : bytes = groups.flatten := hbytes
    rw [packedInts_flatten hgroups] at h
    rw [Varint.pieces_flatten hgroups]
    cases h
    exact ⟨hgroups, rfl⟩
  · rintro ⟨hpieces, rfl⟩
    have h := packedInts_flatten hpieces position
    rwa [Varint.flatten_pieces] at h

/-- The value of a wire type that some bytes spell. What has a length starts behind the first byte
whose high bit is not set. -/
def Value.ofRaw : WireType → List UInt8 → Value
  | .varint, raw => .varint (signed 64 (valueOf raw))
  | .fixed64, raw => .fixed64 raw
  | .delimited, raw => .delimited (raw.dropWhile fun b => decide (0x80 ≤ b.toNat)).tail
  | .fixed32, raw => .fixed32 raw

/-- A value can be told from the bytes that spell it. -/
theorem Value.SpelledBy.ofRaw_eq {value : Value} {raw : List UInt8} (h : value.SpelledBy raw) :
    Value.ofRaw value.wire raw = value := by
  cases h with
  | varint _ hvalue => exact congrArg Value.varint hvalue
  | fixed64 => rfl
  | @delimited groups bytes hlength =>
    obtain ⟨init, last, rfl, hinit, hlast⟩ := hlength.1.exists_last
    have hdrop : ((init ++ [last]) ++ bytes).dropWhile (fun b => decide (0x80 ≤ b.toNat)) =
        last :: bytes := by
      rw [List.append_assoc, List.dropWhile_append_of_pos, List.singleton_append,
        List.dropWhile_cons_of_neg]
      · simpa using hlast
      · exact fun b hb => by simpa using hinit b hb
    change Value.delimited _ = _
    rw [hdrop, List.tail_cons]
  | fixed32 => rfl

/-- The bytes that a cursor has passed when it has moved on to another. -/
def Cursor.passed (before after : Cursor) : List UInt8 :=
  before.unread.take (after.position - before.position)

/-- The bytes that a cursor passes in front of others. -/
theorem Cursor.passed_append (position : Nat) (raw rest : List UInt8) :
    passed ⟨position, raw ++ rest⟩ ⟨position + raw.length, rest⟩ = raw := by
  simp [passed]

/-- Skipping a value ends as reading it does, without the value. -/
theorem Cursor.skip_eq (wire : WireType) (c : Cursor) :
    skip wire c = match readValue wire c with
      | .ok _ after => .ok () after
      | .error fault after => .error fault after := by
  have hdiscard {α : Type} (m : Read Cursor α) (g : α → Value) :
      (discard m : Read Cursor PUnit) c =
        match (m >>= fun a => pure (g a) : Read Cursor Value) c with
        | .ok _ after => .ok () after
        | .error fault after => .error fault after := by
    change EStateM.bind m (fun _ => EStateM.pure ()) c =
      match EStateM.bind m (fun a => EStateM.pure (g a)) c with
        | .ok _ after => .ok () after
        | .error fault after => .error fault after
    simp only [EStateM.bind]
    cases m c <;> rfl
  cases wire with
  | varint => exact hdiscard _ Value.varint
  | fixed64 => exact hdiscard _ Value.fixed64
  | delimited => exact hdiscard _ Value.delimited
  | fixed32 => exact hdiscard _ Value.fixed32

/-- A tag with the bytes of the value behind it. -/
structure Token where
  tag : Tag
  raw : List UInt8
  deriving DecidableEq, Repr

/-- The field of a token. -/
def Token.field (token : Token) : Field := ⟨token.tag.field, .ofRaw token.tag.wire token.raw⟩

/-- The tokens of a message from a reader on, in order. -/
def tokens (r : Reader) : Except Fault (List Token) :=
  match _htag : Reader.readTag r with
  | .error fault _ => .error fault
  | .ok none _ => .ok []
  | .ok (some tag) atValue =>
    match _hskip : Reader.skipField none atValue with
    | .error fault _ => .error fault
    | .ok () after => (tokens after).map (⟨tag, atValue.cursor.passed after.cursor⟩ :: ·)
termination_by r.cursor.unread.length
decreasing_by
  have hforward := Reader.Advances.skipField none atValue
  rw [_hskip] at hforward
  exact Nat.lt_of_le_of_lt hforward.length_le (Reader.readTag_shortens _htag)

/-- Reading the value behind a tag is skipping it and telling it from the bytes that were
skipped. -/
theorem fields_eq (r : Reader) :
    fields r = match Reader.readTag r with
      | .error fault _ => .error fault
      | .ok none _ => .ok []
      | .ok (some tag) atValue =>
        match Reader.skipField none atValue with
        | .error fault _ => .error fault
        | .ok () after => (fields after).map
            (⟨tag.field, .ofRaw tag.wire (atValue.cursor.passed after.cursor)⟩ :: ·) := by
  obtain ⟨⟨position, bytes⟩, current⟩ := r
  rw [fields]
  split
  · next htag => rw [htag]
  · next htag => rw [htag]
  · next tag atValue htag =>
    rw [htag]
    obtain ⟨groups, rest, -, -, rfl⟩ := Reader.readTag_eq_some_iff.mp htag
    have hskip : Reader.skipField none ⟨⟨position + groups.length, rest⟩, some tag⟩ =
        Reader.onCursor (Cursor.skip tag.wire) ⟨⟨position + groups.length, rest⟩, some tag⟩ := rfl
    simp only [hskip, Reader.onCursor, Cursor.skip_eq]
    split
    · next hvalue => rw [hvalue]
    · next value after hvalue =>
      obtain ⟨raw, more, ⟨hwire, hraw⟩, rfl, rfl⟩ := (Parses.value ..).mp hvalue
      rw [hvalue]
      simp only [Cursor.passed_append, ← hwire, hraw.ofRaw_eq]

/-- The fields of a message are those of its tokens. -/
theorem fields_eq_tokens (r : Reader) : fields r = (tokens r).map (List.map Token.field) := by
  fun_induction tokens r with
  | case1 r fault after htag =>
    rw [fields_eq, htag]
    rfl
  | case2 r after htag =>
    rw [fields_eq, htag]
    rfl
  | case3 r tag atValue htag fault after hskip =>
    rw [fields_eq, htag]
    dsimp only
    rw [hskip]
    rfl
  | case4 r tag atValue htag after hskip ih =>
    rw [fields_eq, htag]
    dsimp only
    rw [hskip]
    dsimp only
    rw [ih]
    cases tokens after <;> rfl

/-- The fields of a message, each told from its token. -/
def cut (bytes : List UInt8) : Except Fault (List Field) :=
  (tokens (.ofBytes bytes)).map (List.map Token.field)

/-- The bytes are the fields of the message up to where it ends. -/
inductive Cuts : List UInt8 → List Field → Prop
  | stop {rest : List UInt8} (h : Ends rest) : Cuts rest []
  | field {f : Field} {raw rest : List UInt8} {message : List Field} (spelled : f.SpelledBy raw)
      (tail : Cuts rest message) : Cuts (raw ++ rest) (f :: message)

/-- In front of a field, the fields of the message begin with it. -/
theorem fields_of_spelledBy {f : Field} {raw : List UInt8} (h : f.SpelledBy raw) (position : Nat)
    (rest : List UInt8) (current : Option Tag) :
    fields ⟨⟨position, raw ++ rest⟩, current⟩ =
      (fields ⟨⟨position + raw.length, rest⟩, some f.tag⟩).map (f :: ·) := by
  obtain ⟨htag, hvalue⟩ := h
  rename_i groups raw
  have hread : Reader.readTag ⟨⟨position, groups ++ (raw ++ rest)⟩, current⟩ = _ :=
    Reader.readTag_eq_some_iff.mpr ⟨groups, raw ++ rest, htag, rfl, rfl⟩
  have hskip : Cursor.skip f.value.wire ⟨position + groups.length, raw ++ rest⟩ = _ :=
    Cursor.skip_eq_ok_iff.mpr
      ⟨f.value, (Parses.value ..).mpr ⟨raw, rest, ⟨rfl, hvalue⟩, rfl, rfl⟩⟩
  have hfield : Reader.skipField none ⟨⟨position + groups.length, raw ++ rest⟩, some f.tag⟩ = _ :=
    Reader.onCursor_eq_ok_iff.mpr ⟨_, hskip, rfl⟩
  rw [List.append_assoc, List.length_append, ← Nat.add_assoc, fields_eq, hread]
  dsimp only
  rw [hfield]
  dsimp only
  rw [Cursor.passed_append, Field.tag, hvalue.ofRaw_eq]

/-- The fields of a message are those that its bytes are cut into, wherever the message stands. -/
theorem fields_eq_ok_iff {position : Nat} {bytes : List UInt8} {current : Option Tag}
    {message : List Field} :
    fields ⟨⟨position, bytes⟩, current⟩ = .ok message ↔ Cuts bytes message := by
  constructor
  · intro h
    generalize hr : (⟨⟨position, bytes⟩, current⟩ : Reader) = r at h
    fun_induction fields r generalizing position bytes current message with
    | case1 => cases h
    | case2 r after htag =>
      cases h
      subst hr
      exact .stop (Reader.readTag_eq_none_iff.mp ⟨after, htag⟩)
    | case3 => cases h
    | case4 r tag atValue htag value after hvalue ih =>
      subst hr
      obtain ⟨groups, rest, hgroups, rfl, rfl⟩ := Reader.readTag_eq_some_iff.mp htag
      obtain ⟨raw, more, ⟨hwire, hraw⟩, rfl, rfl⟩ := (Parses.value ..).mp hvalue
      cases htail : fields ⟨⟨position + groups.length + raw.length, more⟩, some tag⟩ with
      | error fault =>
        rw [htail] at h
        cases h
      | ok tail =>
        rw [htail] at h
        cases h
        have hfield : (⟨tag.field, value⟩ : Field).tag = tag := by rw [Field.tag, hwire]
        rw [← List.append_assoc]
        exact .field (.intro (by rwa [hfield]) hraw) (ih rfl htail)
  · intro h
    induction h generalizing position current with
    | stop hends =>
      obtain ⟨after, htag⟩ := Reader.readTag_eq_none_iff.mpr hends
      rw [fields_eq, htag]
    | field spelled _ ih =>
      rw [fields_of_spelledBy spelled, ih]
      rfl

/-- A message is cut into the fields that it is made of. -/
theorem cut_eq_ok_iff {bytes : List UInt8} {message : List Field} :
    cut bytes = .ok message ↔ Cuts bytes message := by
  rw [cut, ← fields_eq_tokens]
  exact fields_eq_ok_iff

section Changes

variable {σ : Type}

/-- The change of the state that a field means by the schema. -/
def Schema.meaning (schema : Schema σ) (f : Field) : Option (σ → σ) :=
  FieldRule.meaning (schema f.number) f.value

/-- The state that a field leads to. -/
def Schema.change (schema : Schema σ) (state : σ) (f : Field) : σ :=
  (schema.meaning f).getD id state

theorem Schema.change_of_meaning {schema : Schema σ} {f : Field} {update : σ → σ}
    (h : schema.meaning f = some update) (state : σ) : schema.change state f = update state := by
  rw [change, h, Option.getD_some]

/-- A message leads from a state to a state when it can be cut, every field means a change, and the
changes lead there in order. -/
theorem Schema.runs_iff {schema : Schema σ} {state last : σ} {bytes : List UInt8} :
    schema.Runs state bytes last ↔ ∃ message, Cuts bytes message ∧
      (∀ f ∈ message, (schema.meaning f).isSome) ∧ last = message.foldl schema.change state := by
  constructor
  · intro h
    induction h with
    | stop hends => exact ⟨[], .stop hends, by simp, rfl⟩
    | @field state last f raw rest update spelled hmeaning _ ih =>
      obtain ⟨message, hcuts, hmessage, rfl⟩ := ih
      have hf : schema.meaning f = some update := hmeaning
      refine ⟨f :: message, .field spelled hcuts, ?_, ?_⟩
      · exact List.forall_mem_cons.mpr ⟨by rw [hf]; rfl, hmessage⟩
      · rw [List.foldl_cons, change_of_meaning hf]
  · rintro ⟨message, hcuts, hmessage, rfl⟩
    induction hcuts generalizing state with
    | stop hends => exact .stop hends
    | @field f raw rest message spelled _ ih =>
      obtain ⟨hf, hrest⟩ := List.forall_mem_cons.mp hmessage
      obtain ⟨update, hupdate⟩ := Option.isSome_iff_exists.mp hf
      rw [List.foldl_cons, change_of_meaning hupdate]
      exact .field spelled hupdate (ih hrest)

end Changes

/-- The views of the values of the fields with a number, in order. -/
def occurrences {α : Type} (view : Value → Option α) (number : Nat) (message : List Field) :
    List α :=
  (message.filter fun f => f.number = number).filterMap fun f => view f.value

section Occurrences

variable {σ α β : Type} {step : σ → Field → σ} {part : σ → β} {number : Nat}

@[simp] theorem occurrences_nil (view : Value → Option α) (number : Nat) :
    occurrences view number [] = [] := rfl

theorem occurrences_cons (view : Value → Option α) (number : Nat) (f : Field)
    (message : List Field) :
    occurrences view number (f :: message) =
      (if f.number = number then (view f.value).toList else []) ++
        occurrences view number message := by
  unfold occurrences
  by_cases hnumber : f.number = number
  · cases hview : view f.value <;> simp [hnumber, hview]
  · simp [hnumber]

/-- Views that are made from other views occur as these do. -/
theorem occurrences_map (view : Value → Option α) (g : α → β) (number : Nat)
    (message : List Field) :
    occurrences (fun value => (view value).map g) number message =
      (occurrences view number message).map g :=
  (List.map_filterMap ..).symm

/-- Of a field that may occur several times, the last occurrence is kept. -/
theorem foldl_eq_getLastD {view : Value → Option β} {message : List Field}
    (h : ∀ f ∈ message, ∀ s, part (step s f) =
      if f.number = number then (view f.value).getD (part s) else part s) (s : σ) :
    part (message.foldl step s) = (occurrences view number message).getLastD (part s) := by
  induction message generalizing s with
  | nil => rfl
  | cons f message ih =>
    obtain ⟨hf, hrest⟩ := List.forall_mem_cons.mp h
    rw [List.foldl_cons, ih hrest, hf, occurrences_cons]
    split
    · cases view f.value with
      | none => rfl
      | some b => exact (List.getLastD_cons ..).symm
    · rfl

/-- Of a field that may be missing, the last occurrence is kept if there is one. -/
theorem foldl_eq_getLast? {part : σ → Option β} {view : Value → Option α} {g : α → β}
    {message : List Field}
    (h : ∀ f ∈ message, ∀ s, part (step s f) =
      if f.number = number then ((view f.value).map fun a => some (g a)).getD (part s)
      else part s) {s : σ} (hs : part s = none) :
    part (message.foldl step s) = (occurrences view number message).getLast?.map g := by
  have hfold : part (message.foldl step s) =
      (occurrences (fun value => (view value).map fun a => some (g a)) number message).getLastD
        (part s) := foldl_eq_getLastD h s
  rw [hfold, occurrences_map, hs, List.getLastD_eq_getLast?, List.getLast?_map]
  cases (occurrences view number message).getLast? <;> rfl

/-- Of a field that repeats, all occurrences are kept in order. -/
theorem foldl_eq_append {part : σ → List β} {view : Value → Option α} {g : α → List β}
    {message : List Field}
    (h : ∀ f ∈ message, ∀ s, part (step s f) =
      part s ++ if f.number = number then ((view f.value).map g).getD [] else []) (s : σ) :
    part (message.foldl step s) = part s ++ (occurrences view number message).flatMap g := by
  induction message generalizing s with
  | nil => exact (List.append_nil _).symm
  | cons f message ih =>
    obtain ⟨hf, hrest⟩ := List.forall_mem_cons.mp h
    rw [List.foldl_cons, ih hrest, hf, occurrences_cons, List.append_assoc]
    split
    · cases view f.value <;> simp
    · simp

end Occurrences

end KotlinNullability.Wire
