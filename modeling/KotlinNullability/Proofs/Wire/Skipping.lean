import KotlinNullability.Proofs.Wire.Loop
import KotlinNullability.Proofs.Wire.Meaning

/-!
# Skipping in the place of reading

Behind a tag there are many ways to read the value, and one to skip it. Where a read succeeds, a value
of the wire type in the tag stands there and the read takes that value and no more, so skipping leaves
the same reader. A loop over a message that skips some of the fields which it used to read therefore
stays at the same tags.
-/

namespace KotlinNullability.Wire

/-! ## Reads that take one value -/

/-- Where the read succeeds, a value of the wire type stands there, and the read takes it and no
more. -/
def Spans {α : Type} (wire : WireType) (m : Read Cursor α) : Prop :=
  ∀ c a after, m c = .ok a after → ∃ value, Cursor.readValue wire c = .ok value after

/-- Where the read succeeds, a value of the wire type of the current field stands there, and the read
takes it and no more. -/
def TakesValue {ε α : Type} (m : EStateM ε Reader α) : Prop :=
  ∀ c current a after, m ⟨c, current⟩ = .ok a after → ∃ tag value c',
    current = some tag ∧ Cursor.readValue tag.wire c = .ok value c' ∧ after = ⟨c', some tag⟩

/-- A varint of a width that allows fewer bytes is a varint where more are allowed. -/
theorem Varint.scan_mono {cap cap' : Nat} (hcap : cap ≤ cap') {bytes groups rest : List UInt8}
    (h : scan cap bytes = .complete groups rest) : scan cap' bytes = .complete groups rest := by
  induction cap generalizing cap' bytes groups with
  | zero => cases h
  | succ cap ih =>
    obtain ⟨more, rfl⟩ : ∃ more, cap' = more + 1 := ⟨cap' - 1, by omega⟩
    cases bytes with
    | nil => cases h
    | cons b bytes =>
      rw [scan_cons_eq_complete_iff] at h ⊢
      obtain hlast | ⟨hmore, tail, hgroups, htail⟩ := h
      · exact .inl hlast
      · exact .inr ⟨hmore, tail, hgroups, ih (by omega) htail⟩

namespace Spans

variable {α β : Type} {wire : WireType} {m : Read Cursor α}

theorem map (h : Spans wire m) (g : α → β) : Spans wire (m >>= fun a => pure (g a)) := by
  intro c b after hrun
  obtain ⟨a, hm, -⟩ := map_eq_ok_iff.mp hrun
  exact h c a after hm

theorem varint (width : Width) : Spans .varint (Cursor.readVarint width.bits false) := by
  intro c n after hrun
  refine ⟨.varint (signed 64 (Varint.valueOf (c.unread.take (after.position - c.position)))),
    map_eq_ok_iff.mpr ⟨_, ?_, rfl⟩⟩
  unfold Cursor.readVarint at hrun ⊢
  simp only [Bool.and_false, Bool.false_eq_true, if_false] at hrun ⊢
  split at hrun
  · next groups rest hscan =>
    have hcap : Varint.capOf width.bits ≤ Varint.capOf 64 := by cases width <;> decide
    have hgroups := (Varint.scan_complete hscan).1
    cases hrun
    rw [Varint.scan_mono hcap hscan, hgroups]
    simp
  · cases hrun
  · cases hrun

theorem fixed32 : Spans .fixed32 (Cursor.readFixed 4) := by
  intro c n after hrun
  obtain ⟨bytes, hbytes, -⟩ := map_eq_ok_iff.mp hrun
  exact ⟨.fixed32 bytes, map_eq_ok_iff.mpr ⟨bytes, hbytes, rfl⟩⟩

theorem fixed64 : Spans .fixed64 (Cursor.readFixed 8) := by
  intro c n after hrun
  obtain ⟨bytes, hbytes, -⟩ := map_eq_ok_iff.mp hrun
  exact ⟨.fixed64 bytes, map_eq_ok_iff.mpr ⟨bytes, hbytes, rfl⟩⟩

theorem delimited : Spans .delimited Cursor.readDelimited := fun _ bytes _ hrun =>
  ⟨.delimited bytes, map_eq_ok_iff.mpr ⟨bytes, hrun, rfl⟩⟩

theorem slice : Spans .delimited Cursor.sliceDelimited := fun c inner after hrun =>
  delimited c inner.unread after (Cursor.sliceDelimited_eq_ok_iff.mp hrun).1

theorem skip (wire : WireType) : Spans wire (Cursor.skip wire) := fun _ _ _ hrun =>
  Cursor.skip_eq_ok_iff.mp hrun

/-- An integer of either width and any kind takes a value of its wire type. -/
theorem readInteger (width : Width) (kind : IntegerKind) :
    Spans (kind.wire width) (match width with
      | .short => Cursor.readInt32 kind
      | .long => Cursor.readInt64 kind) := by
  match width, kind with
  | .short, .plain => exact (varint .long).map _
  | .short, .zigzag => exact (varint .short).map _
  | .short, .fixed => exact fixed32
  | .long, .plain => exact varint .long
  | .long, .zigzag => exact (varint .long).map _
  | .long, .fixed => exact fixed64

end Spans

namespace TakesValue

variable {ε α β : Type}

theorem map {m : EStateM ε Reader α} (h : TakesValue m) (g : α → β) :
    TakesValue (m >>= fun a => pure (g a)) := by
  intro c current b after hrun
  obtain ⟨a, hm, -⟩ := map_eq_ok_iff.mp hrun
  exact h c current a after hm

theorem liftFault {m : Read Reader α} (h : TakesValue m) : TakesValue (Wire.liftFault m) :=
  fun c current a after hrun => h c current a after (liftFault_eq_ok_iff.mp hrun)

/-- The current field is read with the wire type that is expected of it. -/
theorem expect {wire : WireType} {m : Read Cursor α} (h : Spans wire m) :
    TakesValue (do Reader.expect wire; Reader.onCursor m) := by
  intro c current a after hrun
  obtain ⟨hwire, hread⟩ := Reader.expect_bind_eq_ok_iff.mp hrun
  obtain ⟨tag, rfl, rfl⟩ := Option.map_eq_some_iff.mp hwire
  obtain ⟨c', hm, rfl⟩ := Reader.onCursor_eq_ok_iff.mp hread
  obtain ⟨value, hvalue⟩ := h c a c' hm
  exact ⟨tag, value, c', rfl, hvalue, rfl⟩

theorem integer (width : Width) (kind : IntegerKind) : TakesValue (Reader.readInteger width kind) := by
  have hspans := Spans.readInteger width kind
  match width, kind with
  | .short, .plain => exact expect hspans
  | .short, .zigzag => exact expect hspans
  | .short, .fixed => exact expect hspans
  | .long, .plain => exact expect hspans
  | .long, .zigzag => exact expect hspans
  | .long, .fixed => exact expect hspans

theorem bytes : TakesValue Reader.readBytes := expect .delimited

theorem text : TakesValue Reader.readText := bytes.map _

theorem enter : TakesValue Reader.enter := by
  intro c current nested after hrun
  obtain ⟨content, hcontent, -⟩ := Reader.enter_eq_ok_iff.mp hrun
  exact bytes c current content after hcontent

theorem ints : TakesValue Reader.readInts := by
  intro c current ns after hrun
  unfold Reader.readInts at hrun
  split at hrun
  · exact (integer .short .plain).map (fun n => [n]) c current ns after hrun
  · split at hrun
    · cases hrun
    · next run mid henter =>
      split at hrun
      · cases hrun
        exact enter c current run after henter
      · cases hrun

theorem skip : TakesValue (Reader.skipField none) := by
  intro c current a after hrun
  cases current with
  | none => cases hrun
  | some tag =>
    obtain ⟨c', hskip, rfl⟩ := Reader.onCursor_eq_ok_iff.mp hrun
    obtain ⟨value, hvalue⟩ := Spans.skip tag.wire c () c' hskip
    exact ⟨tag, value, c', rfl, hvalue, rfl⟩

/-- Whatever the rule of a field, reading it takes its value. -/
theorem field {σ : Type} (rule : Option (FieldRule σ)) (state : σ) :
    TakesValue (FieldRule.read rule state) :=
  match rule with
  | none => skip.liftFault.map fun _ => state
  | some (.int set) => (integer .short .plain).liftFault.map fun n => set n state
  | some (.ints add) => ints.liftFault.map fun ns => add ns state
  | some (.text set) => text.liftFault.map fun t => set t state
  | some (.message read) => by
    intro c current next after hrun
    obtain ⟨nested, mid, henter, hnext⟩ := bind_eq_ok_iff.mp hrun
    cases hread : read nested with
    | ok update =>
      rw [hread] at hnext
      cases hnext
      exact enter.liftFault c current nested after henter
    | error e =>
      rw [hread] at hnext
      cases hnext

end TakesValue

/-- Where a value of the current field's wire type stands, it can be skipped, by the wire type in the
tag or by the same one when it is given. -/
theorem Reader.skipField_of_readValue {tag : Tag} {c c' : Cursor} {value : Value}
    (h : Cursor.readValue tag.wire c = .ok value c') :
    skipField none ⟨c, some tag⟩ = .ok () ⟨c', some tag⟩ ∧
      skipField (some tag.wire.code) ⟨c, some tag⟩ = .ok () ⟨c', some tag⟩ := by
  have hskip : onCursor (Cursor.skip tag.wire) ⟨c, some tag⟩ = .ok () ⟨c', some tag⟩ :=
    onCursor_eq_ok_iff.mpr ⟨c', Cursor.skip_eq_ok_iff.mpr ⟨value, h⟩, rfl⟩
  refine ⟨hskip, ?_⟩
  unfold skipField
  simpa using hskip

/-! ## Loops that skip -/

/-- The schema without its rules for some field numbers, so that their fields are skipped. -/
def Schema.skipping {σ : Type} (schema : Schema σ) (skipped : Nat → Bool) : Schema σ :=
  fun number => if skipped number then none else schema number

/-- A field that is read is read in any state. -/
theorem FieldRule.exists_read {σ : Type} {rule : Option (FieldRule σ)} {state next : σ}
    {r after : Reader} (h : FieldRule.read rule state r = .ok next after) (start : σ) :
    ∃ next', FieldRule.read rule start r = .ok next' after :=
  match rule with
  | none => by
    obtain ⟨⟨⟩, hskip, -⟩ := map_eq_ok_iff.mp h
    exact ⟨start, map_eq_ok_iff.mpr ⟨(), hskip, rfl⟩⟩
  | some (.int _) => by
    obtain ⟨n, hn, -⟩ := map_eq_ok_iff.mp h
    exact ⟨_, map_eq_ok_iff.mpr ⟨n, hn, rfl⟩⟩
  | some (.ints _) => by
    obtain ⟨ns, hns, -⟩ := map_eq_ok_iff.mp h
    exact ⟨_, map_eq_ok_iff.mpr ⟨ns, hns, rfl⟩⟩
  | some (.text _) => by
    obtain ⟨t, ht, -⟩ := map_eq_ok_iff.mp h
    exact ⟨_, map_eq_ok_iff.mpr ⟨t, ht, rfl⟩⟩
  | some (.message read) => by
    obtain ⟨nested, mid, henter, hnext⟩ := bind_eq_ok_iff.mp h
    cases hread : read nested with
    | ok update =>
      rw [hread] at hnext
      cases hnext
      refine ⟨update start, bind_eq_ok_iff.mpr ⟨nested, after, henter, ?_⟩⟩
      rw [hread]
      rfl
    | error e =>
      rw [hread] at hnext
      cases hnext

/-- A field that is read by its rule is skipped where it has none. -/
theorem FieldRule.read_none {σ : Type} {rule : Option (FieldRule σ)} {state next : σ}
    {r after : Reader} (h : FieldRule.read rule state r = .ok next after) (start : σ) :
    FieldRule.read none start r = .ok start after := by
  obtain ⟨c, current⟩ := r
  obtain ⟨tag, value, c', rfl, hvalue, rfl⟩ := TakesValue.field rule state c current next after h
  have hskip := (Reader.skipField_of_readValue hvalue).1
  exact map_eq_ok_iff.mpr ⟨(), liftFault_eq_ok_iff.mpr hskip, rfl⟩

/-- Behind as many fields, a loop that skips some of them stands where it would have stood. -/
theorem Schema.Steps.exists_skipping {σ : Type} {schema : Schema σ} {count : Nat} {state last : σ}
    {r after : Reader} (h : schema.Steps count state r last after) (skipped : Nat → Bool)
    (start : σ) : ∃ last', (schema.skipping skipped).Steps count start r last' after := by
  induction h generalizing start with
  | start => exact ⟨start, .start⟩
  | @field count state next last r atValue behind after tag head value _ ih =>
    obtain ⟨next', hnext⟩ : ∃ next',
        FieldRule.read (schema.skipping skipped tag.field) start atValue = .ok next' behind := by
      unfold skipping
      split
      · exact ⟨start, FieldRule.read_none value start⟩
      · exact FieldRule.exists_read value start
    obtain ⟨last', hlast⟩ := ih next'
    exact ⟨last', .field head hnext hlast⟩

/-! ## Operations on readers -/

/-- An operation that reads the value of the current field. -/
inductive ValueOp where
  | integer (width : Width) (kind : IntegerKind)
  | enter
  | bytes
  | text
  | ints
  deriving DecidableEq, Repr

/-- The operation on a reader. -/
def ValueOp.op : ValueOp → ReaderOp
  | integer width kind => .integer width kind
  | enter => .enter
  | bytes => .bytes
  | text => .text
  | ints => .ints

theorem TakesValue.valueOp (o : ValueOp) : TakesValue o.op.act := by
  cases o with
  | integer width kind => exact (integer width kind).map _
  | enter => exact enter.map _
  | bytes => exact bytes.map _
  | text => exact text.map _
  | ints => exact ints.map _

/-- A tag that is found becomes current, and at the end of a message there is none. -/
theorem Reader.current_of_readTag {before r : Reader} {found : Option Tag}
    (h : readTag before = .ok found r) : r.current = found := by
  unfold readTag at h
  split at h
  · cases h
  · split at h
    · cases h
      rfl
    · split at h
      · cases h
        rfl
      · cases h

/-- Behind a tag, where any of the operations reads the value, skipping it succeeds and leaves the same
reader, whether the wire type is taken from the tag or given. So a loop over a message, in which the
fields of some numbers are skipped where they have been read, stands behind as many fields in front of
the same tag. -/
theorem skip_keeps_pace :
    (∀ (o : ValueOp) (before r after : Reader) (found : Option Tag) (a : Datum ⊕ Reader),
      Reader.readTag before = .ok found r → o.op.act r = .ok a after →
        ∃ tag, found = some tag ∧ after.current = some tag ∧
          Reader.skipField none r = .ok () after ∧
          Reader.skipField (some tag.wire.code) r = .ok () after) ∧
    ∀ (σ : Type) (schema : Schema σ) (count : Nat) (state last : σ) (r after : Reader),
      schema.Steps count state r last after → ∀ (skipped : Nat → Bool) (start : σ),
        ∃ last', (schema.skipping skipped).Steps count start r last' after := by
  refine ⟨fun o before r after found a htag hread => ?_,
    fun σ schema count state last r after h => h.exists_skipping⟩
  obtain ⟨c, current⟩ := r
  obtain ⟨tag, value, c', rfl, hvalue, rfl⟩ := TakesValue.valueOp o c current a after hread
  obtain ⟨hskip, hgiven⟩ := Reader.skipField_of_readValue hvalue
  exact ⟨tag, (Reader.current_of_readTag htag).symm, rfl, hskip, hgiven⟩

/-- A zigzag code in three bytes, of which the last two hold nothing, and a loop over this field that
reads it as an integer. -/
theorem skip_keeps_pace_padded :
    let before : Reader := .ofBytes [0x08, 0x83, 0x80, 0x00, 0x10]
    let r : Reader := ⟨⟨1, [0x83, 0x80, 0x00, 0x10]⟩, some ⟨1, .varint⟩⟩
    let after : Reader := ⟨⟨4, [0x10]⟩, some ⟨1, .varint⟩⟩
    let schema : Schema Int := fun number => if number = 1 then some (.int fun n _ => n) else none
    (ValueOp.integer .short .zigzag).op.act r = .ok (.inl (.int (-2))) after ∧
      Reader.skipField none r = .ok () after ∧ Reader.skipField (some 0) r = .ok () after ∧
      schema.Steps 1 0 before 3 after ∧
      ∃ last, (schema.skipping fun _ => true).Steps 1 0 before last after := by
  intro before r after schema
  have htag : Reader.readTag before = .ok (some ⟨1, .varint⟩) r :=
    Reader.readTag_eq_some_iff.mpr ⟨[0x08], _, by decide, rfl, rfl⟩
  have hthree (width : Width) :
      Cursor.readVarint width.bits false r.cursor = .ok 3 after.cursor := by
    cases width <;> exact congrArg (EStateM.Result.ok · after.cursor) (by decide)
  have hint : Cursor.readInt32 .zigzag r.cursor = .ok (-2) after.cursor :=
    map_eq_ok_iff.mpr ⟨3, hthree .short, by decide⟩
  have hread : (ValueOp.integer .short .zigzag).op.act r = .ok (.inl (.int (-2))) after :=
    map_eq_ok_iff.mpr ⟨-2, Reader.expect_bind_eq_ok_iff.mpr
      ⟨rfl, Reader.onCursor_eq_ok_iff.mpr ⟨_, hint, rfl⟩⟩, rfl⟩
  have hsteps : schema.Steps 1 0 before 3 after := by
    refine .field htag (map_eq_ok_iff.mpr ⟨3, liftFault_eq_ok_iff.mpr ?_, rfl⟩) .start
    refine Reader.expect_bind_eq_ok_iff.mpr ⟨rfl, Reader.onCursor_eq_ok_iff.mpr ⟨_, ?_, rfl⟩⟩
    exact map_eq_ok_iff.mpr ⟨3, hthree .long, by decide⟩
  obtain ⟨tag, htag', -, hskip, hgiven⟩ := skip_keeps_pace.1 _ _ _ _ _ _ htag hread
  cases htag'
  exact ⟨hread, hskip, hgiven, hsteps, skip_keeps_pace.2 _ _ _ _ _ _ _ hsteps (fun _ => true) 0⟩

end KotlinNullability.Wire
