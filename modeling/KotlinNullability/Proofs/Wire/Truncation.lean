import KotlinNullability.Proofs.Wire.Spelling
import KotlinNullability.Proofs.Wire.Wording

/-!
# Messages that are cut off

A read does not look behind the bytes that it takes. When bytes are added at the end of its window,
it does the same as before, unless it ran out of bytes before. The one read that asks whether the
window is over is that of a tag, so a walk over a message that is cut off runs out of bytes, or
stops at the cut in the state that it has reached so far, or does the same as over the whole
message.
-/

namespace KotlinNullability

namespace Wire

/-- The cursor with more bytes at the end of its window. -/
def Cursor.feed (more : List UInt8) (c : Cursor) : Cursor := ⟨c.position, c.unread ++ more⟩

/-- The reader with more bytes at the end of its window. -/
def Reader.feed (more : List UInt8) (r : Reader) : Reader := ⟨r.cursor.feed more, r.current⟩

/-- The fault is the end of the input. -/
def Fault.IsShortage (fault : Fault) : Prop := ∃ shortage, fault = .endOfInput shortage

/-- A result that leaves another state. -/
def onState {ε σ α : Type} (g : σ → σ) : EStateM.Result ε σ α → EStateM.Result ε σ α
  | .ok a s => .ok a (g s)
  | .error e s => .error e (g s)

end Wire

/-- The error is the end of the input. -/
def DecodeError.IsShortage (e : DecodeError) : Prop := ∃ shortage, e = .wire (.endOfInput shortage)

namespace Wire

/-- In the state, the read runs out of bytes, or does the same when bytes are added. -/
def SteadyAt {ε σ α : Type} (short : ε → Prop) (feed : List UInt8 → σ → σ) (m : EStateM ε σ α)
    (s : σ) : Prop :=
  ∀ more, (∃ e after, short e ∧ m s = .error e after) ∨ m (feed more s) = onState (feed more) (m s)

/-- The read runs out of bytes, or does the same when bytes are added. -/
def Steady {ε σ α : Type} (short : ε → Prop) (feed : List UInt8 → σ → σ) (m : EStateM ε σ α) :
    Prop :=
  ∀ s, SteadyAt short feed m s

namespace SteadyAt

variable {ε σ α : Type} {short : ε → Prop} {feed : List UInt8 → σ → σ} {m : EStateM ε σ α}
  {s after : σ}

/-- A steady read that succeeds gives the same result when bytes are added. -/
theorem of_ok {a : α} (h : SteadyAt short feed m s) (hrun : m s = .ok a after)
    (more : List UInt8) : m (feed more s) = .ok a (feed more after) := by
  obtain ⟨_, _, -, hshort⟩ | hfed := h more
  · rw [hrun] at hshort
    cases hshort
  · rw [hfed, hrun]
    rfl

/-- A steady read that fails has run out of bytes, or fails alike when bytes are added. -/
theorem of_error {e : ε} (h : SteadyAt short feed m s) (hrun : m s = .error e after)
    (more : List UInt8) : short e ∨ m (feed more s) = .error e (feed more after) := by
  obtain ⟨_, _, he, hshort⟩ | hfed := h more
  · rw [hrun] at hshort
    cases hshort
    exact .inl he
  · rw [hfed, hrun]
    exact .inr rfl

end SteadyAt

/-- A varint that is not over yet may go on in the bytes that are added; otherwise they come after
what was found. -/
theorem Varint.scan_append (cap : Nat) (bytes more : List UInt8) :
    scan cap bytes = .unfinished ∨ scan cap (bytes ++ more) = match scan cap bytes with
      | .complete groups rest => .complete groups (rest ++ more)
      | .unfinished => .unfinished
      | .tooLong rest => .tooLong (rest ++ more) := by
  induction cap generalizing bytes with
  | zero => exact .inr rfl
  | succ cap ih =>
    cases bytes with
    | nil => exact .inl rfl
    | cons b bytes =>
      rw [List.cons_append, scan, scan]
      by_cases hlast : b.toNat < 0x80
      · simp [hlast]
      · simp only [hlast, if_false]
        obtain hscan | hscan := ih bytes
        · exact .inl (by rw [hscan])
        · refine .inr ?_
          rw [hscan]
          cases scan cap bytes <;> rfl

namespace Steady

section Combinators

variable {ε σ α β : Type} {short : ε → Prop} {feed : List UInt8 → σ → σ} {m : EStateM ε σ α}
  {f : α → EStateM ε σ β}

theorem pure (a : α) : Steady short feed (Pure.pure a : EStateM ε σ α) := fun _ _ => .inr rfl

theorem throw (e : ε) : Steady short feed (MonadExcept.throw e : EStateM ε σ α) :=
  fun _ _ => .inr rfl

/-- What follows a read has to be steady only for the values that the read gives. -/
theorem bind_of_values {P : α → Prop} (hm : Steady short feed m)
    (hP : ∀ {s a after}, m s = .ok a after → P a) (hf : ∀ a, P a → Steady short feed (f a)) :
    Steady short feed (m >>= f) := by
  intro s more
  change (∃ e after, short e ∧ EStateM.bind m f s = .error e after) ∨
    EStateM.bind m f (feed more s) = onState (feed more) (EStateM.bind m f s)
  unfold EStateM.bind
  obtain ⟨e, after, he, hrun⟩ | hrun := hm s more
  · rw [hrun]
    exact .inl ⟨e, after, he, rfl⟩
  · rw [hrun]
    cases hs : m s with
    | ok a mid => exact hf a (hP hs) mid more
    | error e mid => exact .inr rfl

theorem bind (hm : Steady short feed m) (hf : ∀ a, Steady short feed (f a)) :
    Steady short feed (m >>= f) :=
  hm.bind_of_values (fun _ => trivial) fun a _ => hf a

end Combinators

section Cursors

theorem varint (bits : Nat) :
    Steady Fault.IsShortage Cursor.feed (Cursor.readVarint bits false) := by
  intro c more
  simp only [Cursor.readVarint, Bool.and_false, Bool.false_eq_true, if_false, Cursor.feed]
  obtain hscan | hscan := Varint.scan_append (Varint.capOf bits) c.unread more
  · rw [hscan]
    exact .inl ⟨_, _, ⟨.oneByte, rfl⟩, rfl⟩
  · cases hbytes : Varint.scan (Varint.capOf bits) c.unread with
    | unfinished => exact .inl ⟨_, _, ⟨.oneByte, rfl⟩, rfl⟩
    | complete groups rest =>
      rw [hbytes] at hscan
      rw [hscan]
      exact .inr rfl
    | tooLong rest =>
      rw [hbytes] at hscan
      rw [hscan]
      exact .inr rfl

theorem exact {count : Nat} (h : Numeral.isWritable count = true) :
    Steady Fault.IsShortage Cursor.feed (Cursor.readExact count) := by
  rintro ⟨position, bytes⟩ more
  unfold Cursor.readExact Cursor.available
  rw [Numeral.worded_singleton h]
  by_cases hcount : bytes.length < count
  · exact .inl ⟨_, _, ⟨_, rfl⟩, if_pos hcount⟩
  · have hle : count ≤ bytes.length := Nat.le_of_not_lt hcount
    have hfed : ¬ (bytes ++ more).length < count := by rw [List.length_append]; omega
    simp only [Cursor.feed, hcount, hfed, if_false, List.take_append_of_le_length hle,
      List.drop_append_of_le_length hle]
    exact .inr rfl

theorem slice {count : Nat} (h : Numeral.isWritable count = true) :
    Steady Fault.IsShortage Cursor.feed (Cursor.slice count) := by
  intro c more
  unfold Cursor.slice
  obtain ⟨e, after, he, hrun⟩ | hrun := exact h c more
  · rw [hrun]
    exact .inl ⟨e, after, he, rfl⟩
  · rw [hrun]
    cases Cursor.readExact count c <;> exact .inr rfl

theorem length : Steady Fault.IsShortage Cursor.feed Cursor.readLength := by
  refine .bind (.bind (varint 64) fun _ => .pure _) fun length => ?_
  split
  · exact .throw _
  · exact .pure _

theorem delimited : Steady Fault.IsShortage Cursor.feed Cursor.readDelimited :=
  length.bind_of_values Assures.length.of_ok fun _ => exact

theorem sliceDelimited : Steady Fault.IsShortage Cursor.feed Cursor.sliceDelimited :=
  length.bind_of_values Assures.length.of_ok fun _ => slice

theorem skip (wire : WireType) : Steady Fault.IsShortage Cursor.feed (Cursor.skip wire) := by
  cases wire with
  | varint => exact .bind (varint 64) fun _ => .pure _
  | fixed64 => exact .bind (exact rfl : Steady _ _ (Cursor.readExact 8)) fun _ => .pure _
  | delimited => exact .bind delimited fun _ => .pure _
  | fixed32 => exact .bind (exact rfl : Steady _ _ (Cursor.readExact 4)) fun _ => .pure _

end Cursors

section Readers

theorem onCursor {α : Type} {m : Read Cursor α} (h : Steady Fault.IsShortage Cursor.feed m) :
    Steady Fault.IsShortage Reader.feed (Reader.onCursor m) := by
  intro r more
  unfold Reader.onCursor
  obtain ⟨e, after, he, hrun⟩ | hrun := h r.cursor more
  · rw [hrun]
    exact .inl ⟨e, _, he, rfl⟩
  · refine .inr ?_
    simp only [Reader.feed, hrun]
    cases m r.cursor <;> rfl

theorem expect (wire : WireType) : Steady Fault.IsShortage Reader.feed (Reader.expect wire) := by
  intro r more
  by_cases hwire : r.current.map (·.wire) = some wire
  · simp only [Reader.expect, Reader.feed, hwire, if_true]
    exact .inr rfl
  · simp only [Reader.expect, Reader.feed, hwire, if_false]
    exact .inr rfl

theorem enterTagless : Steady Fault.IsShortage Reader.feed Reader.enterTagless :=
  .bind (.onCursor .sliceDelimited) fun _ => .pure _

theorem enter : Steady Fault.IsShortage Reader.feed Reader.enter :=
  .bind (.expect _) fun _ => enterTagless

theorem readBytes : Steady Fault.IsShortage Reader.feed Reader.readBytes :=
  .bind (.expect _) fun _ => .onCursor .delimited

theorem readInt : Steady Fault.IsShortage Reader.feed (Reader.readInt .plain) :=
  .bind (.expect _) fun _ => .onCursor (.bind (.varint 64) fun _ => .pure _)

theorem readInts : Steady Fault.IsShortage Reader.feed Reader.readInts := by
  intro r more
  unfold Reader.readInts
  by_cases hwire : r.current.map (·.wire) = some .varint
  · simp only [Reader.feed, hwire, if_true]
    exact Steady.bind readInt (fun n => .pure [n]) r more
  · simp only [Reader.feed, hwire, if_false]
    obtain ⟨e, after, he, hrun⟩ | hrun := enter r more
    · rw [hrun]
      exact .inl ⟨e, after, he, rfl⟩
    · refine .inr ?_
      simp only [Reader.feed] at hrun
      rw [hrun]
      cases Reader.enter r with
      | ok run after =>
        dsimp only [onState]
        cases packedInts run.cursor <;> rfl
      | error e after => rfl

theorem skipField : Steady Fault.IsShortage Reader.feed (Reader.skipField none) := by
  intro r more
  unfold Reader.skipField
  dsimp only [Reader.feed]
  cases r.current.map (·.wire) with
  | none => exact .inr rfl
  | some wire => exact onCursor (.skip wire) r more

/-- Where the end of the message is not found, a tag is read alike when bytes are added. -/
theorem readTag {r : Reader} (h : ∀ after, Reader.readTag r ≠ .ok none after) :
    SteadyAt Fault.IsShortage Reader.feed Reader.readTag r := by
  intro more
  have hne : r.cursor.unread ≠ [] := fun hnil =>
    h ⟨r.cursor, none⟩ (by simp [Reader.readTag, Cursor.readVarint, hnil])
  have hfed : (r.feed more).cursor.unread ≠ [] := by simp [Reader.feed, Cursor.feed, hne]
  unfold Reader.readTag
  rw [Cursor.readVarint_of_ne_nil hne, Cursor.readVarint_of_ne_nil hfed]
  obtain ⟨e, after, he, hrun⟩ | hrun := varint 64 r.cursor more
  · rw [hrun]
    exact .inl ⟨e, _, he, rfl⟩
  · refine .inr ?_
    simp only [Reader.feed, hrun]
    cases Cursor.readVarint 64 false r.cursor with
    | error e after => rfl
    | ok n after =>
      dsimp only [onState]
      by_cases hend : n = -1
      · simp only [hend, if_true]
        rfl
      · simp only [hend, if_false]
        cases Tag.ofHeader (n % 0x100000000).toNat <;> rfl

theorem liftFault {α : Type} {m : Read Reader α} (h : Steady Fault.IsShortage Reader.feed m) :
    Steady DecodeError.IsShortage Reader.feed (Wire.liftFault m) := by
  intro r more
  unfold Wire.liftFault
  obtain ⟨_, after, ⟨shortage, rfl⟩, hrun⟩ | hrun := h r more
  · rw [hrun]
    exact .inl ⟨_, after, ⟨shortage, rfl⟩, rfl⟩
  · rw [hrun]
    cases m r <;> exact .inr rfl

/-- A field is read alike by its rule when bytes are added behind it. -/
theorem field {σ : Type} (rule : Option (FieldRule σ)) (state : σ) :
    Steady DecodeError.IsShortage Reader.feed (FieldRule.read rule state) :=
  match rule with
  | none => .bind skipField.liftFault fun _ => .pure _
  | some (.int _) => .bind readInt.liftFault fun _ => .pure _
  | some (.ints _) => .bind readInts.liftFault fun _ => .pure _
  | some (.text _) => .bind (liftFault (.bind readBytes fun _ => .pure _)) fun _ => .pure _
  | some (.message read) => by
    refine .bind enter.liftFault fun nested => ?_
    split
    · exact .pure _
    · exact .throw _

end Readers

end Steady

/-- A walk over a message that is cut off runs out of bytes, or stops at the cut, from where the
walk over the whole message goes on, or does what the walk over the whole message does. -/
theorem walk_feed {σ : Type} (schema : Schema σ) (state : σ) (r : Reader) (more : List UInt8) :
    (∃ e, e.IsShortage ∧ (walk schema state r).error = some e) ∨
      ((walk schema state r).error = none ∧ ∃ rest,
        walk schema state (r.feed more) = walk schema (walk schema state r).state rest) ∨
      walk schema state (r.feed more) = walk schema state r := by
  fun_induction walk schema state r with
  | case1 state r fault after htag =>
    have hsteady := Steady.readTag (r := r) (by simp [htag])
    obtain ⟨shortage, rfl⟩ | hfed := hsteady.of_error htag more
    · exact .inl ⟨_, ⟨shortage, rfl⟩, rfl⟩
    · exact .inr (.inr (walk_of_readTag_error hfed))
  | case2 state r after htag => exact .inr (.inl ⟨rfl, r.feed more, rfl⟩)
  | case3 state r tag atValue htag e after hread =>
    have hsteady := Steady.readTag (r := r) (by simp [htag])
    obtain he | hfed := (Steady.field (schema tag.field) state atValue).of_error hread more
    · exact .inl ⟨e, he, rfl⟩
    · exact .inr (.inr (walk_of_read_error (hsteady.of_ok htag more) hfed))
  | case4 state r tag atValue htag next after hread ih =>
    have hsteady := Steady.readTag (r := r) (by simp [htag])
    have hfed := (Steady.field (schema tag.field) state atValue).of_ok hread more
    rw [walk_of_read (hsteady.of_ok htag more) hfed]
    exact ih

end Wire

end KotlinNullability
