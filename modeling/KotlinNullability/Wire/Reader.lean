import KotlinNullability.Text.Utf8
import KotlinNullability.Wire.Varint

/-!
# Field readers

A field reader walks one message: it reads a tag, which becomes current, and then either reads the
value in a form that fits the wire type of the tag or skips it. A nested message is read through a
reader of its own, which covers exactly the bytes of that message.
-/

namespace KotlinNullability.Wire

/-- How an integer is coded. -/
inductive IntegerKind where
  /-- A varint in two's complement. -/
  | plain
  /-- A varint that holds a zigzag code. -/
  | zigzag
  /-- Little-endian bytes. -/
  | fixed
  deriving DecidableEq, Repr

namespace Cursor

/-- Read an integer of 32 bits. A plain one is taken from the low bits of a 64-bit varint, since a
negative number of 32 bits is written with its sign extended. -/
def readInt32 : IntegerKind → Read Cursor Int
  | .plain => return signed 32 (← readVarint 64 false)
  | .zigzag => return unzigzag ((← readVarint 32 false) % 0x100000000).toNat
  | .fixed => readFixed 4

/-- Read an integer of 64 bits. -/
def readInt64 : IntegerKind → Read Cursor Int
  | .plain => readVarint 64 false
  | .zigzag => return unzigzag ((← readVarint 64 false) % 0x10000000000000000).toNat
  | .fixed => readFixed 8

/-- Read a length. -/
def readLength : Read Cursor Nat := do
  let length ← readInt32 .plain
  if length < 0 then throw (.negativeLength length) else pure length.toNat

/-- Read a length and so many bytes. -/
def readDelimited : Read Cursor (List UInt8) := do
  readExact (← readLength)

/-- Read a length and hand out a cursor over so many bytes. -/
def sliceDelimited : Read Cursor Cursor := do
  slice (← readLength)

/-- Move past a value. -/
def skip : WireType → Read Cursor Unit
  | .varint => do discard (readVarint 64 false)
  | .fixed64 => do discard (readExact 8)
  | .delimited => do discard readDelimited
  | .fixed32 => do discard (readExact 4)

end Cursor

namespace Forward

theorem readInt32 (kind : IntegerKind) : Forward (Cursor.readInt32 kind) := by
  cases kind with
  | plain => exact .bind (.readVarint 64 false) fun _ => .pure _
  | zigzag => exact .bind (.readVarint 32 false) fun _ => .pure _
  | fixed => exact .readFixed 4

theorem readInt64 (kind : IntegerKind) : Forward (Cursor.readInt64 kind) := by
  cases kind with
  | plain => exact .readVarint 64 false
  | zigzag => exact .bind (.readVarint 64 false) fun _ => .pure _
  | fixed => exact .readFixed 8

theorem readLength : Forward Cursor.readLength := by
  refine .bind (.readInt32 .plain) fun length => ?_
  split
  · exact .throw _
  · exact .pure _

theorem readDelimited : Forward Cursor.readDelimited := .bind .readLength .readExact

theorem sliceDelimited : Forward Cursor.sliceDelimited := .bind .readLength .slice

theorem skip (wire : WireType) : Forward (Cursor.skip wire) := by
  cases wire with
  | varint => exact .bind (.readVarint 64 false) fun _ => .pure _
  | fixed64 => exact .bind (.readExact 8) fun _ => .pure _
  | delimited => exact .bind .readDelimited fun _ => .pure _
  | fixed32 => exact .bind (.readExact 4) fun _ => .pure _

end Forward

theorem Varint.scan_complete_length {cap : Nat} {bytes groups rest : List UInt8}
    (h : Varint.scan cap bytes = .complete groups rest) : rest.length < bytes.length := by
  obtain ⟨hb, hne⟩ := Varint.scan_complete h
  have := List.length_pos_iff.2 hne
  rw [hb, List.length_append]
  omega

/-- A varint that was read from a window with bytes took at least one of them. -/
theorem Cursor.readVarint_shortens {bits : Nat} {endAllowed : Bool} {c after : Cursor} {n : Int}
    (hne : c.unread ≠ []) (h : Cursor.readVarint bits endAllowed c = .ok n after) :
    after.unread.length < c.unread.length := by
  unfold Cursor.readVarint at h
  have hempty : c.unread.isEmpty = false := by simpa using hne
  simp only [hempty, Bool.false_and, Bool.false_eq_true, if_false] at h
  split at h
  · next hs =>
    cases h
    exact Varint.scan_complete_length hs
  · cases h
  · cases h

/-- The varints of a packed run, each as an integer of 32 bits. -/
def packedInts (c : Cursor) : Except Fault (List Int) :=
  if _hne : c.unread = [] then .ok []
  else
    match _h : Cursor.readVarint 64 false c with
    | .error fault _ => .error fault
    | .ok n after => (packedInts after).map (signed 32 n :: ·)
termination_by c.unread.length
decreasing_by exact Cursor.readVarint_shortens _hne _h

/-- A cursor over a message and the tag that was read last. -/
structure Reader where
  cursor : Cursor
  current : Option Tag
  deriving DecidableEq, Repr

namespace Reader

/-- A reader at the start of a message. -/
def ofCursor (c : Cursor) : Reader := ⟨c, none⟩

/-- A reader over a whole buffer. -/
def ofBytes (bytes : List UInt8) : Reader := ofCursor (.ofBytes bytes)

/-- Run a read on the cursor of a reader. -/
def onCursor {α : Type} (m : Read Cursor α) : Read Reader α := fun r =>
  match m r.cursor with
  | .ok a c => .ok a { r with cursor := c }
  | .error fault c => .error fault { r with cursor := c }

/-- Read the next tag, which becomes current, or find the end of the message. The end is also taken
from a varint whose value is `-1`. -/
def readTag : Read Reader (Option Tag) := fun r =>
  match Cursor.readVarint 64 true r.cursor with
  | .error fault c => .error fault { r with cursor := c }
  | .ok header c =>
    if header = -1 then .ok none ⟨c, none⟩
    else
      match Tag.ofHeader (header % 0x100000000).toNat with
      | .ok tag => .ok (some tag) ⟨c, some tag⟩
      | .error fault => .error fault { r with cursor := c }

/-- Move past the value of the current field, or past a value of a given wire type. -/
def skipField (code : Option Int) : Read Reader Unit := fun r =>
  let wire : Option WireType :=
    match code with
    | none => r.current.map (·.wire)
    | some n => if 0 ≤ n then WireType.ofCode? n.toNat else none
  match wire with
  | some wire => onCursor (Cursor.skip wire) r
  | none => .error (Numeral.worded code.toList .unwritable (.unsupportedWireType (.skip code))) r

/-- Check that the current field has a wire type. -/
def expect (wire : WireType) : Read Reader Unit := fun r =>
  if r.current.map (·.wire) = some wire then .ok () r
  else .error (.wireTypeMismatch wire r.current) r

/-- Read the current field as an integer of 32 bits. -/
def readInt (kind : IntegerKind) : Read Reader Int := do
  expect (if kind = .fixed then .fixed32 else .varint)
  onCursor (Cursor.readInt32 kind)

/-- Read the current field as an integer of 64 bits. -/
def readLong (kind : IntegerKind) : Read Reader Int := do
  expect (if kind = .fixed then .fixed64 else .varint)
  onCursor (Cursor.readInt64 kind)

/-- Read a length with no tag before it and enter so many bytes as a message. -/
def enterTagless : Read Reader Reader := do
  return ofCursor (← onCursor Cursor.sliceDelimited)

/-- Enter the current field as a nested message. -/
def enter : Read Reader Reader := do
  expect .delimited
  enterTagless

/-- Read the current field as bytes. -/
def readBytes : Read Reader (List UInt8) := do
  expect .delimited
  onCursor Cursor.readDelimited

/-- Read the current field as text; ill-formed bytes are replaced. -/
def readText : Read Reader Text := do
  return Utf8.decodeLossy (← readBytes)

/-- Read an occurrence of a repeated integer field: either one varint or a packed run of them. -/
def readInts : Read Reader (List Int) := fun r =>
  if r.current.map (·.wire) = some .varint then (return [← readInt .plain] : Read Reader _) r
  else
    match enter r with
    | .error fault after => .error fault after
    | .ok run after =>
      match packedInts run.cursor with
      | .ok values => .ok values after
      | .error fault => .error fault after

/-- A read that moves the cursor of its reader forward only. -/
def Advances {α : Type} (m : Read Reader α) : Prop :=
  ∀ r, Cursor.Follows (leaves (m r)).cursor r.cursor

namespace Advances

theorem pure {α : Type} (a : α) : Advances (Pure.pure a) := fun r => .refl r.cursor

theorem bind {α β : Type} {m : Read Reader α} {f : α → Read Reader β} (hm : Advances m)
    (hf : ∀ a, Advances (f a)) : Advances (m >>= f) := by
  intro r
  have h := hm r
  show Cursor.Follows (leaves (EStateM.bind m f r)).cursor r.cursor
  unfold EStateM.bind
  cases hr : m r with
  | ok a r' =>
    rw [hr] at h
    exact (hf a r').trans h
  | error e r' =>
    rw [hr] at h
    exact h

theorem onCursor {α : Type} {m : Read Cursor α} (hm : Forward m) :
    Advances (Reader.onCursor m) := by
  intro r
  have h := hm r.cursor
  unfold Reader.onCursor
  cases hr : m r.cursor <;> rw [hr] at h <;> exact h

theorem expect (wire : WireType) : Advances (Reader.expect wire) := by
  intro r
  unfold Reader.expect
  split <;> exact .refl _

theorem readTag : Advances Reader.readTag := by
  intro r
  have h := Forward.readVarint 64 true r.cursor
  unfold Reader.readTag
  cases hr : Cursor.readVarint 64 true r.cursor with
  | error fault c => rw [hr] at h; exact h
  | ok header c =>
    rw [hr] at h
    dsimp only
    split
    · exact h
    · split <;> exact h

theorem skipField (code : Option Int) : Advances (Reader.skipField code) := by
  intro r
  unfold Reader.skipField
  dsimp only
  split
  · exact onCursor (.skip _) r
  · exact .refl _

theorem readInt (kind : IntegerKind) : Advances (Reader.readInt kind) :=
  .bind (.expect _) fun _ => .onCursor (.readInt32 kind)

theorem readLong (kind : IntegerKind) : Advances (Reader.readLong kind) :=
  .bind (.expect _) fun _ => .onCursor (.readInt64 kind)

theorem enterTagless : Advances Reader.enterTagless :=
  .bind (.onCursor .sliceDelimited) fun _ => .pure _

theorem enter : Advances Reader.enter := .bind (.expect _) fun _ => enterTagless

theorem readBytes : Advances Reader.readBytes :=
  .bind (.expect _) fun _ => .onCursor .readDelimited

theorem readText : Advances Reader.readText := .bind readBytes fun _ => .pure _

theorem readInts : Advances Reader.readInts := by
  intro r
  have h := enter r
  unfold Reader.readInts
  split
  · exact bind (readInt .plain) (fun _ => .pure _) r
  · cases hr : Reader.enter r with
    | error fault after => rw [hr] at h; exact h
    | ok run after =>
      rw [hr] at h
      dsimp only
      split <;> exact h

end Advances

/-- A tag that was read took at least one byte. -/
theorem readTag_shortens {r after : Reader} {tag : Tag} (h : readTag r = .ok (some tag) after) :
    after.cursor.unread.length < r.cursor.unread.length := by
  unfold readTag at h
  by_cases hne : r.cursor.unread = []
  · simp [Cursor.readVarint, hne] at h
  · cases hr : Cursor.readVarint 64 true r.cursor with
    | error fault c => rw [hr] at h; cases h
    | ok header c =>
      rw [hr] at h
      have hlt := Cursor.readVarint_shortens hne hr
      dsimp only at h
      split at h
      · cases h
      · split at h
        · cases h
          exact hlt
        · cases h

end Reader

end KotlinNullability.Wire
