import KotlinNullability.Wire.Tag

/-!
# Cursors

A cursor reads a window of a byte buffer from front to back. It keeps the bytes of the window that
are still unread and the position of the first of them in the buffer, so nothing outside the window
can be reached. A read either succeeds or fails with a fault, and in both cases says where it leaves
the cursor: `Follows` states that a cursor was moved forward inside its window, and every read moves
its cursor so.
-/

namespace KotlinNullability.Wire

/-- A position in a buffer and the bytes from there to the end of the window. -/
structure Cursor where
  position : Nat
  unread : List UInt8
  deriving DecidableEq, Repr

/-- A read with state `σ`: a value or a fault, and the state that is left either way. -/
abbrev Read (σ α : Type) := EStateM Fault σ α

/-- A window whose bounds do not lie in its buffer in order. -/
structure WindowError where
  start : Int
  stop : Int
  size : Nat
  deriving DecidableEq, Repr

/-- The wording of the error. -/
def WindowError.message (e : WindowError) : Text :=
  Numeral.worded [e.start, e.stop] Numeral.unwritableMessage
    ("Invalid cursor window [" ++ Numeral.ofInt e.start ++ ", " ++ Numeral.ofInt e.stop ++
      ") over " ++ Numeral.ofNat e.size ++ " bytes")

namespace Cursor

/-- The position at the end of the window. -/
def stop (c : Cursor) : Nat := c.position + c.unread.length

/-- The number of unread bytes. -/
def available (c : Cursor) : Nat := c.unread.length

/-- A cursor over a whole buffer. -/
def ofBytes (bytes : List UInt8) : Cursor := ⟨0, bytes⟩

/-- A cursor over the window `[start, stop)` of a buffer. -/
def window (data : List UInt8) (start stop : Int) : Except WindowError Cursor :=
  if 0 ≤ start ∧ start ≤ stop ∧ stop ≤ data.length then
    .ok ⟨start.toNat, (data.drop start.toNat).take (stop - start).toNat⟩
  else .error ⟨start, stop, data.length⟩

/-- The text that identifies a cursor. -/
def describe (c : Cursor) : Text :=
  "ByteCursor(position=" ++ Numeral.ofNat c.position ++ ", end=" ++ Numeral.ofNat c.stop ++ ")"

/-- The second cursor was moved forward to become the first, inside the same window. -/
def Follows (after before : Cursor) : Prop :=
  ∃ used, before.unread = used ++ after.unread ∧ after.position = before.position + used.length

namespace Follows

theorem refl (c : Cursor) : Follows c c := ⟨[], by simp⟩

theorem trans {a b c : Cursor} (hab : Follows a b) (hbc : Follows b c) : Follows a c := by
  obtain ⟨used, hu, hp⟩ := hab
  obtain ⟨used', hu', hp'⟩ := hbc
  refine ⟨used' ++ used, ?_, ?_⟩
  · rw [hu', hu, List.append_assoc]
  · rw [hp, hp', List.length_append, Nat.add_assoc]

theorem length_le {a b : Cursor} (h : Follows a b) : a.unread.length ≤ b.unread.length := by
  obtain ⟨used, hu, _⟩ := h
  rw [hu, List.length_append]
  exact Nat.le_add_left ..

/-- The end of the window stays where it is. -/
theorem stop_eq {a b : Cursor} (h : Follows a b) : a.stop = b.stop := by
  obtain ⟨used, hu, hp⟩ := h
  rw [stop, stop, hu, hp, List.length_append, Nat.add_assoc]

end Follows

/-- Read one byte. -/
def readByte : Read Cursor UInt8 := fun c =>
  match c.unread with
  | [] => .error (.endOfInput .oneByte) c
  | b :: unread => .ok b ⟨c.position + 1, unread⟩

/-- Read exactly so many bytes. -/
def readExact (count : Nat) : Read Cursor (List UInt8) := fun c =>
  if c.available < count then
    .error (Numeral.worded [(count : Int)] .unwritable (.endOfInput (.span c.available count))) c
  else .ok (c.unread.take count) ⟨c.position + count, c.unread.drop count⟩

/-- Move past so many bytes and hand out a cursor over exactly those. -/
def slice (count : Nat) : Read Cursor Cursor := fun c =>
  match readExact count c with
  | .ok bytes after => .ok ⟨c.position, bytes⟩ after
  | .error fault after => .error fault after

end Cursor

/-- The state that a run leaves, whether it succeeds or fails. -/
def leaves {ε σ α : Type} : EStateM.Result ε σ α → σ
  | .ok _ s => s
  | .error _ s => s

@[simp] theorem leaves_ok {ε σ α : Type} (a : α) (s : σ) :
    leaves (.ok a s : EStateM.Result ε σ α) = s := rfl

@[simp] theorem leaves_error {ε σ α : Type} (e : ε) (s : σ) :
    leaves (.error e s : EStateM.Result ε σ α) = s := rfl

/-- A read that only ever moves its cursor forward inside the window. -/
def Forward {α : Type} (m : Read Cursor α) : Prop :=
  ∀ c, Cursor.Follows (leaves (m c)) c

namespace Forward

theorem pure {α : Type} (a : α) : Forward (Pure.pure a) := fun c => Cursor.Follows.refl c

theorem throw {α : Type} (fault : Fault) : Forward (MonadExcept.throw fault : Read Cursor α) :=
  fun c => Cursor.Follows.refl c

theorem bind {α β : Type} {m : Read Cursor α} {f : α → Read Cursor β} (hm : Forward m)
    (hf : ∀ a, Forward (f a)) : Forward (m >>= f) := by
  intro c
  have h := hm c
  show Cursor.Follows (leaves (EStateM.bind m f c)) c
  unfold EStateM.bind
  cases hr : m c with
  | ok a c' =>
    rw [hr] at h
    exact (hf a c').trans h
  | error e c' =>
    rw [hr] at h
    exact h

theorem readByte : Forward Cursor.readByte := by
  intro c
  unfold Cursor.readByte
  split
  · exact Cursor.Follows.refl c
  · next b unread h => exact ⟨[b], by simp [h], by simp⟩

theorem readExact (count : Nat) : Forward (Cursor.readExact count) := by
  intro c
  unfold Cursor.readExact Cursor.available
  split
  · exact Cursor.Follows.refl c
  · next h => exact ⟨c.unread.take count, by simp, by simp; omega⟩

theorem slice (count : Nat) : Forward (Cursor.slice count) := by
  intro c
  have h := readExact count c
  unfold Cursor.slice
  cases hr : Cursor.readExact count c with
  | ok bytes after =>
    rw [hr] at h
    exact h
  | error fault after =>
    rw [hr] at h
    exact h

end Forward

end KotlinNullability.Wire
