import KotlinNullability.Proofs.Guarded.Window
import KotlinNullability.Proofs.Wire.Wording

/-!
# Guarded messages

The reads of a message and the walk over its fields, on guarded reads. A turn of a loop that leaves
the window where it was ends the run with a trap, as an index outside the window does, and so does an
error that cannot be worded. `Tells` states that a guarded run never traps, and comes to the same end.
-/

namespace KotlinNullability.Guarded

open Wire (Cursor Fault FieldRule Assures Schema Tag WireType)

/-- An error of decoding that is worded and is no misuse of the interned strings. -/
inductive Refusal where
  | wire (fault : Fault) (worded : fault ≠ .unwritable)
  | index (error : IndexError)
  deriving DecidableEq, Repr

/-- The refusal as an error of decoding. -/
def Refusal.error : Refusal → DecodeError
  | wire fault _ => .wire fault
  | index error => .index error

/-- A window over a message and the tag that was read last. -/
structure Reader where
  window : Window
  current : Option Tag
  deriving DecidableEq, Repr

/-- Turn the faults of a guarded run into refusals. A fault that is not worded is none. -/
def lift {τ α : Type} (g : EStateM (Halt Fault) τ α) : EStateM (Halt Refusal) τ α := fun t =>
  match g t with
  | .ok a t => .ok a t
  | .error (.raised fault) t =>
    if worded : fault ≠ .unwritable then .error (.raised (.wire fault worded)) t
    else .error (.trapped .unwritable) t
  | .error (.trapped trap) t => .error (.trapped trap) t

variable (data : List UInt8)

/-- Read an integer of 32 bits. -/
def readInt32 : Run Int := do
  return Wire.signed 32 (← readVarint data 64 false)

/-- Read a length. -/
def readLength : Run Nat := do
  let length ← readInt32 data
  if length < 0 then throw (.raised (.negativeLength length)) else pure length.toNat

/-- Read a length and so many bytes. -/
def readDelimited : Run (List UInt8) := do
  readExact data (← readLength data)

/-- Read a length and hand out the window of so many bytes. -/
def sliceDelimited : Run Window := do
  slice data (← readLength data)

/-- Move past a value. -/
def skip : WireType → Run Unit
  | .varint => do discard (readVarint data 64 false)
  | .fixed64 => do discard (readExact data 8)
  | .delimited => do discard (readDelimited data)
  | .fixed32 => do discard (readExact data 4)

/-- The varints of a packed run, each as an integer of 32 bits. -/
def packedInts (w : Window) : Except (Halt Fault) (List Int) :=
  if w.available = 0 then .ok []
  else
    match readVarint data 64 false w with
    | .error e _ => .error e
    | .ok n after =>
      if _h : w.Advances after then (packedInts after).map (Wire.signed 32 n :: ·)
      else .error (.trapped .stalled)
termination_by w.available
decreasing_by exact _h.available_lt

namespace Reader

/-- Run a guarded read on the window of a reader. -/
def onWindow {α : Type} (g : Run α) : EStateM (Halt Fault) Reader α := fun r =>
  match g r.window with
  | .ok a w => .ok a { r with window := w }
  | .error e w => .error e { r with window := w }

/-- Read the next tag, which becomes current, or find the end of the message. -/
def readTag : EStateM (Halt Fault) Reader (Option Tag) := fun r =>
  match readVarint data 64 true r.window with
  | .error e w => .error e { r with window := w }
  | .ok header w =>
    if header = -1 then .ok none ⟨w, none⟩
    else
      match Tag.ofHeader (header % 0x100000000).toNat with
      | .ok tag => .ok (some tag) ⟨w, some tag⟩
      | .error fault => .error (.raised fault) { r with window := w }

/-- Move past the value of the current field. -/
def skipField : EStateM (Halt Fault) Reader Unit := fun r =>
  match r.current with
  | some tag => onWindow (skip data tag.wire) r
  | none => .error (.raised (.unsupportedWireType (.skip none))) r

/-- Check that the current field has a wire type. -/
def expect (wire : WireType) : EStateM (Halt Fault) Reader Unit := fun r =>
  if r.current.map (·.wire) = some wire then .ok () r
  else .error (.raised (.wireTypeMismatch wire r.current)) r

/-- Read the current field as an integer of 32 bits. -/
def readInt : EStateM (Halt Fault) Reader Int := do
  expect .varint
  onWindow (readInt32 data)

/-- Read a length with no tag before it and enter so many bytes as a message. -/
def enterTagless : EStateM (Halt Fault) Reader Reader := do
  return ⟨← onWindow (sliceDelimited data), none⟩

/-- Enter the current field as a nested message. -/
def enter : EStateM (Halt Fault) Reader Reader := do
  expect .delimited
  enterTagless data

/-- Read the current field as bytes. -/
def readBytes : EStateM (Halt Fault) Reader (List UInt8) := do
  expect .delimited
  onWindow (readDelimited data)

/-- Read the current field as text; ill-formed bytes are replaced. -/
def readText : EStateM (Halt Fault) Reader Text := do
  return Utf8.decodeLossy (← readBytes data)

/-- Read an occurrence of a repeated integer field: either one varint or a packed run of them. -/
def readInts : EStateM (Halt Fault) Reader (List Int) := fun r =>
  if r.current.map (·.wire) = some .varint then
    (return [← readInt data] : EStateM (Halt Fault) Reader _) r
  else
    match enter data r with
    | .error e after => .error e after
    | .ok run after =>
      match packedInts data run.window with
      | .ok values => .ok values after
      | .error e => .error e after

/-- Read the current field by its rule, or skip it if there is none; a nested message has a guarded
reader in the place of that of its rule. -/
def readField {σ : Type} (rule : Option (FieldRule σ))
    (nested : Reader → Except (Halt Refusal) (σ → σ)) (state : σ) :
    EStateM (Halt Refusal) Reader σ :=
  match rule with
  | none => do
    lift (skipField data)
    return state
  | some (.int set) => return set (← lift (readInt data)) state
  | some (.ints add) => return add (← lift (readInts data)) state
  | some (.text set) => return set (← lift (readText data)) state
  | some (.message _) => do
    let inner ← lift (enter data)
    match nested inner with
    | .ok update => return update state
    | .error e => throw e

end Reader

/-- Read the fields of a message in order. Every turn has to take a byte of its window. -/
def walk {σ : Type} (schema : Schema σ) (nested : Nat → Reader → Except (Halt Refusal) (σ → σ))
    (state : σ) (r : Reader) : Except (Halt Refusal) σ :=
  match lift (Reader.readTag data) r with
  | .error e _ => .error e
  | .ok none _ => .ok state
  | .ok (some tag) atValue =>
    match Reader.readField data (schema tag.field) (nested tag.field) state atValue with
    | .error e _ => .error e
    | .ok state after =>
      if _h : r.window.Advances after.window then walk schema nested state after
      else .error (.trapped .stalled)
termination_by r.window.available
decreasing_by exact _h.available_lt

/-! ## Agreement with readers -/

/-- The reader stands where the guarded one stands. -/
structure Stands (r : Reader) (s : Wire.Reader) : Prop where
  shows : Shows data r.window s.cursor
  current : r.current = s.current

/-- The guarded run comes to the end that the run comes to. -/
def Tells {α : Type} (g : Except (Halt Refusal) α) (x : Except DecodeError α) : Prop :=
  ∃ outcome : Except Refusal α, g = outcome.mapError .raised ∧ x = outcome.mapError Refusal.error

namespace Tells

variable {α β : Type} {g : Except (Halt Refusal) α} {x : Except DecodeError α}

theorem ok (a : α) : Tells (.ok a) (.ok a) := ⟨.ok a, rfl, rfl⟩

theorem refused (refusal : Refusal) :
    Tells (.error (.raised refusal) : Except (Halt Refusal) α) (.error refusal.error) :=
  ⟨.error refusal, rfl, rfl⟩

theorem bind {f : α → Except (Halt Refusal) β} {k : α → Except DecodeError β} (h : Tells g x)
    (hnext : ∀ a, x = .ok a → Tells (f a) (k a)) : Tells (g >>= f) (x >>= k) := by
  obtain ⟨_ | a, rfl, rfl⟩ := h
  · exact refused _
  · exact hnext a rfl

theorem map (h : Tells g x) (f : α → β) : Tells (g.map f) (x.map f) := by
  obtain ⟨_ | a, rfl, rfl⟩ := h
  · exact refused _
  · exact ok _

end Tells

namespace Matches

variable {data}

theorem readInt32 : Matches id (Shows data) Eq (readInt32 data) (Cursor.readInt32 .plain) :=
  (readVarint (by decide) false).map fun a b hab => congrArg (Wire.signed 32) hab

theorem readLength : Matches id (Shows data) Eq (readLength data) Cursor.readLength := by
  refine readInt32.bind fun length _ heq => ?_
  subst heq
  split
  · exact .throw (Fault.negativeLength length)
  · exact .pure rfl

theorem readDelimited : Matches id (Shows data) Eq (readDelimited data) Cursor.readDelimited := by
  refine readLength.bind fun length _ heq => ?_
  subst heq
  exact readExact length

theorem sliceDelimited :
    Matches id (Shows data) (Shows data) (sliceDelimited data) Cursor.sliceDelimited := by
  refine readLength.bind fun length _ heq => ?_
  subst heq
  exact slice length

theorem skip (wire : WireType) :
    Matches id (Shows data) Eq (skip data wire) (Cursor.skip wire) := by
  cases wire with
  | varint => exact (readVarint (by decide) false).bind fun _ _ _ => .pure rfl
  | fixed64 => exact (readExact 8).bind fun _ _ _ => .pure rfl
  | delimited => exact readDelimited.bind fun _ _ _ => .pure rfl
  | fixed32 => exact (readExact 4).bind fun _ _ _ => .pure rfl

end Matches

section Windows

variable {data} {w after : Window} {c rest : Cursor}

/-- A cursor that moved forward by some bytes leaves a window that is behind the old one. -/
theorem Shows.advances (h : Shows data w c) (hafter : Shows data after rest)
    (hfollows : rest.Follows c) (hshort : rest.unread.length < c.unread.length) :
    w.Advances after := by
  have hstop : after.stop = w.stop := by rw [hafter.stop_eq, h.stop_eq, hfollows.stop_eq]
  have hw := h.stop_eq_add
  have hbehind := hafter.stop_eq_add
  exact ⟨hstop, by omega, by omega⟩

/-- A packed run is read alike, and every varint of it takes a byte of its window. -/
theorem packedInts_eq (h : Shows data w c) :
    packedInts data w = (Wire.packedInts c).mapError .raised := by
  fun_induction Wire.packedInts c generalizing w with
  | case1 c hnil =>
    rw [packedInts, if_pos (by rw [h.available_eq, hnil]; rfl)]
    rfl
  | case2 c hne fault rest hread =>
    have hvarint := Matches.readVarint (by decide : 14 < 64) false w c h
    rw [hread] at hvarint
    obtain ⟨_, after, hguarded, rfl, -⟩ := hvarint.of_error
    have havailable : ¬ w.available = 0 := by rwa [h.available_eq, List.length_eq_zero_iff]
    rw [packedInts, if_neg havailable, hguarded]
    rfl
  | case3 c hne n rest hread ih =>
    have hvarint := Matches.readVarint (by decide : 14 < 64) false w c h
    rw [hread] at hvarint
    obtain ⟨_, after, hguarded, rfl, hafter⟩ := hvarint.of_ok
    have havailable : ¬ w.available = 0 := by rwa [h.available_eq, List.length_eq_zero_iff]
    have hfollows := Wire.Forward.readVarint 64 false c
    rw [hread] at hfollows
    have hadvances := h.advances hafter hfollows (Cursor.readVarint_shortens hne hread)
    rw [packedInts, if_neg havailable, hguarded]
    dsimp only
    rw [dif_pos hadvances, ih hafter]
    cases Wire.packedInts rest <;> rfl

end Windows

namespace Matches

variable {data}

theorem onWindow {α β : Type} {means : α → β → Prop} {g : Run α} {m : Wire.Read Cursor β}
    (h : Matches id (Shows data) means g m) :
    Matches id (Stands data) means (Reader.onWindow g) (Wire.Reader.onCursor m) := by
  intro r s hstands
  have hrun := h r.window s.cursor hstands.shows
  unfold Reader.onWindow Wire.Reader.onCursor
  cases hm : m s.cursor with
  | ok b c =>
    rw [hm] at hrun
    obtain ⟨a, w, hg, hvalue, hshows⟩ := hrun.of_ok
    rw [hg]
    exact .ok hvalue ⟨hshows, hstands.current⟩
  | error fault c =>
    rw [hm] at hrun
    obtain ⟨_, w, hg, rfl, hshows⟩ := hrun.of_error
    rw [hg]
    exact .raised _ ⟨hshows, hstands.current⟩

theorem readTag : Matches id (Stands data) Eq (Reader.readTag data) Wire.Reader.readTag := by
  intro r s hstands
  have hrun := readVarint (by decide : 14 < 64) true r.window s.cursor hstands.shows
  unfold Reader.readTag Wire.Reader.readTag
  cases hm : Cursor.readVarint 64 true s.cursor with
  | error fault c =>
    rw [hm] at hrun
    obtain ⟨_, w, hg, rfl, hshows⟩ := hrun.of_error
    rw [hg]
    exact .raised _ ⟨hshows, hstands.current⟩
  | ok header c =>
    rw [hm] at hrun
    obtain ⟨_, w, hg, rfl, hshows⟩ := hrun.of_ok
    rw [hg]
    dsimp only
    split
    · exact .ok rfl ⟨hshows, rfl⟩
    · cases Tag.ofHeader _ with
      | ok tag => exact .ok rfl ⟨hshows, rfl⟩
      | error fault => exact .raised fault ⟨hshows, hstands.current⟩

theorem skipField :
    Matches id (Stands data) Eq (Reader.skipField data) (Wire.Reader.skipField none) := by
  intro r s hstands
  unfold Reader.skipField Wire.Reader.skipField
  cases hcurrent : s.current with
  | none =>
    rw [hstands.current, hcurrent]
    exact .raised _ hstands
  | some tag =>
    rw [hstands.current, hcurrent]
    exact (skip tag.wire).onWindow r s hstands

theorem expect (wire : WireType) :
    Matches id (Stands data) Eq (Reader.expect wire) (Wire.Reader.expect wire) := by
  intro r s hstands
  unfold Reader.expect Wire.Reader.expect
  rw [hstands.current]
  split
  · exact .ok rfl hstands
  · exact .raised _ hstands

theorem readInt :
    Matches id (Stands data) Eq (Reader.readInt data) (Wire.Reader.readInt .plain) :=
  (expect .varint).bind fun _ _ _ => readInt32.onWindow

theorem enterTagless :
    Matches id (Stands data) (Stands data) (Reader.enterTagless data) Wire.Reader.enterTagless :=
  sliceDelimited.onWindow.map fun _ _ hshows => ⟨hshows, rfl⟩

theorem enter : Matches id (Stands data) (Stands data) (Reader.enter data) Wire.Reader.enter :=
  (expect .delimited).bind fun _ _ _ => enterTagless

theorem readBytes : Matches id (Stands data) Eq (Reader.readBytes data) Wire.Reader.readBytes :=
  (expect .delimited).bind fun _ _ _ => readDelimited.onWindow

theorem readText : Matches id (Stands data) Eq (Reader.readText data) Wire.Reader.readText :=
  readBytes.map fun _ _ hab => congrArg Utf8.decodeLossy hab

theorem readInts : Matches id (Stands data) Eq (Reader.readInts data) Wire.Reader.readInts := by
  intro r s hstands
  unfold Reader.readInts Wire.Reader.readInts
  rw [hstands.current]
  split
  · exact readInt.map (fun a b hab => congrArg (fun n => [n]) hab) r s hstands
  · have hrun := enter r s hstands
    cases hm : Wire.Reader.enter s with
    | error fault after =>
      rw [hm] at hrun
      obtain ⟨_, t, hg, rfl, hafter⟩ := hrun.of_error
      rw [hg]
      exact .raised _ hafter
    | ok run after =>
      rw [hm] at hrun
      obtain ⟨inner, t, hg, hinner, hafter⟩ := hrun.of_ok
      rw [hg]
      dsimp only
      rw [packedInts_eq hinner.shows]
      cases Wire.packedInts run.cursor with
      | ok values => exact .ok rfl hafter
      | error fault => exact .raised fault hafter

/-- Worded faults are reported as refusals on one side and as errors of decoding on the other. -/
theorem lift {α β : Type} {means : α → β → Prop} {g : EStateM (Halt Fault) Reader α}
    {m : Wire.Read Wire.Reader β} {P : β → Prop} (h : Matches id (Stands data) means g m)
    (hworded : Assures Fault.IsWorded P m) :
    Matches Refusal.error (Stands data) means (lift g) (Wire.liftFault m) := by
  intro r s hstands
  have hrun := h r s hstands
  unfold Guarded.lift Wire.liftFault
  cases hm : m s with
  | ok b after =>
    rw [hm] at hrun
    obtain ⟨a, t, hg, hvalue, hafter⟩ := hrun.of_ok
    rw [hg]
    exact .ok hvalue hafter
  | error fault after =>
    rw [hm] at hrun
    obtain ⟨_, t, hg, rfl, hafter⟩ := hrun.of_error
    have hfault : fault ≠ .unwritable := hworded.of_error hm
    rw [hg]
    dsimp only
    rw [dif_pos hfault]
    exact .raised (Refusal.wire fault hfault) hafter

/-- A field is read alike, when the nested reader reads what that of the rule reads. -/
theorem readField {σ : Type} {rule : Option (FieldRule σ)}
    {nested : Reader → Except (Halt Refusal) (σ → σ)}
    (hnested : ∀ read, rule = some (.message read) → ∀ r s, Stands data r s →
      Tells (nested r) (read s)) (state : σ) :
    Matches Refusal.error (Stands data) Eq (Reader.readField data rule nested state)
      (FieldRule.read rule state) := by
  match rule with
  | none => exact (skipField.lift Assures.skipField).bind fun _ _ _ => .pure rfl
  | some (.int set) => exact (readInt.lift Assures.readInt).map fun a b hab => congrArg (set · state) hab
  | some (.ints add) => exact (readInts.lift Assures.readInts).map fun a b hab => congrArg (add · state) hab
  | some (.text set) => exact (readText.lift Assures.readText).map fun a b hab => congrArg (set · state) hab
  | some (.message read) =>
    refine (enter.lift Assures.enter).bind fun r s hinner => ?_
    obtain ⟨_ | update, hguarded, hread⟩ := hnested read rfl r s hinner
    · rw [hguarded, hread]
      exact .throw _
    · rw [hguarded, hread]
      exact .pure rfl

end Matches

variable {data} in
/-- A walk comes to the same end, and every turn of it takes a byte of its window. -/
theorem walk_tells {σ : Type} {schema : Schema σ}
    {nested : Nat → Reader → Except (Halt Refusal) (σ → σ)}
    (hnested : ∀ number read, schema number = some (.message read) → ∀ r s, Stands data r s →
      Tells (nested number r) (read s)) {r : Reader} {s : Wire.Reader} (hstands : Stands data r s)
    (state : σ) : Tells (walk data schema nested state r) (Wire.walk schema state s).result := by
  fun_induction Wire.walk schema state s generalizing r with
  | case1 state s fault after htag =>
    have hrun := Matches.readTag.lift Assures.readTag r s hstands
    simp only [Wire.liftFault, htag] at hrun
    obtain ⟨refusal, t, hguarded, herror, -⟩ := hrun.of_error
    rw [walk, hguarded, herror]
    exact .refused refusal
  | case2 state s after htag =>
    have hrun := Matches.readTag.lift Assures.readTag r s hstands
    simp only [Wire.liftFault, htag] at hrun
    obtain ⟨_, t, hguarded, rfl, -⟩ := hrun.of_ok
    rw [walk, hguarded]
    exact .ok state
  | case3 state s tag atValue htag e after hread =>
    have hrun := Matches.readTag.lift Assures.readTag r s hstands
    simp only [Wire.liftFault, htag] at hrun
    obtain ⟨_, t, hguarded, rfl, hatValue⟩ := hrun.of_ok
    have hfield := Matches.readField (hnested tag.field) state t atValue hatValue
    rw [hread] at hfield
    obtain ⟨refusal, t', hguardedRead, herror, -⟩ := hfield.of_error
    rw [walk, hguarded]
    dsimp only
    rw [hguardedRead, herror]
    exact .refused refusal
  | case4 state s tag atValue htag next after hread ih =>
    have hrun := Matches.readTag.lift Assures.readTag r s hstands
    simp only [Wire.liftFault, htag] at hrun
    obtain ⟨_, t, hguarded, rfl, hatValue⟩ := hrun.of_ok
    have hfield := Matches.readField (hnested tag.field) state t atValue hatValue
    rw [hread] at hfield
    obtain ⟨_, t', hguardedRead, rfl, hafter⟩ := hfield.of_ok
    have htagFollows := Wire.Reader.Advances.readTag s
    rw [htag] at htagFollows
    have hfieldFollows := FieldRule.follows_of_read hread
    -- The tag takes a byte, and the value behind it gives none back.
    have hadvances : r.window.Advances t'.window :=
      hstands.shows.advances hafter.shows (hfieldFollows.trans htagFollows)
        (Nat.lt_of_le_of_lt hfieldFollows.length_le (Wire.Reader.readTag_shortens htag))
    rw [walk, hguarded]
    dsimp only
    rw [hguardedRead]
    dsimp only
    rw [dif_pos hadvances]
    exact ih hafter

end KotlinNullability.Guarded
