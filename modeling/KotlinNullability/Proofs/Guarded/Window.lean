import KotlinNullability.Wire.Reader
import Mathlib.Algebra.Group.Nat.Defs

/-!
# Guarded reads

The bytes of a payload stay in one buffer, and a message is a window of it. Here the buffer is read
by index: every index is guarded by the window that is read, and a guard that fails ends the run with
a trap, which is no fault of the message. `Matches` states that a guarded run never traps, and gives
what a read on a cursor over the same bytes gives.
-/

namespace KotlinNullability.Guarded

open Wire (Cursor Fault Read)

/-- What a guard finds. -/
inductive Trap where
  /-- A byte outside the window. -/
  | outsideWindow
  /-- An element outside a list or a text. -/
  | outsideList
  /-- A turn of a loop that took no byte of its window. -/
  | stalled
  /-- A number in the wording of an error that is too long to be written. -/
  | unwritable
  deriving DecidableEq, Repr

/-- Why a guarded run ends early. -/
inductive Halt (ε : Type) where
  | raised (error : ε)
  | trapped (trap : Trap)
  deriving DecidableEq, Repr

/-- A part of a buffer: the index of the next byte and the index behind the last one. -/
structure Window where
  position : Nat
  stop : Nat
  deriving DecidableEq, Repr

namespace Window

/-- The number of bytes from the next one on. -/
def available (w : Window) : Nat := w.stop - w.position

/-- The second window is behind the first one by at least one byte and ends with it. -/
def Advances (before after : Window) : Prop :=
  after.stop = before.stop ∧ before.position < after.position ∧ after.position ≤ after.stop

instance (before after : Window) : Decidable (Advances before after) :=
  inferInstanceAs (Decidable (_ ∧ _))

theorem Advances.available_lt {before after : Window} (h : Advances before after) :
    after.available < before.available := by
  obtain ⟨hstop, hlt, hle⟩ := h
  unfold available
  omega

end Window

/-- A run over the window of a buffer. -/
abbrev Run (α : Type) := EStateM (Halt Fault) Window α

variable (data : List UInt8)

/-- The byte at an index of the buffer, which has to lie in the window. -/
def fetch {ε : Type} (w : Window) (index : Nat) : Except (Halt ε) UInt8 :=
  if w.position ≤ index ∧ index < w.stop then
    match data[index]? with
    | some b => .ok b
    | none => .error (.trapped .outsideWindow)
  else .error (.trapped .outsideWindow)

/-- Read one byte. -/
def readByte : Run UInt8 := fun w =>
  if w.stop ≤ w.position then .error (.raised (.endOfInput .oneByte)) w
  else
    match fetch data w w.position with
    | .error e => .error e w
    | .ok b => .ok b { w with position := w.position + 1 }

/-- Move past so many bytes and hand out the window of exactly those, which has to lie in the
window. -/
def slice (count : Nat) : Run Window := fun w =>
  if w.available < count then
    .error (.raised (Numeral.worded [(count : Int)] .unwritable
      (.endOfInput (.span w.available count)))) w
  else if w.position + count ≤ w.stop ∧ w.stop ≤ data.length then
    .ok ⟨w.position, w.position + count⟩ { w with position := w.position + count }
  else .error (.trapped .outsideWindow) w

/-- Read exactly so many bytes. -/
def readExact (count : Nat) : Run (List UInt8) := do
  let part ← slice data count
  return (data.drop part.position).take part.available

/-- Take a varint byte by byte. The number so far has the bits below the shift. -/
def readGroups (bits result shift : Nat) : Run Int := fun w =>
  if shift < bits then
    match readByte data w with
    | .error e after => .error e after
    | .ok b after =>
      let result := result ||| (b.toNat &&& 0x7F) <<< shift
      if b.toNat &&& 0x80 = 0 then .ok (Wire.signed bits result) after
      else readGroups bits result (shift + 7) after
  else .error (.raised (.varintTooLong bits)) w
termination_by bits - shift

/-- Read a varint of a width. One or two bytes are taken at once, more of them byte by byte. -/
def readVarint (bits : Nat) (endAllowed : Bool) : Run Int := fun w =>
  if w.position = w.stop then
    if endAllowed then .ok (-1) w else .error (.raised (.endOfInput .oneByte)) w
  else
    match fetch data w w.position with
    | .error e => .error e w
    | .ok first =>
      if first.toNat < 0x80 then .ok first.toNat { w with position := w.position + 1 }
      else if 1 < w.stop - w.position then
        match fetch data w (w.position + 1) with
        | .error e => .error e w
        | .ok second =>
          if second.toNat < 0x80 then
            .ok ((first.toNat &&& 0x7F) ||| second.toNat <<< 7 : Nat)
              { w with position := w.position + 2 }
          else readGroups data bits 0 0 w
      else readGroups data bits 0 0 w

/-! ## Agreement with cursors -/

/-- The cursor holds the bytes of the window. -/
def Shows (w : Window) (c : Cursor) : Prop :=
  ∃ before after, data = before ++ (c.unread ++ after) ∧ c.position = before.length ∧
    w = ⟨before.length, before.length + c.unread.length⟩

/-- The guarded result is the result, up to how errors are reported. A trap is the result of
nothing. -/
inductive Agrees {ε ε' τ σ α β : Type} (report : ε → ε') (stands : τ → σ → Prop)
    (means : α → β → Prop) : EStateM.Result (Halt ε) τ α → EStateM.Result ε' σ β → Prop
  | ok {a : α} {b : β} {t : τ} {s : σ} (value : means a b) (state : stands t s) :
      Agrees report stands means (.ok a t) (.ok b s)
  | raised (e : ε) {t : τ} {s : σ} (state : stands t s) :
      Agrees report stands means (.error (.raised e) t) (.error (report e) s)

namespace Agrees

variable {ε ε' τ σ α β : Type} {report : ε → ε'} {stands : τ → σ → Prop} {means : α → β → Prop}
  {x : EStateM.Result (Halt ε) τ α} {s : σ}

theorem of_ok {b : β} (h : Agrees report stands means x (.ok b s)) :
    ∃ a t, x = .ok a t ∧ means a b ∧ stands t s := by
  cases h with
  | ok value state => exact ⟨_, _, rfl, value, state⟩

theorem of_error {e' : ε'} (h : Agrees report stands means x (.error e' s)) :
    ∃ e t, x = .error (.raised e) t ∧ e' = report e ∧ stands t s := by
  cases h with
  | raised e state => exact ⟨e, _, rfl, rfl, state⟩

end Agrees

/-- The guarded run has the result of the run, from every state that stands for its state. -/
def Matches {ε ε' τ σ α β : Type} (report : ε → ε') (stands : τ → σ → Prop)
    (means : α → β → Prop) (g : EStateM (Halt ε) τ α) (m : EStateM ε' σ β) : Prop :=
  ∀ t s, stands t s → Agrees report stands means (g t) (m s)

namespace Matches

variable {ε ε' τ σ α β α' β' : Type} {report : ε → ε'} {stands : τ → σ → Prop}
  {means : α → β → Prop} {means' : α' → β' → Prop} {g : EStateM (Halt ε) τ α}
  {m : EStateM ε' σ β}

theorem pure {a : α} {b : β} (h : means a b) : Matches report stands means
    (Pure.pure a : EStateM (Halt ε) τ α) (Pure.pure b : EStateM ε' σ β) :=
  fun _ _ hstands => .ok h hstands

theorem throw (e : ε) : Matches report stands means
    (MonadExcept.throw (.raised e) : EStateM (Halt ε) τ α)
    (MonadExcept.throw (report e) : EStateM ε' σ β) :=
  fun _ _ hstands => .raised e hstands

theorem bind {f : α → EStateM (Halt ε) τ α'} {k : β → EStateM ε' σ β'}
    (h : Matches report stands means g m)
    (hnext : ∀ a b, means a b → Matches report stands means' (f a) (k b)) :
    Matches report stands means' (g >>= f) (m >>= k) := by
  intro t s hstands
  have hfirst := h t s hstands
  change Agrees report stands means' (EStateM.bind g f t) (EStateM.bind m k s)
  unfold EStateM.bind
  cases hm : m s with
  | ok b s' =>
    rw [hm] at hfirst
    obtain ⟨a, t', hg, hvalue, hstate⟩ := hfirst.of_ok
    rw [hg]
    exact hnext a b hvalue t' s' hstate
  | error e' s' =>
    rw [hm] at hfirst
    obtain ⟨e, t', hg, rfl, hstate⟩ := hfirst.of_error
    rw [hg]
    exact .raised e hstate

/-- A value is used alike on both sides. -/
theorem map {f : α → α'} {k : β → β'} (h : Matches report stands means g m)
    (hvalue : ∀ a b, means a b → means' (f a) (k b)) :
    Matches report stands means' (g >>= fun a => Pure.pure (f a))
      (m >>= fun b => Pure.pure (k b)) :=
  h.bind fun a b hab => .pure (hvalue a b hab)

end Matches

section Shows

variable {data} {w : Window} {c : Cursor}

/-- A window over a whole buffer shows a cursor over its bytes. -/
theorem shows_ofBytes (data : List UInt8) : Shows data ⟨0, data.length⟩ (.ofBytes data) :=
  ⟨[], [], by simp [Cursor.ofBytes], rfl, by simp [Cursor.ofBytes]⟩

theorem Shows.stop_eq_add (h : Shows data w c) : w.stop = w.position + c.unread.length := by
  obtain ⟨before, after, -, -, rfl⟩ := h
  rfl

theorem Shows.available_eq (h : Shows data w c) : w.available = c.unread.length := by
  rw [Window.available, h.stop_eq_add, Nat.add_sub_cancel_left]

theorem Shows.stop_eq (h : Shows data w c) : w.stop = c.stop := by
  obtain ⟨before, after, -, hposition, rfl⟩ := h
  rw [Cursor.stop, hposition]

theorem Shows.stop_le (h : Shows data w c) : w.stop ≤ data.length := by
  obtain ⟨before, after, rfl, -, rfl⟩ := h
  simp only [List.length_append]
  omega

/-- Behind some bytes, the window shows what is left of the cursor. -/
theorem Shows.advance {used rest : List UInt8} (h : Shows data w c)
    (hunread : c.unread = used ++ rest) :
    Shows data { w with position := w.position + used.length }
      ⟨c.position + used.length, rest⟩ := by
  obtain ⟨before, after, hdata, hposition, rfl⟩ := h
  refine ⟨before ++ used, after, ?_, ?_, ?_⟩
  · rw [hdata, hunread, List.append_assoc, List.append_assoc]
  · rw [hposition, List.length_append]
  · simp only [hunread, List.length_append, Nat.add_assoc]

/-- The next bytes are shown by a window of their own. -/
theorem Shows.part {used rest : List UInt8} (h : Shows data w c)
    (hunread : c.unread = used ++ rest) :
    Shows data ⟨w.position, w.position + used.length⟩ ⟨c.position, used⟩ := by
  obtain ⟨before, after, hdata, hposition, rfl⟩ := h
  exact ⟨before, rest ++ after, by rw [hdata, hunread, List.append_assoc], hposition, rfl⟩

/-- The bytes that a window shows can be taken from the buffer. -/
theorem Shows.bytes (h : Shows data w c) :
    (data.drop w.position).take w.available = c.unread := by
  have havailable := h.available_eq
  obtain ⟨before, after, hdata, -, rfl⟩ := h
  rw [havailable, hdata, List.drop_left, List.take_left]

/-- The bytes that a window shows can be fetched. -/
theorem Shows.fetch_eq {ε : Type} {index : Nat} {b : UInt8} (h : Shows data w c)
    (hb : c.unread[index]? = some b) :
    fetch data w (w.position + index) = (.ok b : Except (Halt ε) UInt8) := by
  obtain ⟨before, after, hdata, -, rfl⟩ := h
  obtain ⟨hindex, -⟩ := List.getElem?_eq_some_iff.mp hb
  have hguard : before.length ≤ before.length + index ∧
      before.length + index < before.length + c.unread.length := by omega
  have hbyte : data[before.length + index]? = some b := by
    rw [hdata, List.getElem?_append_right (by omega), Nat.add_sub_cancel_left,
      List.getElem?_append_left hindex, hb]
  unfold fetch
  rw [if_pos hguard, hbyte]

end Shows

/-! ## Guarded reads agree with reads on cursors -/

section Bytes

variable {data} {w : Window} {c : Cursor}

theorem Shows.readByte_of_nil (h : Shows data w c) (hunread : c.unread = []) :
    readByte data w = .error (.raised (.endOfInput .oneByte)) w := by
  have hover : w.stop ≤ w.position := by
    rw [h.stop_eq_add, hunread]
    exact Nat.le_refl _
  rw [readByte, if_pos hover]

theorem Shows.readByte_of_cons {b : UInt8} {rest : List UInt8} (h : Shows data w c)
    (hunread : c.unread = b :: rest) :
    readByte data w = .ok b { w with position := w.position + 1 } := by
  have hstop := h.stop_eq_add
  rw [hunread, List.length_cons] at hstop
  have hfetch : fetch data w (w.position + 0) = (.ok b : Except (Halt Fault) UInt8) :=
    h.fetch_eq (by rw [hunread]; rfl)
  rw [Nat.add_zero] at hfetch
  rw [readByte, if_neg (by omega), hfetch]

end Bytes

/-- The low bits of a byte below its high bit. -/
theorem and_low (b : UInt8) : b.toNat &&& 0x7F = b.toNat % 0x80 :=
  Nat.and_two_pow_sub_one_eq_mod b.toNat 7

/-- The high bit of a byte is not set when the byte is small. -/
theorem and_high_eq_zero_iff (b : UInt8) : b.toNat &&& 0x80 = 0 ↔ b.toNat < 0x80 := by
  have hall : ∀ n : Fin 256, n.val &&& 0x80 = 0 ↔ n.val < 0x80 := by decide +kernel
  exact hall ⟨b.toNat, b.toNat_lt⟩

/-- Bits put above a number add up with it. -/
theorem or_shiftLeft {n shift : Nat} (h : n < 2 ^ shift) (m : Nat) :
    n ||| m <<< shift = n + 2 ^ shift * m := by
  rw [Nat.shiftLeft_eq, Nat.or_comm, Nat.mul_comm, ← Nat.two_pow_add_eq_or_of_lt h, Nat.add_comm]

namespace Matches

variable {data}

theorem readByte : Matches id (Shows data) Eq (readByte data) Cursor.readByte := by
  intro w c h
  unfold Cursor.readByte
  cases hunread : c.unread with
  | nil =>
    rw [h.readByte_of_nil hunread]
    exact .raised _ h
  | cons b rest =>
    rw [h.readByte_of_cons hunread]
    exact .ok rfl (h.advance (show c.unread = [b] ++ rest from hunread))

theorem slice (count : Nat) : Matches id (Shows data) (Shows data) (slice data count)
    (Cursor.slice count) := by
  intro w c h
  have hstop := h.stop_eq_add
  unfold Guarded.slice Cursor.slice Cursor.readExact Cursor.available
  rw [h.available_eq]
  by_cases hshort : c.unread.length < count
  · rw [if_pos hshort, if_pos hshort]
    exact .raised (Numeral.worded ..) h
  · have hsplit : c.unread = c.unread.take count ++ c.unread.drop count :=
      (List.take_append_drop ..).symm
    have hlength : (c.unread.take count).length = count := by simp; omega
    have hpart := h.part hsplit
    have hadvance := h.advance hsplit
    rw [hlength] at hpart hadvance
    rw [if_neg hshort, if_neg hshort, if_pos ⟨by omega, h.stop_le⟩]
    exact .ok hpart hadvance

theorem readExact (count : Nat) : Matches id (Shows data) Eq (readExact data count)
    (Cursor.readExact count) := by
  have hbytes : Cursor.readExact count =
      (Cursor.slice count >>= fun part => Pure.pure part.unread : Read Cursor (List UInt8)) := by
    funext c
    change _ = EStateM.bind (Cursor.slice count) (fun part => EStateM.pure part.unread) c
    simp only [EStateM.bind, Cursor.slice]
    cases Cursor.readExact count c <;> rfl
  rw [hbytes]
  exact (slice count).map fun part c h => h.bytes

/-- Taking a varint byte by byte finds what a look at its start finds. -/
theorem readGroups {bits cap result shift : Nat} {w : Window} {c : Cursor} (h : Shows data w c)
    (hcap : cap = (bits - shift + 6) / 7) (hresult : result < 2 ^ shift) :
    Agrees id (Shows data) Eq (readGroups data bits result shift w)
      (match Wire.Varint.scan cap c.unread with
        | .complete groups rest =>
          .ok (Wire.signed bits (result + 2 ^ shift * Wire.Varint.valueOf groups : Nat))
            ⟨c.position + groups.length, rest⟩
        | .unfinished => .error (.endOfInput .oneByte) ⟨c.stop, []⟩
        | .tooLong rest => .error (.varintTooLong bits) ⟨c.position + cap, rest⟩) := by
  -- The number so far lies below the next bit, so putting bits above it adds them.
  induction cap generalizing result shift w c with
  | zero =>
    rw [Guarded.readGroups, if_neg (by omega)]
    exact .raised _ h
  | succ cap ih =>
    rw [Guarded.readGroups, if_pos (by omega)]
    cases hunread : c.unread with
    | nil =>
      have hstop : (⟨c.stop, []⟩ : Cursor) = c := by
        rw [Cursor.stop, hunread]
        exact Cursor.mk.injEq .. ▸ ⟨rfl, hunread.symm⟩
      rw [h.readByte_of_nil hunread, Wire.Varint.scan, hstop]
      exact .raised _ h
    | cons b rest =>
      have hadvance := h.advance (show c.unread = [b] ++ rest from hunread)
      have hor : result ||| (b.toNat &&& 0x7F) <<< shift =
          result + 2 ^ shift * (b.toNat % 0x80) := by
        rw [or_shiftLeft hresult, and_low]
      rw [h.readByte_of_cons hunread, Wire.Varint.scan]
      simp only [hor, and_high_eq_zero_iff]
      split
      · exact .ok (by simp [Wire.Varint.valueOf]) hadvance
      · have hpow : 2 ^ (shift + 7) = 2 ^ shift * 0x80 := Nat.pow_add 2 shift 7
        have hlow : b.toNat % 0x80 < 0x80 := Nat.mod_lt _ (by decide)
        have hbound : result + 2 ^ shift * (b.toNat % 0x80) < 2 ^ (shift + 7) := by
          rw [hpow]
          calc result + 2 ^ shift * (b.toNat % 0x80)
              < 2 ^ shift + 2 ^ shift * (b.toNat % 0x80) := Nat.add_lt_add_right hresult _
            _ = 2 ^ shift * (b.toNat % 0x80 + 1) := by rw [Nat.mul_add_one, Nat.add_comm]
            _ ≤ 2 ^ shift * 0x80 := Nat.mul_le_mul_left _ hlow
        have hmove (n : Nat) : c.position + [b].length + n = c.position + (n + 1) := by
          rw [List.length_singleton, Nat.add_assoc, Nat.add_comm 1]
        have hnext := ih hadvance (by omega) hbound
        cases hscan : Wire.Varint.scan cap rest with
        | complete groups rest' =>
          have hvalue : result + 2 ^ shift * (b.toNat % 0x80) +
              2 ^ (shift + 7) * Wire.Varint.valueOf groups =
                result + 2 ^ shift * Wire.Varint.valueOf (b :: groups) := by
            rw [Wire.Varint.valueOf, hpow, Nat.mul_add, Nat.mul_assoc, Nat.add_assoc]
          simp only [hscan, hvalue, hmove] at hnext
          exact hnext
        | unfinished =>
          simp only [hscan, Cursor.stop, hmove] at hnext
          simp only [Cursor.stop, hunread, List.length_cons]
          exact hnext
        | tooLong rest' =>
          simp only [hscan, hmove] at hnext
          exact hnext

/-- A number of fourteen bits is its own two's complement value in a greater width. -/
theorem signed_of_lt {bits n : Nat} (hbits : 14 < bits) (hn : n < 2 ^ 14) :
    Wire.signed bits n = n := by
  obtain ⟨more, rfl⟩ : ∃ more, bits = more + 1 := ⟨bits - 1, by omega⟩
  have hpow : 2 ^ 14 ≤ 2 ^ more := Nat.pow_le_pow_right (by decide) (by omega)
  have hdouble : Nat.pow 2 (more + 1) = 2 ^ more * 2 := rfl
  refine Int.bmod_eq_of_le ?_ ?_ <;> omega

theorem readVarint {bits : Nat} (hbits : 14 < bits) (endAllowed : Bool) :
    Matches id (Shows data) Eq (readVarint data bits endAllowed)
      (Cursor.readVarint bits endAllowed) := by
  intro w c h
  have hstop := h.stop_eq_add
  obtain ⟨cap, hcap⟩ : ∃ cap, Wire.Varint.capOf bits = cap + 2 := ⟨(bits + 6) / 7 - 2, by
    rw [Wire.Varint.capOf]
    omega⟩
  unfold Guarded.readVarint Cursor.readVarint
  cases hunread : c.unread with
  | nil =>
    have hend : (⟨c.stop, []⟩ : Cursor) = c := by
      rw [Cursor.stop, hunread]
      exact Cursor.mk.injEq .. ▸ ⟨rfl, hunread.symm⟩
    rw [if_pos (by rw [hstop, hunread]; rfl), hcap, Wire.Varint.scan, hend]
    cases endAllowed with
    | true => exact .ok rfl h
    | false => exact .raised _ h
  | cons first rest =>
    rw [hunread, List.length_cons] at hstop
    -- Both shortcuts leave the cursor where taking the varint byte by byte would; without them
    -- the bytes are taken from the start again.
    have hslow : Agrees id (Shows data) Eq (Guarded.readGroups data bits 0 0 w) _ :=
      readGroups h rfl (by decide)
    have hcapOf : (bits - 0 + 6) / 7 = cap + 2 := hcap
    simp only [Nat.zero_add, Nat.pow_zero, Nat.one_mul, hunread, hcapOf] at hslow
    have hfetch : fetch data w (w.position + 0) = (.ok first : Except (Halt Fault) UInt8) :=
      h.fetch_eq (by rw [hunread]; rfl)
    rw [Nat.add_zero] at hfetch
    have hgo : ((first :: rest).isEmpty && endAllowed) = false := rfl
    rw [if_neg (by omega), hfetch, hgo, if_neg Bool.false_ne_true, hcap]
    dsimp only
    by_cases hfirst : first.toNat < 0x80
    · have hvalue : Wire.Varint.valueOf [first] = first.toNat := by
        rw [Wire.Varint.valueOf, Wire.Varint.valueOf, Nat.mod_eq_of_lt hfirst]
        rfl
      rw [if_pos hfirst, Wire.Varint.scan, if_pos hfirst]
      refine .ok ?_ (h.advance (show c.unread = [first] ++ rest from hunread))
      rw [hvalue, signed_of_lt hbits (by omega)]
    · rw [if_neg hfirst]
      cases rest with
      | nil =>
        rw [if_neg (by simp at hstop; omega)]
        exact hslow
      | cons second rest =>
        have hnext : fetch data w (w.position + 1) = (.ok second : Except (Halt Fault) UInt8) :=
          h.fetch_eq (by rw [hunread]; rfl)
        rw [if_pos (by simp at hstop; omega), hnext]
        dsimp only
        by_cases hsecond : second.toNat < 0x80
        · have hvalue : (first.toNat &&& 0x7F) ||| second.toNat <<< 7 =
              Wire.Varint.valueOf [first, second] := by
            have hlow : first.toNat % 0x80 < 2 ^ 7 := Nat.mod_lt _ (by decide)
            rw [and_low, or_shiftLeft hlow, Wire.Varint.valueOf, Wire.Varint.valueOf,
              Wire.Varint.valueOf, Nat.mod_eq_of_lt hsecond]
            rfl
          have hbound : Wire.Varint.valueOf [first, second] < 2 ^ 14 := by
            rw [Wire.Varint.valueOf, Wire.Varint.valueOf, Wire.Varint.valueOf]
            omega
          rw [if_pos hsecond, Wire.Varint.scan, if_neg hfirst, Wire.Varint.scan, if_pos hsecond]
          refine .ok ?_ (h.advance (show c.unread = [first, second] ++ rest from hunread))
          rw [hvalue, signed_of_lt hbits hbound]
        · rw [if_neg hsecond]
          exact hslow

end Matches

end KotlinNullability.Guarded
