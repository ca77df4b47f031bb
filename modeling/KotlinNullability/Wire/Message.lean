import KotlinNullability.DecodeError
import KotlinNullability.Wire.Reader

/-!
# Messages

A kind of message is described by the rules for the fields that it uses: in which form a value is
read, and what it does to the state that is built up. Fields without a rule are skipped by their wire
type. `walk` reads the fields of a message in order until the message ends or a field is wrong, and
returns the state that was reached together with what stopped it.
-/

namespace KotlinNullability.Wire

/-- How a field contributes to a state of type `σ`. -/
inductive FieldRule (σ : Type) where
  /-- An integer of 32 bits. -/
  | int (set : Int → σ → σ)
  /-- An occurrence of a repeated integer of 32 bits. -/
  | ints (add : List Int → σ → σ)
  /-- Text. -/
  | text (set : Text → σ → σ)
  /-- A nested message, read as a whole before the state changes. -/
  | message (read : Reader → Except DecodeError (σ → σ))

/-- The rules of a kind of message, by field number. -/
abbrev Schema (σ : Type) := Nat → Option (FieldRule σ)

/-- Turn the faults of a read into errors of decoding. -/
def liftFault {σ α : Type} (m : Read σ α) : EStateM DecodeError σ α := fun s =>
  match m s with
  | .ok a s => .ok a s
  | .error fault s => .error (.wire fault) s

namespace FieldRule

variable {σ : Type}

/-- Read the current field by its rule, or skip it if there is none. -/
def read (rule : Option (FieldRule σ)) (state : σ) : EStateM DecodeError Reader σ :=
  match rule with
  | none => do
    liftFault (Reader.skipField none)
    return state
  | some (.int set) => return set (← liftFault (Reader.readInt .plain)) state
  | some (.ints add) => return add (← liftFault Reader.readInts) state
  | some (.text set) => return set (← liftFault Reader.readText) state
  | some (.message readMessage) => do
    let nested ← liftFault Reader.enter
    match readMessage nested with
    | .ok update => return update state
    | .error e => throw e

/-- A successful run of two steps is a successful run of each. -/
theorem bind_eq_ok {ε τ α β : Type} {m : EStateM ε τ α} {f : α → EStateM ε τ β} {s after : τ}
    {b : β} (h : (m >>= f) s = .ok b after) : ∃ a mid, m s = .ok a mid ∧ f a mid = .ok b after := by
  have h' : EStateM.bind m f s = .ok b after := h
  unfold EStateM.bind at h'
  cases hm : m s with
  | ok a mid =>
    rw [hm] at h'
    exact ⟨a, mid, rfl, h'⟩
  | error e mid =>
    rw [hm] at h'
    cases h'

/-- A lifted read that succeeds leaves what the read leaves. -/
theorem follows_of_liftFault {α : Type} {m : Read Reader α} (hm : Reader.Advances m)
    {r after : Reader} {a : α} (h : liftFault m r = .ok a after) :
    Cursor.Follows after.cursor r.cursor := by
  have hf := hm r
  unfold liftFault at h
  cases hr : m r with
  | ok b s =>
    rw [hr] at h hf
    cases h
    exact hf
  | error e s =>
    rw [hr] at h
    cases h

/-- Reading a field moves the reader forward only. -/
theorem follows_of_read {rule : Option (FieldRule σ)} {state result : σ} {r after : Reader}
    (h : read rule state r = .ok result after) : Cursor.Follows after.cursor r.cursor := by
  unfold read at h
  split at h
  · obtain ⟨_, mid, hm, hp⟩ := bind_eq_ok h
    cases hp
    exact follows_of_liftFault (.skipField none) hm
  · obtain ⟨_, mid, hm, hp⟩ := bind_eq_ok h
    cases hp
    exact follows_of_liftFault (.readInt .plain) hm
  · obtain ⟨_, mid, hm, hp⟩ := bind_eq_ok h
    cases hp
    exact follows_of_liftFault .readInts hm
  · obtain ⟨_, mid, hm, hp⟩ := bind_eq_ok h
    cases hp
    exact follows_of_liftFault .readText hm
  · next readMessage =>
    obtain ⟨nested, mid, hm, hp⟩ := bind_eq_ok h
    have hf := follows_of_liftFault .enter hm
    cases hn : readMessage nested with
    | ok update =>
      rw [hn] at hp
      cases hp
      exact hf
    | error e =>
      rw [hn] at hp
      cases hp

end FieldRule

/-- The state that a walk over a message reached, and the error that stopped it. -/
structure Walk (σ : Type) where
  state : σ
  error : Option DecodeError

/-- The state of a walk that came to the end of its message. -/
def Walk.result {σ : Type} (w : Walk σ) : Except DecodeError σ :=
  match w.error with
  | none => .ok w.state
  | some e => .error e

/-- Read the fields of a message in order. -/
def walk {σ : Type} (schema : Schema σ) (state : σ) (r : Reader) : Walk σ :=
  match _htag : Reader.readTag r with
  | .error fault _ => ⟨state, some (.wire fault)⟩
  | .ok none _ => ⟨state, none⟩
  | .ok (some tag) atValue =>
    match _hread : FieldRule.read (schema tag.field) state atValue with
    | .error e _ => ⟨state, some e⟩
    | .ok state after => walk schema state after
termination_by r.cursor.unread.length
decreasing_by
  exact Nat.lt_of_le_of_lt (FieldRule.follows_of_read _hread).length_le
    (Reader.readTag_shortens _htag)

end KotlinNullability.Wire
