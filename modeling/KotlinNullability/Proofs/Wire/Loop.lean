import KotlinNullability.Proofs.Wire.Session
import KotlinNullability.Proofs.Wire.Walk

/-!
# The loop over the fields of a message

A walk reads a tag and then a value, again and again. `Schema.Steps` follows it over so many fields,
from the reader in front of a tag to the reader in front of a later one, and `Schema.Finishes` follows
it to the end of its message and says which reader it leaves.

A walk does not ask which tag was read before it, nor where in the buffer it starts.
-/

namespace KotlinNullability.Wire

section Steps

variable {σ : Type} {schema : Schema σ} {state last : σ} {r after : Reader} {count : Nat}

/-- The walk reads so many fields, which lead from a state and a reader to others. -/
inductive Schema.Steps (schema : Schema σ) : Nat → σ → Reader → σ → Reader → Prop
  | start {state : σ} {r : Reader} : Schema.Steps schema 0 state r state r
  | field {count : Nat} {state next last : σ} {r atValue behind after : Reader} {tag : Tag}
      (head : Reader.readTag r = .ok (some tag) atValue)
      (value : FieldRule.read (schema tag.field) state atValue = .ok next behind)
      (tail : Schema.Steps schema count next behind last after) :
      Schema.Steps schema (count + 1) state r last after

/-- The walk comes to the end of its message with a state, and leaves a reader behind the end. -/
def Schema.Finishes (schema : Schema σ) (state : σ) (r : Reader) (last : σ) (after : Reader) : Prop :=
  ∃ count atEnd, schema.Steps count state r last atEnd ∧ Reader.readTag atEnd = .ok none after

/-- Behind the fields that it has read, a walk goes on. -/
theorem Schema.Steps.walk_eq (h : schema.Steps count state r last after) :
    walk schema state r = walk schema last after := by
  induction h with
  | start => rfl
  | field head value _ ih => rw [walk_of_read head value, ih]

/-- A walk does not ask which tag was read before it. -/
theorem walk_current (schema : Schema σ) (state : σ) (c : Cursor) (current current' : Option Tag) :
    walk schema state ⟨c, current⟩ = walk schema state ⟨c, current'⟩ := by
  rw [walk_eq, walk_eq]
  unfold Reader.readTag
  cases Cursor.readVarint 64 true c with
  | error fault after => rfl
  | ok header after =>
    dsimp only
    by_cases hend : header = -1
    · simp only [hend, if_true]
    · simp only [hend, if_false]
      cases Tag.ofHeader (header % 0x100000000).toNat <;> rfl

end Steps

/-! ## Walks elsewhere in the buffer -/

/-- Nested messages are read alike wherever they stand, with the same errors. -/
def Schema.Unmoved {σ : Type} (schema : Schema σ) : Prop :=
  ∀ number read, schema number = some (.message read) →
    ∀ distance r, read (Reader.shift distance r) = read r

namespace Unplaced

variable {σ α : Type} {distance : Nat}

theorem liftFault {value : α → α} {m : Read Reader α}
    (h : Unplaced value (Reader.shift distance) m) :
    Unplaced value (Reader.shift distance) (Wire.liftFault m) := by
  intro r
  unfold Wire.liftFault
  rw [h r]
  cases m r <;> rfl

/-- A field is read by its rule as elsewhere in the buffer. -/
theorem field {rule : Option (FieldRule σ)}
    (hmessage : ∀ read, rule = some (.message read) → ∀ r, read (Reader.shift distance r) = read r)
    (state : σ) : Unplaced id (Reader.shift distance) (FieldRule.read rule state) :=
  match rule with
  | none => (liftFault (skipField none)).next fun _ => pure rfl
  | some (.int _) => (liftFault (readInteger .short .plain)).map fun _ => rfl
  | some (.ints _) => (liftFault readInts).map fun _ => rfl
  | some (.text _) => (liftFault readText).map fun _ => rfl
  | some (.message read) => by
    refine (liftFault enter).bind fun nested r => ?_
    rw [hmessage read rfl]
    cases read nested <;> rfl

end Unplaced

/-- A walk goes the same way elsewhere in the buffer. -/
theorem walk_shift {σ : Type} {schema : Schema σ} (h : schema.Unmoved) (distance : Nat) (state : σ)
    (r : Reader) : walk schema state (r.shift distance) = walk schema state r := by
  have htagOf (r : Reader) : Reader.readTag (r.shift distance) = _ := Unplaced.readTag r
  have hreadOf (tag : Tag) (state : σ) (r : Reader) :
      FieldRule.read (schema tag.field) state (r.shift distance) = _ :=
    Unplaced.field (fun read hrule => h tag.field read hrule distance) state r
  fun_induction walk schema state r with
  | case1 state r fault after htag => exact walk_of_readTag_error (by rw [htagOf, htag]; rfl)
  | case2 state r after htag => exact walk_of_readTag_none (by rw [htagOf, htag]; rfl)
  | case3 state r tag atValue htag e after hread =>
    exact walk_of_read_error (by rw [htagOf, htag]; rfl) (by rw [hreadOf, hread]; rfl)
  | case4 state r tag atValue htag next after hread ih =>
    rw [← ih]
    exact walk_of_read (by rw [htagOf, htag]; rfl) (by rw [hreadOf, hread]; rfl)

end KotlinNullability.Wire
