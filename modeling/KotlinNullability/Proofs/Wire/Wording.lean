import KotlinNullability.Proofs.Text.Numeral
import KotlinNullability.Proofs.Wire.Walk

/-!
# Errors that can be worded

Only a caller can ask for a number that is too long to be written. A length that a message declares,
and an integer of 32 bits in one of its fields, are short, so the fault of a read that takes its
numbers from the message is worded. `Assures` states this of a read, together with what holds of the
values that it gives; binds keep it, which carries it from varints to fields. Over the fields of a
message, the rules of its kind may keep a property of the state that is built up.
-/

namespace KotlinNullability

open Wire (Fault)

/-- The number is one of 32 bits in two's complement. -/
def IsInt32 (n : Int) : Prop := -(2 ^ 31) ≤ n ∧ n < 2 ^ 31

instance (n : Int) : Decidable (IsInt32 n) := inferInstanceAs (Decidable (_ ∧ _))

/-- A number of 32 bits can be written. -/
theorem IsInt32.isWritable {n : Int} (h : IsInt32 n) : Numeral.isWritable n = true := by
  obtain ⟨hlower, hupper⟩ := h
  exact Numeral.isWritable_of_lt (by omega)

theorem isInt32_signed (n : Int) : IsInt32 (Wire.signed 32 n) := by
  have hlower : -((2 ^ 31 : Nat) : Int) ≤ Wire.signed 32 n := Wire.le_signed 31 n
  have hupper : Wire.signed 32 n < ((2 ^ 31 : Nat) : Int) := Wire.signed_lt 31 n
  exact ⟨by omega, by omega⟩

/-- The fault is worded. -/
def Wire.Fault.IsWorded (fault : Fault) : Prop := fault ≠ .unwritable

/-- The error is worded. -/
def DecodeError.IsWorded : DecodeError → Prop
  | wire fault => fault.IsWorded
  | index _ => True
  | misuse _ => True
  | unwritable => False

namespace Wire

/-- The result is a value with a property, or an error that is worded. -/
inductive Outcome {ε σ α : Type} (worded : ε → Prop) (P : α → Prop) : EStateM.Result ε σ α → Prop
  | ok {a : α} {s : σ} (h : P a) : Outcome worded P (.ok a s)
  | error {e : ε} {s : σ} (h : worded e) : Outcome worded P (.error e s)

/-- The read gives values with a property, and fails only with errors that are worded. -/
def Assures {ε σ α : Type} (worded : ε → Prop) (P : α → Prop) (m : EStateM ε σ α) : Prop :=
  ∀ s, Outcome worded P (m s)

namespace Assures

section Combinators

variable {ε σ α β : Type} {worded : ε → Prop} {P : α → Prop} {Q : β → Prop} {m : EStateM ε σ α}
  {f : α → EStateM ε σ β} {s after : σ}

theorem of_ok {a : α} (h : Assures worded P m) (hrun : m s = .ok a after) : P a := by
  have hs := h s
  rw [hrun] at hs
  cases hs with
  | ok ha => exact ha

theorem of_error {e : ε} (h : Assures worded P m) (hrun : m s = .error e after) : worded e := by
  have hs := h s
  rw [hrun] at hs
  cases hs with
  | error he => exact he

theorem pure {a : α} (h : P a) : Assures worded P (Pure.pure a : EStateM ε σ α) := fun _ => .ok h

theorem throw {e : ε} (h : worded e) : Assures worded P (MonadExcept.throw e : EStateM ε σ α) :=
  fun _ => .error h

theorem bind (hm : Assures worded P m) (hf : ∀ a, P a → Assures worded Q (f a)) :
    Assures worded Q (m >>= f) := by
  intro s
  change Outcome worded Q (EStateM.bind m f s)
  unfold EStateM.bind
  cases hrun : m s with
  | ok a after => exact hf a (hm.of_ok hrun) after
  | error e after => exact .error (hm.of_error hrun)

theorem map {g : α → β} (hm : Assures worded P m) (hg : ∀ a, P a → Q (g a)) :
    Assures worded Q (do return g (← m)) :=
  hm.bind fun a ha => pure (hg a ha)

end Combinators

section Cursors

theorem varint (bits : Nat) (endAllowed : Bool) :
    Assures Fault.IsWorded (fun _ => True) (Cursor.readVarint bits endAllowed) := by
  intro c
  unfold Cursor.readVarint
  split
  · exact .ok trivial
  · split
    · exact .ok trivial
    · exact .error nofun
    · exact .error nofun

theorem exact {count : Nat} (h : Numeral.isWritable count = true) :
    Assures Fault.IsWorded (fun _ => True) (Cursor.readExact count) := by
  intro c
  unfold Cursor.readExact
  rw [Numeral.worded_singleton h]
  split
  · exact .error nofun
  · exact .ok trivial

theorem slice {count : Nat} (h : Numeral.isWritable count = true) :
    Assures Fault.IsWorded (fun _ => True) (Cursor.slice count) := by
  intro c
  unfold Cursor.slice
  cases hrun : Cursor.readExact count c with
  | ok bytes after => exact .ok trivial
  | error fault after => exact .error ((exact h).of_error hrun)

theorem int32 : Assures Fault.IsWorded IsInt32 (Cursor.readInt32 .plain) :=
  (varint 64 false).map fun n _ => isInt32_signed n

/-- A length that a message declares can be written. -/
theorem length :
    Assures Fault.IsWorded (fun n => Numeral.isWritable (n : Nat) = true) Cursor.readLength := by
  refine int32.bind fun length hlength => ?_
  split
  · exact throw nofun
  · next hsign =>
    refine pure ?_
    rw [Int.toNat_of_nonneg (Int.not_lt.mp hsign)]
    exact hlength.isWritable

theorem delimited : Assures Fault.IsWorded (fun _ => True) Cursor.readDelimited :=
  length.bind fun _ => exact

theorem sliceDelimited : Assures Fault.IsWorded (fun _ => True) Cursor.sliceDelimited :=
  length.bind fun _ => slice

theorem skip (wire : WireType) : Assures Fault.IsWorded (fun _ => True) (Cursor.skip wire) := by
  cases wire with
  | varint => exact (varint 64 false).map fun _ => id
  | fixed64 => exact (exact rfl : Assures _ _ (Cursor.readExact 8)).map fun _ => id
  | delimited => exact delimited.map fun _ => id
  | fixed32 => exact (exact rfl : Assures _ _ (Cursor.readExact 4)).map fun _ => id

/-- The faults of a packed run are worded. -/
theorem packedInts {c : Cursor} {fault : Fault} (h : Wire.packedInts c = .error fault) :
    fault.IsWorded := by
  fun_induction Wire.packedInts c with
  | case1 c hnil => cases h
  | case2 c hne fault' after hread =>
    cases h
    exact (varint 64 false).of_error hread
  | case3 c hne n after hread ih =>
    cases hrest : Wire.packedInts after with
    | error fault' =>
      rw [hrest] at h
      cases h
      exact ih hrest
    | ok values =>
      rw [hrest] at h
      cases h

end Cursors

section Readers

variable {α : Type} {P : α → Prop}

theorem onCursor {m : Read Cursor α} (h : Assures Fault.IsWorded P m) :
    Assures Fault.IsWorded P (Reader.onCursor m) := by
  intro r
  unfold Reader.onCursor
  cases hrun : m r.cursor with
  | ok a after => exact .ok (h.of_ok hrun)
  | error fault after => exact .error (h.of_error hrun)

theorem expect (wire : WireType) :
    Assures Fault.IsWorded (fun _ => True) (Reader.expect wire) := by
  intro r
  unfold Reader.expect
  split
  · exact .ok trivial
  · exact .error nofun

theorem readTag : Assures Fault.IsWorded (fun _ => True) Reader.readTag := by
  intro r
  unfold Reader.readTag
  cases hrun : Cursor.readVarint 64 true r.cursor with
  | error fault after => exact .error ((varint 64 true).of_error hrun)
  | ok header after =>
    dsimp only
    split
    · exact .ok trivial
    · cases htag : Tag.ofHeader (header % 0x100000000).toNat with
      | ok tag => exact .ok trivial
      | error fault =>
        refine .error ?_
        unfold Tag.ofHeader at htag
        split at htag
        · cases htag
          nofun
        · split at htag <;> cases htag
          nofun

theorem readInt : Assures Fault.IsWorded IsInt32 (Reader.readInt .plain) :=
  (expect .varint).bind fun _ _ => int32.onCursor

theorem enterTagless : Assures Fault.IsWorded (fun _ => True) Reader.enterTagless :=
  sliceDelimited.onCursor.map fun _ => id

theorem enter : Assures Fault.IsWorded (fun _ => True) Reader.enter :=
  (expect .delimited).bind fun _ _ => enterTagless

theorem readBytes : Assures Fault.IsWorded (fun _ => True) Reader.readBytes :=
  (expect .delimited).bind fun _ _ => delimited.onCursor

theorem readText : Assures Fault.IsWorded (fun _ => True) Reader.readText :=
  readBytes.map fun _ => id

theorem readInts : Assures Fault.IsWorded (fun _ => True) Reader.readInts := by
  intro r
  unfold Reader.readInts
  split
  · exact readInt.map (fun _ _ => trivial) r
  · cases hrun : Reader.enter r with
    | error fault after => exact .error (enter.of_error hrun)
    | ok run after =>
      dsimp only
      cases hvalues : Wire.packedInts run.cursor with
      | ok values => exact .ok trivial
      | error fault => exact .error (packedInts hvalues)

theorem skipField : Assures Fault.IsWorded (fun _ => True) (Reader.skipField none) := by
  intro r
  unfold Reader.skipField
  dsimp only
  split
  · exact onCursor (skip _) r
  · exact .error nofun

theorem liftFault {m : Read Reader α} (h : Assures Fault.IsWorded P m) :
    Assures DecodeError.IsWorded P (Wire.liftFault m) := by
  intro r
  unfold Wire.liftFault
  cases hrun : m r with
  | ok a after => exact .ok (h.of_ok hrun)
  | error fault after => exact .error (h.of_error hrun)

end Readers

end Assures

end Wire

/-- The outcome is a value with a property, or an error that is worded. -/
inductive Yields {α : Type} (P : α → Prop) : Except DecodeError α → Prop
  | ok {a : α} (h : P a) : Yields P (.ok a)
  | error {e : DecodeError} (h : e.IsWorded) : Yields P (.error e)

namespace Yields

variable {α β : Type} {P : α → Prop} {Q : β → Prop} {x : Except DecodeError α}

theorem of_ok {a : α} (h : Yields P x) (hx : x = .ok a) : P a := by
  subst hx
  cases h with
  | ok ha => exact ha

theorem of_error {e : DecodeError} (h : Yields P x) (hx : x = .error e) : e.IsWorded := by
  subst hx
  cases h with
  | error he => exact he

theorem bind {f : α → Except DecodeError β} (h : Yields P x) (hf : ∀ a, P a → Yields Q (f a)) :
    Yields Q (x >>= f) := by
  cases h with
  | ok ha => exact hf _ ha
  | error he => exact .error he

theorem map {f : α → β} (h : Yields P x) (hf : ∀ a, P a → Q (f a)) : Yields Q (x.map f) := by
  cases h with
  | ok ha => exact .ok (hf _ ha)
  | error he => exact .error he

end Yields

namespace Wire

/-- The rule keeps a property of the state when its field is an integer of 32 bits, and what it reads
as a message keeps the property or fails with an error that is worded. -/
def FieldRule.Keeps {σ : Type} (Q : σ → Prop) : FieldRule σ → Prop
  | int set => ∀ n state, IsInt32 n → Q state → Q (set n state)
  | ints add => ∀ ns state, Q state → Q (add ns state)
  | text set => ∀ t state, Q state → Q (set t state)
  | message read => ∀ r, Yields (fun update => ∀ state, Q state → Q (update state)) (read r)

theorem Assures.field {σ : Type} {Q : σ → Prop} {rule : Option (FieldRule σ)}
    (hrule : ∀ known, rule = some known → known.Keeps Q) {state : σ} (h : Q state) :
    Assures DecodeError.IsWorded Q (FieldRule.read rule state) :=
  match rule with
  | none => skipField.liftFault.map fun _ _ => h
  | some (.int _) => readInt.liftFault.map fun n hn => hrule _ rfl n state hn h
  | some (.ints _) => readInts.liftFault.map fun ns _ => hrule _ rfl ns state h
  | some (.text _) => readText.liftFault.map fun t _ => hrule _ rfl t state h
  | some (.message read) => by
    refine enter.liftFault.bind fun inner _ => ?_
    have hread := hrule _ rfl inner
    split
    · next update heq => exact pure (hread.of_ok heq state h)
    · next e heq => exact throw (hread.of_error heq)

/-- A walk keeps what the rules of its fields keep, and stops at errors that are worded. -/
theorem walk_yields {σ : Type} {Q : σ → Prop} {schema : Schema σ}
    (hschema : ∀ number rule, schema number = some rule → rule.Keeps Q) {state : σ} (h : Q state)
    (r : Reader) : Yields Q (walk schema state r).result := by
  fun_induction walk schema state r with
  | case1 state r fault after htag => exact .error (Assures.readTag.of_error htag)
  | case2 state r after htag => exact .ok h
  | case3 state r tag atValue htag e after hread =>
    exact .error ((Assures.field (hschema tag.field) h).of_error hread)
  | case4 state r tag atValue htag next after hread ih =>
    exact ih ((Assures.field (hschema tag.field) h).of_ok hread)

end Wire

end KotlinNullability
