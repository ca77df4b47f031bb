import KotlinNullability.Metadata.Class
import KotlinNullability.Proofs.Wire.Wording

/-!
# Decoding fails with errors that are worded

The string indices of a class are integers of 32 bits, so an index that does not resolve can be
written. With the wordings of the faults of messages, every error that decoding ends with is worded,
whatever the payload and the interned strings are.
-/

namespace KotlinNullability

open Wire (walk walk_yields)

/-- What is done with a value in the place of a string fails with an error that is worded. -/
theorem Yields.of_misuse {α : Type} (x : Except Json.Misuse α) :
    Yields (fun _ => True) (x.mapError .misuse) := by
  cases x with
  | ok a => exact .ok trivial
  | error misuse => exact .error trivial

namespace StringTable

theorem resolve_yields (table : StringTable) {index : Int} (h : IsInt32 index) :
    Yields (fun _ => True) (table.resolve index) := by
  have hindex (error : IndexError) : (DecodeError.ofIndex index error).IsWorded := by
    rw [DecodeError.ofIndex, Numeral.worded_singleton h.isWritable]
    trivial
  unfold resolve
  split
  · exact .error (hindex _)
  · split
    · exact .error (hindex _)
    · split
      · exact .error (hindex _)
      · exact .of_misuse _

theorem readRecord_yields (r : Wire.Reader) : Yields (fun _ => True) (readRecord r) := by
  refine walk_yields (fun number rule hrule => ?_) trivial r
  unfold recordSchema at hrule
  split at hrule <;> cases hrule
  all_goals exact fun _ _ => by intros; trivial

theorem read_yields (r : Wire.Reader) (pool : List Json) :
    Yields (fun _ => True) (read r pool) := by
  have hrecords : Yields (fun _ => True) (readRecords r) := by
    refine walk_yields (fun number rule hrule => ?_) trivial r
    unfold schema at hrule
    split at hrule <;> cases hrule
    exact fun inner => (readRecord_yields inner).map fun _ _ _ => id
  exact hrecords.map fun _ _ => trivial

end StringTable

/-- The class of a return type is named by an index of 32 bits. -/
theorem ReturnType.walk_yields (r : Wire.Reader) :
    Yields (fun type => IsInt32 type.className) (walk schema {} r).result := by
  refine Wire.walk_yields (fun number rule hrule => ?_) (by decide) r
  unfold schema at hrule
  split at hrule <;> cases hrule
  · exact fun _ _ _ => id
  · exact fun _ _ hn _ => hn

theorem ReturnType.read_yields (table : StringTable) (r : Wire.Reader) :
    Yields (fun _ => True) (read table r) := by
  refine (ReturnType.walk_yields r).bind fun type htype => ?_
  unfold resolve
  split
  · exact .ok trivial
  · exact (table.resolve_yields htype).bind fun _ _ => .ok trivial

/-- The name and the descriptor of a compiled method have indices of 32 bits. -/
def Signature.IsShort (s : Signature) : Prop := IsInt32 s.name ∧ IsInt32 s.descriptor

theorem Signature.read_yields (r : Wire.Reader) : Yields IsShort (read r) := by
  refine walk_yields (fun number rule hrule => ?_) ⟨by decide, by decide⟩ r
  unfold schema at hrule
  split at hrule <;> cases hrule
  · exact fun _ _ hn hs => ⟨hn, hs.2⟩
  · exact fun _ _ hn hs => ⟨hs.1, hn⟩

namespace Function

/-- The name of a function and those of its compiled method have indices of 32 bits. -/
def Draft.IsShort (f : Draft) : Prop := IsInt32 f.nameIndex ∧ ∀ s ∈ f.signature, s.IsShort

theorem Draft.IsShort.methodName {f : Draft} (h : f.IsShort) : IsInt32 f.methodName := by
  obtain ⟨hname, hsignature⟩ := h
  unfold Draft.methodName
  split
  · next s heq =>
    split
    · exact hname
    · exact (hsignature s heq).1
  · exact hname

theorem walk_yields (table : StringTable) (r : Wire.Reader) :
    Yields Draft.IsShort (walk (schema table) {} r).result := by
  refine Wire.walk_yields (fun number rule hrule => ?_) ⟨by decide, nofun⟩ r
  unfold schema at hrule
  split at hrule <;> cases hrule
  · exact fun _ _ hn hf => ⟨hn, hf.2⟩
  · exact fun inner => (ReturnType.read_yields table inner).map fun _ _ _ => id
  · refine fun inner => (Signature.read_yields inner).map fun s hs f hf => ⟨hf.1, ?_⟩
    rintro _ ⟨⟩
    exact hs

theorem Draft.resolve_yields (table : StringTable) {f : Draft} (h : f.IsShort) :
    Yields (fun _ => True) (f.resolve table) := by
  refine (table.resolve_yields h.methodName).bind fun name _ => ?_
  dsimp only
  split
  · next s heq =>
    refine (table.resolve_yields (h.2 s heq).2).bind fun descriptor _ => ?_
    exact (Yields.of_misuse (name.join descriptor)).bind fun key _ => .ok trivial
  · exact .ok trivial

theorem read_yields (table : StringTable) (r : Wire.Reader) :
    Yields (fun _ => True) (read table r) :=
  (walk_yields table r).bind fun _ hf => Draft.resolve_yields table hf

end Function

/-- Every error that decoding ends with is worded. -/
theorem Metadata.decode_yields (payload : List UInt8) (pool : List Json) :
    Yields (fun _ => True) (decode payload pool) := by
  unfold decode decoding
  split
  · next henter => exact .error (Wire.Assures.enterTagless.of_error henter)
  · next tableReader classReader henter =>
    split
    · next htable => exact .error ((StringTable.read_yields tableReader pool).of_error htable)
    · next table htable =>
      refine walk_yields (Q := fun _ => True) (fun number rule hrule => ?_) trivial classReader
      unfold classSchema at hrule
      split at hrule <;> cases hrule
      exact fun inner => (Function.read_yields table inner).map fun _ _ _ => id

end KotlinNullability
