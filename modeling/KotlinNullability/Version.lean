import KotlinNullability.Text.Numeral

/-!
# Metadata versions

A version is a triple with a flag that asks for strict comparison. A reader made for a baseline can
decode a version of the same major number if, strictly, neither of the other numbers is ahead of the
baseline, or else if the minor number is at most one ahead. Major 0 and 1.0 came before the format
was stable and are never compatible.
-/

namespace KotlinNullability

/-- The version that a reader was made for. -/
structure Baseline where
  major : Int
  minor : Int
  patch : Int
  deriving DecidableEq, Repr

namespace Baseline

/-- The numbers of a baseline. -/
def parts (b : Baseline) : List Int := [b.major, b.minor, b.patch]

/-- A baseline with points between its numbers. -/
def dotted (b : Baseline) : Text := Text.join "." (b.parts.map Numeral.ofInt)

/-- A baseline as a tuple. -/
def tuple (b : Baseline) : Text := "(" ++ Text.join ", " (b.parts.map Numeral.ofInt) ++ ")"

end Baseline

/-- The version of a class's metadata. -/
structure Version where
  major : Int
  minor : Int
  patch : Int := 0
  strict : Bool := false
  deriving DecidableEq, Repr

namespace Version

/-- The version of a list of numbers: missing ones are zero, those after the third are ignored. An
empty list is no version. -/
def ofParts? (parts : List Int) (strict : Bool) : Option Version :=
  match parts with
  | [] => none
  | [major] => some ⟨major, 0, 0, strict⟩
  | [major, minor] => some ⟨major, minor, 0, strict⟩
  | major :: minor :: patch :: _ => some ⟨major, minor, patch, strict⟩

/-- The numbers of a version. -/
def parts (v : Version) : List Int := [v.major, v.minor, v.patch]

/-- A version with points between its numbers. -/
def dotted (v : Version) : Text := Baseline.dotted ⟨v.major, v.minor, v.patch⟩

/-- Whether a reader made for the baseline can decode a version. -/
def isCompatible (v : Version) (baseline : Baseline) : Bool :=
  if v.major = 0 ∨ (v.major = 1 ∧ v.minor = 0) then false
  else if v.major ≠ baseline.major then false
  else if v.strict then v.minor ≤ baseline.minor && v.patch ≤ baseline.patch
  else v.minor ≤ baseline.minor + 1

end Version

end KotlinNullability
