import KotlinNullability.Text.Quoted
import KotlinNullability.Version

/-!
# The configured baseline

A baseline is configured as a text of three numerals with points between them.
-/

namespace KotlinNullability.Baseline

/-- Why a text is no baseline. -/
inductive ReadError where
  /-- There are not three parts. -/
  | shape (source : Text)
  /-- A part is no numeral. -/
  | numeral (source : Text)
  deriving DecidableEq, Repr

/-- The wording of the error. -/
def ReadError.message : ReadError → Text
  | shape source => "Baseline version must look like 'major.minor.patch': " ++ source.quoted
  | numeral source => "Baseline version has a non-numeric component: " ++ source.quoted

/-- Read a baseline. -/
def read (source : Text) : Except ReadError Baseline :=
  match source.splitOn '.' with
  | [major, minor, patch] =>
    match Numeral.read major, Numeral.read minor, Numeral.read patch with
    | .ok major, .ok minor, .ok patch => .ok ⟨major, minor, patch⟩
    | _, _, _ => .error (.numeral source)
  | _ => .error (.shape source)

end KotlinNullability.Baseline
