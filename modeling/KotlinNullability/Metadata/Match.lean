import KotlinNullability.Metadata.Function
import KotlinNullability.Text.Numeral

/-!
# Matching

A compiled method is matched with the one function whose key is the method's.
-/

namespace KotlinNullability

/-- Why there is no function for a key. -/
inductive MatchError where
  /-- No function has the key. -/
  | absent (key : Text)
  /-- Several functions have the key. -/
  | ambiguous (key : Text) (count : Nat)
  deriving DecidableEq, Repr

namespace MatchError

/-- The wording of the error. -/
def message : MatchError → Text
  | absent key => "No match found in metadata for '" ++ key ++ "'"
  | ambiguous key _ => "Multiple function matches found in metadata for '" ++ key ++ "'"

/-- What the log says about the error. -/
def note : MatchError → Text
  | absent key => "No function in metadata matches '" ++ key ++ "'"
  | ambiguous key count =>
    Numeral.ofNat count ++ " functions in metadata match '" ++ key ++ "'"

end MatchError

namespace Function

/-- The only function with a key. -/
def find (functions : List Function) (key : Text) : Except MatchError Function :=
  match functions.filter fun f => f.key = some (.text key) with
  | [] => .error (.absent key)
  | [f] => .ok f
  | candidates => .error (.ambiguous key candidates.length)

/-- A function that was found is among the functions and has the key. -/
theorem mem_of_find {functions : List Function} {key : Text} {f : Function}
    (h : find functions key = .ok f) : f ∈ functions ∧ f.key = some (.text key) := by
  unfold find at h
  split at h
  · cases h
  · next g hg =>
    cases h
    have hmem : f ∈ functions.filter fun f => f.key = some (.text key) := by rw [hg]; simp
    simpa using List.mem_filter.1 hmem
  · cases h

end Function

end KotlinNullability
