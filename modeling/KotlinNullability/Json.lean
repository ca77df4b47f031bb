import KotlinNullability.Association
import KotlinNullability.Binary64
import KotlinNullability.Text.Quoted

/-!
# JSON values

Class headers arrive as JSON. Whole numbers are kept apart from numbers with a fraction or an
exponent, strings are texts, and an object keeps the order in which its keys first appeared.
Headers are read leniently: `toInt` and `items?` say which values pass for a whole number and which
pass for a sequence.
-/

namespace KotlinNullability

/-- A JSON value. -/
inductive Json where
  | null
  | bool (value : Bool)
  | whole (value : Int)
  | real (value : Binary64)
  | text (value : Text)
  | array (items : List Json)
  | object (members : List (Text × Json))
  deriving Repr

namespace Json

mutual

/-- Whether two values are the same, the order of keys included. -/
def same : Json → Json → Bool
  | null, null => true
  | bool a, bool b => a == b
  | whole a, whole b => decide (a = b)
  | real a, real b => decide (a = b)
  | text a, text b => decide (a = b)
  | array a, array b => sameItems a b
  | object a, object b => sameMembers a b
  | _, _ => false

/-- Whether two lists hold the same values. -/
def sameItems : List Json → List Json → Bool
  | [], [] => true
  | a :: as, b :: bs => same a b && sameItems as bs
  | _, _ => false

/-- Whether two lists hold the same keys and values. -/
def sameMembers : List (Text × Json) → List (Text × Json) → Bool
  | [], [] => true
  | (k, a) :: as, (l, b) :: bs => decide (k = l) && same a b && sameMembers as bs
  | _, _ => false

end

mutual

theorem same_iff (a b : Json) : same a b = true ↔ a = b := by
  cases a <;> cases b <;>
    simp [same, sameItems_iff, sameMembers_iff]

theorem sameItems_iff (as bs : List Json) : sameItems as bs = true ↔ as = bs := by
  cases as <;> cases bs <;> simp [sameItems, same_iff, sameItems_iff]

theorem sameMembers_iff (as bs : List (Text × Json)) : sameMembers as bs = true ↔ as = bs := by
  match as, bs with
  | [], [] => simp [sameMembers]
  | [], _ :: _ => simp [sameMembers]
  | _ :: _, [] => simp [sameMembers]
  | (k, a) :: as, (l, b) :: bs =>
    simp [sameMembers, same_iff a b, sameMembers_iff as bs, and_assoc]

end

instance : DecidableEq Json := fun a b => decidable_of_iff _ (same_iff a b)

/-- Why a value does not pass for a whole number. -/
inductive ConversionError where
  /-- The text is no numeral. -/
  | malformed (source : Text)
  /-- The numeral has too many digits. -/
  | tooLong (digits : Nat)
  /-- The number is not a number. -/
  | notANumber
  /-- The number is infinite. -/
  | infinite
  /-- Values of this type never pass for a number. -/
  | unsuitable
  deriving DecidableEq, Repr

namespace ConversionError

/-- What is said about a numeral that is too long. -/
def longNumeralMessage (digits : Nat) : Text :=
  "Exceeds the limit (" ++ Numeral.ofNat Numeral.digitLimit ++
    " digits) for integer string conversion: value has " ++ Numeral.ofNat digits ++
    " digits; use sys.set_int_max_str_digits() to increase the limit"

/-- The most code points that are shown of a malformed numeral in quotes. -/
def quotationLimit : Nat := 200

/-- The wording of those errors that blame a value of a suitable type. -/
def message? : ConversionError → Option Text
  | malformed source =>
    some ("invalid literal for int() with base 10: " ++ source.quoted.take quotationLimit)
  | tooLong digits => some (longNumeralMessage digits)
  | notANumber => some "cannot convert float NaN to integer"
  | infinite => none
  | unsuitable => none

end ConversionError

/-- Read a numeral as a whole number. -/
def readNumeral (t : Text) : Except ConversionError Int :=
  match Numeral.read t with
  | .ok n => .ok n
  | .error .malformed => .error (.malformed t)
  | .error (.tooLong digits) => .error (.tooLong digits)

/-- The whole number that a value passes for: a numeral is read, a fraction is dropped, and a truth
value counts as zero or one. -/
def toInt : Json → Except ConversionError Int
  | whole n => .ok n
  | bool b => .ok (if b then 1 else 0)
  | real .nan => .error .notANumber
  | real (.infinite _) => .error .infinite
  | real (.finite negative mantissa exponent) => .ok (Binary64.truncate negative mantissa exponent)
  | text t => readNumeral t
  | null | array _ | object _ => .error .unsuitable

/-- The items of a value that passes for a sequence: the items of an array, the code points of a
text, the keys of an object. -/
def items? : Json → Option (List Json)
  | array items => some items
  | text t => some (t.map fun c => text [c])
  | object members => some (members.map fun member => text member.1)
  | null | bool _ | whole _ | real _ => none

/-- Whether a value is empty or zero. -/
def isVoid : Json → Bool
  | null => true
  | bool b => !b
  | whole n => n == 0
  | real x => x.isZero
  | text t => t.isEmpty
  | array items => items.isEmpty
  | object members => members.isEmpty

/-- The text that a value is. -/
def text? : Json → Option Text
  | text t => some t
  | _ => none

/-- The code point that a value spells. -/
def codePoint? : Json → Option CodePoint
  | text [c] => some c
  | _ => none

end Json

end KotlinNullability
