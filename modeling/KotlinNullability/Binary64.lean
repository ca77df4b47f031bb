import KotlinNullability.Text.Numeral

/-!
# Binary floating point

Numbers of the format binary64, kept exactly as an integer times a power of two. A quotient of two
naturals is rounded to the nearest number of the format, a tie to the one with an even integer, so
every operation below is exact arithmetic followed by one rounding.
-/

namespace KotlinNullability

/-- A value of the format binary64. -/
inductive Binary64 where
  /-- No number. -/
  | nan
  /-- Infinity with a sign. -/
  | infinite (negative : Bool)
  /-- The number `mantissa * 2 ^ exponent` with a sign. -/
  | finite (negative : Bool) (mantissa : Nat) (exponent : Int)
  deriving DecidableEq, Repr

/-- The natural number nearest to a quotient, the even one of two equally near. -/
def roundDiv (num den : Nat) : Nat :=
  let floor := num / den
  let twice := 2 * (num % den)
  if den < twice ∨ (twice = den ∧ floor % 2 = 1) then floor + 1 else floor

namespace Binary64

/-- `num * 2 ^ shift / den` as a quotient of naturals. -/
def scale (num den : Nat) : Int → Nat × Nat
  | .ofNat shift => (num <<< shift, den)
  | .negSucc shift => (num, den <<< (shift + 1))

/-- The number of the format nearest to a quotient of naturals. -/
def ofRatio (negative : Bool) (num den : Nat) : Binary64 :=
  if num = 0 ∨ den = 0 then .finite negative 0 0
  else
    let guess : Int := (num.log2 : Int) - den.log2
    let atGuess := scale num den (-guess)
    let top := if atGuess.2 ≤ atGuess.1 then guess else guess - 1
    let exponent := max (top - 52) (-1074)
    let scaled := scale num den (-exponent)
    let mantissa := roundDiv scaled.1 scaled.2
    if (mantissa.log2 : Int) + exponent < 1024 then .finite negative mantissa exponent
    else .infinite negative

/-- The number of the format nearest to `significand * 10 ^ exponent`. -/
def ofDecimal (negative : Bool) (significand : Nat) (exponent : Int) : Binary64 :=
  let magnitude := (Numeral.ofNat significand).length + exponent
  if significand = 0 ∨ magnitude < -400 then .finite negative 0 0
  else if 400 < magnitude then .infinite negative
  else match exponent with
    | .ofNat e => ofRatio negative (significand * Nat.pow 10 e) 1
    | .negSucc e => ofRatio negative significand (Nat.pow 10 (e + 1))

/-- The number of the format nearest to an integer. -/
def ofInt (n : Int) : Binary64 := ofRatio (n < 0) n.natAbs 1

/-- The number of the format nearest to `units * 2 ^ exponent`. -/
def ofScaled (units exponent : Int) : Binary64 :=
  let scaled := scale units.natAbs 1 exponent
  ofRatio (units < 0) scaled.1 scaled.2

/-- A magnitude with its sign. -/
def signedUnits (negative : Bool) (mantissa : Nat) : Int := if negative then -mantissa else mantissa

/-- The sum of two values; a sum of zero is negative only if both values are. -/
def add : Binary64 → Binary64 → Binary64
  | nan, _ | _, nan => nan
  | infinite a, infinite b => if a = b then infinite a else nan
  | infinite a, finite .. | finite .., infinite a => infinite a
  | finite a m e, finite b n f =>
    let least := min e f
    let units := signedUnits a m <<< (e - least).toNat + signedUnits b n <<< (f - least).toNat
    if units = 0 then finite (a && b) 0 0 else ofScaled units least

/-- Whether a value is infinite. -/
def isInfinite : Binary64 → Bool
  | infinite _ => true
  | _ => false

/-- Whether a value is zero, of either sign. -/
def isZero : Binary64 → Bool
  | finite _ mantissa _ => mantissa == 0
  | _ => false

/-- A finite magnitude rounded to a natural number of units `1 / denominator`, ties to even. -/
def roundUnits (denominator mantissa : Nat) (exponent : Int) : Nat :=
  let scaled := scale (mantissa * denominator) 1 exponent
  roundDiv scaled.1 scaled.2

/-- The integer that is left when the fraction of a finite number is dropped. -/
def truncate (negative : Bool) (mantissa : Nat) (exponent : Int) : Int :=
  let scaled := scale mantissa 1 exponent
  let magnitude : Int := (scaled.1 / scaled.2 : Nat)
  if negative then -magnitude else magnitude

/-- The share `part / whole` in percent with one decimal: the quotient and then its hundredfold are
rounded to the format, and the decimal is rounded from the exact value. -/
def percentage (part whole : Nat) : Text :=
  match ofRatio false part whole with
  | .finite _ m e =>
    let scaled := scale (m * 100) 1 e
    match ofRatio false scaled.1 scaled.2 with
    | .finite _ m e =>
      let tenths := roundUnits 10 m e
      Numeral.ofNat (tenths / 10) ++ "." ++ Numeral.ofNat (tenths % 10) ++ "%"
    | _ => "%"
  | _ => "%"

example : percentage 1 3 = Text.ofString "33.3%" := by decide +kernel
example : percentage 0 0 = Text.ofString "0.0%" := by decide +kernel
example : truncate true 3 (-1) = -1 := by decide

end Binary64

end KotlinNullability
