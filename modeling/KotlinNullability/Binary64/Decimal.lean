import KotlinNullability.Binary64

/-!
# Shortest decimals

A number of the format is shown by the shortest decimal that reads back as the same number and, of
several of that length, by the one nearest to it. Seventeen digits always suffice.
-/

namespace KotlinNullability.Binary64

/-- The decimal `digits * 10 ^ exponent`. -/
structure Decimal where
  digits : Nat
  exponent : Int
  deriving DecidableEq, Repr

/-- `num / den * 10 ^ shift` as a quotient of naturals. -/
def scaleTen (num den : Nat) : Int → Nat × Nat
  | .ofNat shift => (num * Nat.pow 10 shift, den)
  | .negSucc shift => (num, den * Nat.pow 10 (shift + 1))

/-- The number of digits in front of the decimal point of a positive quotient; if there are none,
the zeros behind the point count as negative. -/
def pointOf (num den : Nat) : Int :=
  let guess : Int := (Numeral.ofNat num).length - (Numeral.ofNat den).length
  let scaled := scaleTen num den (-guess)
  if scaled.2 ≤ scaled.1 then guess + 1 else guess

/-- The same number with the one mantissa that rounding gives. -/
def normalize : Binary64 → Binary64
  | finite negative mantissa exponent =>
    let scaled := scale mantissa 1 exponent
    ofRatio negative scaled.1 scaled.2
  | x => x

/-- Whether a decimal reads as a magnitude. -/
def Decimal.reads (d : Decimal) (x : Binary64) : Bool :=
  (ofDecimal false d.digits d.exponent).normalize = x.normalize

/-- The nearest decimal of so many digits that reads as a positive quotient. -/
def decimalOf? (num den count : Nat) : Option Decimal :=
  let exponent := pointOf num den - count
  let scaled := scaleTen num den (-exponent)
  let floor := scaled.1 / scaled.2
  let x := ofRatio false num den
  let below : Decimal := ⟨floor, exponent⟩
  let above : Decimal := ⟨floor + 1, exponent⟩
  let nearest := if roundDiv scaled.1 scaled.2 = floor then [below, above] else [above, below]
  nearest.find? fun d => d.reads x

/-- The shortest decimal of a magnitude other than zero. -/
def shortest (mantissa : Nat) (exponent : Int) : Decimal :=
  let scaled := scale mantissa 1 exponent
  ((List.range 17).findSome? fun count => decimalOf? scaled.1 scaled.2 (count + 1)).getD ⟨0, 0⟩

/-- A text without the zeros at its end. -/
def dropZeros (t : Text) : Text := (t.reverse.dropWhile (· = CodePoint.ofChar '0')).reverse

/-- So many zeros. -/
def zeros (count : Nat) : Text := List.replicate count (CodePoint.ofChar '0')

/-- Digits with an exponent, which has at least two digits. -/
def scientific (digits : Text) (exponent : Int) : Text :=
  let power := Numeral.ofNat exponent.natAbs
  let fraction : Text := if digits.length ≤ 1 then [] else '.' :: digits.drop 1
  let mark : Text := if exponent < 0 then "e-" else "e+"
  digits.take 1 ++ fraction ++ mark ++ zeros (2 - power.length) ++ power

/-- Digits with a decimal point behind the first so many of them; zeros fill the gap. -/
def positional (digits : Text) (point : Int) : Text :=
  if point ≤ 0 then "0." ++ zeros (-point).toNat ++ digits
  else if digits.length ≤ point then digits ++ zeros (point.toNat - digits.length) ++ ".0"
  else digits.take point.toNat ++ "." ++ digits.drop point.toNat

/-- A decimal: positional from a ten thousandth up to sixteen digits in front of the point. -/
def Decimal.toText (d : Decimal) : Text :=
  let all := Numeral.ofNat d.digits
  let point := all.length + d.exponent
  if -4 < point ∧ point ≤ 16 then positional (dropZeros all) point
  else scientific (dropZeros all) (point - 1)

/-- A number as it is shown. -/
def toText : Binary64 → Text
  | nan => "nan"
  | infinite negative => if negative then "-inf" else "inf"
  | finite negative mantissa exponent =>
    let magnitude : Text := if mantissa = 0 then "0.0" else (shortest mantissa exponent).toText
    if negative then '-' :: magnitude else magnitude

example : toText (ofRatio true 3 2) = Text.ofString "-1.5" := by decide +kernel

example : toText (ofDecimal false 1 23) = Text.ofString "1e+23" ∧
    toText (ofDecimal false 1 (-5)) = Text.ofString "1e-05" := by decide +kernel

end KotlinNullability.Binary64
