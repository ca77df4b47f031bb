import KotlinNullability.Json

/-!
# Reading JSON

The reader takes the JSON grammar with two liberties: `NaN`, `Infinity` and `-Infinity` are numbers,
and a surrogate escape may stand alone. White space is space, tab, line feed and carriage return.
In an object the last value of a key counts. How deep arrays and objects may be nested is for the
caller to say.
-/

namespace KotlinNullability.Json

/-- Why a text is not read as JSON. -/
inductive ReadError where
  /-- The text breaks the grammar where so many code points are left. -/
  | malformed (remaining : Nat)
  /-- A whole number has more digits than are read. -/
  | longNumeral (digits : Nat)
  /-- Arrays and objects are nested too deep. -/
  | tooDeep
  deriving DecidableEq, Repr

namespace Reader

/-- The grammar is broken at the start of a text. -/
def broken {α : Type} (t : Text) : Except ReadError α := .error (.malformed t.length)

/-- White space between tokens. -/
def isBlank (c : CodePoint) : Bool := c = ' ' || c = '\t' || c = '\n' || c = '\r'

/-- A text without the white space at its start. -/
def skipBlank (t : Text) : Text := t.dropWhile isBlank

/-- The value of a hexadecimal digit. -/
def hexValue? (c : CodePoint) : Option Nat :=
  if 0x30 ≤ c.val ∧ c.val ≤ 0x39 then some (c.val - 0x30)
  else if 0x41 ≤ c.val ∧ c.val ≤ 0x46 then some (c.val - 0x37)
  else if 0x61 ≤ c.val ∧ c.val ≤ 0x66 then some (c.val - 0x57)
  else none

/-- The code point of four hexadecimal digits. -/
def hexUnit? (a b c d : CodePoint) : Option CodePoint := do
  let value := ((← hexValue? a) * 16 + (← hexValue? b)) * 256 + (← hexValue? c) * 16 + (← hexValue? d)
  if h : value < 0x110000 then some ⟨value, h⟩ else none

/-- The code point of an escape with one letter. -/
def shortEscape? (c : CodePoint) : Option CodePoint :=
  if c = '"' ∨ c = '\\' ∨ c = '/' then some c
  else if c = 'b' then some (CodePoint.ofChar '\x08')
  else if c = 'f' then some (CodePoint.ofChar '\x0c')
  else if c = 'n' then some (CodePoint.ofChar '\n')
  else if c = 'r' then some (CodePoint.ofChar '\r')
  else if c = 't' then some (CodePoint.ofChar '\t')
  else none

/-- The code points of a string after its opening quote, each escape on its own. -/
def units : Text → Except ReadError (Text × Text)
  | [] => broken []
  | c :: rest =>
    if c = '"' then .ok ([], rest)
    else if c.val < 0x20 then broken (c :: rest)
    else if c = '\\' then
      match rest with
      | [] => broken []
      | e :: rest =>
        if e = 'u' then
          match rest with
          | h1 :: h2 :: h3 :: h4 :: rest =>
            match hexUnit? h1 h2 h3 h4 with
            | some unit => do
              let (t, rest) ← units rest
              .ok (unit :: t, rest)
            | none => broken rest
          | rest => broken rest
        else
          match shortEscape? e with
          | some escaped => do
            let (t, rest) ← units rest
            .ok (escaped :: t, rest)
          | none => broken (e :: rest)
    else do
      let (t, rest) ← units rest
      .ok (c :: t, rest)

/-- Join each high surrogate with a low one that follows it. -/
def joinSurrogates : Text → Text
  | high :: low :: rest =>
    if h : (0xD800 ≤ high.val ∧ high.val < 0xDC00) ∧ (0xDC00 ≤ low.val ∧ low.val < 0xE000) then
      ⟨0x10000 + (high.val - 0xD800) * 0x400 + (low.val - 0xDC00), by omega⟩ :: joinSurrogates rest
    else high :: joinSurrogates (low :: rest)
  | t => t

/-- A string after its opening quote. -/
def string (t : Text) : Except ReadError (Text × Text) := do
  let (units, rest) ← units t
  .ok (joinSurrogates units, rest)

/-- The leading ASCII digits of a text, and the rest. -/
def digits (t : Text) : List Nat × Text :=
  ((t.takeWhile CodePoint.isAsciiDigit).map (·.val - 0x30), t.dropWhile CodePoint.isAsciiDigit)

/-- The digits after a decimal point, if the text starts with a point and a digit. -/
def fraction? : Text → Option (List Nat × Text)
  | [] => none
  | c :: rest => if c = '.' ∧ (digits rest).1 ≠ [] then some (digits rest) else none

/-- An exponent, if the text starts with a complete one. -/
def exponent? : Text → Option (Int × Text)
  | [] => none
  | c :: rest =>
    if c = 'e' ∨ c = 'E' then
      let (negative, unsigned) : Bool × Text :=
        match rest with
        | [] => (false, [])
        | s :: after =>
          if s = '-' then (true, after) else if s = '+' then (false, after) else (false, s :: after)
      match digits unsigned with
      | ([], _) => none
      | (ds, rest) =>
        let size : Int := Numeral.valueOf ds
        some (if negative then -size else size, rest)
    else none

/-- A number without its sign; the sign is given. -/
def number (negative : Bool) (t : Text) : Except ReadError (Json × Text) :=
  let (wholeDigits, rest) :=
    match t with
    | [] => ([], [])
    | c :: after => if c = '0' then ([0], after) else digits t
  match wholeDigits with
  | [] => broken t
  | _ :: _ =>
    let fractionPart := fraction? rest
    let afterFraction := (fractionPart.map (·.2)).getD rest
    let exponentPart := exponent? afterFraction
    let afterExponent := (exponentPart.map (·.2)).getD afterFraction
    if fractionPart.isNone && exponentPart.isNone then
      if Numeral.digitLimit < wholeDigits.length then .error (.longNumeral wholeDigits.length)
      else
        let size : Int := Numeral.valueOf wholeDigits
        .ok (.whole (if negative then -size else size), afterExponent)
    else
      let decimals := (fractionPart.map (·.1)).getD []
      let exponent := (exponentPart.map (·.1)).getD 0
      .ok (.real (.ofDecimal negative (Numeral.valueOf (wholeDigits ++ decimals))
        (exponent - decimals.length)), afterExponent)

/-- The values that are spelled out. -/
def names : List (Text × Json) :=
  [("null", .null), ("true", .bool true), ("false", .bool false), ("NaN", .real .nan),
   ("Infinity", .real (.infinite false)), ("-Infinity", .real (.infinite true))]

/-- A value that is spelled out, or a number. -/
def scalar (t : Text) : Except ReadError (Json × Text) :=
  match names.findSome? fun name => (Text.dropStart? name.1 t).map (name.2, ·) with
  | some reading => .ok reading
  | none =>
    match t with
    | [] => broken []
    | c :: rest => if c = '-' then number true rest else number false t

mutual

/-- A value, nested at most `depth` deep. The fuel bounds the nesting and the number of items
together. -/
def value (fuel depth : Nat) (t : Text) : Except ReadError (Json × Text) :=
  match fuel, t with
  | 0, _ => broken t
  | _, [] => broken []
  | fuel + 1, c :: rest =>
    if c = '"' then do
      let (s, rest) ← string rest
      .ok (.text s, rest)
    else if c = '[' then
      match depth, skipBlank rest with
      | 0, _ => .error .tooDeep
      | _, [] => broken []
      | depth + 1, c :: rest =>
        if c = ']' then .ok (.array [], rest)
        else do
          let (items, rest) ← elements fuel depth (c :: rest)
          .ok (.array items, rest)
    else if c = '\x7b' then
      match depth, skipBlank rest with
      | 0, _ => .error .tooDeep
      | _, [] => broken []
      | depth + 1, c :: rest =>
        if c = '\x7d' then .ok (.object [], rest)
        else do
          let (members, rest) ← members fuel depth (c :: rest) []
          .ok (.object members, rest)
    else scalar t

/-- The items of an array up to its closing bracket. -/
def elements (fuel depth : Nat) (t : Text) : Except ReadError (List Json × Text) :=
  match fuel with
  | 0 => broken t
  | fuel + 1 => do
    let (item, rest) ← value fuel depth t
    match skipBlank rest with
    | [] => broken []
    | c :: rest =>
      if c = ']' then .ok ([item], rest)
      else if c = ',' then do
        let (items, rest) ← elements fuel depth (skipBlank rest)
        .ok (item :: items, rest)
      else broken (c :: rest)

/-- The members of an object up to its closing brace, put after those already read. -/
def members (fuel depth : Nat) (t : Text) (read : List (Text × Json)) :
    Except ReadError (List (Text × Json) × Text) :=
  match fuel, t with
  | 0, _ => broken t
  | _, [] => broken []
  | fuel + 1, c :: rest =>
    if c = '"' then do
      let (key, rest) ← string rest
      match skipBlank rest with
      | [] => broken []
      | c :: rest =>
        if c = ':' then do
          let (item, rest) ← value fuel depth (skipBlank rest)
          match skipBlank rest with
          | [] => broken []
          | c :: rest =>
            if c = '\x7d' then .ok (Association.set key item read, rest)
            else if c = ',' then
              members fuel depth (skipBlank rest) (Association.set key item read)
            else broken (c :: rest)
        else broken (c :: rest)
    else broken (c :: rest)

end

end Reader

/-- Read a text that holds one JSON value, nested at most `depth` deep, and white space around it. -/
def read (depth : Nat) (t : Text) : Except ReadError Json := do
  let (value, rest) ← Reader.value (2 * t.length + 2) depth (Reader.skipBlank t)
  match Reader.skipBlank rest with
  | [] => .ok value
  | rest => Reader.broken rest

end KotlinNullability.Json
