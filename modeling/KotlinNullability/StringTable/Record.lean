import KotlinNullability.Json.Misfit

/-!
# Records of a string table

A record says where the strings of a run of consecutive slots come from and how they are changed: a
substring is cut out, one code point is replaced by another, and an operation turns an internal name
or a descriptor into a class name, in this order. A value that stands in the place of a string goes
through the same changes, as far as its type allows them.
-/

namespace KotlinNullability

/-- A record of a string table. -/
structure Record where
  /-- The number of slots; none if it is not positive. -/
  range : Int := 1
  /-- The position of a predefined name. -/
  predefinedIndex : Int := -1
  /-- The number of the operation. -/
  operation : Int := 0
  /-- A string given in the record itself. -/
  literal : Option Text := none
  /-- The bounds of the substring. -/
  substring : List Int := []
  /-- The code point to replace and its replacement. -/
  replacement : List Int := []
  deriving DecidableEq, Repr

namespace Record

/-- The number of slots that a record covers. -/
def span (r : Record) : Nat := r.range.toNat

/-- Cut out the substring, if there are two bounds that are in order and inside the text. -/
def cut (bounds : List Int) (t : Text) : Text :=
  match bounds with
  | first :: last :: _ =>
    if 0 ≤ first ∧ first ≤ last ∧ last ≤ t.length then
      (t.drop first.toNat).take (last - first).toNat
    else t
  | _ => t

/-- Replace one code point by another, if both are given; each is a UTF-16 unit. -/
def substitute (units : List Int) (t : Text) : Text :=
  match units with
  | old :: new :: _ => t.replace (.ofUnit old) (.ofUnit new)
  | _ => t

/-- Operation 1 turns `$` into `.`; operation 2 first drops the two code points that enclose a
descriptor. Any other number is no operation. -/
def operate (operation : Int) (t : Text) : Text :=
  if operation = 1 then t.replace '$' '.'
  else if operation = 2 then
    Text.replace '$' '.' (if 2 ≤ t.length then t.tail.dropLast else t)
  else t

/-- The string of a slot, from the string that its record starts from. -/
def change (r : Record) (base : Text) : Text :=
  operate r.operation (substitute r.replacement (cut r.substring base))

/-- Cut a part out of a value in the place of a string, if there are two bounds that are in order and
inside the value. -/
def cutMisfit (bounds : List Int) (value : Json) : Except Json.Misuse Json :=
  match bounds with
  | first :: last :: _ =>
    if 0 ≤ first ∧ first ≤ last then do
      if last ≤ (← value.length) then value.cut first.toNat last.toNat else return value
    else return value
  | _ => return value

/-- Do an operation on a value in the place of a string. Every operation replaces code points, for
which the value would have to be text. -/
def operateMisfit (operation : Int) (value : Json) : Except Json.Misuse Json :=
  if operation = 1 then throw (.replacement value.kind)
  else if operation = 2 then do
    let inner ← if 2 ≤ (← value.length) then value.cut 1 ((← value.length) - 1) else pure value
    throw (.replacement inner.kind)
  else return value

/-- Change a value in the place of a string. -/
def changeMisfit (r : Record) (value : Json) : Except Json.Misuse Json := do
  let part ← cutMisfit r.substring value
  if 2 ≤ r.replacement.length then throw (.replacement part.kind)
  operateMisfit r.operation part

/-- What a slot holds, from what its record starts from. -/
def apply (r : Record) (base : Json) : Except Json.Misuse Json :=
  match base with
  | .text t => .ok (.text (r.change t))
  | value => r.changeMisfit value

@[simp] theorem apply_text (r : Record) (t : Text) : r.apply (.text t) = .ok (.text (r.change t)) :=
  rfl

end Record

end KotlinNullability
