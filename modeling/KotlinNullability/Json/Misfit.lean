import KotlinNullability.Binary64.Decimal
import KotlinNullability.Json

/-!
# Values in the place of text

A header may hold values of any type where names belong. What is done with names is then done with
these values as far as their type allows: two arrays are joined like two texts, numbers are added,
and whatever a type does not allow is a misuse.
-/

namespace KotlinNullability.Json

/-- The type of a value. -/
inductive Kind where
  | null
  | bool
  | whole
  | real
  | text
  | array
  | object
  deriving DecidableEq, Repr

/-- What a type is called in messages. -/
def Kind.label : Kind → Text
  | null => "NoneType"
  | bool => "bool"
  | whole => "int"
  | real => "float"
  | text => "str"
  | array => "list"
  | object => "dict"

/-- The type of a value. -/
def kind : Json → Kind
  | null => .null
  | bool _ => .bool
  | whole _ => .whole
  | real _ => .real
  | text _ => .text
  | array _ => .array
  | object _ => .object

/-- What a type does not allow. -/
inductive Misuse where
  /-- Values of the type have no length. -/
  | length (type : Kind)
  /-- No run of members can be cut out of an object. -/
  | part
  /-- No code points are replaced in values of the type. -/
  | replacement (type : Kind)
  /-- Values of the two types do not join. -/
  | joining (left right : Kind)
  /-- The whole number is too large to be added to a number with a fraction. -/
  | magnitude
  deriving DecidableEq, Repr

/-- The wording of the misuse. -/
def Misuse.message : Misuse → Text
  | length type => "object of type '" ++ type.label ++ "' has no len()"
  | part => "unhashable type: 'slice'"
  | replacement type => "'" ++ type.label ++ "' object has no attribute 'replace'"
  | joining left right =>
    if left = .text ∨ left = .array then
      "can only concatenate " ++ left.label ++ " (not \"" ++ right.label ++ "\") to " ++ left.label
    else
      "unsupported operand type(s) for +: '" ++ left.label ++ "' and '" ++ right.label ++ "'"
  | magnitude => "int too large to convert to float"

mutual

/-- How a value is shown inside others: texts stand in quotes. -/
def shown : Json → Text
  | null => "None"
  | bool b => .ofBool b
  | whole n => Numeral.ofInt n
  | real x => x.toText
  | text t => t.quoted
  | array items => "[" ++ Text.join ", " (shownItems items) ++ "]"
  | object members => (Text.ofString "\x7b") ++ Text.join ", " (shownMembers members) ++ "\x7d"

/-- How values are shown inside an array. -/
def shownItems : List Json → List Text
  | [] => []
  | value :: values => shown value :: shownItems values

/-- How keys and values are shown inside an object. -/
def shownMembers : List (Text × Json) → List Text
  | [] => []
  | (key, value) :: members => (key.quoted ++ ": " ++ shown value) :: shownMembers members

end

mutual

/-- Whether the numbers in a value are short enough to be written. -/
def isWritable : Json → Bool
  | whole n => Numeral.isWritable n
  | array items => areWritable items
  | object members => membersAreWritable members
  | null | bool _ | real _ | text _ => true

/-- Whether the numbers in some values are short enough to be written. -/
def areWritable : List Json → Bool
  | [] => true
  | value :: values => isWritable value && areWritable values

/-- Whether the numbers in the members of an object are short enough to be written. -/
def membersAreWritable : List (Text × Json) → Bool
  | [] => true
  | (_, value) :: members => isWritable value && membersAreWritable members

end

/-- How a value is shown by itself: a text as it is. -/
def display : Json → Text
  | text t => t
  | value => value.shown

/-- The whole number that a value counts as in a sum. -/
def summand? : Json → Option Int
  | whole n => some n
  | bool b => some (if b then 1 else 0)
  | _ => none

/-- The number with a fraction that a value counts as in a sum. -/
def realSummand? : Json → Option Binary64
  | real x => some x
  | value => value.summand?.map Binary64.ofInt

/-- Whether a value is a whole number out of the range of numbers with a fraction. -/
def isHuge (value : Json) : Bool := value.summand?.any fun n => (Binary64.ofInt n).isInfinite

/-- Join two values: texts and arrays end to end, numbers by their sum. -/
def join (a b : Json) : Except Misuse Json :=
  match a, b with
  | text s, text t => .ok (text (s ++ t))
  | array items, array others => .ok (array (items ++ others))
  | a, b =>
    match a.summand?, b.summand?, a.realSummand?, b.realSummand? with
    | some m, some n, _, _ => .ok (whole (m + n))
    | _, _, some x, some y =>
      if a.isHuge || b.isHuge then .error .magnitude else .ok (real (x.add y))
    | _, _, _, _ => .error (.joining a.kind b.kind)

/-- The number of items or members of a value. -/
def length : Json → Except Misuse Nat
  | text t => .ok t.length
  | array items => .ok items.length
  | object members => .ok members.length
  | value => .error (.length value.kind)

/-- Cut the items of an array between two positions; nothing can be cut out of other values. -/
def cut (first last : Nat) : Json → Except Misuse Json
  | array items => .ok (array ((items.drop first).take (last - first)))
  | value => .error (match value with
    | object _ => .part
    | value => .length value.kind)

example : (object [("a", array [null, text "x", real (.ofInt 1)])]).shown =
    Text.ofString "\x7b'a': [None, 'x', 1.0]\x7d" := by decide +kernel

end KotlinNullability.Json
