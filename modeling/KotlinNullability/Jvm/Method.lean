import KotlinNullability.Text

/-!
# Compiled methods

Types of the JVM go by their binary names: `int` for a primitive type, `java.lang.String` for a
class, `[I` or `[Ljava.lang.String;` for an array. A method's descriptor writes its parameter types
and its return type in the notation of class files; the name followed by the descriptor is the key of
the method.
-/

namespace KotlinNullability.Jvm

/-- A type by its binary name. -/
structure TypeName where
  name : Text
  deriving DecidableEq, Repr

/-- The primitive types and their letters in descriptors. -/
def primitives : List (Text × Text) :=
  [("int", "I"), ("long", "J"), ("boolean", "Z"), ("byte", "B"), ("char", "C"), ("float", "F"),
   ("double", "D"), ("short", "S"), ("void", "V")]

namespace TypeName

/-- The letter of a primitive type. -/
def letter? (t : TypeName) : Option Text :=
  (primitives.find? fun entry => entry.1 = t.name).map (·.2)

/-- Whether a type is primitive. -/
def isPrimitive (t : TypeName) : Bool := t.letter?.isSome

/-- Whether a type is an array. -/
def isArray (t : TypeName) : Bool := t.name.head? = some '['

/-- The notation of a type in a descriptor. -/
def descriptor (t : TypeName) : Text :=
  match t.letter? with
  | some letter => letter
  | none =>
    if t.isArray then t.name.replace '.' '/'
    else "L" ++ t.name.replace '.' '/' ++ ";"

end TypeName

/-- A method as reflection shows it. -/
structure Method where
  name : Text
  parameters : List TypeName := []
  returns : TypeName := ⟨"void"⟩
  deriving DecidableEq, Repr

/-- The name and descriptor of a method. -/
def Method.key (m : Method) : Text :=
  m.name ++ "(" ++ m.parameters.flatMap TypeName.descriptor ++ ")" ++ m.returns.descriptor

end KotlinNullability.Jvm
