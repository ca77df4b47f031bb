import KotlinNullability.Json

/-!
# Functions

What is kept of a function of a class: whether its return type is nullable or `kotlin/Unit`, and the
key that identifies its compiled method, which is the method's name followed by its descriptor. Names
and keys are texts unless the metadata holds other values in their place.
-/

namespace KotlinNullability

/-- A return type, as far as nullability is concerned. -/
structure ReturnType where
  nullable : Bool := false
  /-- The string index of the class name, `-1` for a type that is no class. -/
  className : Int := -1
  /-- Whether the class is `kotlin/Unit`. -/
  isUnit : Bool := false
  deriving DecidableEq, Repr

/-- The string indices of a compiled method's name and descriptor. -/
structure Signature where
  /-- The index of the name, `-1` if it is the name of the function. -/
  name : Int := -1
  descriptor : Int := -1
  deriving DecidableEq, Repr

/-- A function of a class. -/
structure Function where
  /-- The string index of the name in the source. -/
  nameIndex : Int
  returnType : ReturnType
  signature : Option Signature
  /-- The name of the compiled method. -/
  name : Json
  /-- The name and descriptor of the compiled method; a function without a signature has none. -/
  key : Option Json
  deriving DecidableEq, Repr

/-- Whether the return type is nullable or `kotlin/Unit`. -/
def Function.returnsNullableOrUnit (f : Function) : Bool :=
  f.returnType.nullable || f.returnType.isUnit

end KotlinNullability
