import KotlinNullability.Metadata.Function
import KotlinNullability.StringTable

/-!
# Class messages

The payload of a class is a string table with its length in front, followed by the class message up
to the end. Only functions, their return types and their signatures are read; of a field that may
occur once, the last occurrence counts. The names of a function are resolved as soon as the function
has been read, and a return type's class name as soon as the type has been read.
-/

namespace KotlinNullability

open Wire (Reader Schema walk)

namespace ReturnType

/-- The fields of a type. -/
def schema : Schema ReturnType
  | 3 => some (.int fun flag type => { type with nullable := flag != 0 })
  | 6 => some (.int fun className type => { type with className })
  | _ => none

/-- Settle whether the class of a type is `kotlin/Unit`. -/
def resolve (table : StringTable) (type : ReturnType) : Except DecodeError ReturnType := do
  if type.className = -1 then return { type with isUnit := false }
  else return { type with isUnit := (← table.resolve type.className) = .text StringTable.unitName }

/-- Read the return type of a function. -/
def read (table : StringTable) (r : Reader) : Except DecodeError ReturnType := do
  resolve table (← (walk schema {} r).result)

end ReturnType

namespace Signature

/-- The fields of a signature. -/
def schema : Schema Signature
  | 1 => some (.int fun name s => { s with name })
  | 2 => some (.int fun descriptor s => { s with descriptor })
  | _ => none

/-- Read a signature. -/
def read (r : Reader) : Except DecodeError Signature := (walk schema {} r).result

end Signature

namespace Function

/-- The fields of a function before its names are resolved. -/
structure Draft where
  nameIndex : Int := -1
  returnType : ReturnType := {}
  signature : Option Signature := none
  deriving DecidableEq, Repr

/-- The fields of a function. -/
def schema (table : StringTable) : Schema Draft
  | 2 => some (.int fun nameIndex f => { f with nameIndex })
  | 3 => some (.message fun r =>
      (ReturnType.read table r).map fun returnType f => { f with returnType })
  | 100 => some (.message fun r =>
      (Signature.read r).map fun signature f => { f with signature := some signature })
  | _ => none

/-- The string index of the compiled method's name: the signature's, if it has one. -/
def Draft.methodName (f : Draft) : Int :=
  match f.signature with
  | some s => if s.name = -1 then f.nameIndex else s.name
  | none => f.nameIndex

/-- Resolve the names of a function. -/
def Draft.resolve (table : StringTable) (f : Draft) : Except DecodeError Function := do
  let name ← table.resolve f.methodName
  let key ← match f.signature with
    | some s => do
      let key ← (name.join (← table.resolve s.descriptor)).mapError .misuse
      pure (some key)
    | none => pure none
  return ⟨f.nameIndex, f.returnType, f.signature, name, key⟩

/-- Read a function. -/
def read (table : StringTable) (r : Reader) : Except DecodeError Function := do
  (← (walk (schema table) {} r).result).resolve table

end Function

namespace Metadata

/-- The fields of a class. -/
def classSchema (table : StringTable) : Schema (List Function)
  | 9 => some (.message fun r => (Function.read table r).map fun f functions => functions ++ [f])
  | _ => none

/-- How far the decoding of a payload came. -/
structure Decoding where
  /-- The number of slots of the string table, once it has been read. -/
  slots : Option Nat
  /-- The functions that have been read. -/
  functions : List Function
  /-- What stopped the decoding before the end. -/
  error : Option DecodeError
  deriving DecidableEq, Repr

/-- Decode a payload over a pool of interned strings. -/
def decoding (payload : List UInt8) (pool : List Json) : Decoding :=
  match Reader.enterTagless (.ofBytes payload) with
  | .error fault _ => ⟨none, [], some (.wire fault)⟩
  | .ok tableReader classReader =>
    match StringTable.read tableReader pool with
    | .error e => ⟨none, [], some e⟩
    | .ok table =>
      let classWalk := walk (classSchema table) [] classReader
      ⟨some table.size, classWalk.state, classWalk.error⟩

/-- The functions of a decoding that came to the end. -/
def Decoding.result (d : Decoding) : Except DecodeError (List Function) :=
  match d.error with
  | none => .ok d.functions
  | some e => .error e

/-- The functions of a class in order of declaration. -/
def decode (payload : List UInt8) (pool : List Json) : Except DecodeError (List Function) :=
  (decoding payload pool).result

end Metadata

end KotlinNullability
