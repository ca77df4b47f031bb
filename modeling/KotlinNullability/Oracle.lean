import KotlinNullability.Cache
import KotlinNullability.Header
import KotlinNullability.Jvm.Method
import KotlinNullability.Log.Record
import KotlinNullability.Metadata.Class
import KotlinNullability.Metadata.Match

/-!
# The oracle

The oracle answers whether the return type of a compiled method is nullable or `kotlin/Unit` in the
source. The metadata of a declaring type is decoded the first time that the type is asked for: its
version must be compatible with the oracle's baseline, its kind must be a class, and its payload must
not be empty, in this order. Later questions about the type compare method keys with the functions in
the cache.

Each operation returns its result, the cache after it and what it notes for the log.
-/

namespace KotlinNullability

/-- Why there is no payload. -/
inductive EmptyPayload where
  /-- The payload was given and has no byte. -/
  | noBytes
  /-- There are no strings to unpack. -/
  | noStrings
  /-- The strings of a declaring type unpack to nothing. -/
  | unpacksEmpty (key : Text)
  deriving DecidableEq, Repr

/-- What is wrong with the metadata of a class, or with a question about it. -/
inductive MetadataError where
  | incompatibleVersion (version : Version)
  | wrongKind (kind : Int)
  | emptyPayload (cause : EmptyPayload)
  | decode (error : DecodeError)
  | unmatched (error : MatchError)
  deriving DecidableEq, Repr

/-- The wording of the error. -/
def MetadataError.message : MetadataError → Text
  | incompatibleVersion version =>
    "Metadata version not compatible: " ++ version.dotted ++ " (strict=" ++
      Text.ofBool version.strict ++ ")"
  | wrongKind kind => "Metadata of wrong kind: " ++ Numeral.ofInt kind
  | emptyPayload .noBytes => "Metadata payload must not be empty"
  | emptyPayload .noStrings => "data1 must not be empty"
  | emptyPayload (.unpacksEmpty key) => "data1 of " ++ key.quoted ++ " decodes to an empty payload"
  | decode error => error.message
  | unmatched error => error.message

/-- Why a question has no answer. -/
inductive Failure where
  /-- The metadata is at fault. -/
  | metadata (error : MetadataError)
  /-- The header has a version without numbers. -/
  | emptyVersion
  /-- The header's packed strings hold no payload. -/
  | payload (error : Header.PayloadError)
  /-- The interned strings are no strings. -/
  | misuse (error : Json.Misuse)
  /-- A number in the wording of another failure cannot be written. -/
  | unwritable
  deriving DecidableEq, Repr

/-- The wording of those failures that have one. -/
def Failure.message? : Failure → Option Text
  | metadata error => some error.message
  | emptyVersion => some "Metadata version array must not be empty"
  | payload _ | misuse _ => none
  | unwritable => some Numeral.unwritableMessage

/-- An error of decoding as a failure: only the metadata itself can be at fault for it, or values
that stand in the place of its strings, unless it cannot be worded. -/
def Failure.ofDecodeError : DecodeError → Failure
  | .misuse e => misuse e
  | .unwritable | .wire .unwritable => unwritable
  | e => metadata (.decode e)

/-- What an oracle does and finds on the way. -/
inductive Note where
  | created (baseline : Baseline)
  | missed (key : Text)
  | cached (count : Nat) (key : Text)
  | incompatible (version : Version) (key : Text) (baseline : Baseline)
  | wrongKind (key : Text) (kind : Int)
  | unpacking (mode : Packing.Mode)
  | decodingStarted
  | tableRead (slots interned : Nat)
  | unmatchable (name : Json)
  | decoded (count bytes : Nat)
  | decodingCompleted
  | decodingFailed (error : DecodeError)
  | unmatched (error : MatchError)
  deriving DecidableEq, Repr

/-- The declaring types in the cache and their functions. -/
abbrev MetadataCache := Cache Text (List Function)

/-- The metadata of a class, as it comes to the oracle. -/
inductive ClassData where
  /-- A payload with its interned strings. -/
  | payload (bytes : List UInt8) (pool : List Json) (version : Version) (kind : Int)
  /-- A header. -/
  | header (header : Header)

/-- An attempt to decode a class. -/
structure Attempt where
  result : Except Failure (List Function)
  notes : List Note

namespace Attempt

/-- An attempt that fails. -/
def failed (error : MetadataError) (notes : List Note) : Attempt := ⟨.error (.metadata error), notes⟩

/-- Decode a payload. -/
def ofPayload (bytes : List UInt8) (pool : List Json) : Attempt :=
  let decoding := Metadata.decoding bytes pool
  let tableNotes := decoding.slots.toList.map fun slots => Note.tableRead slots pool.length
  let functionNotes := decoding.functions.filterMap fun f =>
    if f.signature.isNone then some (Note.unmatchable f.name) else none
  let notes := Note.decodingStarted :: (tableNotes ++ functionNotes)
  match decoding.error with
  | some e => ⟨.error (.ofDecodeError e), notes ++ [.decodingFailed e]⟩
  | none =>
    ⟨.ok decoding.functions,
      notes ++ [.decoded decoding.functions.length bytes.length, .decodingCompleted]⟩

/-- An attempt that is given up because of some numbers. Without a wording for these it fails for
that alone, and nothing is noted. -/
def rejected (numbers : List Int) (error : MetadataError) (note : Note) : Attempt :=
  Numeral.worded numbers ⟨.error .unwritable, []⟩ (failed error [note])

/-- Go on only with a compatible version and the kind of a class. -/
def gate (key : Text) (baseline : Baseline) (version : Version) (kind : Int)
    (next : Attempt) : Attempt :=
  if !version.isCompatible baseline then
    rejected (version.parts ++ baseline.parts) (.incompatibleVersion version)
      (.incompatible version key baseline)
  else if kind ≠ Header.classKind then rejected [kind] (.wrongKind kind) (.wrongKind key kind)
  else next

/-- Unpack and decode the payload of a header. -/
def ofHeader (key : Text) (header : Header) : Attempt :=
  if header.data1.isEmpty then failed (.emptyPayload .noStrings) []
  else
    let notes := header.mode?.toList.map Note.unpacking
    match header.payload with
    | .error e => ⟨.error (.payload e), notes⟩
    | .ok [] => failed (.emptyPayload (.unpacksEmpty key)) notes
    | .ok bytes =>
      let attempt := ofPayload bytes header.data2
      { attempt with notes := notes ++ attempt.notes }

/-- Decode a class for a declaring type. -/
def ofData (key : Text) (baseline : Baseline) : ClassData → Attempt
  | .payload bytes pool version kind =>
    gate key baseline version kind <|
      if bytes.isEmpty then failed (.emptyPayload .noBytes) [] else ofPayload bytes pool
  | .header header =>
    match header.version? with
    | none => ⟨.error .emptyVersion, []⟩
    | some version => gate key baseline version header.kind (ofHeader key header)

end Attempt

/-- A reader for metadata with the version of its baseline. -/
structure Oracle where
  baseline : Baseline
  deriving DecidableEq, Repr

/-- The result of an operation, the cache after it, and its notes. -/
structure Reply (α : Type) where
  result : Except Failure α
  cache : MetadataCache
  notes : List Note

namespace Oracle

/-- Make an oracle. The numbers of its baseline are noted, so they have to be short enough. -/
def create (baseline : Baseline) : Except Failure Oracle :=
  Numeral.worded baseline.parts (.error .unwritable) (.ok ⟨baseline⟩)

/-- The functions of a declaring type, decoded on first use. -/
def load (o : Oracle) (cache : MetadataCache) (key : Text) (data : ClassData) :
    Reply (List Function) :=
  let attempt := Attempt.ofData key o.baseline data
  let (served, cache) := cache.getOrCompute key fun c => (attempt.result, c)
  let notes :=
    match served with
    | .found _ => []
    | .computed functions => .missed key :: attempt.notes ++ [.cached functions.length key]
    | .failed _ => .missed key :: attempt.notes
  ⟨served.outcome, cache, notes⟩

/-- The answer for a method, given the functions of its declaring type. -/
def answer (loaded : Reply (List Function)) (method : Jvm.Method) : Reply Bool :=
  match loaded.result with
  | .error e => ⟨.error e, loaded.cache, loaded.notes⟩
  | .ok functions =>
    match Function.find functions method.key with
    | .ok f => ⟨.ok f.returnsNullableOrUnit, loaded.cache, loaded.notes⟩
    | .error e =>
      ⟨.error (.metadata (.unmatched e)), loaded.cache, loaded.notes ++ [.unmatched e]⟩

/-- Whether a method's return type is nullable or `kotlin/Unit`. -/
def isNullable (o : Oracle) (cache : MetadataCache) (key : Text) (data : ClassData)
    (method : Jvm.Method) : Reply Bool :=
  answer (o.load cache key data) method

/-- The same for a declaring type that may carry no metadata: then no return type is nullable. -/
def isReturnTypeNullable (o : Oracle) (cache : MetadataCache) (declaringType : Text)
    (header : Option Header) (method : Jvm.Method) : Reply Bool :=
  match header with
  | none => ⟨.ok false, cache, []⟩
  | some header => o.isNullable cache declaringType (.header header) method

end Oracle

end KotlinNullability
