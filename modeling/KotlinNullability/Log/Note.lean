import KotlinNullability.Log.Task
import KotlinNullability.Oracle

/-!
# What the oracle logs

Every note of the oracle is a log record with a level, a component and a wording. Decoding is logged
as a task.
-/

namespace KotlinNullability.Log

/-- The name under which decoding is timed. -/
def decodingTask : Text := "read_class_data"

/-- The record of a note; decoding took so many milliseconds. -/
def ofNote (elapsed : Text) : Note → Record
  | .created baseline =>
    ⟨.debug, Component.oracle.logger,
      "Initialized NullabilityOracle with baseline " ++ baseline.tuple⟩
  | .missed key =>
    ⟨.debug, Component.cache.logger, "Cache miss for " ++ key.quoted ++ ", decoding metadata"⟩
  | .cached count key =>
    ⟨.debug, Component.cache.logger,
      "Cached " ++ Numeral.ofNat count ++ " functions for " ++ key.quoted⟩
  | .incompatible version key baseline =>
    ⟨.warning, Component.oracle.logger,
      "Metadata version " ++ version.dotted ++ " of " ++ key.quoted ++ " is not compatible with " ++
        baseline.dotted⟩
  | .wrongKind key kind =>
    ⟨.warning, Component.oracle.logger,
      "Metadata of " ++ key.quoted ++ " has kind " ++ Numeral.ofInt kind ++ ", expected a class"⟩
  | .unpacking .utf8 =>
    ⟨.debug, Component.packing.logger, "Decoding metadata payload in UTF-8 mode"⟩
  | .unpacking .sevenBit =>
    ⟨.debug, Component.packing.logger, "Decoding metadata payload in 8-to-7 mode"⟩
  | .decodingStarted => taskStarted Component.classReader.logger decodingTask
  | .tableRead slots interned =>
    ⟨.debug, Component.stringTable.logger,
      "Parsed string table with " ++ Numeral.ofNat slots ++ " slots over " ++
        Numeral.ofNat interned ++ " interned strings"⟩
  | .unmatchable name =>
    ⟨.debug, Component.classReader.logger,
      "Function '" ++ name.display ++ "' has no JVM signature and cannot be matched"⟩
  | .decoded count bytes =>
    ⟨.debug, Component.classReader.logger,
      "Decoded " ++ Numeral.ofNat count ++ " functions from " ++ Numeral.ofNat bytes ++ " bytes"⟩
  | .decodingCompleted => taskCompleted Component.classReader.logger decodingTask elapsed
  | .decodingFailed error =>
    taskFailed Component.classReader.logger decodingTask elapsed error.message
  | .unmatched error => ⟨.debug, Component.matching.logger, error.note⟩

end KotlinNullability.Log
