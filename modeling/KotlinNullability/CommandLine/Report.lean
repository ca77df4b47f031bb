import KotlinNullability.CommandLine.Arguments
import KotlinNullability.Config
import KotlinNullability.Header.File
import KotlinNullability.Log.Journal
import KotlinNullability.Log.Note

/-!
# Reports

A report is what a configured run finds in a header file: the records for the log, the text for the
user, and how the run ends. Files that cannot be read, metadata that is refused and methods that are
not found end the run with status 1. An escape is a failure that the run does not turn into a status,
such as a configured baseline that is none, or a line that has no encoding. What was printed before it
stays printed.
-/

namespace KotlinNullability.CommandLine

/-- Why a line is not printed. -/
inductive PrintError where
  /-- A number in the line cannot be written. -/
  | unwritable
  /-- A code point of the line has no encoding. -/
  | unencodable (line : Text)
  deriving DecidableEq, Repr

/-- A failure that the run does not turn into a status. -/
inductive Escape where
  /-- The variable file is given up, and not for its content's sake. -/
  | variableFile
  /-- The header file yields no header, and not for its content's sake. -/
  | headerFile (error : Header.FileError)
  /-- The configured baseline is none. -/
  | baseline (error : Baseline.ReadError)
  /-- The header has no version, or its strings are no strings. -/
  | header (failure : Failure)
  /-- The directory for log files cannot be made. -/
  | directory (error : FileTree.MakeError)
  /-- A path is too long to look there. -/
  | pathTooLong
  /-- A line of the listing is not printed. -/
  | output (error : PrintError)
  deriving DecidableEq, Repr

/-- The wording of those failures that have one. -/
def Escape.message? : Escape → Option Text
  | variableFile | headerFile _ | directory _ | pathTooLong | output (.unencodable _) => none
  | baseline error => some error.message
  | header failure => failure.message?
  | output .unwritable => some Numeral.unwritableMessage

/-- How a run ends. -/
inductive Exit where
  | status (code : Nat)
  | escape (failure : Escape)
  deriving DecidableEq, Repr

/-- The code points that can be printed. Those of ASCII always can. -/
structure Encoding where
  encodes : CodePoint → Bool
  ascii : ∀ c : CodePoint, c.val < 0x80 → encodes c = true

/-- All code points but surrogates can be printed. -/
def Encoding.unicode : Encoding where
  encodes c := !c.isSurrogate
  ascii c h := by simp only [CodePoint.isSurrogate, Bool.not_eq_true', decide_eq_false_iff_not]; omega

/-- What a run takes from outside: moments, words for failures that the library has no words for,
readers of arguments and of variable files, and the limits of the system that it runs on. -/
structure Surroundings where
  stamps : Log.Stamps
  wording : Header.Wording
  unworded : Escape → Text
  dialect : Dialect
  variableReader : Environment.VariableReader
  /-- How deep the arrays and objects of a header file may be nested. -/
  nesting : Nat
  /-- The most names that may lead to a directory that is made. -/
  depth : Nat
  encoding : Encoding

/-- What a run finds. -/
structure Report where
  records : List Log.Record
  output : Text := []
  exit : Exit

namespace Report

/-- A record of the command line itself. -/
def say (level : Log.Level) (message : Text) : Log.Record :=
  ⟨level, Log.Component.commandLine.logger, message⟩

/-- The record of an escape. -/
def escapeRecord (s : Surroundings) (failure : Escape) : Log.Record :=
  Log.taskFailed Log.Component.commandLine.logger "main" s.stamps.elapsed
    (failure.message?.getD (s.unworded failure))

/-- A report that ends with an escape. -/
def ofEscape (s : Surroundings) (failure : Escape) : Report :=
  ⟨[escapeRecord s failure], [], .escape failure⟩

/-- A report that ends with status 1. -/
def ofRefusal (message : Text) : Report := ⟨[say .error message], [], .status 1⟩

/-- Put records in front of a report. -/
def after (records : List Log.Record) (r : Report) : Report :=
  { r with records := records ++ r.records }

/-- The word for a truth value. -/
def answerWord (b : Bool) : Text := if b then "true" else "false"

/-- What is notable about a return type. -/
def flags (t : ReturnType) : Text :=
  match t.nullable, t.isUnit with
  | false, false => "-"
  | true, false => "nullable"
  | false, true => "unit"
  | true, true => "nullable,unit"

/-- What stands for a function in a listing: its key or, if that is missing, empty or zero, its
name. -/
def label (f : Function) : Json :=
  match f.key with
  | some key => if key.isVoid then f.name else key
  | none => f.name

/-- What a function is called in a listing. -/
def title (f : Function) : Text := (label f).display

/-- The line of a function in a listing. -/
def line (f : Function) : Text := title f ++ "\t" ++ flags f.returnType ++ "\n"

/-- Print a line: what is then printed. -/
def printed (encoding : Encoding) (line : Text) : Except PrintError Text :=
  if line.all encoding.encodes then .ok line else .error (.unencodable line)

/-- Print the line of a function, if there is one. -/
def printedLine (encoding : Encoding) (f : Function) : Except PrintError Text :=
  if (label f).isWritable then printed encoding (line f) else .error .unwritable

/-- Print the lines of functions one after the other: what is printed, and what stops it before the
end. -/
def printedLines (encoding : Encoding) : List Function → Text × Option PrintError
  | [] => ([], none)
  | f :: functions =>
    match printedLine encoding f with
    | .error e => ([], some e)
    | .ok line =>
      let (lines, error) := printedLines encoding functions
      (line ++ lines, error)

/-- The report of all functions. -/
def ofListing (s : Surroundings) (path : Path) (functions : List Function) : Report :=
  let found :=
    say .info ("Found " ++ Numeral.ofNat functions.length ++ " function(s) in " ++ path.toText)
  match printedLines s.encoding functions with
  | (output, none) => ⟨[found], output, .status 0⟩
  | (output, some e) => ⟨[found, escapeRecord s (.output e)], output, .escape (.output e)⟩

/-- The report of one method. -/
def ofQuestion (s : Surroundings) (functions : List Function) (method : Text) : Report :=
  match Function.find functions method with
  | .ok f =>
    match printed s.encoding (answerWord f.returnsNullableOrUnit ++ "\n") with
    | .ok answer => ⟨[], answer, .status 0⟩
    | .error e => ofEscape s (.output e)
  | .error e =>
    (ofRefusal ("[FAILED] " ++ e.message)).after [Log.ofNote s.stamps.elapsed (.unmatched e)]

/-- The report of a header, given the baseline. -/
def ofHeader (s : Surroundings) (config : Config) (baseline : Baseline) (header : Header) :
    Report :=
  match Oracle.create baseline with
  | .error failure => ofEscape s (.header failure)
  | .ok oracle =>
    let loaded := oracle.load {} config.headerFile.stem (.header header)
    let rest :=
      match loaded.result with
      | .error (.metadata e) =>
        ofRefusal ("[FAILED] " ++ config.headerFile.toText ++ ": " ++ e.message)
      | .error failure => ofEscape s (.header failure)
      | .ok functions =>
        match config.method with
        | some method => ofQuestion s functions method
        | none => ofListing s config.headerFile functions
    rest.after ((.created baseline :: loaded.notes).map (Log.ofNote s.stamps.elapsed))

/-- The report of a header file with some content. -/
def ofFile (s : Surroundings) (env : Environment) (config : Config) (content : List UInt8) :
    Report :=
  let rest :=
    match Header.ofFile s.nesting content with
    | .error e =>
      match e.message? s.wording with
      | some message =>
        ofRefusal ("Could not read header " ++ config.headerFile.toText ++ ": " ++ message)
      | none => ofEscape s (.headerFile e)
    | .ok header =>
      match env.baseline with
      | .error e => ofEscape s (.baseline e)
      | .ok baseline => ofHeader s config baseline header
  rest.after [say .debug ("Header file: " ++ config.headerFile.toText)]

end Report

end KotlinNullability.CommandLine
