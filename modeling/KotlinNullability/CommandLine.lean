import KotlinNullability.CommandLine.Arguments
import KotlinNullability.CommandLine.Report

/-!
# The command line

A run reads its arguments, completes its configuration from the environment, checks it, starts the
journal, and reports on the header file. Arguments that are refused end it with status 2, a
configuration that is refused with status 1; then nothing is logged.
-/

namespace KotlinNullability.CommandLine

/-- The name of the program. -/
def programName : Text := "kotlin-metadata-reader"

/-- How the program is used. -/
def usage : Text := "usage: " ++ programName ++ " [-h] [-m SIGNATURE] [-v] [header_file]\n"

/-- The explanation of the program. -/
def helpText : Text :=
  usage ++ "
Inspect the Kotlin metadata of a compiled class and report which functions return nullable or Unit
types.

  header_file           the JSON header of the class (optional if the environment names it)
  -m, --method SIGNATURE
                        the JVM name and descriptor of the method to check
  -v, --verbose         show debug records
  -h, --help            show this text
"

/-- What a run leaves behind. -/
structure Outcome where
  exit : Exit
  output : Text := []
  errors : Text := []
  tree : FileTree
  journal : Log.Journal := {}

/-- Why a run is not configured. -/
inductive ConfigError where
  | variableFile (error : Environment.LoadError)
  | refused (fault : Config.Fault)
  deriving DecidableEq, Repr

/-- The wording of those errors that the configuration is to blame for. -/
def ConfigError.message? : ConfigError → Option Text
  | variableFile (.refused message) => some message
  | variableFile .abandoned => none
  | refused fault => fault.message?

/-- The failure that an error without a wording is. -/
def ConfigError.escape : ConfigError → Escape
  | variableFile _ => .variableFile
  | refused _ => .pathTooLong

/-- A run that is ready to start. -/
structure Plan where
  environment : Environment
  config : Config
  /-- The content of the header file. -/
  content : List UInt8

/-- The configuration that arguments and environment give together. Verbose output is for the
arguments alone to ask for. -/
def configOf (arguments : Arguments) (env : Environment) : Config :=
  (Config.ofEnvironment env).override (arguments.headerFile.map Path.read) arguments.method
    (some arguments.verbose)

/-- Configure a run. -/
def configure (s : Surroundings) (arguments : Arguments) (env : Environment) (tree : FileTree) :
    Except ConfigError Plan :=
  match env.load s.variableReader tree Environment.variableFile with
  | .error e => .error (.variableFile e)
  | .ok env =>
    match (configOf arguments env).check tree with
    | .error fault => .error (.refused fault)
    | .ok content => .ok ⟨env, configOf arguments env, content⟩

/-- A run that ends with an escape before anything is logged. -/
def ofEscape (s : Surroundings) (tree : FileTree) (failure : Escape) : Outcome :=
  let (journal, shown) := Log.Journal.take s.stamps.line {} [Report.escapeRecord s failure]
  { exit := .escape failure, errors := shown, tree, journal }

/-- Carry a plan out. -/
def carryOut (s : Surroundings) (tree : FileTree) (plan : Plan) : Outcome :=
  match Log.Journal.start s.depth s.stamps tree plan.config.logDirectory plan.config.verbose {} with
  | .error e => ofEscape s tree (.directory e)
  | .ok (journal, tree, greeting) =>
    let report := Report.ofFile s plan.environment plan.config plan.content
    let (journal, shown) := journal.take s.stamps.line report.records
    { exit := report.exit, output := report.output, errors := greeting ++ shown, tree, journal }

/-- Run the program. -/
def run (s : Surroundings) (words : List Text) (env : Environment) (tree : FileTree) : Outcome :=
  match Arguments.read s.dialect words with
  | .error .help => { exit := .status 0, output := helpText, tree }
  | .error (.usage e) =>
    { exit := .status 2, errors := usage ++ programName ++ ": error: " ++ e.message ++ "\n", tree }
  | .ok arguments =>
    match configure s arguments env tree with
    | .error e =>
      match e.message? with
      | some message =>
        { exit := .status 1, errors := "Configuration error: " ++ message ++ "\n", tree }
      | none => ofEscape s tree e.escape
    | .ok plan => carryOut s tree plan

end KotlinNullability.CommandLine
