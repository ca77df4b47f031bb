import KotlinNullability.Config.Environment
import KotlinNullability.FileTree

/-!
# Configuration

A run is configured by the environment, which a variable file may complete, and by arguments, which
win over both. The configuration is checked against the file tree before it is used. Who reads the
variable file, and how, is for the caller to say.
-/

namespace KotlinNullability

/-- What a run reads and how much it tells. -/
structure Config where
  /-- The file with the class header. -/
  headerFile : Path
  /-- The method to ask about; without one all functions are listed. -/
  method : Option Text
  verbose : Bool
  logDirectory : Path
  deriving DecidableEq, Repr

namespace Environment

/-- The variable that names the header file. -/
def headerFileVariable : Text := "KMETA_HEADER_FILE"

/-- The variable that names a method. -/
def methodVariable : Text := "KMETA_METHOD"

/-- The variable that asks for verbose output. -/
def verboseVariable : Text := "VERBOSE"

/-- All variables that matter. -/
def knownNames : List Text :=
  [headerFileVariable, methodVariable, verboseVariable] ++
    defaultSettings.map fun setting => settingLead ++ setting.1

/-- The variable file in the working directory. -/
def variableFile : Path := Path.read ".env"

/-- Why a variable file does not complete the environment. -/
inductive LoadError where
  /-- The file or one of its variables is at fault, in these words. -/
  | refused (message : Text)
  /-- The file is given up, and not for its content's sake. -/
  | abandoned
  deriving DecidableEq, Repr

/-- Completes an environment by what stands where a variable file should be. -/
abbrev VariableReader := Environment → FileTree.Node → Except LoadError Environment

/-- Complete the environment by a variable file, if something stands there. -/
def load (reader : VariableReader) (env : Environment) (tree : FileTree) (file : Path) :
    Except LoadError Environment :=
  match tree.look file with
  | .error _ => .error .abandoned
  | .ok none => .ok env
  | .ok (some node) => reader env node

end Environment

namespace Config

/-- The words that ask for verbose output. -/
def verboseWords : List Text := ["true", "1", "yes"]

/-- The configuration that an environment gives. -/
def ofEnvironment (env : Environment) : Config where
  headerFile := Path.read ((env.get? Environment.headerFileVariable).getD "metadata.json")
  method := (env.get? Environment.methodVariable).filter fun t => !t.isEmpty
  verbose := verboseWords.contains ((env.get? Environment.verboseVariable).getD []).toAsciiLower
  logDirectory := env.logDirectory

/-- Arguments win over the environment. -/
def override (config : Config) (headerFile : Option Path) (method : Option Text)
    (verbose : Option Bool) : Config :=
  { config with
    headerFile := headerFile.getD config.headerFile
    method := method.or config.method
    verbose := verbose.getD config.verbose }

/-- What is wrong with a configuration. -/
inductive Fault where
  /-- Nothing stands where the header file should be. -/
  | headerNotFound (path : Path)
  /-- Something else stands where the header file should be. -/
  | headerNoFile (path : Path)
  /-- The path of the header file is too long to look there. -/
  | headerTooLong (path : Path)
  /-- The method has no descriptor. -/
  | noDescriptor (method : Text)
  deriving DecidableEq, Repr

/-- The wording of those faults that have one. -/
def Fault.message? : Fault → Option Text
  | headerNotFound path => some ("Header file not found: " ++ path.toText)
  | headerNoFile path => some ("Not a file: " ++ path.toText)
  | headerTooLong _ => none
  | noDescriptor method =>
    some ("Method signature must include a descriptor, e.g. 'foo(I)V': " ++ method)

/-- Check a configuration: the header file must be there and be a file, and a method must have a
descriptor, which starts with a parenthesis. The content of the header file is returned. -/
def check (config : Config) (tree : FileTree) : Except Fault (List UInt8) :=
  match tree.look config.headerFile with
  | .error _ => .error (.headerTooLong config.headerFile)
  | .ok none => .error (.headerNotFound config.headerFile)
  | .ok (some .directory) | .ok (some .device) => .error (.headerNoFile config.headerFile)
  | .ok (some (.file content)) =>
    match config.method with
    | none => .ok content
    | some method =>
      if CodePoint.ofChar '(' ∈ method then .ok content else .error (.noDescriptor method)

end Config

end KotlinNullability
