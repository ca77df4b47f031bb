import KotlinNullability.Proofs.CommandLine.Exit
import KotlinNullability.Proofs.Config.VariableFile

/-!
# The layers of a configuration

A configuration has four layers: the arguments, the environment, the variable file and the defaults,
and a field should come from the first layer that has something for it. The header file, the method
and the log directory do. Verbose output does not: arguments always answer for it, so a run is
verbose exactly if they ask for that, and what the environment and the variable file say about it
does not count.
-/

namespace KotlinNullability

/-- The variable file of a tree has these lines; if there is none, there are no lines. -/
inductive FileTree.Offers (tree : FileTree) : List Dotenv.Line → Prop where
  | absent (hlook : tree.look Environment.variableFile = .ok none) : tree.Offers []
  | file {bytes : List UInt8} {lines : List Dotenv.Line}
      (hlook : tree.look Environment.variableFile = .ok (some (.file bytes)))
      (hdecode : Utf8.decode? bytes = some (Dotenv.textOf lines)) : tree.Offers lines

namespace Environment

variable {env : Environment} {tree : FileTree} {lines : List Dotenv.Line}

/-- What is relied on of a reader of variable files: it reads plain ones. -/
structure VariableReader.Lawful (reader : VariableReader) : Prop where
  /-- A plain file is accepted. -/
  accepts (env : Environment) {bytes : List UInt8} {lines : List Dotenv.Line}
    (hdecode : Utf8.decode? bytes = some (Dotenv.textOf lines)) :
    ∃ environment, reader env (.file bytes) = .ok environment
  /-- A variable that is there keeps its value, also an empty one. -/
  keeps {env environment : Environment} {bytes : List UInt8} {lines : List Dotenv.Line}
    (hdecode : Utf8.decode? bytes = some (Dotenv.textOf lines))
    (hread : reader env (.file bytes) = .ok environment) {name value : Text}
    (hvalue : env.get? name = some value) : environment.get? name = some value
  /-- A variable that is not there gets the value of its last line, if it has a line. -/
  takesLast {env environment : Environment} {bytes : List UInt8} {lines : List Dotenv.Line}
    (hdecode : Utf8.decode? bytes = some (Dotenv.textOf lines))
    (hread : reader env (.file bytes) = .ok environment) {name : Text}
    (hvalue : env.get? name = none) : environment.get? name = Dotenv.lastValue? lines name

/-- The value of a variable in the environment or, if it is not there, in the variable file. -/
def valueWith (env : Environment) (lines : List Dotenv.Line) (name : Text) : Option Text :=
  (env.get? name).or (Dotenv.lastValue? lines name)

/-- The variable that names the directory for log files. -/
def logDirectoryVariable : Text := "KMETA_LOG_DIR"

theorem valueWith_nil (env : Environment) (name : Text) : env.valueWith [] name = env.get? name :=
  Option.or_none

/-- A plain file completes the environment by the variables that are not there. -/
theorem exists_load_of_offers {reader : VariableReader} (hreader : reader.Lawful)
    (env : Environment) (h : tree.Offers lines) :
    ∃ environment, env.load reader tree variableFile = .ok environment ∧
      ∀ name, environment.get? name = env.valueWith lines name := by
  cases h with
  | absent hlook => exact ⟨env, by rw [load, hlook], fun name => (valueWith_nil env name).symm⟩
  | file hlook hdecode =>
    obtain ⟨environment, hread⟩ := hreader.accepts env hdecode
    refine ⟨environment, by rw [load, hlook]; exact hread, fun name => ?_⟩
    rw [valueWith]
    cases hvalue : env.get? name with
    | some value => exact hreader.keeps hdecode hread hvalue
    | none => exact hreader.takesLast hdecode hread hvalue

/-- The directory for log files is the one that the environment names, or the default. -/
theorem logDirectory_eq (env : Environment) :
    env.logDirectory = Path.read ((env.get? logDirectoryVariable).getD "logs") := by
  have hname : settingLead ++ Text.ofString "LOG_DIR" = logDirectoryVariable := by decide
  have hother : Text.ofString "BASELINE_VERSION" ≠ Text.ofString "LOG_DIR" := by decide
  rw [logDirectory, textSetting]
  simp only [settings, defaultSettings, List.map_cons, List.map_nil, Association.find?,
    if_neg hother, if_pos, hname]
  cases env.get? logDirectoryVariable <;> rfl

end Environment

namespace Dotenv

/-- The library's own reader reads plain files. -/
theorem reader_lawful (encoding : Text) : (reader encoding).Lawful where
  accepts env _ _ hdecode := ⟨_, reader_of_decode encoding env hdecode⟩
  keeps {env environment _ lines} hdecode hread name value hvalue := by
    obtain rfl := Except.ok.inj ((reader_of_decode encoding env hdecode).symm.trans hread)
    rw [Environment.get?, Association.find?_append, ← Environment.get?, hvalue, Option.some_or]
  takesLast {env environment _ lines} hdecode hread name hvalue := by
    obtain rfl := Except.ok.inj ((reader_of_decode encoding env hdecode).symm.trans hread)
    rw [Environment.get?, Association.find?_append, ← Environment.get?, hvalue, Option.none_or,
      additions, Association.find?_filter (fun name => (env.get? name).isNone) (by simp [hvalue]),
      find?_assignments_textOf]

end Dotenv

namespace CommandLine

/-- Whether the value of a variable asks for verbose output: it is one of a few words, in any letter
case. -/
def asksVerbose (value : Option Text) : Bool :=
  value.any fun t => Config.verboseWords.contains t.toAsciiLower

/-- The configuration each of whose fields comes from the first layer that has something for it,
given the values of the variables. -/
def layered (arguments : Arguments) (value : Text → Option Text) : Config where
  headerFile := Path.read
    ((arguments.headerFile.or (value Environment.headerFileVariable)).getD "metadata.json")
  method := arguments.method.or ((value Environment.methodVariable).filter fun t => !t.isEmpty)
  verbose := arguments.verbose || asksVerbose (value Environment.verboseVariable)
  logDirectory := Path.read ((value Environment.logDirectoryVariable).getD "logs")

/-- What is left of a run that has a configuration: it is refused, or carried out. -/
def proceed (s : Surroundings) (tree : FileTree) (environment : Environment) (config : Config) :
    Outcome :=
  match config.check tree with
  | .error fault =>
    match fault.message? with
    | some message =>
      { exit := .status 1, errors := "Configuration error: " ++ message ++ "\n", tree }
    | none => ofEscape s tree .pathTooLong
  | .ok content => carryOut s tree ⟨environment, config, content⟩

/-- A run with accepted arguments and a variable file that is read proceeds with the configuration
of both. -/
theorem run_eq_proceed (s : Surroundings) {words : List Text} {arguments : Arguments}
    {env environment : Environment} {tree : FileTree}
    (hwords : Arguments.read s.dialect words = .ok arguments)
    (hload : env.load s.variableReader tree Environment.variableFile = .ok environment) :
    run s words env tree = proceed s tree environment (configOf arguments environment) := by
  rw [run, hwords]
  dsimp only
  rw [configure, hload, proceed]
  dsimp only
  cases (configOf arguments environment).check tree <;> rfl

/-- Every field but one comes from the first layer that has something for it. -/
theorem configOf_eq_layered (arguments : Arguments) {env : Environment}
    {value : Text → Option Text} (h : ∀ name, env.get? name = value name) :
    configOf arguments env = { layered arguments value with verbose := arguments.verbose } := by
  rw [configOf, Config.override, Config.ofEnvironment, layered, Environment.logDirectory_eq]
  simp only [h, Option.getD_some]
  cases arguments.headerFile <;> rfl

/-- Given a reader that reads plain variable files, a run with accepted arguments next to any
environment and any plain variable file proceeds with
a configuration whose header file, method and log directory come from the first layer that has
something for them. It is verbose exactly if the arguments ask for that, so all of it comes from the
first layer exactly if they do or the variable does not ask for it. -/
theorem run_layered (s : Surroundings) (env : Environment) {words : List Text}
    {arguments : Arguments} {tree : FileTree} {lines : List Dotenv.Line}
    (hreader : s.variableReader.Lawful) (hwords : Arguments.read s.dialect words = .ok arguments)
    (hfile : tree.Offers lines) :
    ∃ environment config,
      env.load s.variableReader tree Environment.variableFile = .ok environment ∧
        config = configOf arguments environment ∧
        run s words env tree = proceed s tree environment config ∧
        config.headerFile = (layered arguments (env.valueWith lines)).headerFile ∧
        config.method = (layered arguments (env.valueWith lines)).method ∧
        config.logDirectory = (layered arguments (env.valueWith lines)).logDirectory ∧
        config.verbose = arguments.verbose ∧
        (config = layered arguments (env.valueWith lines) ↔
          arguments.verbose = true ∨
            asksVerbose (env.valueWith lines Environment.verboseVariable) = false) := by
  obtain ⟨environment, hload, hvalues⟩ := env.exists_load_of_offers hreader hfile
  have hconfig := configOf_eq_layered arguments hvalues
  refine ⟨environment, _, hload, rfl, run_eq_proceed s hwords hload, ?_, ?_, ?_, ?_, ?_⟩
  · rw [hconfig]
  · rw [hconfig]
  · rw [hconfig]
  · rw [hconfig]
  · rw [hconfig, Config.mk.injEq]
    simp only [layered, true_and, and_true]
    cases arguments.verbose <;> simp

/-- A comment, and two assignments of the header file, the last of which counts. -/
def twoHeaders : List Dotenv.Line :=
  have isName : Dotenv.IsName Environment.headerFileVariable := by decide +kernel
  [.comment " two headers" (by decide +kernel),
    .assignment ⟨false, _, .bare, "old.json", isName, by decide +kernel, by decide +kernel⟩,
    .blank [] (by decide) rfl,
    .assignment ⟨true, _, .double, "header.json", isName, by decide +kernel, by decide +kernel⟩]

/-- A working directory with a header file and a variable file. -/
def treeWith (content : Text) (lines : List Dotenv.Line) : FileTree where
  workingDirectory := ["work"]
  nodes := [(["work", "header.json"], .file (Utf8.encode content)),
    (["work", ".env"], .file (Utf8.encode (Dotenv.textOf lines)))]

/-- A run that takes verbose output from its arguments, no method from the environment, the header
file from the last line of the variable file, and the log directory from the defaults. -/
theorem run_layered_twoHeaders :
    let arguments : Arguments := { verbose := true }
    let env : Environment := [(Environment.methodVariable, [])]
    let tree := treeWith emptyHeader twoHeaders
    quiet.variableReader.Lawful ∧ Arguments.read quiet.dialect ["-v"] = .ok arguments ∧
      tree.Offers twoHeaders ∧ ∃ environment, run quiet ["-v"] env tree = proceed quiet tree environment
        ⟨Path.read "header.json", none, true, Path.read "logs"⟩ := by
  intro arguments env tree
  have hreader : quiet.variableReader.Lawful := Dotenv.reader_lawful _
  have hwords : Arguments.read quiet.dialect ["-v"] = .ok arguments := by decide +kernel
  have hdecode : Utf8.decode? (Utf8.encode (Dotenv.textOf twoHeaders)) =
      some (Dotenv.textOf twoHeaders) := by decide +kernel
  have hfile : tree.Offers twoHeaders := .file rfl hdecode
  have hlayered : layered arguments (env.valueWith twoHeaders) =
      ⟨Path.read "header.json", none, true, Path.read "logs"⟩ := by decide +kernel
  obtain ⟨environment, config, -, -, hrun, -, -, -, -, hconfig⟩ :=
    run_layered quiet env hreader hwords hfile
  refine ⟨hreader, hwords, hfile, environment, ?_⟩
  rw [hrun, hconfig.mpr (.inl rfl), hlayered]

/-- With a variable that asks for verbose output the layers make the configuration verbose, but the
configuration of the run is not, and the run shows something else than with the option. -/
theorem run_ignores_verboseVariable :
    let arguments : Arguments := { headerFile := some "header.json" }
    let env : Environment := [(Environment.verboseVariable, "true")]
    let tree := treeOf emptyHeader
    quiet.variableReader.Lawful ∧ Arguments.read quiet.dialect ["header.json"] = .ok arguments ∧
      tree.Offers [] ∧
      (layered arguments (env.valueWith [])).verbose = true ∧
      (configOf arguments env).verbose = false ∧
      (run quiet ["header.json"] env tree).errors ≠
        (run quiet ["header.json", "-v"] env tree).errors :=
  ⟨Dotenv.reader_lawful _, by decide +kernel, .absent rfl, by decide +kernel, by decide +kernel, by decide +kernel⟩

end CommandLine

end KotlinNullability
