import KotlinNullability.CommandLine
import KotlinNullability.Config.Dotenv
import Std.Time.Format

/-!
# The program

The program looks at the places of the file system that a run may read or write, runs, and then
writes what the run leaves behind.
-/

namespace KotlinNullability.Program

/-- The name of a location for the operating system. -/
def spell (place : Location) : String := Text.display ("/" ++ Text.join "/" place)

/-- The location that the operating system calls so. -/
def locationOf (name : String) : Location := (Path.read name).names

/-- What stands at a location of the file system. -/
def inspect (place : Location) : IO (Option FileTree.Node) := do
  try
    let content ← IO.FS.readBinFile (spell place)
    return some (.file content.toList)
  catch
    | .noFileOrDirectory .. => return none
    | _ => return some .directory

/-- Look at the places along some names. -/
def lookBelow (tree : FileTree) (place : Location) : List Text → IO FileTree
  | [] => return tree
  | name :: names => do
    let next := FileTree.step place name
    match tree.node? next with
    | some .directory => lookBelow tree next names
    | some _ => return tree
    | none =>
      match ← inspect next with
      | some .directory => lookBelow (tree.put next .directory) next names
      | some node => return tree.put next node
      | none => return tree

/-- Look at the places along a path. -/
def look (tree : FileTree) (path : Path) : IO FileTree :=
  lookBelow tree (tree.startOf path.start) path.names

/-- The variables of the environment that matter. -/
def environment : IO Environment :=
  Environment.knownNames.filterMapM fun name => do
    return (← IO.getEnv (Text.display name)).map fun value => (name, Text.ofString value)

/-- How words that are ambiguous between readers of arguments are taken. -/
def dialect : CommandLine.Dialect := ⟨true, true⟩

/-- What is said about bytes that are no UTF-8. -/
def notText : Text := "the file is not UTF-8"

/-- The reader of variable files. -/
def variableReader : Environment.VariableReader := Dotenv.reader notText

/-- The places that a run with some arguments may read or write. -/
def survey (words : List Text) (env : Environment) : IO FileTree := do
  let here : FileTree := { workingDirectory := locationOf (toString (← IO.currentDir)) }
  let tree ← look here Environment.variableFile
  match CommandLine.Arguments.read dialect words,
    env.load variableReader tree Environment.variableFile with
  | .ok arguments, .ok env =>
    let config := CommandLine.configOf arguments env
    look (← look tree config.headerFile) config.logDirectory
  | _, _ => return tree

/-- Words for failures that the library has no words for. -/
def unworded : CommandLine.Escape → Text
  | .headerFile (.json .tooDeep) => "the header file is nested too deep"
  | .headerFile _ => "a value in the header file has an unsuitable type"
  | .header (.misuse e) => e.message
  | .header _ => "the packed strings of the header are not all text"
  | .directory .occupied => "a file stands in the place of the log directory"
  | .directory .belowFile => "a file stands above the log directory"
  | .directory .tooDeep => "the log directory lies too deep"
  | .directory (.unspeakable _) => "the log directory has no possible name"
  | .directory .tooLong | .pathTooLong => "a path is too long"
  | .baseline _ => "there is no baseline"
  | .variableFile => "the variable file cannot be read"
  | .output _ => "a line of the listing cannot be printed"

/-- The moment, as it stands in log files and in their names. -/
def stamps (elapsed : Text) : IO Log.Stamps := do
  let now ← Std.Time.PlainDateTime.now
  return ⟨now.format "uuuuMMdd_HHmmss", now.format "uuuu-MM-dd HH:mm:ss", elapsed⟩

/-- What a run takes from outside. -/
def surroundings (elapsed : Text) : IO CommandLine.Surroundings := do
  return {
    stamps := ← stamps elapsed
    wording := ⟨notText, fun remaining =>
      "unexpected text, " ++ Numeral.ofNat remaining ++ " characters before the end"⟩
    unworded
    dialect
    variableReader
    nesting := 990
    depth := 980
    encoding := .unicode }

/-- Nanoseconds as milliseconds with three decimals. -/
def milliseconds (nanoseconds : Nat) : Text :=
  let fraction := Numeral.ofNat (nanoseconds / 1000 % 1000)
  Numeral.ofNat (nanoseconds / 1000000) ++ "." ++
    List.replicate (3 - fraction.length) (CodePoint.ofChar '0') ++ fraction

/-- Make the directories and write the log files that a run leaves behind. -/
def save (before : FileTree) (done : CommandLine.Outcome) : IO Unit := do
  for (place, node) in done.tree.nodes do
    if node = .directory && (before.node? place).isNone then IO.FS.createDirAll (spell place)
  for (place, t) in done.journal.files do
    IO.FS.withFile (spell place) .append fun file =>
      file.write (ByteArray.mk (Utf8.encode t).toArray)

/-- The status with which the operating system sees a run end. -/
def statusOf : CommandLine.Exit → UInt32
  | .status code => UInt32.ofNat code
  | .escape _ => 1

/-- Run on the file system. A first run without effects tells how long the work takes. -/
def run (words : List Text) : IO UInt32 := do
  let env ← environment
  let tree ← survey words env
  let begun ← IO.monoNanosNow
  let first ← surroundings "0.000"
  let _ ← IO.lazyPure fun _ => CommandLine.run first words env tree
  let ended ← IO.monoNanosNow
  let done := CommandLine.run (← surroundings (milliseconds (ended - begun))) words env tree
  save tree done
  IO.print (Text.display done.output)
  IO.eprint (Text.display done.errors)
  return statusOf done.exit

end KotlinNullability.Program

/-- The command line of the program. -/
def main (args : List String) : IO UInt32 :=
  KotlinNullability.Program.run (args.map KotlinNullability.Text.ofString)
