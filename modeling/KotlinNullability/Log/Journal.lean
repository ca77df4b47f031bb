import KotlinNullability.FileTree
import KotlinNullability.Log.Record

/-!
# The journal

An open journal shows the records of the library's loggers on the console and writes them to a file,
one line each. The file takes every record, the console those from `info` on, or every record if the
journal is verbose. Records that no open journal takes are shown only from `warning` on, and then
bare: those of other loggers, and all while the journal is closed.
-/

namespace KotlinNullability.Log

/-- What differs from run to run in the text of a log. -/
structure Stamps where
  /-- The moment in the name of a log file. -/
  file : Text
  /-- The moment at the start of a line. -/
  line : Text
  /-- The milliseconds that a task took. -/
  elapsed : Text

/-- What an open journal writes to. -/
structure Outlets where
  /-- The log file, as it is named to the user. -/
  path : Path
  /-- Where the log file stands. -/
  place : Location
  verbose : Bool
  deriving DecidableEq, Repr

namespace Outlets

/-- The least level that the console shows. -/
def consoleLevel (h : Outlets) : Level := if h.verbose then .debug else .info

/-- The least level that the file takes. -/
def fileLevel (_ : Outlets) : Level := .debug

end Outlets

/-- The log files with what was written to them, and what an open journal writes to. -/
structure Journal where
  outlets : Option Outlets := none
  files : List (Location × Text) := []

/-- A record as the console shows it. -/
def Record.consoleLine (r : Record) : Text := r.level.label ++ ": " ++ r.message ++ "\n"

/-- A record as the log file holds it. -/
def Record.fileLine (stamp : Text) (r : Record) : Text :=
  stamp ++ " - " ++ r.logger ++ " - " ++ r.level.label ++ " - " ++ r.message ++ "\n"

/-- The name of a log file. -/
def fileName (stamp : Text) : Text := rootLogger ++ "_" ++ stamp ++ ".log"

/-- The levels from which bare messages are shown. -/
def bareLevel : Level := .warning

namespace Journal

/-- What the console shows of a record. -/
def console (j : Journal) (r : Record) : Text :=
  match j.outlets with
  | some h =>
    if isOurs r.logger then
      if r.level.passes h.consoleLevel then r.consoleLine else []
    else if r.level.passes bareLevel then r.message ++ "\n" else []
  | none => if r.level.passes bareLevel then r.message ++ "\n" else []

/-- Write at the end of a log file. -/
def append (j : Journal) (place : Location) (t : Text) : Journal :=
  { j with files := Association.set place ((Association.find? place j.files).getD [] ++ t) j.files }

/-- Write a record to the log file. -/
def write (stamp : Text) (j : Journal) (r : Record) : Journal :=
  match j.outlets with
  | some h =>
    if isOurs r.logger && r.level.passes h.fileLevel then j.append h.place (r.fileLine stamp) else j
  | none => j

/-- Show some records and write them: the journal after it, and what the console shows. -/
def take (stamp : Text) (j : Journal) (records : List Record) : Journal × Text :=
  (records.foldl (write stamp) j, records.flatMap j.console)

/-- What a journal says when it starts. -/
def greeting (path : Path) (verbose : Bool) : List Record :=
  [⟨.info, Component.journal.logger, "Logging to " ++ path.toText⟩,
   ⟨.debug, Component.journal.logger, "Verbose mode: " ++ Text.ofBool verbose⟩]

/-- Start a closed journal: make the directory, to which at most `depth` names lead, start a log file
in it, and greet. An open journal stays as it is. The result is the journal, the file tree, and what
the console shows. -/
def start (depth : Nat) (stamps : Stamps) (tree : FileTree) (directory : Path) (verbose : Bool)
    (j : Journal) : Except FileTree.MakeError (Journal × FileTree × Text) :=
  match j.outlets with
  | some _ => .ok (j, tree, [])
  | none => do
    let (tree, place) ← tree.makeDirectory depth directory
    let name := fileName stamps.file
    let path := directory.child name
    if FileTree.isLongPath ⟨.root, place ++ [name]⟩ then throw .tooLong
    let outlets : Outlets := ⟨path, place ++ [name], verbose⟩
    let opened := { j with outlets := some outlets }.append outlets.place []
    let (opened, shown) := opened.take stamps.line (greeting path verbose)
    return (opened, tree, shown)

/-- Close the journal. -/
def close (j : Journal) : Journal := { j with outlets := none }

end Journal

end KotlinNullability.Log
