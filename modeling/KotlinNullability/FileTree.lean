import KotlinNullability.Association
import KotlinNullability.Path

/-!
# File trees

A file tree says what stands at each location, a location being the names that lead to it from the
root. A path is followed name by name: each name but the last must lead to a directory, and `..`
leads to the directory above. The operating system refuses a path that is too long, and a name that is
too long when it gets there.
-/

namespace KotlinNullability

/-- The names that lead from the root to a place. -/
abbrev Location := List Text

/-- What stands at a location. -/
inductive FileTree.Node where
  | directory
  | file (content : List UInt8)
  /-- Something else. -/
  | device
  deriving DecidableEq, Repr

/-- Directories and files, seen from a working directory. The working directory and the directories
above it are always there. -/
structure FileTree where
  workingDirectory : Location
  nodes : List (Location × FileTree.Node) := []

namespace FileTree

/-- What stands at a location. -/
def node? (tree : FileTree) (place : Location) : Option Node :=
  if place.isPrefixOf tree.workingDirectory then some .directory
  else Association.find? place tree.nodes

/-- Put something at a location. -/
def put (tree : FileTree) (place : Location) (node : Node) : FileTree :=
  { tree with nodes := Association.set place node tree.nodes }

/-- The location to which a name leads from a directory. -/
def step (place : Location) (name : Text) : Location :=
  if name = Text.ofString ".." then place.dropLast else place ++ [name]

/-- The location where a path starts. -/
def startOf (tree : FileTree) : Path.Start → Location
  | .workingDirectory => tree.workingDirectory
  | .root | .doubleRoot => []

/-- The most bytes that a name may have. -/
def nameLimit : Nat := 255

/-- The most bytes that the spelling of a path may have. -/
def pathLimit : Nat := 4095

/-- A path or one of its names is too long. -/
structure TooLong where
  deriving DecidableEq, Repr

/-- Whether a name is too long. -/
def isLongName (name : Text) : Bool := decide (nameLimit < Path.systemLength name)

/-- Whether the spelling of a path is too long. -/
def isLongPath (path : Path) : Bool := decide (pathLimit < Path.systemLength path.toText)

/-- The location to which some names lead. -/
def follow (tree : FileTree) (place : Location) : List Text → Except TooLong (Option Location)
  | [] => .ok (some place)
  | name :: names =>
    if tree.node? place ≠ some .directory then .ok none
    else if isLongName name then .error ⟨⟩
    else follow tree (step place name) names

/-- The location to which a path leads; nothing need stand there. -/
def locate (tree : FileTree) (path : Path) : Except TooLong (Option Location) :=
  match Path.systemBytes path.toText with
  | .error _ => .ok none
  | .ok _ =>
    if isLongPath path then .error ⟨⟩ else tree.follow (tree.startOf path.start) path.names

/-- What stands where a path leads. -/
def look (tree : FileTree) (path : Path) : Except TooLong (Option Node) :=
  (tree.locate path).map fun place => place.bind tree.node?

/-- Why a directory cannot be made. -/
inductive MakeError where
  /-- Something else stands in its place. -/
  | occupied
  /-- Something else stands in the place of a directory above it. -/
  | belowFile
  | tooLong
  /-- Too many directories lie above it. -/
  | tooDeep
  | unspeakable (cause : Path.Unspeakable)
  deriving DecidableEq, Repr

/-- Make the directories to which some names lead, where there are none. -/
def makeBelow (tree : FileTree) (place : Location) :
    List Text → Except MakeError (FileTree × Location)
  | [] => .ok (tree, place)
  | name :: names =>
    let next := step place name
    if isLongName name then .error .tooLong
    else
      match tree.node? next with
      | some .directory => makeBelow tree next names
      | some _ => .error (if names.isEmpty then .occupied else .belowFile)
      | none => makeBelow (tree.put next .directory) next names

/-- Make a directory and those above it, where there are none; its location comes with the tree. At
most `depth` names may lead to it. -/
def makeDirectory (depth : Nat) (tree : FileTree) (path : Path) :
    Except MakeError (FileTree × Location) :=
  match Path.systemBytes path.toText with
  | .error cause => .error (.unspeakable cause)
  | .ok _ =>
    if isLongPath path then .error .tooLong
    else if depth < path.names.length then .error .tooDeep
    else tree.makeBelow (tree.startOf path.start) path.names

/-- Put a file where a path leads, and make the directories above it. -/
def addFile (depth : Nat) (tree : FileTree) (path : Path) (content : List UInt8) :
    Except MakeError FileTree := do
  let (tree, place) ← tree.makeDirectory depth { path with names := path.names.dropLast }
  return tree.put (place ++ [path.name]) (.file content)

/-- The path from the working directory to a location below it. -/
def relative? (tree : FileTree) (place : Location) : Option Path :=
  if tree.workingDirectory.isPrefixOf place then
    some ⟨.workingDirectory, place.drop tree.workingDirectory.length⟩
  else none

end FileTree

end KotlinNullability
