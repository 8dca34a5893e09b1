import Clausal.Error

/-!
# Files

What a program can find under the paths it names. A file system is asked for a path and answers
with the canonical path of what is there, so that several spellings of one file are known to be
one. `FileSystem.ofFiles` is the file system of given files below one directory.
-/

namespace Clausal

namespace Path

/-- Whether a path starts at the root. -/
def isAbsolute (path : String) : Bool := path.startsWith "/"

/-- `path` as seen from the directory `base`. -/
def join (base path : String) : String :=
  if isAbsolute path || base.isEmpty then path
  else if base.endsWith "/" then base ++ path
  else base ++ "/" ++ path

/-- What stands between slashes, where `piece` has been read of the first, its end foremost. -/
def stepsFrom : List Char → List Char → List String
  | piece, [] => [String.ofList piece.reverse]
  | piece, c :: rest =>
    if c = '/' then String.ofList piece.reverse :: stepsFrom [] rest
    else stepsFrom (c :: piece) rest

/-- The steps of a path from left to right. -/
def steps (path : String) : List String := stepsFrom [] path.toList

/-- The canonical path of these steps from the root. -/
def ofSteps (steps : List String) : String := "/" ++ "/".intercalate steps

/-- The directory that holds what has this canonical path. -/
def parent (canonical : String) : String :=
  ofSteps (((steps canonical).filter (!·.isEmpty)).dropLast)

end Path

/-- What stands under a path. -/
inductive Node where
  | directory
  /-- A file, with its text unless that cannot be had. -/
  | file (text : Except FileError String)

/-- What was found, and its canonical path. -/
structure Found where
  path : String
  node : Node

/-- The text of what was found. -/
def Found.text (found : Found) : Except FileError String :=
  match found.node with
  | .directory => .error .isADirectory
  | .file content => content

/-- The files as seen from a working directory. -/
structure FileSystem where
  /-- The canonical path of the working directory. -/
  directory : String
  /-- Look up a path that starts at the root. -/
  find : String → Except FileError Found
  /-- A bound for the number of files that can be found. -/
  fileCount : Nat

namespace FileSystem

/-- Look up a path as seen from the working directory. -/
def lookup (fs : FileSystem) (path : String) : Except FileError Found :=
  if path.isEmpty then .error .notFound
  else if path.toList.contains '\x00' then .error .badName
  else fs.find (Path.join fs.directory path)

/-- The text of the file under a path. -/
def read (fs : FileSystem) (path : String) : Except FileError String := do
  let found ← fs.lookup path
  found.text

/-- Change the working directory. -/
def enter (fs : FileSystem) (path : String) : Except FileError FileSystem := do
  let found ← fs.lookup path
  match found.node with
  | .directory => return { fs with directory := found.path }
  | .file _ => throw .notADirectory

/-! ## Given files -/

/-- Files under their steps from the root. -/
abbrev Files := List (List String × Except FileError String)

/-- What stands under these steps: a file, or a directory above one. -/
def nodeAt (files : Files) (steps : List String) : Option Node :=
  match files.lookup steps with
  | some text => some (.file text)
  | none => if files.any fun (path, _) => steps.isPrefixOf path then some .directory else none

/-- Take steps from the directory or file `here`. Every step, also one that stays, needs a
directory to start from. -/
def walk (files : Files) : List String → Node → List String → Except FileError (List String × Node)
  | here, node, [] => .ok (here, node)
  | here, node, step :: rest =>
    match node with
    | .file _ => .error .notADirectory
    | .directory =>
      if step = "" ∨ step = "." then walk files here .directory rest
      else if step = ".." then walk files here.dropLast .directory rest
      else if 255 < step.utf8ByteSize then .error .nameTooLong
      else
        match nodeAt files (here ++ [step]) with
        | some next => walk files (here ++ [step]) next rest
        | none => .error .notFound

/-- The file system of these files, whose paths are relative to the directory; the directory
itself is always there. -/
def ofFiles (directory : String) (files : List (String × Except FileError String)) :
    FileSystem :=
  let root := (Path.steps directory).filter (!·.isEmpty)
  let placed : Files := files.map fun (path, text) =>
    (root ++ (Path.steps path).filter (fun step => !step.isEmpty && step != "."), text)
  -- a file that no path can name keeps the directory there
  let all := (root ++ [""], .error .notFound) :: placed
  { directory := directory
    find := fun path => do
      let (steps, node) ← walk all [] .directory (Path.steps path)
      return ⟨Path.ofSteps steps, node⟩
    fileCount := files.length }

end FileSystem

end Clausal
