import Clausal.CommandLine

/-!
# The program

The outer layer: it asks the operating system about the paths that a request needs, writes the
outputs and feeds the interactive loop. What the program does is decided by `CommandLine` and
`Repl` alone.

A request is carried out against the answers collected so far. As long as it asks about a path
that has no answer yet, the answer is fetched and the request, which has had no effect, is tried
again.
-/

namespace Clausal.Console

/-- Answers of the operating system, by path. -/
abbrev Answers := List (String × Except FileError Found)

/-- The file system that the answers describe. -/
def fileSystem (directory : String) (answers : Answers) : FileSystem :=
  { directory := directory
    find := fun path => (answers.lookup path).getD (.error .unavailable)
    fileCount := answers.length }

/-- The path without an answer that made a step fail. -/
def missing? {α : Type} (fs : FileSystem) : Outcome Error Session α → Option String
  | .fail ⟨.cannotOpen path .unavailable, _⟩ _ => some (Path.join fs.directory path)
  | _ => none

/-- The path without an answer that a lookup asked for. -/
def unanswered? {α : Type} (fs : FileSystem) (path : String) (result : Except FileError α) :
    Option String :=
  match result with
  | .error .unavailable => some (Path.join fs.directory path)
  | _ => none

/-- The first path without an answer that a request asks for. -/
def wanted? (request : CommandLine.Request) (fs : FileSystem) : Option String :=
  let inside (fs : FileSystem) : Option String :=
    match request.command with
    | .run files _ => missing? fs (CommandLine.loadAll fs files .new)
    | .tokens file => unanswered? fs file (fs.lookup file)
    | _ => none
  match request.directory with
  | none => inside fs
  | some directory =>
    match fs.enter directory with
    | .ok fs => inside fs
    | .error reason => unanswered? fs directory (.error reason : Except FileError Unit)

/-- The number of an error; some calls report it negated, as a word of 32 bits. -/
def errorNumber (code : UInt32) : Nat := min code.toNat (-code).toNat

/-- The reason in an error of the operating system. -/
def reasonOf (e : IO.Error) : FileError :=
  match e with
  | .permissionDenied .. => .permissionDenied
  | .inappropriateType _ code _ =>
    if errorNumber code = 21 then .isADirectory else .notADirectory
  | _ => .notFound

/-- What is under a path, as far as reading it tells. -/
def readNode (path : String) : IO Node := do
  try
    let bytes ← IO.FS.readBinFile path
    return .file (match String.fromUTF8? bytes with
      | some text => .ok text
      | none => .error .notText)
  catch e =>
    return match reasonOf e with
      | .isADirectory => .directory
      | reason => .file (.error reason)

/-- Ask the operating system about a path. Where there is no canonical path, reading tells why. -/
def ask (path : String) : IO (Except FileError Found) := do
  try
    let canonical := toString (← IO.FS.realPath path)
    return .ok ⟨canonical, ← readNode canonical⟩
  catch _ =>
    match ← readNode path with
    | .file (.error reason) => return .error reason
    | _ => return .error .notFound

/-- Collect the answers that are wanted. -/
partial def supply (directory : String) (wanted : FileSystem → Option String)
    (answers : Answers) : IO Answers := do
  match wanted (fileSystem directory answers) with
  | none => return answers
  | some path => supply directory wanted ((path, ← ask path) :: answers)

/-- Write both outputs. -/
def write (output : Output) : IO Unit := do
  (← IO.getStdout).putStr output.out
  (← IO.getStdout).flush
  (← IO.getStderr).putStr output.err

/-- Feed the interactive loop line by line. -/
partial def loop (terminal : Terminal) (directory : String) (answers : Answers) (repl : Repl) :
    IO Unit := do
  write { out := repl.prompt terminal }
  let read ← (← IO.getStdin).getLine
  if read.isEmpty then
    write (Repl.farewell terminal)
  else
    let line := (Text.lines read).headD ""
    let source := Text.trim (repl.buffer ++ Repl.typed terminal line)
    let answers ← supply directory (fun fs =>
      match Repl.Input.ofText source with
      | .declare source => missing? fs (Session.loadText fs source repl.session)
      | _ => none) answers
    match repl.step terminal (fileSystem directory answers) line with
    | (some next, output) =>
      write output
      loop terminal directory answers next
    | (none, output) => write output

/-- Carry out a request. -/
def serve (request : CommandLine.Request) (terminal : Terminal) : IO UInt32 := do
  let directory := toString (← IO.FS.realPath ".")
  let answers ← supply directory (wanted? request) []
  let fs := fileSystem directory answers
  match request.command, request.enter fs with
  | .repl, .ok fs =>
    write (Repl.banner terminal)
    loop terminal fs.directory answers {}
    return 0
  | _, _ =>
    let report := request.perform terminal fs ""
    write report.output
    return report.status.toUInt32

/-- Whether colors are wanted: on a terminal, unless the environment says otherwise. -/
def wantsColors : IO Bool := do
  if (← IO.getEnv "NO_COLOR").isSome then return false
  (← IO.getStdout).isTty

end Clausal.Console

/-- The command line. -/
def main (args : List String) : IO UInt32 := do
  match Clausal.CommandLine.Request.ofArgs args with
  | .ok request => Clausal.Console.serve request (.ofColors (← Clausal.Console.wantsColors))
  | .error notice =>
    Clausal.Console.write notice.report.output
    return notice.report.status.toUInt32
