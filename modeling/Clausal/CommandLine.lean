import Clausal.CommandLine.Request
import Clausal.Repl
import Clausal.Terminal

/-!
# The command line

What the program does for its arguments: run files, evaluate an expression, list the tokens of a
file, or start the interactive loop. Apart from the loop, which reads its input, a run is a
function of the arguments and the files.
-/

namespace Clausal.CommandLine

/-- What a run leaves: the exit status and the two outputs. -/
structure Report where
  status : Nat
  output : Output

/-- The report of a run that succeeded. -/
def succeeded (output : Output) : Report := ⟨0, output⟩

/-- The report of a run that could not start because of a file. -/
def failed (context : String) (reason : FileError) : Report :=
  ⟨1, { err := "Error: " ++ context ++ "\n\nCaused by:\n    " ++ reason.message ++ "\n" }⟩

/-- The report of a run that was cut short. -/
def unfinished : Report := ⟨1, { err := "Error: the evaluation did not end\n" }⟩

/-- The report of a step of a session: what it printed, and a value or a diagnostic. -/
def report (painter : Painter) (step : Session.Step (Option Value)) : Report :=
  match step .new with
  | .ok v session =>
    let shown := match v with
      | some v => v.display ++ "\n"
      | none => ""
    succeeded { out := session.store.printed ++ shown }
  | .fail _ session => ⟨1, { out := session.store.printed, err := (session.dump painter).1 }⟩
  | .exhausted => unfinished

/-- Load files in order. -/
def loadAll (fs : FileSystem) : List String → Session.Step Unit
  | [] => return
  | file :: files => do
    Session.loadFile fs file
    loadAll fs files

/-- Load files and call `main`; a void result is not shown. -/
def runFiles (fs : FileSystem) (files args : List String) : Session.Step (Option Value) := do
  loadAll fs files
  match ← Session.runMain args with
  | some .void => return none
  | v => return v

/-- `text` at the right end of at least `width` columns. -/
def padLeft (width : Nat) (text : String) : String :=
  String.ofList (List.replicate (width - text.length) ' ') ++ text

/-- `text` at the left end of at least `width` columns. -/
def padRight (width : Nat) (text : String) : String :=
  text ++ String.ofList (List.replicate (width - text.length) ' ')

/-- A token with its position. -/
def tokenLine (painter : Painter) (token : Token) : Output :=
  let place := padLeft 4 (toString token.position.line) ++ ":" ++
    padRight 3 (toString token.position.column)
  .line (painter.paint .dimmed place ++ " " ++ token.kind.describe)

/-- List the tokens of a file. -/
def listTokens (painter : Painter) (fs : FileSystem) (file : String) : Report :=
  match fs.read file with
  | .error reason => failed ("Failed to read " ++ file) reason
  | .ok source =>
    match Token.list source (some file) with
    | .ok tokens => succeeded (tokens.foldl (fun output t => output ++ tokenLine painter t) {})
    | .error e => ⟨1, { err := Diagnostic.render painter e (some source) }⟩

/-- Carry out a command from the working directory. The loop reads `input`. -/
def perform (terminal : Terminal) (fs : FileSystem) (input : String) : Command → Report
  | .run files args => report terminal.toPainter (runFiles fs files args)
  | .eval source => report terminal.toPainter do
    let v ← Session.evalText source
    return some v
  | .tokens file => listTokens terminal.toPainter fs file
  | .repl => succeeded (Repl.banner terminal ++ ({} : Repl).lines terminal fs (Text.lines input))

/-- The files as seen from the directory that a request names. -/
def Request.enter (request : Request) (fs : FileSystem) : Except Report FileSystem :=
  match request.directory with
  | none => .ok fs
  | some directory =>
    match fs.enter directory with
    | .ok fs => .ok fs
    | .error reason => .error (failed ("Failed to change directory to " ++ directory) reason)

/-- Carry out a request. -/
def Request.perform (request : Request) (terminal : Terminal) (fs : FileSystem) (input : String) :
    Report :=
  match request.enter fs with
  | .error report => report
  | .ok fs => CommandLine.perform terminal fs input request.command

/-- How the program is used. -/
def usage : String :=
  "usage: xy [-v] [-C DIR] run FILES [-- ARGS] | eval EXPR | tokens FILE | repl\n"

/-- The report of arguments that make no request. -/
def Notice.report : Notice → Report
  | .misuse => ⟨2, { err := usage }⟩
  | .version => succeeded (.line ("xy " ++ Repl.version))
  | .help => succeeded { out := usage }

/-- The report of a run with these arguments. -/
def respond (args : List String) (colors : Bool) (fs : FileSystem) (input : String) : Report :=
  match Request.ofArgs args with
  | .ok request => request.perform (.ofColors colors) fs input
  | .error notice => notice.report

end Clausal.CommandLine
