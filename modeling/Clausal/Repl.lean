import Clausal.Session
import Clausal.Text.Blank

/-!
# The interactive loop

Lines are read one at a time. A line that ends in a backslash is continued by the next; commands
start with a colon; what starts with `let` or `use` extends the program; everything else is
evaluated. Reading a line is a pure step from one state of the loop to the next, which gives the
text for the two outputs. The terminal is a parameter of the loop: what a line comes to once it is
edited is up to the terminal, and so is the look of what is shown.
-/

namespace Clausal

/-- Text for the standard output and for the error output. -/
structure Output where
  out : String := ""
  err : String := ""

namespace Output

/-- One output and then another. -/
def append (a b : Output) : Output := ⟨a.out ++ b.out, a.err ++ b.err⟩

instance : Append Output := ⟨append⟩

/-- A line on the standard output. -/
def line (text : String) : Output := { out := text ++ "\n" }

end Output

/-- What the loop needs of the terminal it talks to. -/
structure Terminal extends Painter where
  /-- What its line reader hands over for a line, which may hold keys that edit it. -/
  read : String → String

/-- The terminal that shows text as it is and hands over every line as it comes. -/
def Terminal.plain : Terminal := ⟨.plain, id⟩

/-- The state of the loop between two lines. -/
structure Repl where
  session : Session := .new
  /-- One more than the number of inputs that succeeded. -/
  number : Nat := 1
  /-- The lines waiting to be continued. -/
  buffer : String := ""

namespace Repl

/-- The version of the program. -/
def version : String := "0.1.0"

/-- What to do with an input. -/
inductive Input where
  | nothing
  | quit
  | help
  | clear
  | functions
  | unknown (command : String)
  | declare (source : String)
  | evaluate (source : String)
  deriving Repr, DecidableEq

/-- Sort out a trimmed input. -/
def Input.ofText (input : String) : Input :=
  if input.isEmpty then .nothing
  else if input.startsWith ":" then
    match input with
    | ":quit" | ":q" | ":exit" => .quit
    | ":help" | ":h" => .help
    | ":clear" | ":c" => .clear
    | ":functions" | ":f" => .functions
    | command => .unknown command
  else if input.startsWith "let " || input.startsWith "use " then .declare input
  else .evaluate input

section

variable (terminal : Terminal)

/-- What a line comes to: what the terminal hands over, without the blanks around. -/
def typed (line : String) : String := Text.trim (terminal.read line)

/-- The lines at the start. -/
def banner : Output :=
  .line (terminal.paint (.bold .cyan) ("XY REPL v" ++ version)) ++
    .line (terminal.paint .dimmed "Type :help for help, :quit to exit") ++ .line ""

/-- The line at the end. -/
def farewell : Output := .line (terminal.paint (.colored .cyan) "Goodbye!")

/-- The prompt for the next line. -/
def prompt (r : Repl) : String :=
  if r.buffer.isEmpty then terminal.paint (.bold .green) ("xy:" ++ toString r.number ++ " ")
  else terminal.paint (.bold .yellow) "   ... "

/-- The list of commands. -/
def help : Output :=
  let title (text : String) : Output := .line (terminal.paint (.bold .cyan) text)
  let item (style : Style) (what why : String) : Output :=
    .line ("  " ++ terminal.paint style what ++ "  - " ++ why)
  let command := item (.colored .green)
  let sample := item .dimmed
  title "XY REPL Commands:" ++
    command ":help, :h" "Show this help message" ++
    command ":quit, :q, :exit" "Exit the REPL" ++
    command ":clear, :c" "Forget all declarations" ++
    command ":functions, :f" "List defined functions" ++
    .line "" ++
    title "Examples:" ++
    sample "2 + 2" "Evaluate an expression" ++
    sample "let double(x) = x * 2" "Declare a function" ++
    sample "let fact(0) = 1" "Add an overload" ++
    sample "double(21)" "Call it" ++
    sample "let f(x) = \\" "Multi-line input"

/-- The functions of a program, by name; of two with one name the declared one comes first. -/
def functionList (env : Environment) : Output :=
  let before (a b : String × Bool) : Bool :=
    a.1 < b.1 || (a.1 == b.1 && (!a.2 || b.2))
  let names := (env.definitions.map fun d => (d.name, d.isNative)).mergeSort before
  let lines := names.map fun (name, native) =>
    Output.line ("  " ++ terminal.paint (.colored .green) name ++
      if native then " " ++ terminal.paint .dimmed "(native)" else "")
  lines.foldl (· ++ ·) (.line (terminal.paint (.bold .cyan) "Functions:"))

/-- A value as the answer to an input. -/
def answer (v : Value) : String :=
  match v with
  | .text s => terminal.paint (.colored .yellow) ("\"" ++ s ++ "\"")
  | .number _ => terminal.paint (.colored .cyan) v.display
  | .bool _ => terminal.paint (.colored .magenta) v.display
  | .void => terminal.paint .dimmed v.display
  | .function _ => terminal.paint (.colored .blue) v.display
  | .list _ | .map _ => v.display

/-- Run a step of the session and report what it printed and how it ended; `none` if it did not
end. -/
def attempt {α : Type} (r : Repl) (step : Session.Step α) (reply : α → String) :
    Option (Repl × Output) :=
  match step r.session with
  | .ok a session =>
    let (printed, session) := session.takePrinted
    some ({ session := session, number := r.number + 1 }, { out := printed ++ reply a ++ "\n" })
  | .fail _ session =>
    let (printed, session) := session.takePrinted
    let (diagnostic, session) := session.dump terminal.toPainter
    some ({ session := session, number := r.number }, { out := printed, err := diagnostic })
  | .exhausted => none

/-- Read one line. The loop ends where no next state is given. -/
def step (fs : FileSystem) (r : Repl) (line : String) : Option Repl × Output :=
  let typed := typed terminal line
  if typed.endsWith "\\" then
    (some { r with buffer := r.buffer ++ (typed.dropEnd 1).toString ++ "\n" }, {})
  else
    let input := Input.ofText (Text.trim (r.buffer ++ typed))
    let r := { r with buffer := "" }
    let finish : Option (Repl × Output) → Option Repl × Output
      | some (r, output) => (some r, output)
      | none => (none, {})
    match input with
    | .nothing => (some r, {})
    | .quit => (none, farewell terminal)
    | .help => (some r, help terminal)
    | .clear =>
      (some { r with session := .new },
        .line (terminal.paint (.colored .green) "✓ State cleared"))
    | .functions => (some r, functionList terminal r.session.env)
    | .unknown command =>
      (some r,
        { err := terminal.paint (.colored .red) "Unknown command:" ++ " " ++ command ++ "\n" } ++
          .line (terminal.paint .dimmed "Type :help for available commands"))
    | .declare source =>
      finish (r.attempt terminal (Session.loadText fs source)
        fun _ => terminal.paint (.colored .green) "✓")
    | .evaluate source =>
      finish (r.attempt terminal (Session.evalText source) (answer terminal))

/-- Read lines until one ends the loop or there are no more, with the prompt before each. -/
def lines (fs : FileSystem) (r : Repl) : List String → Output
  | [] => { out := r.prompt terminal } ++ farewell terminal
  | line :: rest =>
    let asked : Output := { out := r.prompt terminal }
    match r.step terminal fs line with
    | (some next, output) => asked ++ output ++ next.lines fs rest
    | (none, output) => asked ++ output

end

end Repl

end Clausal
