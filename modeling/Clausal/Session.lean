import Clausal.Diagnostic
import Clausal.Eval
import Clausal.FileSystem

/-!
# Sessions

A session is a program under construction together with what its evaluations have left behind: the
functions known so far, the store, the files already loaded, the texts that diagnostics may quote,
and the first error that has not been dealt with.

Loading a text goes statement by statement. A file is loaded at most once under whatever spelling,
and counts as loaded from the moment its loading begins.
-/

namespace Clausal

/-- The state of a session. -/
structure Session where
  env : Environment := {}
  store : Store Closure := {}
  latch : Latch := {}
  /-- The canonical paths of the files loaded or being loaded. -/
  included : List String := []
  /-- The texts read, by the name of their file, the latest first. -/
  sources : List (Option String × String) := []

namespace Session

variable {α : Type}

/-- A step of a session. -/
abbrev Step := Run Error Session

/-- A session without any functions. -/
def bare : Session := {}

/-- A session with the built-in functions. -/
def new : Session := { env := Environment.empty.withNatives }

/-- Keep a text for diagnostics. Of the texts without a name only the latest is kept. -/
def remember (s : Session) (file : Option String) (source : String) : Session :=
  let others := match file with
    | some _ => s.sources
    | none => s.sources.filter (·.1.isSome)
  { s with sources := (file, source) :: others }

/-- Keep the error of a step that fails. -/
def recorded (step : Step α) : Step α := fun s =>
  match step s with
  | .ok a s => .ok a s
  | .fail e s => .fail e { s with latch := s.latch.arm e }
  | .exhausted => .exhausted

/-- Run an evaluation on the store of the session. -/
def evaluating (run : Environment → Eval α) : Step α := fun s =>
  let env := s.env
  let store := s.store
  -- the session lets go of its store, so that the evaluation can change it in place
  let s := { s with store := default }
  match run env store with
  | .ok a store => .ok a { s with store := store }
  | .fail cause store => .fail { cause := cause } { s with store := store }
  | .exhausted => .exhausted

/-! ## Loading -/

/-- Carry out the statements from the lexer on. Files are found from the directory `base`; an
error without a position in one of them gets that of its `use`. -/
def statements (load : String → Step Unit) (base : String) : Nat → Lexer → Step Unit
  | 0, _, _ => .exhausted
  | steps + 1, lexer, s =>
    match Parse.statement s.env.isNative lexer with
    | .ok none _ => .ok () s
    | .ok (some (.declarations group)) lexer =>
      statements load base steps lexer { s with env := s.env.commit group }
    | .ok (some (.use path position)) lexer =>
      match load (Path.join base path) s with
      | .ok _ s => statements load base steps lexer s
      | .fail e s => .fail (e.locate position) s
      | .exhausted => .exhausted
    | .fail e _ => .fail e s
    | .exhausted => .exhausted

/-- Load a text. -/
def loadSource (load : String → Step Unit) (base : String) (file : Option String)
    (source : String) : Step Unit := fun s =>
  let s := s.remember file source
  match Lexer.ofSource source file with
  | .ok lexer => statements load base (Parse.stepsFor lexer) lexer s
  | .error e => .fail e s

/-- Load a file unless that has been done, with at most `depth` files inside files. -/
def includeFile (fs : FileSystem) : Nat → String → Step Unit
  | 0, _, _ => .exhausted
  | depth + 1, path, s =>
    match fs.lookup path with
    | .error reason => .fail { cause := .cannotOpen path reason } s
    | .ok found =>
      if s.included.contains found.path then .ok () s
      else
        let s := { s with included := found.path :: s.included }
        match found.text with
        | .error reason => .fail { cause := .cannotRead path reason } s
        | .ok source =>
          loadSource (includeFile fs depth) (Path.parent found.path) (some path) source s

/-- Files inside files: every level loads one more file, and the last loads none. -/
def includeDepth (fs : FileSystem) : Nat := fs.fileCount + 1

/-- Load a file and everything it uses. -/
def loadFile (fs : FileSystem) (path : String) : Step Unit :=
  recorded (includeFile fs (includeDepth fs) path)

/-- Load a text that is in no file; what it uses is found from the working directory. -/
def loadText (fs : FileSystem) (source : String) : Step Unit :=
  recorded (loadSource (includeFile fs (includeDepth fs)) "." none source)

/-! ## Evaluating -/

/-- Parse an expression that spans a text, without looking up its symbols. -/
def parseExpr (source : String) (file : Option String) : Except Error (Option Expr) := do
  let lexer ← Lexer.ofSource source file
  match Parse.wholeExpression lexer with
  | .ok e _ => return some e
  | .fail e _ => throw e
  | .exhausted => return none

/-- Parse an expression and look up its symbols among the functions of the session. -/
def parsed (source : String) (file : Option String) : Step Expr := fun s =>
  match parseExpr source file with
  | .ok (some e) => .ok (s.env.resolve [] e) s
  | .ok none => .exhausted
  | .error e => .fail e s

/-- The value of an expression given as text. -/
def evalText (source : String) : Step Value :=
  recorded do
    Run.modify (·.remember none source)
    let e ← parsed source none
    evaluating (·.evaluate e)

/-- Call the function of a name. -/
def call (name : String) (args : List Value) : Step Value :=
  recorded do
    match ← Run.read (·.env.find? name) with
    | some f => evaluating (·.invoke f args)
    | none => Run.fail { cause := .noFunction name }

/-- Call `main`, if there is one. It gets the arguments of the script as one list of strings,
unless there are none and it has a clause without parameters. -/
def runMain (scriptArgs : List String) : Step (Option Value) := do
  match ← Run.read fun s => (s.env.find? "main").map s.env.clauses? with
  | none => return none
  | some clauses =>
    if scriptArgs.isEmpty && (clauses.getD []).any (·.params.isEmpty) then
      return some (← call "main" [])
    let id ← evaluating fun _ => Eval.fresh
    return some (← call "main" [.list (.ofList id (scriptArgs.map .text))])

/-! ## Dealing with the pending error -/

/-- Let go of the pending error and give its message. -/
def flush (s : Session) : Option String × Session :=
  (s.latch.pending.map (·.message), { s with latch := {} })

/-- The text that an error quotes: the latest of the file it was found in. -/
def sourceOf (s : Session) (e : Error) : Option String := do
  let position ← e.position
  s.sources.lookup position.file

/-- Let go of the pending error and give the diagnostic for it. -/
def dump (s : Session) (painter : Painter) : String × Session :=
  match s.latch.pending with
  | none => ("", s)
  | some e => (Diagnostic.render painter e (s.sourceOf e), { s with latch := {} })

/-- Take the printed text. -/
def takePrinted (s : Session) : String × Session :=
  (s.store.printed, { s with store := { s.store with printed := "" } })

end Session

end Clausal
