/-!
# Requests

What the arguments of the program ask for. They are read from left to right, and the first one that
does not fit, or that asks for help or for the version, ends the reading. The options `-v` and `-C`
stand before or after the name of the command, at most once on either side; of two directories the
one after the name counts.
-/

namespace Clausal.CommandLine

/-- What to do. -/
inductive Command where
  /-- Load files and call `main` with the arguments of the script. -/
  | run (files : List String) (args : List String)
  | eval (source : String)
  | tokens (file : String)
  | repl
  deriving Repr, DecidableEq

/-- What to do, and from which directory. -/
structure Request where
  command : Command
  directory : Option String := none
  deriving Repr, DecidableEq

/-- What is shown when there is no request to carry out. -/
inductive Notice where
  /-- The arguments do not fit. -/
  | misuse
  | version
  | help
  deriving Repr, DecidableEq

/-! ## Options -/

/-- The form of one argument. -/
inductive Argument where
  | plain
  | separator
  /-- `--name` or `--name=value`. -/
  | word (name : String) (value : Option String)
  /-- A group of one-letter options after a single dash. -/
  | letters (letters : List Char)
  deriving Repr, DecidableEq

/-- The form of an argument. A single dash by itself is no option. -/
def Argument.ofText (arg : String) : Argument :=
  match arg.toList with
  | ['-', '-'] => .separator
  | '-' :: '-' :: rest =>
    let value := match rest.dropWhile (· != '=') with
      | _ :: value => some (String.ofList value)
      | [] => none
    .word (String.ofList (rest.takeWhile (· != '='))) value
  | ['-'] => .plain
  | '-' :: rest => .letters rest
  | _ => .plain

/-- The two sides of the name of the command. -/
inductive Side where
  | before | after
  deriving Repr, DecidableEq

/-- What asking for the version leads to: it is an option only before the command. -/
def Side.version : Side → Notice
  | .before => .version
  | .after => .misuse

/-- The options read so far on one side. -/
structure Options where
  verbose : Bool := false
  directory : Option String := none
  /-- Whether the next argument has to be the directory. -/
  awaiting : Bool := false
  deriving Repr, DecidableEq

namespace Options

/-- Ask for a verbose run, which is possible once. -/
def speakUp (o : Options) : Except Notice Options :=
  if o.verbose then .error .misuse else .ok { o with verbose := true }

/-- Name the directory, which is possible once and not by the empty name. -/
def enter (o : Options) (directory : String) : Except Notice Options :=
  if directory.isEmpty || o.directory.isSome then .error .misuse
  else .ok { o with directory := some directory, awaiting := false }

/-- Read a group of letters. What follows the letter of the directory is its value, with or without
an equals sign in between. -/
def readLetters (side : Side) : Options → List Char → Except Notice Options
  | o, [] => .ok o
  | o, 'v' :: rest => do readLetters side (← o.speakUp) rest
  | o, ['C'] => .ok { o with awaiting := true }
  | o, 'C' :: '=' :: value => o.enter (String.ofList value)
  | o, 'C' :: value => o.enter (String.ofList value)
  | _, 'h' :: _ => .error .help
  | _, 'V' :: _ => .error side.version
  | _, _ => .error .misuse

/-- Read an option in full. -/
def readWord (side : Side) (o : Options) : String → Option String → Except Notice Options
  | "verbose", none => o.speakUp
  | "directory", none => .ok { o with awaiting := true }
  | "directory", some value => o.enter value
  | "help", none => .error .help
  | "version", none => .error side.version
  | _, _ => .error .misuse

end Options

/-! ## Commands -/

/-- The names of the commands. -/
inductive Verb where
  | run | eval | tokens | repl
  deriving Repr, DecidableEq

namespace Verb

/-- The command of this name. -/
def ofText? : String → Option Verb
  | "run" => some .run
  | "eval" => some .eval
  | "tokens" => some .tokens
  | "repl" => some .repl
  | _ => none

/-- Whether a command that has `count` operands takes one more. A file has a name. -/
def takes (v : Verb) (count : Nat) (operand : String) : Bool :=
  match v with
  | .run => !operand.isEmpty
  | .eval => count == 0
  | .tokens => count == 0 && !operand.isEmpty
  | .repl => false

/-- The command with these operands and these arguments after the separator, where only `run` has
a use of its own for the latter. -/
def command (v : Verb) (operands rest : List String) : Except Notice Command :=
  match v, operands, rest with
  | .run, file :: files, args => .ok (.run (file :: files) args)
  | .eval, [source], [] | .eval, [], [source] => .ok (.eval source)
  | .tokens, [file], [] | .tokens, [], [file] =>
    if file.isEmpty then .error .misuse else .ok (.tokens file)
  | .repl, [], [] => .ok .repl
  | _, _, _ => .error .misuse

/-- Read the arguments after the name of a command. -/
def read (v : Verb) : Options → List String → List String → Except Notice Request
  | o, operands, [] => do
    if o.awaiting then throw .misuse
    return { command := ← v.command operands [], directory := o.directory }
  | o, operands, arg :: args =>
    match Argument.ofText arg, o.awaiting with
    | .plain, true => do v.read (← o.enter arg) operands args
    | .plain, false =>
      if v.takes operands.length arg then v.read o (operands ++ [arg]) args else .error .misuse
    | _, true => .error .misuse
    | .separator, false => do
      return { command := ← v.command operands args, directory := o.directory }
    | .word name value, false => do v.read (← o.readWord .after name value) operands args
    | .letters letters, false => do v.read (← o.readLetters .after letters) operands args

end Verb

namespace Request

/-- What asking for help on these commands leads to. -/
def helpOn : List String → Notice
  | [] => .help
  | [name] => if name = "help" ∨ (Verb.ofText? name).isSome then .help else .misuse
  | _ => .misuse

/-- Read the arguments up to the name of the command, and then those after it. -/
def read : Options → List String → Except Notice Request
  | _, [] => .error .misuse
  | o, arg :: args =>
    match Argument.ofText arg, o.awaiting with
    | .plain, true => do read (← o.enter arg) args
    | .plain, false =>
      match Verb.ofText? arg with
      | some v => do
        let request ← v.read {} [] args
        return { request with directory := request.directory.or o.directory }
      | none => .error (if arg = "help" then helpOn args else .misuse)
    | _, true | .separator, false => .error .misuse
    | .word name value, false => do read (← o.readWord .before name value) args
    | .letters letters, false => do read (← o.readLetters .before letters) args

/-- The request that the arguments make, or what to show instead. -/
def ofArgs (args : List String) : Except Notice Request := read {} args

end Request

end Clausal.CommandLine
