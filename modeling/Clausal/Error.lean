import Clausal.Operator

/-!
# Errors

What can go wrong, as causes, and the wording of each cause. A cause belongs to one of six kinds;
an error is a cause with the position it was found at, if it was found in a text.
-/

namespace Clausal

/-- The types of values, as diagnostics name them. -/
inductive ValueType where
  | void | number | bool | string | function | list | map
  deriving Repr, DecidableEq

namespace ValueType

/-- The name of a type. -/
def text : ValueType → String
  | .void => "void"
  | .number => "number"
  | .bool => "bool"
  | .string => "string"
  | .function => "function"
  | .list => "list"
  | .map => "map"

end ValueType

/-- What a built-in function asks of one argument. -/
inductive ArgumentType where
  | exactly (type : ValueType)
  | any
  deriving Repr, DecidableEq

namespace ArgumentType

/-- The name of what is asked. -/
def text : ArgumentType → String
  | .exactly type => type.text
  | .any => "any"

/-- Whether a value of this type is accepted. -/
def accepts : ArgumentType → ValueType → Bool
  | .exactly type, given => type == given
  | .any, _ => true

end ArgumentType

/-- Why a file could not be used. -/
inductive FileError where
  | notFound
  | notADirectory
  | isADirectory
  | permissionDenied
  | nameTooLong
  | notText
  | badName
  /-- The contents of the file have not been supplied yet. -/
  | unavailable
  deriving Repr, DecidableEq

namespace FileError

/-- The operating system's wording. -/
def message : FileError → String
  | .notFound => "No such file or directory (os error 2)"
  | .notADirectory => "Not a directory (os error 20)"
  | .isADirectory => "Is a directory (os error 21)"
  | .permissionDenied => "Permission denied (os error 13)"
  | .nameTooLong => "File name too long (os error 36)"
  | .notText => "stream did not contain valid UTF-8"
  | .badName => "file name contained an unexpected NUL byte"
  | .unavailable => "not loaded"

end FileError

/-- What the grammar asked for where it met something else. -/
inductive Expectation where
  | mark (mark : Mark)
  | keyword (word : Keyword)
  | statement
  | endOfInput
  | symbol
  | expression
  | operator
  | mapKey
  /-- A comma, or the mark that closes the sequence. -/
  | separator (close : Mark)
  | endOfVariadic
  deriving Repr, DecidableEq

namespace Expectation

/-- The wording of an expectation. -/
def text : Expectation → String
  | .mark m => (Token.Kind.mark m).describe
  | .keyword w => (Token.Kind.keyword w).describe
  | .statement => "'let' or 'use'"
  | .endOfInput => "end of input"
  | .symbol => "symbol"
  | .expression => "expression"
  | .operator => "binary operator"
  | .mapKey => "map key"
  | .separator close => "',' or '" ++ close.text ++ "'"
  | .endOfVariadic => "']' after variadic binding"

end Expectation

/-- The six kinds of error, shown as the first word of a diagnostic. -/
inductive Error.Kind where
  | lexical | grammar | resolution | dispatch | type | runtime
  deriving Repr, DecidableEq

namespace Error.Kind

/-- The name of a kind. -/
def text : Error.Kind → String
  | .lexical => "Lexical"
  | .grammar => "Syntax"
  | .resolution => "Resolution"
  | .dispatch => "Dispatch"
  | .type => "Type"
  | .runtime => "Runtime"

end Error.Kind

/-- What went wrong. -/
inductive Cause where
  /-- A number literal has a character that is no digit of its base. -/
  | badDigit
  /-- A fraction after a number that is not decimal. -/
  | fractionBase
  /-- A string literal without its closing quote. -/
  | openText
  | unexpected (wanted : Expectation) (got : Token.Kind)
  | noFileName (got : Token.Kind)
  /-- A declaration names a built-in function. -/
  | nativeDeclared (name : String)
  | repeatedParameter (name : String)
  /-- A symbol that stands for nothing was evaluated. -/
  | unresolved (name : String)
  | noFunction (name : String)
  /-- No clause of the function (of a lambda, if it has no name) accepts the arguments. -/
  | noOverload (function : Option String)
  | badOperands (op : BinaryOp) (left right : ValueType)
  | badOperand (operand : ValueType)
  | notIterable (given : ValueType)
  | notDestructurable (given : ValueType)
  | badFactor
  /-- Argument number `index`, from 0; nothing is wanted past the last parameter. -/
  | badArgument (function : String) (index : Nat) (wanted : Option ArgumentType)
  | divisionByZero
  | notCallable (given : ValueType)
  /-- A clause was added to a built-in function. -/
  | nativeExtended (name : String)
  /-- The program ended itself. -/
  | died (message : String)
  | cannotOpen (path : String) (reason : FileError)
  | cannotRead (path : String) (reason : FileError)
  /-- An error described by its kind and message alone. -/
  | reported (kind : Error.Kind) (message : String)
  deriving Repr

namespace Cause

/-- The kind a cause belongs to. -/
def kind : Cause → Error.Kind
  | .badDigit | .fractionBase | .openText => .lexical
  | .unexpected .. | .noFileName _ | .nativeDeclared _ | .repeatedParameter _ => .grammar
  | .unresolved _ | .noFunction _ => .resolution
  | .noOverload _ => .dispatch
  | .badOperands .. | .badOperand _ | .notIterable _ | .notDestructurable _ | .badFactor
  | .badArgument .. => .type
  | .divisionByZero | .notCallable _ | .nativeExtended _ | .died _ | .cannotOpen ..
  | .cannotRead .. => .runtime
  | .reported k _ => k

/-- The wording of a cause. -/
def message : Cause → String
  | .badDigit => "Unexpected token in number literal"
  | .fractionBase => "Non-base 10 decimals not supported"
  | .openText => "Unterminated string literal"
  | .unexpected wanted got => "Expected " ++ wanted.text ++ ", got " ++ got.describe
  | .noFileName got => "Expected file name after 'use', got " ++ got.describe
  | .nativeDeclared name | .nativeExtended name =>
    "Cannot overload native function '" ++ name ++ "'"
  | .repeatedParameter name => "Parameter '" ++ name ++ "' already declared"
  | .unresolved name => "Use of unresolved symbol '" ++ name ++ "'"
  | .noFunction name => "No function named '" ++ name ++ "'"
  | .noOverload (some name) => "No suitable overload for function '" ++ name ++ "' found"
  | .noOverload none => "No suitable overload for lambda function found"
  | .badOperands op left right =>
    "Invalid operand types for '" ++ op.text ++ "': " ++ left.text ++ " and " ++ right.text
  | .badOperand operand => "Invalid operand type for unary '-': " ++ operand.text
  | .notIterable given => "Cannot iterate over value of type " ++ given.text
  | .notDestructurable given => "Cannot destructure value of type " ++ given.text
  | .badFactor => "A number can only be applied to a single number"
  | .badArgument function index wanted =>
    "Invalid argument #" ++ toString (index + 1) ++ " to '" ++ function ++ "', expected " ++
      (wanted.map ArgumentType.text).getD "no argument"
  | .divisionByZero => "Division by zero"
  | .notCallable given => "Value of type " ++ given.text ++ " is not callable"
  | .died text => text
  | .cannotOpen path reason => "Cannot open file '" ++ path ++ "': " ++ reason.message
  | .cannotRead path reason => "Cannot read file '" ++ path ++ "': " ++ reason.message
  | .reported _ text => text

end Cause

/-- A cause, and the position it was found at if it was found in a text. -/
structure Error where
  cause : Cause
  position : Option Position := none
  deriving Repr

namespace Error

/-- The kind of an error is that of its cause. -/
def kind (e : Error) : Error.Kind := e.cause.kind

/-- The message of an error is that of its cause. -/
def message (e : Error) : String := e.cause.message

/-- An error at a known position. -/
def found (position : Position) (cause : Cause) : Error := ⟨cause, some position⟩

/-- Give an error a position unless it has one. -/
def locate (e : Error) (position : Position) : Error :=
  { e with position := e.position.or (some position) }

/-- Kind, position if known, and message on one line. -/
def text (e : Error) : String :=
  let place := match e.position with
    | some position => " [" ++ position.text ++ "]"
    | none => ""
  e.kind.text ++ " error" ++ place ++ ": " ++ e.message

end Error

end Clausal
