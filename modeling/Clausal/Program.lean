import Clausal.Expr.Parser

/-!
# Programs as text

A program is a sequence of statements: groups of neighbouring `let` declarations, and `use`
statements that name other files. Parsing a statement changes nothing but the lexer; what a group
declares takes effect only when the whole group has been read.
-/

namespace Clausal

/-- One clause for the function of this name. -/
structure Declaration where
  name : String
  clause : Clause

/-- One step of a program. -/
inductive Statement where
  /-- Neighbouring declarations, in order. -/
  | declarations (group : List Declaration)
  /-- `use "path"`, at the position of its first word. -/
  | use (path : String) (position : Position)

namespace Parse

/-- A clause, with steps enough for what the lexer has left. -/
def wholeClause : Parse Clause := fun lexer =>
  let steps := stepsFor lexer
  clause ⟨expressionIn steps, operandIn steps⟩ steps lexer

/-- `let name(parameters) = body`. The name may not be that of a built-in function. -/
def declaration (isNative : String → Bool) : Parse Declaration := do
  expectWord .letWord
  let start ← position
  let s ← name
  if isNative s then
    Run.fail (.found start (.nativeDeclared s))
  let c ← wholeClause
  return ⟨s, c⟩

/-- Declarations as long as there are any. -/
def declarations (isNative : String → Bool) : Nat → Parse (List Declaration)
  | 0 => Run.exhaust
  | steps + 1 => do
    if ← seesWord .letWord then
      let first ← declaration isNative
      let rest ← declarations isNative steps
      return first :: rest
    return []

/-- `use "path"`. The token after the path is read before the path is looked at. -/
def useStatement : Parse Statement := do
  let start ← position
  expectWord .useWord
  let operand ← kind
  advance
  match operand with
  | .text path => return .use path start
  | got => Run.fail (.found start (.noFileName got))

/-- The next statement, or nothing at the end of the source. -/
def statement (isNative : String → Bool) : Parse (Option Statement) := do
  match ← kind with
  | .eof => return none
  | .keyword .useWord => return some (← useStatement)
  | .keyword .letWord =>
    let steps ← Run.read stepsFor
    let group ← declarations isNative steps
    return some (.declarations group)
  | _ => unexpected .statement

end Parse

end Clausal
