import Clausal.Expr
import Clausal.Token.Lexer

/-!
# Parsing expressions

A recursive descent over the tokens of a lexer, with the token it stands on as the only
lookahead. Operands and operators are read as a flat chain, and `Expr.join` builds the tree.

Two parsers refer back to each other through all the others: that of a whole expression and that
of an operand. The others take the pair as an argument, and `Parse.expressionIn` and
`Parse.operandIn` tie the knot on a number of steps. No step is taken without reading a token, so
a small multiple of the characters left is always enough; `Parse.expression` supplies it.
-/

namespace Clausal

/-- A parser over the tokens of a lexer. -/
abbrev Parse := Run Error Lexer

namespace Parse

variable {α : Type}

/-! ## Tokens -/

/-- The kind of the token the lexer stands on. -/
@[inline]
def kind : Parse Token.Kind := Run.read (·.current.kind)

/-- The position of the token the lexer stands on. -/
@[inline]
def position : Parse Position := Run.read (·.current.position)

/-- Go on to the next token. -/
def advance : Parse Unit := Lexer.advance

/-- Whether the lexer stands on this mark. -/
@[inline]
def sees (m : Mark) : Parse Bool := Run.read (·.current.kind.isMark m)

/-- Whether the lexer stands on this reserved word. -/
@[inline]
def seesWord (w : Keyword) : Parse Bool := Run.read (·.current.kind.isKeyword w)

/-- Complain about the token the lexer stands on. -/
def unexpected (wanted : Expectation) : Parse α := fun lexer =>
  .fail (.found lexer.current.position (.unexpected wanted lexer.current.kind)) lexer

/-- Read this mark. -/
def expect (m : Mark) : Parse Unit := do
  if ← sees m then advance else unexpected (.mark m)

/-- Read this reserved word. -/
def expectWord (w : Keyword) : Parse Unit := do
  if ← seesWord w then advance else unexpected (.keyword w)

/-- Read a name. -/
def name : Parse String := do
  match ← kind with
  | .symbol s => advance; return s
  | _ => unexpected .symbol

/-- Read a binary operator. -/
def operator : Parse BinaryOp := do
  match BinaryOp.ofToken? (← kind) with
  | some op => advance; return op
  | none => unexpected .operator

/-- Items up to and including the mark `close`, with commas between them and possibly after the
last. An item may depend on those before it, which it is given latest first. -/
def separated (close : Mark) (item : List α → Parse α) : Nat → List α → Parse (List α)
  | 0, _ => Run.exhaust
  | steps + 1, before => do
    if ← sees close then
      advance
      return before.reverse
    let next ← item before
    if ← sees .comma then
      advance
    else if !(← sees close) then
      unexpected (.separator close)
    separated close item steps (next :: before)

/-! ## Clauses -/

/-- The two parsers that all others refer back to. -/
structure Grammar where
  expression : Parse Expr
  operand : Parse Expr

/-- Parameter number `index`: a name, `name : guard`, the shorthand `name op operand` for a guard
on the name, or a pattern that the argument must equal. -/
def param (g : Grammar) (index : Nat) : Parse Param := do
  match ← kind with
  | .symbol s =>
    advance
    if ← sees .colon then
      advance
      let guard ← g.expression
      return ⟨some s, some guard⟩
    match BinaryOp.ofToken? (← kind) with
    | some op =>
      advance
      let operand ← g.operand
      return ⟨some s, some (.binary op (.free s) operand)⟩
    | none => return ⟨some s, none⟩
  | _ =>
    let pattern ← g.expression
    return ⟨none, some (.binary .equal (.parameter index) pattern)⟩

/-- A parameter after those in `before`, none of which may have its name. -/
def nextParam (g : Grammar) (before : List Param) : Parse Param := do
  let start ← position
  let p ← param g before.length
  match p.name with
  | some s =>
    if before.any (·.name == some s) then Run.fail (.found start (.repeatedParameter s))
    else return p
  | none => return p

/-- `(parameters) = body`. -/
def clause (g : Grammar) (steps : Nat) : Parse Clause := do
  expect .leftParen
  let params ← separated .rightParen (nextParam g) steps []
  expect .equal
  let body ← g.expression
  return ⟨params, body⟩

/-- The clauses `let (parameters) = body` up to and including the closing brace. -/
def clauses (g : Grammar) (inner : Nat) : Nat → Parse (List Clause)
  | 0 => Run.exhaust
  | steps + 1 => do
    if ← sees .rightBrace then
      advance
      return []
    expectWord .letWord
    let first ← clause g inner
    let rest ← clauses g inner steps
    return first :: rest

/-! ## Primary expressions -/

/-- After `@`: one clause, or several in braces. -/
def lambda (g : Grammar) (steps : Nat) : Parse Expr := do
  if ← sees .leftParen then
    let c ← clause g steps
    return .lambda [c]
  expect .leftBrace
  let cs ← clauses g steps steps
  return .lambda cs

/-- After a backtick: the operator as a function of two arguments. -/
def operatorLambda : Parse Expr := do
  let op ← operator
  return .lambda [⟨[⟨none, none⟩, ⟨none, none⟩], .binary op (.parameter 0) (.parameter 1)⟩]

/-- After `&`: the operator with its right operand given, as a function of the left one. -/
def operatorSection (g : Grammar) : Parse Expr := do
  let op ← operator
  let operand ← g.operand
  return .lambda [⟨[⟨none, none⟩], .binary op (.parameter 0) operand⟩]

/-- `key : value` in a map literal; the key is a name or a string. -/
def entry (g : Grammar) : Parse Entry := do
  let key ← match ← kind with
    | .symbol s => pure s
    | .text s => pure s
    | _ => unexpected .mapKey
  advance
  expect .colon
  let value ← g.expression
  return ⟨key, value⟩

/-- One name of a destructuring target, and whether it takes the rest of the list. Nothing may
follow one that does. -/
def itemName (before : List (String × Bool)) : Parse (String × Bool) := do
  if before.any (·.2) then unexpected .endOfVariadic
  let s ← name
  if ← sees .dotDot then
    advance
    return (s, true)
  return (s, false)

/-- The target of names of which the last may take the rest. -/
def targetOf (names : List (String × Bool)) : Target :=
  .items ((names.filter (!·.2)).map (·.1)) ((names.find? (·.2)).map (·.1))

/-- What stands left of `=` in a binding: a name, or names in brackets. -/
def target (steps : Nat) : Parse Target := do
  if ← sees .leftBracket then
    advance
    let names ← separated .rightBracket itemName steps []
    return targetOf names
  return .name (← name)

/-- `target = value`. -/
def binding (g : Grammar) (steps : Nat) : Parse Binding := do
  let t ← target steps
  expect .equal
  let value ← g.expression
  return ⟨t, value⟩

/-- After `with`: bindings in parentheses, and the body. -/
def withBlock (g : Grammar) (steps : Nat) : Parse Expr := do
  expect .leftParen
  let bindings ← separated .rightParen (fun _ => binding g steps) steps []
  expect .equal
  let body ← g.expression
  return .withBlock bindings body

/-- After `(`: the void value, or an expression. -/
def parenthesized (g : Grammar) : Parse Expr := do
  if ← sees .rightParen then
    advance
    return .literal .void
  let e ← g.expression
  expect .rightParen
  return e

/-- An expression that starts with what it is. -/
def primary (g : Grammar) (steps : Nat) : Parse Expr := do
  match ← kind with
  | .number n => advance; return .literal (.number n)
  | .text s => advance; return .literal (.text s)
  | .keyword .trueWord => advance; return .literal (.bool true)
  | .keyword .falseWord => advance; return .literal (.bool false)
  | .symbol s => advance; return .free s
  | .mark .leftParen => advance; parenthesized g
  | .mark .leftBracket =>
    advance
    let items ← separated .rightBracket (fun _ => g.expression) steps []
    return .list items
  | .mark .leftBrace =>
    advance
    let entries ← separated .rightBrace (fun _ => entry g) steps []
    return .map entries
  | .mark .atSign => advance; lambda g steps
  | .mark .backtick => advance; operatorLambda
  | .mark .ampersand => advance; operatorSection g
  | .keyword .withWord => advance; withBlock g steps
  | .mark .minus =>
    advance
    let operand ← g.operand
    return .unary .negate operand
  | .mark .bang =>
    advance
    let operand ← g.operand
    return .unary .not operand
  | _ => unexpected .expression

/-! ## Operands and expressions -/

/-- Argument lists `(a, b)` and pipes `-> f` after an expression. -/
def suffixes (g : Grammar) (inner : Nat) : Nat → Expr → Parse Expr
  | 0, _ => Run.exhaust
  | steps + 1, e => do
    match ← kind with
    | .mark .leftParen =>
      advance
      let args ← separated .rightParen (fun _ => g.expression) inner []
      suffixes g inner steps (.call e args)
    | .mark .arrow =>
      advance
      let callee ← primary g inner
      suffixes g inner steps (.call callee [e])
    | _ => return e

/-- A primary expression and its suffixes. -/
def operandWith (g : Grammar) (steps : Nat) : Parse Expr := do
  let e ← primary g steps
  suffixes g steps steps e

/-- The operators that follow, each with its operand. -/
def chain (g : Grammar) : Nat → Parse (List (BinaryOp × Expr))
  | 0 => Run.exhaust
  | steps + 1 => do
    match BinaryOp.ofToken? (← kind) with
    | some op =>
      advance
      let operand ← g.operand
      let rest ← chain g steps
      return (op, operand) :: rest
    | none => return []

/-- After `mark`, an expression; otherwise nothing. -/
def optional (g : Grammar) (m : Mark) : Parse (Option Expr) := do
  if ← sees m then
    advance
    return some (← g.expression)
  return none

/-- Operands joined by operators, and possibly `$ name : filter = map` after them. -/
def expressionWith (g : Grammar) (steps : Nat) : Parse Expr := do
  let first ← g.operand
  let rest ← chain g steps
  let e := Expr.join first rest
  if ← sees .dollar then
    advance
    let s ← name
    let filter ← optional g .colon
    let map ← optional g .equal
    return .comprehension s e filter map
  return e

mutual

/-- An expression, read in at most so many nested steps. -/
def expressionIn : Nat → Parse Expr
  | 0, _ => .exhausted
  | steps + 1, lexer => expressionWith ⟨expressionIn steps, operandIn steps⟩ steps lexer

/-- An operand, read in at most so many nested steps. -/
def operandIn : Nat → Parse Expr
  | 0, _ => .exhausted
  | steps + 1, lexer => operandWith ⟨expressionIn steps, operandIn steps⟩ steps lexer

end

/-- Steps enough to read whatever the lexer has left. -/
def stepsFor (lexer : Lexer) : Nat := 4 * (lexer.cursor.rest.length + 2)

/-- An expression. -/
def expression : Parse Expr := fun lexer => expressionIn (stepsFor lexer) lexer

/-- An expression with nothing after it. -/
def wholeExpression : Parse Expr := do
  let e ← expression
  match ← kind with
  | .eof => return e
  | _ => unexpected .endOfInput

end Parse

end Clausal
