import Clausal.Program
import Clausal.Eval

/-!
# Loose trees

An expression keeps together what belongs together: a key of a map literal with its value, the name
for the rest of a list behind the names of the items in front of it. In a loose tree the keys stand
in one list and the values in another, and a mark besides the names of a target says whether the
last of them takes the rest. Nothing in such a tree says that the lists are of one length or that
there is a last name.

The same grammar is read into loose trees here. A key is put to the keys before its value is read,
and names and mark are collected side by side, so it is up to the parsers that they agree.

* `Loose.Expr`, `Expr.loose`: loose trees, and an expression as one.
* `Loose.Target.values?`: what a target takes from a value. To leave the last name out, there has to
  be one.
* `Loose.entries`, `Loose.itemNames`: the loops of a map literal and of a target.
* `Loose.expression`, `Loose.wholeExpression`, `Loose.statement`: the parsers.
-/

namespace Clausal

/-! ## Trees -/

namespace Loose

/-- What a binding gives a name to. -/
inductive Target where
  /-- The whole value. -/
  | name (name : String)
  /-- The items of a list; if there is the mark, the last name takes those that remain. -/
  | items (names : List String) (variadic : Bool)

mutual

/-- An expression in which a map literal has its keys and its values in two lists. -/
inductive Expr where
  | literal (value : Literal)
  | symbol (name : String) (resolution : Resolution)
  | binary (op : BinaryOp) (left right : Expr)
  | unary (op : UnaryOp) (operand : Expr)
  | call (callee : Expr) (args : List Expr)
  | list (items : List Expr)
  | map (keys : List String) (values : List Expr)
  | comprehension (name : String) (source : Expr) (filter map : Option Expr)
  | withBlock (bindings : List Binding) (body : Expr)
  | lambda (clauses : List Clause)

/-- A local binding. -/
structure Binding where
  target : Target
  value : Expr

/-- A parameter; one without a name comes from a pattern or from an operator. -/
structure Param where
  name : Option String
  guard : Option Expr

/-- A guarded parameter list and a body. -/
structure Clause where
  params : List Param
  body : Expr

end

/-- One clause for the function of this name. -/
structure Declaration where
  name : String
  clause : Clause

/-- One step of a program. -/
inductive Statement where
  | declarations (group : List Declaration)
  | use (path : String) (position : Position)

/-- A symbol that has not been looked up. -/
def Expr.free (name : String) : Expr := .symbol name .unresolved

/-- A parameter of the innermost clause, by number. -/
def Expr.parameter (index : Nat) : Expr := .symbol "" (.slot index 0)

end Loose

/-- A target with its names in one list. -/
def Target.loose : Target → Loose.Target
  | .name n => .name n
  | .items front rest => .items (front ++ rest.toList) rest.isSome

mutual

/-- An expression as a loose tree. -/
def Expr.loose : Expr → Loose.Expr
  | .literal value => .literal value
  | .symbol name resolution => .symbol name resolution
  | .binary op left right => .binary op left.loose right.loose
  | .unary op operand => .unary op operand.loose
  | .call callee args => .call callee.loose (Expr.looseAll args)
  | .list items => .list (Expr.looseAll items)
  | .map entries => .map (entries.map (·.key)) (Entry.looseValues entries)
  | .comprehension name source filter map =>
    .comprehension name source.loose (Expr.looseOption filter) (Expr.looseOption map)
  | .withBlock bindings body => .withBlock (Binding.looseAll bindings) body.loose
  | .lambda clauses => .lambda (Clause.looseAll clauses)

/-- All of some expressions. -/
def Expr.looseAll : List Expr → List Loose.Expr
  | [] => []
  | e :: es => e.loose :: Expr.looseAll es

/-- The expression, if there is one. -/
def Expr.looseOption : Option Expr → Option Loose.Expr
  | none => none
  | some e => some e.loose

/-- The values of all entries. -/
def Entry.looseValues : List Entry → List Loose.Expr
  | [] => []
  | ⟨_, value⟩ :: es => value.loose :: Entry.looseValues es

/-- All of some bindings. -/
def Binding.looseAll : List Binding → List Loose.Binding
  | [] => []
  | ⟨target, value⟩ :: bs => ⟨target.loose, value.loose⟩ :: Binding.looseAll bs

/-- All of some parameters. -/
def Param.looseAll : List Param → List Loose.Param
  | [] => []
  | ⟨name, guard⟩ :: ps => ⟨name, Expr.looseOption guard⟩ :: Param.looseAll ps

/-- A clause with loose guards and a loose body. -/
def Clause.loose : Clause → Loose.Clause
  | ⟨params, body⟩ => ⟨Param.looseAll params, body.loose⟩

/-- All of some clauses. -/
def Clause.looseAll : List Clause → List Loose.Clause
  | [] => []
  | c :: cs => c.loose :: Clause.looseAll cs

end

/-- A binding with a loose target and a loose value. -/
def Binding.loose (b : Binding) : Loose.Binding := ⟨b.target.loose, b.value.loose⟩

/-- A parameter with a loose guard. -/
def Param.loose (p : Param) : Loose.Param := ⟨p.name, p.guard.map Expr.loose⟩

/-- A declaration with a loose clause. -/
def Declaration.loose (d : Declaration) : Loose.Declaration := ⟨d.name, d.clause.loose⟩

/-- A statement with loose clauses. -/
def Statement.loose : Statement → Loose.Statement
  | .declarations group => .declarations (group.map Declaration.loose)
  | .use path position => .use path position

theorem Expr.looseAll_eq_map (es : List Expr) : looseAll es = es.map loose := by
  induction es with
  | nil => rfl
  | cons e es ih => rw [looseAll, List.map_cons, ih]

theorem Expr.looseOption_eq_map (e : Option Expr) : looseOption e = e.map loose := by
  cases e <;> rfl

theorem Entry.looseValues_eq_map (es : List Entry) :
    looseValues es = es.map fun e => e.value.loose := by
  induction es with
  | nil => rfl
  | cons e es ih =>
    obtain ⟨key, value⟩ := e
    rw [looseValues, List.map_cons, ih]

theorem Binding.looseAll_eq_map (bs : List Binding) : looseAll bs = bs.map loose := by
  induction bs with
  | nil => rfl
  | cons b bs ih =>
    obtain ⟨target, value⟩ := b
    rw [looseAll, List.map_cons, ih, loose]

theorem Param.looseAll_eq_map (ps : List Param) : looseAll ps = ps.map loose := by
  induction ps with
  | nil => rfl
  | cons p ps ih =>
    obtain ⟨name, guard⟩ := p
    rw [looseAll, List.map_cons, ih, loose, Expr.looseOption_eq_map]

theorem Clause.looseAll_eq_map (cs : List Clause) : looseAll cs = cs.map loose := by
  induction cs with
  | nil => rfl
  | cons c cs ih => rw [looseAll, List.map_cons, ih]

theorem Entry.length_keys (es : List Entry) :
    (es.map (·.key)).length = (looseValues es).length := by
  rw [looseValues_eq_map, List.length_map, List.length_map]

theorem Param.length_looseAll (ps : List Param) : (looseAll ps).length = ps.length := by
  rw [looseAll_eq_map, List.length_map]

theorem Param.names_looseAll (ps : List Param) :
    (looseAll ps).filterMap (·.name) = ps.filterMap (·.name) := by
  rw [looseAll_eq_map, List.filterMap_map]
  rfl

/-! ## Taking a list apart -/

namespace Loose.Target

/-- One less, which there is of no more than zero. -/
def less? : Nat → Option Nat
  | 0 => none
  | n + 1 => some n

/-- How many of the names take one item each. -/
def fixed? (names : List String) (variadic : Bool) : Option Nat :=
  if variadic then less? names.length else some names.length

/-- The values that a target takes from one value. -/
def values? (target : Target) (value : Value) (id : Nat) : Option (Except Cause (List Value)) :=
  match target with
  | .name _ => some (.ok [value])
  | .items names variadic =>
    match value with
    | .list xs =>
      (fixed? names variadic).map fun fixed =>
        let tail := if variadic then [Value.list (xs.extract id fixed xs.size)] else []
        .ok ((List.range fixed).map (Value.item xs) ++ tail)
    | v => some (.error (.notDestructurable v.type))

end Loose.Target

/-- A target with its names in one list takes what the target takes. -/
theorem Target.values?_loose (t : Target) (v : Value) (id : Nat) :
    t.loose.values? v id = some (t.values v id) := by
  cases t with
  | name n => rfl
  | items front rest =>
    cases v with
    | list xs => cases rest <;> simp [loose, Loose.Target.values?, Loose.Target.fixed?,
        Loose.Target.less?, Target.values]
    | void | number | bool | text | function | map => rfl

/-! ## Joining operands -/

namespace Loose.Expr

/-- Operands that still wait for what stands right of their operator, the latest first. -/
abbrev Waiting := List (Expr × BinaryOp)

/-- Give the waiting operands whose operator binds at least as tightly as `strength` their right
side, latest first. -/
def settle (strength : Nat) : Waiting → Expr → Waiting × Expr
  | [], e => ([], e)
  | (left, op) :: waiting, e =>
    if strength ≤ op.precedence then settle strength waiting (.binary op left e)
    else ((left, op) :: waiting, e)

/-- Read one more operator and operand. -/
def extend (state : Waiting × Expr) (next : BinaryOp × Expr) : Waiting × Expr :=
  match settle next.1.precedence state.1 state.2 with
  | (waiting, e) => ((e, next.1) :: waiting, next.2)

/-- The tree of operands joined by operators. -/
def join (first : Expr) (rest : List (BinaryOp × Expr)) : Expr :=
  let state := rest.foldl extend ([], first)
  (settle 0 state.1 state.2).2

end Loose.Expr

namespace Expr

/-- Waiting operands as loose trees, and the one that was read last. -/
def looseState (state : Waiting × Expr) : Loose.Expr.Waiting × Loose.Expr :=
  (state.1.map fun w => (w.1.loose, w.2), state.2.loose)

theorem settle_loose (strength : Nat) (waiting : Waiting) (e : Expr) :
    Loose.Expr.settle strength (waiting.map fun w => (w.1.loose, w.2)) e.loose =
      looseState (settle strength waiting e) := by
  induction waiting generalizing e with
  | nil => rfl
  | cons w waiting ih =>
    obtain ⟨left, op⟩ := w
    rw [settle, List.map_cons, Loose.Expr.settle]
    split
    · exact ih (.binary op left e)
    · rfl

theorem extend_loose (state : Waiting × Expr) (op : BinaryOp) (e : Expr) :
    Loose.Expr.extend (looseState state) (op, e.loose) = looseState (extend state (op, e)) := by
  rw [Loose.Expr.extend, extend]
  dsimp only [looseState]
  rw [settle_loose]
  rfl

theorem join_loose (first : Expr) (rest : List (BinaryOp × Expr)) :
    Loose.Expr.join first.loose (rest.map fun next => (next.1, next.2.loose)) =
      (join first rest).loose := by
  have hall (state : Waiting × Expr) :
      (rest.map fun next => (next.1, next.2.loose)).foldl Loose.Expr.extend (looseState state) =
        looseState (rest.foldl extend state) := by
    induction rest generalizing state with
    | nil => rfl
    | cons next rest ih => rw [List.map_cons, List.foldl_cons, List.foldl_cons, extend_loose, ih]
  have hstart : (([], first.loose) : Loose.Expr.Waiting × Loose.Expr) = looseState ([], first) :=
    rfl
  rw [Loose.Expr.join, join, hstart, hall, looseState, settle_loose]
  rfl

end Expr

/-! ## Parsers -/

namespace Loose

open Parse (kind position advance sees seesWord unexpected expect expectWord name operator separated
  stepsFor)

/-- The two parsers that all others refer back to. -/
structure Grammar where
  expression : Parse Expr
  operand : Parse Expr

section

variable (g : Grammar)

/-- Parameter number `index`. -/
def param (index : Nat) : Parse Param := do
  match ← kind with
  | .symbol s =>
    advance
    if ← sees .colon then
      advance
      let guard ← g.expression
      return ⟨some s, some guard⟩
    match BinaryOp.ofToken? (← kind) with
    | some op =>
      advance
      let operand ← g.operand
      return ⟨some s, some (.binary op (.free s) operand)⟩
    | none => return ⟨some s, none⟩
  | _ =>
    let pattern ← g.expression
    return ⟨none, some (.binary .equal (.parameter index) pattern)⟩

/-- A parameter after those in `before`, none of which may have its name. -/
def nextParam (before : List Param) : Parse Param := do
  let start ← position
  let p ← param g before.length
  match p.name with
  | some s =>
    if before.any (·.name == some s) then Run.fail (.found start (.repeatedParameter s))
    else return p
  | none => return p

/-- `(parameters) = body`. -/
def clause (steps : Nat) : Parse Clause := do
  expect .leftParen
  let params ← separated .rightParen (nextParam g) steps []
  expect .equal
  let body ← g.expression
  return ⟨params, body⟩

/-- The clauses `let (parameters) = body` up to and including the closing brace. -/
def clauses (inner : Nat) : Nat → Parse (List Clause)
  | 0 => Run.exhaust
  | steps + 1 => do
    if ← sees .rightBrace then
      advance
      return []
    expectWord .letWord
    let first ← clause g inner
    let rest ← clauses inner steps
    return first :: rest

/-- After `@`: one clause, or several in braces. -/
def lambda (steps : Nat) : Parse Expr := do
  if ← sees .leftParen then
    let c ← clause g steps
    return .lambda [c]
  expect .leftBrace
  let cs ← clauses g steps steps
  return .lambda cs

/-- After a backtick: the operator as a function of two arguments. -/
def operatorLambda : Parse Expr := do
  let op ← operator
  return .lambda [⟨[⟨none, none⟩, ⟨none, none⟩], .binary op (.parameter 0) (.parameter 1)⟩]

/-- After `&`: the operator with its right operand given, as a function of the left one. -/
def operatorSection : Parse Expr := do
  let op ← operator
  let operand ← g.operand
  return .lambda [⟨[⟨none, none⟩], .binary op (.parameter 0) operand⟩]

/-- The key of an entry. -/
def key : Parse String := do
  match ← kind with
  | .symbol s => return s
  | .text s => return s
  | _ => unexpected .mapKey

/-- The entries of a map literal up to and including the closing brace, after these keys and values.
A key is put to the others before its value is read. -/
def entries : Nat → List String → List Expr → Parse Expr
  | 0, _, _ => Run.exhaust
  | steps + 1, keys, values => do
    if ← sees .rightBrace then
      advance
      return .map keys values
    let k ← key
    advance
    expect .colon
    let keys := keys ++ [k]
    let value ← g.expression
    let values := values ++ [value]
    if ← sees .comma then
      advance
    else if !(← sees .rightBrace) then
      unexpected (.separator .rightBrace)
    entries steps keys values

/-- The names of a target up to and including the closing bracket, after these names. Nothing may
follow the mark. -/
def itemNames : Nat → List String → Bool → Parse Target
  | 0, _, _ => Run.exhaust
  | steps + 1, names, variadic => do
    if ← sees .rightBracket then
      advance
      return .items names variadic
    if variadic then unexpected .endOfVariadic
    let s ← name
    let names := names ++ [s]
    let dots ← sees .dotDot
    if dots then advance
    let variadic := variadic || dots
    if ← sees .comma then
      advance
    else if !(← sees .rightBracket) then
      unexpected (.separator .rightBracket)
    itemNames steps names variadic

/-- What stands left of `=` in a binding: a name, or names in brackets. -/
def target (steps : Nat) : Parse Target := do
  if ← sees .leftBracket then
    advance
    itemNames steps [] false
  else
    return .name (← name)

/-- `target = value`. -/
def binding (steps : Nat) : Parse Binding := do
  let t ← target steps
  expect .equal
  let value ← g.expression
  return ⟨t, value⟩

/-- After `with`: bindings in parentheses, and the body. -/
def withBlock (steps : Nat) : Parse Expr := do
  expect .leftParen
  let bindings ← separated .rightParen (fun _ => binding g steps) steps []
  expect .equal
  let body ← g.expression
  return .withBlock bindings body

/-- After `(`: the void value, or an expression. -/
def parenthesized : Parse Expr := do
  if ← sees .rightParen then
    advance
    return .literal .void
  let e ← g.expression
  expect .rightParen
  return e

/-- An expression that starts with what it is. -/
def primary (steps : Nat) : Parse Expr := do
  match ← kind with
  | .number n => advance; return .literal (.number n)
  | .text s => advance; return .literal (.text s)
  | .keyword .trueWord => advance; return .literal (.bool true)
  | .keyword .falseWord => advance; return .literal (.bool false)
  | .symbol s => advance; return .free s
  | .mark .leftParen => advance; parenthesized g
  | .mark .leftBracket =>
    advance
    let items ← separated .rightBracket (fun _ => g.expression) steps []
    return .list items
  | .mark .leftBrace =>
    advance
    entries g steps [] []
  | .mark .atSign => advance; lambda g steps
  | .mark .backtick => advance; operatorLambda
  | .mark .ampersand => advance; operatorSection g
  | .keyword .withWord => advance; withBlock g steps
  | .mark .minus =>
    advance
    let operand ← g.operand
    return .unary .negate operand
  | .mark .bang =>
    advance
    let operand ← g.operand
    return .unary .not operand
  | _ => unexpected .expression

/-- Argument lists `(a, b)` and pipes `-> f` after an expression. -/
def suffixes (inner : Nat) : Nat → Expr → Parse Expr
  | 0, _ => Run.exhaust
  | steps + 1, e => do
    match ← kind with
    | .mark .leftParen =>
      advance
      let args ← separated .rightParen (fun _ => g.expression) inner []
      suffixes inner steps (.call e args)
    | .mark .arrow =>
      advance
      let callee ← primary g inner
      suffixes inner steps (.call callee [e])
    | _ => return e

/-- A primary expression and its suffixes. -/
def operandWith (steps : Nat) : Parse Expr := do
  let e ← primary g steps
  suffixes g steps steps e

/-- The operators that follow, each with its operand. -/
def chain : Nat → Parse (List (BinaryOp × Expr))
  | 0 => Run.exhaust
  | steps + 1 => do
    match BinaryOp.ofToken? (← kind) with
    | some op =>
      advance
      let operand ← g.operand
      let rest ← chain steps
      return (op, operand) :: rest
    | none => return []

/-- After `mark`, an expression; otherwise nothing. -/
def optional (m : Mark) : Parse (Option Expr) := do
  if ← sees m then
    advance
    return some (← g.expression)
  return none

/-- Operands joined by operators, and possibly `$ name : filter = map` after them. -/
def expressionWith (steps : Nat) : Parse Expr := do
  let first ← g.operand
  let rest ← chain g steps
  let e := Expr.join first rest
  if ← sees .dollar then
    advance
    let s ← name
    let filter ← optional g .colon
    let map ← optional g .equal
    return .comprehension s e filter map
  return e

end

mutual

/-- An expression, read in at most so many nested steps. -/
def expressionIn : Nat → Parse Expr
  | 0, _ => .exhausted
  | steps + 1, lexer => expressionWith ⟨expressionIn steps, operandIn steps⟩ steps lexer

/-- An operand, read in at most so many nested steps. -/
def operandIn : Nat → Parse Expr
  | 0, _ => .exhausted
  | steps + 1, lexer => operandWith ⟨expressionIn steps, operandIn steps⟩ steps lexer

end

/-- An expression. -/
def expression : Parse Expr := fun lexer => expressionIn (stepsFor lexer) lexer

/-- An expression with nothing after it. -/
def wholeExpression : Parse Expr := do
  let e ← expression
  match ← kind with
  | .eof => return e
  | _ => unexpected .endOfInput

/-- A clause, with steps enough for what the lexer has left. -/
def wholeClause : Parse Clause := fun lexer =>
  let steps := stepsFor lexer
  clause ⟨expressionIn steps, operandIn steps⟩ steps lexer

/-- `let name(parameters) = body`. The name may not be that of a built-in function. -/
def declaration (isNative : String → Bool) : Parse Declaration := do
  expectWord .letWord
  let start ← position
  let s ← name
  if isNative s then
    Run.fail (.found start (.nativeDeclared s))
  let c ← wholeClause
  return ⟨s, c⟩

/-- Declarations as long as there are any. -/
def declarations (isNative : String → Bool) : Nat → Parse (List Declaration)
  | 0 => Run.exhaust
  | steps + 1 => do
    if ← seesWord .letWord then
      let first ← declaration isNative
      let rest ← declarations isNative steps
      return first :: rest
    return []

/-- `use "path"`. -/
def useStatement : Parse Statement := do
  let start ← position
  expectWord .useWord
  let operand ← kind
  advance
  match operand with
  | .text path => return .use path start
  | got => Run.fail (.found start (.noFileName got))

/-- The next statement, or nothing at the end of the source. -/
def statement (isNative : String → Bool) : Parse (Option Statement) := do
  match ← kind with
  | .eof => return none
  | .keyword .useWord => return some (← useStatement)
  | .keyword .letWord =>
    let steps ← Run.read stepsFor
    let group ← declarations isNative steps
    return some (.declarations group)
  | _ => unexpected .statement

end Loose

end Clausal
