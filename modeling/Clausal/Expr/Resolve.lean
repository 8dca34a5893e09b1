import Clausal.Expr

/-!
# Resolving symbols

A symbol is looked up in the scopes around it, innermost first; the latest name of a scope wins.
A name that no scope has stands for a function of the program, if there is one, and is otherwise
left unresolved. Every scope corresponds to one frame at run time: a clause has one for its
parameters, a `with` block one that grows binding by binding, a comprehension one for its name.
-/

namespace Clausal

/-- The names of the scopes around an expression, innermost scope first. -/
abbrev Scopes := List (List String)

namespace Scopes

/-- The last place at which `name` stands in a scope. -/
def lastIndex? (name : String) : List String → Option Nat
  | [] => none
  | n :: ns =>
    match lastIndex? name ns with
    | some i => some (i + 1)
    | none => if n = name then some 0 else none

/-- The index and depth of `name`, where the first scope is `depth` levels up. -/
def locateFrom (name : String) : Nat → Scopes → Option (Nat × Nat)
  | _, [] => none
  | depth, scope :: scopes =>
    match lastIndex? name scope with
    | some index => some (index, depth)
    | none => locateFrom name (depth + 1) scopes

/-- The index and depth of `name`. The empty name is that of slots without one and is never
found. -/
def locate (scopes : Scopes) (name : String) : Option (Nat × Nat) :=
  if name = "" then none else locateFrom name 0 scopes

end Scopes

/-- What `name` stands for inside `scopes`, in a program with the functions `isGlobal`. -/
def Resolution.of (isGlobal : String → Bool) (scopes : Scopes) (name : String) : Resolution :=
  match scopes.locate name with
  | some (index, depth) => .slot index depth
  | none => if isGlobal name then .global else .unresolved

/-- The scope of a `with` block after all its bindings. -/
def Binding.scope (bound : List String) : List Binding → List String
  | [] => bound
  | b :: bs => Binding.scope (bound ++ b.target.names) bs

section

variable (isGlobal : String → Bool)

mutual

/-- Resolve the symbols of an expression that are still unresolved. -/
def Expr.resolve (scopes : Scopes) : Expr → Expr
  | .literal value => .literal value
  | .symbol name .unresolved => .symbol name (.of isGlobal scopes name)
  | .symbol name (.slot index depth) => .symbol name (.slot index depth)
  | .symbol name .global => .symbol name .global
  | .binary op left right => .binary op (left.resolve scopes) (right.resolve scopes)
  | .unary op operand => .unary op (operand.resolve scopes)
  | .call callee args => .call (callee.resolve scopes) (Expr.resolveAll scopes args)
  | .list items => .list (Expr.resolveAll scopes items)
  | .map entries => .map (Entry.resolveAll scopes entries)
  | .comprehension name source filter map =>
    .comprehension name (source.resolve scopes) (Expr.resolveOption ([name] :: scopes) filter)
      (Expr.resolveOption ([name] :: scopes) map)
  | .withBlock bindings body =>
    .withBlock (Binding.resolveAll scopes [] bindings)
      (body.resolve (Binding.scope [] bindings :: scopes))
  | .lambda clauses => .lambda (Clause.resolveAll scopes clauses)

/-- Resolve some expressions in the same scopes. -/
def Expr.resolveAll (scopes : Scopes) : List Expr → List Expr
  | [] => []
  | e :: es => e.resolve scopes :: Expr.resolveAll scopes es

/-- Resolve an expression that may be absent. -/
def Expr.resolveOption (scopes : Scopes) : Option Expr → Option Expr
  | none => none
  | some e => some (e.resolve scopes)

/-- Resolve the values of entries. -/
def Entry.resolveAll (scopes : Scopes) : List Entry → List Entry
  | [] => []
  | ⟨key, value⟩ :: es => ⟨key, value.resolve scopes⟩ :: Entry.resolveAll scopes es

/-- Resolve bindings in order; each sees the names `bound` before it. -/
def Binding.resolveAll (scopes : Scopes) (bound : List String) : List Binding → List Binding
  | [] => []
  | ⟨target, value⟩ :: bs =>
    ⟨target, value.resolve (bound :: scopes)⟩ ::
      Binding.resolveAll scopes (bound ++ target.names) bs

/-- Resolve the guards of parameters. -/
def Param.resolveAll (scopes : Scopes) : List Param → List Param
  | [] => []
  | ⟨name, guard⟩ :: ps => ⟨name, Expr.resolveOption scopes guard⟩ :: Param.resolveAll scopes ps

/-- Resolve the guards and the body of a clause inside the scope of its parameters. -/
def Clause.resolve (scopes : Scopes) : Clause → Clause
  | ⟨params, body⟩ =>
    ⟨Param.resolveAll (Clause.scope params :: scopes) params,
      body.resolve (Clause.scope params :: scopes)⟩

/-- Resolve the clauses of a lambda. -/
def Clause.resolveAll (scopes : Scopes) : List Clause → List Clause
  | [] => []
  | c :: cs => c.resolve scopes :: Clause.resolveAll scopes cs

end

end

end Clausal
