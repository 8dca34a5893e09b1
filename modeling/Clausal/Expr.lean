import Clausal.Operator

/-!
# Expressions

The trees of the language. A function is a list of clauses, each with parameters, guards on them
and a body; an expression may hold such a list as a lambda. A symbol carries what it was found to
stand for: nothing yet, a slot of a frame, or a function of the program.
-/

namespace Clausal

/-- A value written out in the text. -/
inductive Literal where
  | void
  | number (value : Float)
  | bool (value : Bool)
  | text (value : String)
  deriving Repr

/-- What a symbol stands for. -/
inductive Resolution where
  | unresolved
  /-- Slot `index` of the frame `depth` levels up. -/
  | slot (index depth : Nat)
  /-- A function of the program. -/
  | global
  deriving Repr, DecidableEq

/-- What a binding gives a name to. -/
inductive Target where
  /-- The whole value. -/
  | name (name : String)
  /-- The items of a list in front, and the remaining list if there is a name for it. -/
  | items (front : List String) (rest : Option String)
  deriving Repr, DecidableEq

namespace Target

/-- The names a target binds, in order. -/
def names : Target → List String
  | .name n => [n]
  | .items front rest => front ++ rest.toList

end Target

mutual

/-- An expression. -/
inductive Expr where
  | literal (value : Literal)
  | symbol (name : String) (resolution : Resolution)
  | binary (op : BinaryOp) (left right : Expr)
  | unary (op : UnaryOp) (operand : Expr)
  | call (callee : Expr) (args : List Expr)
  | list (items : List Expr)
  | map (entries : List Entry)
  /-- The items of `source` that pass `filter`, each replaced by what `map` makes of it. -/
  | comprehension (name : String) (source : Expr) (filter map : Option Expr)
  /-- `body` with local bindings, each of which sees those before it. -/
  | withBlock (bindings : List Binding) (body : Expr)
  | lambda (clauses : List Clause)

/-- An entry of a map literal. -/
structure Entry where
  key : String
  value : Expr

/-- A local binding. -/
structure Binding where
  target : Target
  value : Expr

/-- A parameter; one without a name comes from a pattern or from an operator. -/
structure Param where
  name : Option String
  guard : Option Expr

/-- A guarded parameter list and a body. -/
structure Clause where
  params : List Param
  body : Expr

end

instance : Inhabited Expr := ⟨.literal .void⟩

/-- A symbol that has not been looked up. -/
def Expr.free (name : String) : Expr := .symbol name .unresolved

/-- A parameter of the innermost clause, by number. -/
def Expr.parameter (index : Nat) : Expr := .symbol "" (.slot index 0)

/-- The names of the slots of a clause's frame; a slot without a name has the empty one. -/
def Clause.scope (params : List Param) : List String := params.map fun p => p.name.getD ""

/-- The guards of a clause, in order. -/
def Clause.guards (c : Clause) : List Expr := c.params.filterMap (·.guard)

/-! ## Constant expressions -/

mutual

/-- Whether an expression is built from literals by operators, lists and maps alone. -/
def Expr.isConstant : Expr → Bool
  | .literal _ => true
  | .binary _ left right => left.isConstant && right.isConstant
  | .unary _ operand => operand.isConstant
  | .list items => Expr.allConstant items
  | .map entries => Entry.allConstant entries
  | .symbol .. | .call .. | .comprehension .. | .withBlock .. | .lambda .. => false

/-- Whether all of some expressions are constant. -/
def Expr.allConstant : List Expr → Bool
  | [] => true
  | e :: es => e.isConstant && Expr.allConstant es

/-- Whether all of some entries have constant values. -/
def Entry.allConstant : List Entry → Bool
  | [] => true
  | ⟨_, e⟩ :: es => e.isConstant && Entry.allConstant es

end

/-! ## Joining operands -/

namespace Expr

/-- Operands that still wait for what stands right of their operator, the latest first. -/
abbrev Waiting := List (Expr × BinaryOp)

/-- Give the waiting operands whose operator binds at least as tightly as `strength` their right
side, latest first. -/
def settle (strength : Nat) : Waiting → Expr → Waiting × Expr
  | [], e => ([], e)
  | (left, op) :: waiting, e =>
    if strength ≤ op.precedence then settle strength waiting (.binary op left e)
    else ((left, op) :: waiting, e)

/-- Read one more operator and operand. -/
def extend (state : Waiting × Expr) (next : BinaryOp × Expr) : Waiting × Expr :=
  match settle next.1.precedence state.1 state.2 with
  | (waiting, e) => ((e, next.1) :: waiting, next.2)

/-- The tree of operands joined by operators: the tighter operator is the deeper one, and of two
that bind alike the left one. -/
def join (first : Expr) (rest : List (BinaryOp × Expr)) : Expr :=
  let state := rest.foldl extend ([], first)
  (settle 0 state.1 state.2).2

end Expr

end Clausal
