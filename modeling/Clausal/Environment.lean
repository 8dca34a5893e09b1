import Clausal.Expr.Resolve
import Clausal.Program
import Clausal.Value

/-!
# The functions of a program

The table of all functions, built-in and declared, in order of their appearance. A name stands for
the first function that has it. A group of declarations takes effect as a whole: first all names
it declares become known, then all its clauses are resolved, so that they can refer to each other
in any order.
-/

namespace Clausal

/-- An entry of the table. -/
inductive Definition where
  | native (fn : Native)
  | declared (name : String) (clauses : List Clause)

namespace Definition

/-- The name of a function. -/
def name : Definition → String
  | .native fn => fn.name
  | .declared n _ => n

/-- Whether a function is built in. -/
def isNative : Definition → Bool
  | .native _ => true
  | .declared .. => false

/-- The clauses of a declared function. -/
def clauses? : Definition → Option (List Clause)
  | .native _ => none
  | .declared _ cs => some cs

/-- The function value of an entry in this slot. -/
def function (slot : Nat) : Definition → Function
  | .native fn => .native fn slot
  | .declared n _ => .declared n slot

end Definition

/-- The functions of a program. -/
structure Environment where
  definitions : List Definition := []

namespace Environment

/-- No functions at all. -/
def empty : Environment := {}

/-- Put the built-in functions after all others. -/
def withNatives (env : Environment) : Environment :=
  ⟨env.definitions ++ Native.all.map .native⟩

/-- The first function of this name from `slot` on. -/
def findFrom (name : String) : Nat → List Definition → Option Function
  | _, [] => none
  | slot, d :: ds => if d.name = name then some (d.function slot) else findFrom name (slot + 1) ds

/-- The first function of this name. -/
def find? (env : Environment) (name : String) : Option Function :=
  findFrom name 0 env.definitions

/-- Whether there is a function of this name. -/
def contains (env : Environment) (name : String) : Bool := (env.find? name).isSome

/-- Whether this name stands for a built-in function. -/
def isNative (env : Environment) (name : String) : Bool := (env.find? name).any (·.isNative)

/-- The function values of all entries, in order. -/
def functions (env : Environment) : List Function :=
  env.definitions.zipIdx.map fun (d, slot) => d.function slot

/-- The clauses of the function in a slot. -/
def clausesAt (env : Environment) (slot : Nat) : List Clause :=
  ((env.definitions[slot]?).bind (·.clauses?)).getD []

/-- The clauses that a function has in the table: those of a declared one. -/
def clauses? (env : Environment) : Function → Option (List Clause)
  | .declared _ slot => some (env.clausesAt slot)
  | .native .. | .lambda _ => none

/-- Make a name known: a function without clauses, unless there is one of this name. -/
def declare (env : Environment) (name : String) : Environment :=
  if env.contains name then env else ⟨env.definitions ++ [.declared name []]⟩

/-- Add a clause at the end of the first function of this name, if it is a declared one. -/
def addClauseIn (name : String) (clause : Clause) : List Definition → List Definition
  | [] => []
  | d :: ds =>
    if d.name = name then
      match d with
      | .native fn => .native fn :: ds
      | .declared n cs => .declared n (cs ++ [clause]) :: ds
    else d :: addClauseIn name clause ds

/-- Add a clause at the end of the first function of this name, if it is a declared one. -/
def addClause (env : Environment) (name : String) (clause : Clause) : Environment :=
  ⟨addClauseIn name clause env.definitions⟩

/-- Add clauses, already resolved, to the first function of this name, which may not be a built-in
one. -/
def extend (env : Environment) (name : String) : List Clause → Except Cause Environment
  | [] => .ok env
  | c :: cs =>
    if env.isNative name then .error (.nativeExtended name)
    else (env.addClause name c).extend name cs

/-- Resolve an expression that stands outside any function. -/
def resolve (env : Environment) (scopes : Scopes) (e : Expr) : Expr :=
  e.resolve env.contains scopes

/-- Let a group of declarations take effect. -/
def commit (env : Environment) (group : List Declaration) : Environment :=
  let known := group.foldl (fun env d => env.declare d.name) env
  group.foldl (fun env d => env.addClause d.name (d.clause.resolve known.contains [])) known

/-- Keep only the first `count` functions. -/
def truncate (env : Environment) (count : Nat) : Environment := ⟨env.definitions.take count⟩

end Environment

end Clausal
