import Clausal.Value

/-!
# Argument checks

Built-in functions state the types of their arguments. The first argument that is missing, that
is too many or that has the wrong type is the one complained about.
-/

namespace Clausal.Arguments

/-- The index of the first argument that does not fit what is wanted. -/
def mismatch? : List Value → List ArgumentType → Option Nat
  | [], [] => none
  | v :: vs, t :: ts => if t.accepts v.type then (mismatch? vs ts).map (· + 1) else some 0
  | _ :: _, [] | [], _ :: _ => some 0

/-- Whether the arguments fit. -/
def fit (args : List Value) (wanted : List ArgumentType) : Bool := (mismatch? args wanted).isNone

/-- Complain on behalf of `function` unless the arguments fit. -/
def check (function : String) (args : List Value) (wanted : List ArgumentType) :
    Except Cause Unit :=
  match mismatch? args wanted with
  | none => .ok ()
  | some i => .error (.badArgument function i wanted[i]?)

end Clausal.Arguments
