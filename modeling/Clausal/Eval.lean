import Clausal.Arguments
import Clausal.Environment
import Clausal.Store
import Clausal.Value.Operators

/-!
# Evaluation

An expression is evaluated in a frame. The only recursion that is not on the expression itself
goes through calling a function, so evaluation takes calling as an argument and is structural;
`Function.invoke` ties the knot on a bound for the number of calls inside calls.

A function is called by the first of its clauses that has as many parameters as there are
arguments and whose guards all hold. When the body ends in a call of the very function being
applied, that call is not nested: the arguments go back to the choice of a clause.
-/

namespace Clausal

/-- How a function value is called. -/
abbrev Invoke (ε κ : Type) := Function → List Value → Run ε (Store κ) Value

section

variable {ε κ : Type} [Catchable ε]

/-- Call any value: a function, or a number as a factor. -/
def Value.call (invoke : Invoke ε κ) (callee : Value) (args : List Value) :
    Run ε (Store κ) Value :=
  match callee with
  | .function f => invoke f args
  | .number n =>
    match args with
    | [.number m] => return .number (n * m)
    | _ => Eval.raise .badFactor
  | v => Eval.raise (.notCallable v.type)

/-! ## Items of a list, one after the other -/

/-- Run `f` on the items of a list from index `i` on, `count` of them, and keep what it gives. -/
def collectFrom (xs : Sequence Value) (f : Value → Run ε (Store κ) (Option Value)) :
    Nat → Nat → List Value → Run ε (Store κ) (List Value)
  | 0, _, kept, store => .ok kept.reverse store
  | count + 1, i, kept, store =>
    match f (Value.item xs i) store with
    | .ok (some v) store => collectFrom xs f count (i + 1) (v :: kept) store
    | .ok none store => collectFrom xs f count (i + 1) kept store
    | .fail e store => .fail e store
    | .exhausted => .exhausted

/-- The list of what `f` gives on the items of a list, in order. -/
def collect (xs : Sequence Value) (f : Value → Run ε (Store κ) (Option Value)) :
    Run ε (Store κ) Value := do
  let kept ← collectFrom xs f xs.size 0 []
  let id ← Eval.fresh
  return .list (.ofList id kept)

end

/-! ## Bindings -/

/-- Put values into the slots of a frame from `slot` on. -/
def fillSlots (frame : Nat) : Nat → List Value → Eval Unit
  | _, [] => return
  | slot, v :: vs => do
    Eval.write frame slot v
    fillSlots frame (slot + 1) vs

/-- The values that a target takes from one value. -/
def Target.values (target : Target) (value : Value) (id : Nat) : Except Cause (List Value) :=
  match target with
  | .name _ => .ok [value]
  | .items front rest =>
    match value with
    | .list xs =>
      let items := (List.range front.length).map (Value.item xs)
      let tail := rest.toList.map fun _ => Value.list (xs.extract id front.length xs.size)
      .ok (items ++ tail)
    | v => .error (.notDestructurable v.type)

/-! ## Expressions -/

section

variable (env : Environment) (invoke : Invoke Cause Closure)

mutual

/-- The value of an expression in a frame. -/
def Expr.eval (frame : Nat) : Expr → Eval Value
  | .literal value => return .ofLiteral value
  | .symbol _ (.slot index depth) => Run.read (·.lookup frame index depth)
  | .symbol name .global =>
    return match env.find? name with
      | some f => .function f
      | none => .void
  | .symbol name .unresolved => Run.fail (.unresolved name)
  | .binary .and left right => do
    let a ← left.eval frame
    if a.truthy then right.eval frame else return a
  | .binary .or left right => do
    let a ← left.eval frame
    if a.truthy then return a else right.eval frame
  | .binary op left right => do
    let a ← left.eval frame
    let b ← right.eval frame
    let id ← Eval.fresh
    Run.ofExcept (op.apply id a b)
  | .unary op operand => do
    let a ← operand.eval frame
    Run.ofExcept (op.apply a)
  | .call callee args => do
    let f ← callee.eval frame
    let values ← Expr.evalAll frame args
    f.call invoke values
  | .list items => do
    let values ← Expr.evalAll frame items
    let id ← Eval.fresh
    return .list (.ofList id values)
  | .map entries => do
    let content ← Entry.evalAll frame .empty entries
    let id ← Eval.fresh
    return .map ⟨id, content⟩
  | .comprehension _ source filter map => do
    match ← source.eval frame with
    | .list xs =>
      -- one frame for all items: what a lambda made inside sees changes with the item
      let inner ← Eval.push #[.void] (some frame)
      collect xs fun x => do
        Eval.write inner 0 x
        if ← Expr.evalFilter inner filter then
          return some (← Expr.evalMap inner x map)
        return none
    | v => Run.fail (.notIterable v.type)
  | .withBlock bindings body => do
    let inner ← Eval.push (Array.replicate (Binding.scope [] bindings).length .void) (some frame)
    Binding.evalAll inner 0 bindings
    body.eval inner
  | .lambda clauses => Eval.close ⟨clauses, frame⟩

/-- The values of some expressions, from left to right. -/
def Expr.evalAll (frame : Nat) : List Expr → Eval (List Value)
  | [] => return []
  | e :: es => do
    let v ← e.eval frame
    let vs ← Expr.evalAll frame es
    return v :: vs

/-- Whether the item in the frame passes a filter; without one every item does. -/
def Expr.evalFilter (frame : Nat) : Option Expr → Eval Bool
  | none => return true
  | some e => do
    let v ← e.eval frame
    return v.truthy

/-- What becomes of the item `x` in the frame; by itself it stays. -/
def Expr.evalMap (frame : Nat) (x : Value) : Option Expr → Eval Value
  | none => return x
  | some e => e.eval frame

/-- The entries of a map literal, written one after the other. -/
def Entry.evalAll (frame : Nat) (written : Dict Value) : List Entry → Eval (Dict Value)
  | [] => return written
  | ⟨key, value⟩ :: es => do
    let v ← value.eval frame
    Entry.evalAll frame (written.insert (keyHash key) v) es

/-- Evaluate bindings in the frame they fill, from `slot` on. -/
def Binding.evalAll (frame slot : Nat) : List Binding → Eval Unit
  | [] => return
  | ⟨target, value⟩ :: bs => do
    let v ← value.eval frame
    let id ← Eval.fresh
    let vs ← Run.ofExcept (target.values v id)
    fillSlots frame slot vs
    Binding.evalAll frame (slot + target.names.length) bs

end

/-! ## The end of a body -/

/-- How a body ends: in a value, or in a call of the function whose body it is. -/
inductive Flow where
  | value (v : Value)
  | again (args : List Value)

/-- Evaluate the body of `current`. A call of `current` that would be the last thing to do is left
to the caller. -/
def Expr.evalTail (current : Function) (frame : Nat) : Expr → Eval Flow
  | .call callee args => do
    let f ← callee.eval env invoke frame
    let values ← Expr.evalAll env invoke frame args
    match f with
    | .function g =>
      if g = current then return .again values
      return .value (← invoke g values)
    | v => return .value (← v.call invoke values)
  | .binary .and left right => do
    let a ← left.eval env invoke frame
    if a.truthy then right.evalTail current frame else return .value a
  | .binary .or left right => do
    let a ← left.eval env invoke frame
    if a.truthy then return .value a else right.evalTail current frame
  | .withBlock bindings body => do
    let inner ← Eval.push (Array.replicate (Binding.scope [] bindings).length .void) (some frame)
    Binding.evalAll env invoke inner 0 bindings
    body.evalTail current inner
  | e => do
    let v ← e.eval env invoke frame
    return .value v

/-! ## The choice of a clause -/

/-- Whether all guards hold in a frame; none after the first that does not is evaluated. -/
def guardsHold (frame : Nat) : List Expr → Eval Bool
  | [] => return true
  | g :: gs => do
    let v ← g.eval env invoke frame
    if v.truthy then guardsHold frame gs else return false

/-- The first clause of `arity` parameters whose guards hold in a frame. -/
def select (frame arity : Nat) : List Clause → Eval (Option Clause)
  | [] => return none
  | c :: cs => do
    if c.params.length = arity then
      if ← guardsHold env invoke frame c.guards then
        return some c
    select frame arity cs

/-- The clauses of a function and the frame around them; a built-in function has none. -/
def Function.code (store : Store Closure) : Function → List Clause × Option Nat
  | .native .. => ([], none)
  | .declared _ slot => (env.clausesAt slot, none)
  | .lambda id =>
    match store.closures[id]? with
    | some closure => (closure.clauses, some closure.frame)
    | none => ([], none)

/-- Apply a function by its clauses, in at most so many rounds. -/
def applyClauses (f : Function) : Nat → List Value → Eval Value
  | 0, _, _ => .exhausted
  | rounds + 1, args, store =>
    match f.code env store with
    | (clauses, captured) =>
      match store.push args.toArray captured with
      | (frame, store) =>
        match select env invoke frame args.length clauses store with
        | .ok (some c) store =>
          match c.body.evalTail env invoke f frame store with
          | .ok (.value v) store => .ok v store
          | .ok (.again args) store => applyClauses f rounds args store
          | .fail e store => .fail e store
          | .exhausted => .exhausted
        | .ok none store => .fail (.noOverload f.name?) store
        | .fail e store => .fail e store
        | .exhausted => .exhausted

end

/-! ## Built-in functions -/

section

variable {ε κ : Type} [Catchable ε] (invoke : Invoke ε κ)

/-- Fold a function over values from the left. -/
def foldValues (f : Function) : Value → List Value → Run ε (Store κ) Value
  | acc, [] => return acc
  | acc, x :: xs => do
    let next ← invoke f [acc, x]
    foldValues f next xs

namespace Native

/-- The types of the arguments of a built-in function; `print` takes any. -/
def signature : Native → List ArgumentType
  | .sqrt | .log | .sin | .cos | .tan | .floor => [.exactly .number]
  | .foldl => [.exactly .function, .any, .exactly .list]
  | .map | .filter => [.exactly .function, .exactly .list]
  | .len => [.exactly .list]
  | .str | .die => [.any]
  | .print => []
  | .catch => [.exactly .function, .exactly .function]

/-- Complain unless the arguments fit the signature. -/
def check (fn : Native) (args : List Value) : Run ε (Store κ) Unit :=
  Eval.ofExcept (Arguments.check fn.name args fn.signature)

/-- A function of one number. -/
def numeric (fn : Native) (f : Float → Float) (args : List Value) : Run ε (Store κ) Value := do
  fn.check args
  match args with
  | [.number n] => return .number (f n)
  | _ => return .void

/-- Call a built-in function. -/
def run (fn : Native) (args : List Value) : Run ε (Store κ) Value :=
  match fn with
  | .sqrt => fn.numeric Float.sqrt args
  | .log => fn.numeric Float.log args
  | .sin => fn.numeric Float.sin args
  | .cos => fn.numeric Float.cos args
  | .tan => fn.numeric Float.tan args
  | .floor => fn.numeric Float.floor args
  | .foldl =>
    match args with
    | [.function f, z, .text s] => foldValues invoke f z (Value.characters s)
    | args => do
      fn.check args
      match args with
      | [.function f, z, .list xs] => foldValues invoke f z xs.items
      | _ => return .void
  | .map => do
    fn.check args
    match args with
    | [.function f, .list xs] => collect xs fun x => do
      return some (← invoke f [x])
    | _ => return .void
  | .filter => do
    fn.check args
    match args with
    | [.function f, .list xs] => collect xs fun x => do
      let keep ← invoke f [x]
      return if keep.truthy then some x else none
    | _ => return .void
  | .len =>
    match args with
    | [.list xs] => return .number (Float.ofNat xs.size)
    | [.text s] => return .number (Float.ofNat s.length)
    | [.map t] => return .number (Float.ofNat t.content.size)
    | args => do
      fn.check args
      return .void
  | .str => do
    fn.check args
    match args with
    | [v] => return .text v.display
    | _ => return .void
  | .print => do
    Run.modify (·.printLine (" ".intercalate (args.map Value.display)))
    return args.getLast?.getD .void
  | .die => do
    fn.check args
    match args with
    | [v] => Eval.raise (.died v.display)
    | _ => return .void
  | .catch => do
    fn.check args
    match args with
    | [.function body, .function handler] =>
      Eval.catching (invoke body []) fun cause => invoke handler [.text cause.message]
    | _ => return .void

end Native

end

/-- Call a function with at most `depth` calls inside calls, and as many rounds of each. -/
def Function.invoke (env : Environment) : Nat → Invoke Cause Closure
  | 0, _, _, _ => .exhausted
  | depth + 1, f, args, store =>
    match f with
    | .native fn _ => fn.run (Function.invoke env depth) args store
    | .declared .. | .lambda _ => applyClauses env (Function.invoke env depth) f depth args store

/-- More calls inside calls than any machine can make: `2^40`. -/
def callDepth : Nat := 1099511627776

/-- The value of a resolved expression outside any function, in a frame of its own, with at most
`depth` calls inside calls. -/
def Environment.evaluateIn (env : Environment) (depth : Nat) (e : Expr) : Eval Value := do
  let root ← Eval.push #[] none
  e.eval env (Function.invoke env depth) root

/-- The value of a resolved expression outside any function. -/
def Environment.evaluate (env : Environment) (e : Expr) : Eval Value := env.evaluateIn callDepth e

/-- Call a function of a program. -/
def Environment.invoke (env : Environment) (f : Function) (args : List Value) : Eval Value :=
  Function.invoke env callDepth f args

end Clausal
