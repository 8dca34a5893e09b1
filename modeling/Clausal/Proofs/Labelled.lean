import Clausal.Eval

/-!
# Evaluation by name

The same evaluation for trees whose symbols have not been resolved. Every frame is carried
together with the names that can be seen in it at this point of the text (`Label`): the parameters
of a clause, the names of a `with` block bound so far, the one name of a comprehension. A lambda
captures its frame and the label there. A symbol is looked for in the innermost frame first, where
the latest slot of that name counts, and then further out; after that among the functions known
where it stands; and it fails if there is none. The slots that patterns and operators refer to by
number are read as they are.

The evaluation is also a checked one. It stops, and no program can go on from there, when a name
or a number refers to a slot that its frame does not have, when a slot is to be written that does
not exist, and when a lambda is made in a frame that has fewer levels or fewer slots than its
label has names (`Stop.missing`).
-/

namespace Clausal

/-- How a checked evaluation stops short of a value. -/
inductive Stop where
  /-- With an error of the program. -/
  | cause (c : Cause)
  /-- Because a slot that is referred to is not there. -/
  | missing

instance : Catchable Stop where
  ofCause := .cause
  cause?
    | .cause c => some c
    | .missing => none

/-- What can be referred to by name: the names of the slots in the frames around, innermost frame
first, and the functions known. -/
structure Label where
  scopes : Scopes
  known : String → Bool

/-- The label inside one more frame. -/
def Label.enter (label : Label) (names : List String) : Label :=
  { label with scopes := names :: label.scopes }

/-- Clauses with the frame in which they were made and the label of the place. -/
structure Capture where
  clauses : List Clause
  frame : Nat
  label : Label

/-- A clause with the label of the place around it. -/
structure Rule where
  clause : Clause
  label : Label

/-- The label of the guards and the body of a clause. -/
def Rule.inside (r : Rule) : Label := r.label.enter (Clause.scope r.clause.params)

/-- A computation over a store of labelled lambdas. -/
abbrev Checked := Run Stop (Store Capture)

/-! ## Slots and names -/

namespace Store

variable {κ : Type}

/-- Whether a frame and those around it have at least as many levels, and level by level at least
as many slots, as there are names. -/
def fits (store : Store κ) : Scopes → Option Nat → Bool
  | [], _ => true
  | _ :: _, none => false
  | names :: scopes, some frame =>
    match store.frames[frame]? with
    | some ⟨slots, parent⟩ => names.length ≤ slots.size && store.fits scopes parent
    | none => false

/-- The value of the latest slot of a name in the innermost frame that has one. -/
def named? (store : Store κ) (name : String) : Scopes → Option Nat → Option Value
  | names :: scopes, some frame =>
    match store.frames[frame]? with
    | some ⟨slots, parent⟩ =>
      ((names.zip slots.toList).reverse.lookup name).or (store.named? name scopes parent)
    | none => none
  | _, _ => none

end Store

namespace Checked

/-- The value in a slot of the frame `depth` levels up. -/
def readSlot (frame index depth : Nat) : Checked Value := fun store =>
  match store.slot? frame index depth with
  | some v => .ok v store
  | none => .fail .missing store

/-- Write a slot of a frame. -/
def writeSlot (frame index : Nat) (value : Value) : Checked Unit := fun store =>
  match store.slot? frame index 0 with
  | some _ => .ok () (store.write frame index value)
  | none => .fail .missing store

/-- The value of a local name. The empty name is that of slots without one, so nothing has it. -/
def readName? (label : Label) (frame : Nat) (name : String) : Checked (Option Value) := fun store =>
  if store.fits label.scopes (some frame) then
    .ok (if name = "" then none else store.named? name label.scopes (some frame)) store
  else .fail .missing store

/-- Make a lambda. -/
def capture (label : Label) (frame : Nat) (clauses : List Clause) : Checked Value := fun store =>
  if store.fits label.scopes (some frame) then Eval.close ⟨clauses, frame, label⟩ store
  else .fail .missing store

/-- Put values into the slots of a frame from `slot` on. -/
def fillSlots (frame : Nat) : Nat → List Value → Checked Unit
  | _, [] => return
  | slot, v :: vs => do
    writeSlot frame slot v
    fillSlots frame (slot + 1) vs

end Checked

/-! ## Programs with labels -/

namespace Labelled

/-- An entry of the table. -/
inductive Definition where
  | native (fn : Native)
  | declared (name : String) (rules : List Rule)

namespace Definition

/-- The name of a function. -/
def name : Definition → String
  | .native fn => fn.name
  | .declared n _ => n

/-- The function value of an entry in this slot. -/
def function (slot : Nat) : Definition → Function
  | .native fn => .native fn slot
  | .declared n _ => .declared n slot

/-- The clauses of a declared function. -/
def rules : Definition → List Rule
  | .native _ => []
  | .declared _ rs => rs

end Definition

/-- The functions of a program. -/
structure Program where
  definitions : List Definition

namespace Program

/-- The first function of this name from `slot` on. -/
def findFrom (name : String) : Nat → List Definition → Option Function
  | _, [] => none
  | slot, d :: ds => if d.name = name then some (d.function slot) else findFrom name (slot + 1) ds

/-- The first function of this name. -/
def find? (p : Program) (name : String) : Option Function := findFrom name 0 p.definitions

/-- Whether there is a function of this name. -/
def contains (p : Program) (name : String) : Bool := (p.find? name).isSome

/-- The function of a name as a value. -/
def value (p : Program) (name : String) : Value :=
  match p.find? name with
  | some f => .function f
  | none => .void

/-- The clauses of the function in a slot. -/
def rulesAt (p : Program) (slot : Nat) : List Rule :=
  ((p.definitions[slot]?).map (·.rules)).getD []

/-- Make a name known: a function without clauses, unless there is one of this name. -/
def declare (p : Program) (name : String) : Program :=
  if p.contains name then p else ⟨p.definitions ++ [.declared name []]⟩

/-- Add a clause at the end of the first function of this name, if it is a declared one. -/
def addRuleIn (name : String) (rule : Rule) : List Definition → List Definition
  | [] => []
  | d :: ds =>
    if d.name = name then
      match d with
      | .native fn => .native fn :: ds
      | .declared n rs => .declared n (rs ++ [rule]) :: ds
    else d :: addRuleIn name rule ds

/-- Add a clause at the end of the first function of this name, if it is a declared one. -/
def addRule (p : Program) (name : String) (rule : Rule) : Program :=
  ⟨addRuleIn name rule p.definitions⟩

/-- Let a group of declarations take effect. The clauses stay as they were read; they know the
functions of the program after the whole group. -/
def commit (p : Program) (group : List Declaration) : Program :=
  let known := group.foldl (fun p d => p.declare d.name) p
  group.foldl (fun p d => p.addRule d.name ⟨d.clause, ⟨[], known.contains⟩⟩) known

end Program

end Labelled

/-! ## Expressions -/

namespace Checked

section

variable (p : Labelled.Program) (invoke : Invoke Stop Capture)

/-- The value of a name. -/
def readName (label : Label) (frame : Nat) (name : String) : Checked Value := do
  match ← readName? label frame name with
  | some v => return v
  | none => if label.known name then return p.value name else Eval.raise (.unresolved name)

mutual

/-- The value of an expression in a frame with this label. -/
def eval (label : Label) (frame : Nat) : Expr → Checked Value
  | .literal value => return .ofLiteral value
  | .symbol _ (.slot index depth) => readSlot frame index depth
  | .symbol name .global => return p.value name
  | .symbol name .unresolved => readName p label frame name
  | .binary op left right =>
    match op with
    | .and => do
      let a ← eval label frame left
      if a.truthy then eval label frame right else return a
    | .or => do
      let a ← eval label frame left
      if a.truthy then return a else eval label frame right
    | op => do
      let a ← eval label frame left
      let b ← eval label frame right
      let id ← Eval.fresh
      Eval.ofExcept (op.apply id a b)
  | .unary op operand => do
    let a ← eval label frame operand
    Eval.ofExcept (op.apply a)
  | .call callee args => do
    let f ← eval label frame callee
    let values ← evalAll label frame args
    f.call invoke values
  | .list items => do
    let values ← evalAll label frame items
    let id ← Eval.fresh
    return .list (.ofList id values)
  | .map entries => do
    let content ← evalEntries label frame .empty entries
    let id ← Eval.fresh
    return .map ⟨id, content⟩
  | .comprehension name source filter map => do
    match ← eval label frame source with
    | .list xs =>
      let inner ← Eval.push #[.void] (some frame)
      collect xs fun x => do
        writeSlot inner 0 x
        if ← evalFilter (label.enter [name]) inner filter then
          return some (← evalMap (label.enter [name]) inner x map)
        return none
    | v => Eval.raise (.notIterable v.type)
  | .withBlock bindings body => do
    let inner ← Eval.push (Array.replicate (Binding.scope [] bindings).length .void) (some frame)
    evalBindings label [] inner 0 bindings
    eval (label.enter (Binding.scope [] bindings)) inner body
  | .lambda clauses => capture label frame clauses

/-- The values of some expressions, from left to right. -/
def evalAll (label : Label) (frame : Nat) : List Expr → Checked (List Value)
  | [] => return []
  | e :: es => do
    let v ← eval label frame e
    let vs ← evalAll label frame es
    return v :: vs

/-- Whether the item in the frame passes a filter; without one every item does. -/
def evalFilter (label : Label) (frame : Nat) : Option Expr → Checked Bool
  | none => return true
  | some e => do
    let v ← eval label frame e
    return v.truthy

/-- What becomes of the item `x` in the frame; by itself it stays. -/
def evalMap (label : Label) (frame : Nat) (x : Value) : Option Expr → Checked Value
  | none => return x
  | some e => eval label frame e

/-- The entries of a map literal, written one after the other. -/
def evalEntries (label : Label) (frame : Nat) (written : Dict Value) :
    List Entry → Checked (Dict Value)
  | [] => return written
  | ⟨key, value⟩ :: es => do
    let v ← eval label frame value
    evalEntries label frame (written.insert (keyHash key) v) es

/-- Evaluate bindings in the frame they fill, from `slot` on; each sees the names `bound` before
it. -/
def evalBindings (label : Label) (bound : List String) (frame slot : Nat) :
    List Binding → Checked Unit
  | [] => return
  | ⟨target, value⟩ :: bs => do
    let v ← eval (label.enter bound) frame value
    let id ← Eval.fresh
    let vs ← Eval.ofExcept (target.values v id)
    fillSlots frame slot vs
    evalBindings label (bound ++ target.names) frame (slot + target.names.length) bs

end

/-! ## Functions -/

/-- Evaluate the body of `current` up to a last call of `current`. -/
def evalTail (current : Function) (label : Label) (frame : Nat) : Expr → Checked Flow
  | .call callee args => do
    let f ← eval p invoke label frame callee
    let values ← evalAll p invoke label frame args
    match f with
    | .function g =>
      if g = current then return .again values
      return .value (← invoke g values)
    | v => return .value (← v.call invoke values)
  | .binary .and left right => do
    let a ← eval p invoke label frame left
    if a.truthy then evalTail current label frame right else return .value a
  | .binary .or left right => do
    let a ← eval p invoke label frame left
    if a.truthy then return .value a else evalTail current label frame right
  | .withBlock bindings body => do
    let inner ← Eval.push (Array.replicate (Binding.scope [] bindings).length .void) (some frame)
    evalBindings p invoke label [] inner 0 bindings
    evalTail current (label.enter (Binding.scope [] bindings)) inner body
  | e => do
    let v ← eval p invoke label frame e
    return .value v

/-- Whether all guards hold in a frame. -/
def guardsHold (label : Label) (frame : Nat) : List Expr → Checked Bool
  | [] => return true
  | g :: gs => do
    let v ← eval p invoke label frame g
    if v.truthy then guardsHold label frame gs else return false

/-- The first clause of `arity` parameters whose guards hold in a frame. -/
def select (frame arity : Nat) : List Rule → Checked (Option Rule)
  | [] => return none
  | r :: rs => do
    if r.clause.params.length = arity then
      if ← guardsHold p invoke r.inside frame r.clause.guards then
        return some r
    select frame arity rs

/-- The clauses of a function and the frame around them. -/
def rules (store : Store Capture) : Function → List Rule × Option Nat
  | .native .. => ([], none)
  | .declared _ slot => (p.rulesAt slot, none)
  | .lambda id =>
    match store.closures[id]? with
    | some c => (c.clauses.map fun clause => ⟨clause, c.label⟩, some c.frame)
    | none => ([], none)

/-- One round: a frame for the arguments, the choice of a clause, and the end of its body. -/
def applyOnce (f : Function) (args : List Value) : Checked Flow := do
  let (rs, captured) ← Run.read fun store => rules p store f
  let frame ← Eval.push args.toArray captured
  match ← select p invoke frame args.length rs with
  | some r => evalTail p invoke f r.inside frame r.clause.body
  | none => Eval.raise (.noOverload f.name?)

/-- Apply a function by its clauses, in at most so many rounds. -/
def applyClauses (f : Function) : Nat → List Value → Checked Value
  | 0, _ => Run.exhaust
  | rounds + 1, args => do
    match ← applyOnce p invoke f args with
    | .value v => return v
    | .again args => applyClauses f rounds args

end

/-- Call a function with at most `depth` calls inside calls, and as many rounds of each. -/
def invoke (p : Labelled.Program) : Nat → Invoke Stop Capture
  | 0, _, _ => Run.exhaust
  | depth + 1, f, args =>
    match f with
    | .native fn _ => fn.run (invoke p depth) args
    | .declared .. | .lambda _ => applyClauses p (invoke p depth) f depth args

/-- The value of an expression outside any function, which knows all functions of the program. -/
def evaluateIn (p : Labelled.Program) (depth : Nat) (e : Expr) : Checked Value := do
  let root ← Eval.push #[] none
  eval p (invoke p depth) ⟨[], p.contains⟩ root e

end Checked

/-! ## Resolving

What a labelled program, store or outcome is once the symbols have been looked up under their
labels and the labels are gone. -/

/-- A clause resolved under its label. -/
def Rule.resolve (r : Rule) : Clause := r.clause.resolve r.label.known r.label.scopes

/-- The clauses of a lambda resolved under its label. -/
def Capture.resolve (c : Capture) : Closure :=
  ⟨Clause.resolveAll c.label.known c.label.scopes c.clauses, c.frame⟩

namespace Labelled

/-- An entry with its clauses resolved. -/
def Definition.resolve : Definition → Clausal.Definition
  | .native fn => .native fn
  | .declared name rules => .declared name (rules.map Rule.resolve)

/-- A program with all its clauses resolved. -/
def Program.resolve (p : Program) : Environment := ⟨p.definitions.map Definition.resolve⟩

end Labelled

/-- A store with the clauses of all lambdas resolved; nothing else changes. -/
def Store.resolve (s : Store Capture) : Store Closure where
  frames := s.frames
  closures := s.closures.map Capture.resolve
  nextId := s.nextId
  printed := s.printed

/-- The outcome of an evaluation of resolved trees, unless a slot was missing. -/
def Outcome.resolve? {α : Type} :
    Outcome Stop (Store Capture) α → Option (Outcome Cause (Store Closure) α)
  | .ok a s => some (.ok a s.resolve)
  | .fail (.cause c) s => some (.fail c s.resolve)
  | .fail .missing _ => none
  | .exhausted => some .exhausted

/-- The state that a run reached, unless it was cut short. -/
def Outcome.state? {ε σ α : Type} : Outcome ε σ α → Option σ
  | .ok _ s => some s
  | .fail _ s => some s
  | .exhausted => none

/-- The value that a run ended in. -/
def Outcome.value? {ε σ α : Type} : Outcome ε σ α → Option α
  | .ok a _ => some a
  | .fail .. | .exhausted => none

theorem Outcome.value?_eq_some {ε σ α : Type} {o : Outcome ε σ α} {a : α} :
    o.value? = some a ↔ ∃ s, o = .ok a s := by
  cases o <;> simp [Outcome.value?]

/-- The error that a run failed with. -/
def Outcome.error? {ε σ α : Type} : Outcome ε σ α → Option ε
  | .fail e _ => some e
  | .ok .. | .exhausted => none

theorem Outcome.error?_eq_some {ε σ α : Type} {o : Outcome ε σ α} {e : ε} :
    o.error? = some e ↔ ∃ s, o = .fail e s := by
  cases o <;> simp [Outcome.error?]

/-- Whether a run ended in a value and a state that pass the test. -/
def Outcome.passes {ε σ α : Type} (test : α → σ → Bool) : Outcome ε σ α → Bool
  | .ok a s => test a s
  | .fail .. | .exhausted => false

theorem Outcome.exists_of_passes {ε σ α : Type} {o : Outcome ε σ α} {test : α → σ → Bool}
    (h : o.passes test = true) : ∃ a s, o = .ok a s ∧ test a s = true := by
  cases o with
  | ok a s => exact ⟨a, s, rfl, h⟩
  | fail | exhausted => cases h

end Clausal
