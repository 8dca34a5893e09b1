import Clausal.Outcome
import Clausal.Value

/-!
# The store of an evaluation

Frames hold the values of parameters and local names and know the frame around them. A frame is
shared by everything made inside it, so frames live in a store and are referred to by number; they
are never removed. The same goes for closures, which are what a lambda is made of. The store also
hands out identities and collects what is printed.

A store does not look into its closures, so it is a store of any type of them. Likewise the
built-in functions work with any type of errors that has the causes among it.
-/

namespace Clausal

/-- Slots for values, and the frame around them. -/
structure Frame where
  slots : Array Value
  parent : Option Nat

/-- What a lambda is made of: clauses that see the frame in which it was made. -/
structure Closure where
  clauses : List Clause
  frame : Nat

/-- All frames, all closures of the type `κ`, the next unused identity, and the printed text. -/
structure Store (κ : Type) where
  frames : Array Frame := #[]
  closures : Array κ := #[]
  /-- The next unused identity; the empty list has the first one. -/
  nextId : Nat := 1
  printed : String := ""

namespace Store

variable {κ : Type}

instance : Inhabited (Store κ) := ⟨{}⟩

/-- The frame `depth` levels up from a frame. -/
def ancestor (store : Store κ) : Nat → Nat → Option Nat
  | 0, frame => some frame
  | depth + 1, frame =>
    match store.frames[frame]? with
    | some ⟨_, some parent⟩ => store.ancestor depth parent
    | _ => none

/-- The value in a slot of the frame `depth` levels up, if there is such a slot. -/
def slot? (store : Store κ) (frame index depth : Nat) : Option Value := do
  let up ← store.ancestor depth frame
  let found ← store.frames[up]?
  found.slots[index]?

/-- The value in a slot of the frame `depth` levels up; void if there is none. -/
def lookup (store : Store κ) (frame index depth : Nat) : Value :=
  (store.slot? frame index depth).getD .void

/-- Add a frame. -/
def push (store : Store κ) (slots : Array Value) (parent : Option Nat) : Nat × Store κ :=
  (store.frames.size, { store with frames := store.frames.push ⟨slots, parent⟩ })

/-- Add a closure. -/
def close (store : Store κ) (closure : κ) : Nat × Store κ :=
  (store.closures.size, { store with closures := store.closures.push closure })

/-- Write a slot of a frame, if it has that slot. -/
def write (store : Store κ) (frame index : Nat) (value : Value) : Store κ :=
  { store with
    frames := store.frames.modify frame fun f =>
      { f with slots := f.slots.setIfInBounds index value } }

theorem frames_push (store : Store κ) (slots : Array Value) (parent : Option Nat) :
    (store.push slots parent).2.frames = store.frames.push ⟨slots, parent⟩ := rfl

theorem frames_write (store : Store κ) (frame index : Nat) (v : Value) :
    (store.write frame index v).frames =
      store.frames.modify frame fun f => { f with slots := f.slots.setIfInBounds index v } := rfl

/-- Hand out an identity. -/
def fresh (store : Store κ) : Nat × Store κ :=
  (store.nextId, { store with nextId := store.nextId + 1 })

/-- Print a line. -/
def printLine (store : Store κ) (line : String) : Store κ :=
  { store with printed := (store.printed ++ line).push '\n' }

end Store

/-- A type of errors that has the causes among it; only these can be caught by a program. -/
class Catchable (ε : Type) where
  ofCause : Cause → ε
  cause? : ε → Option Cause

instance : Catchable Cause := ⟨id, some⟩

/-- A computation over a store, which fails with a cause. -/
abbrev Eval := Run Cause (Store Closure)

namespace Eval

variable {ε κ α : Type}

/-- Add a frame and name it. -/
@[inline]
def push (slots : Array Value) (parent : Option Nat) : Run ε (Store κ) Nat :=
  Run.modifyGet fun store => store.push slots parent

/-- Add a closure and give the lambda made of it. -/
@[inline]
def close (closure : κ) : Run ε (Store κ) Value :=
  Run.modifyGet fun store =>
    match store.close closure with
    | (id, store) => (.function (.lambda id), store)

/-- Write a slot of a frame. -/
@[inline]
def write (frame index : Nat) (value : Value) : Run ε (Store κ) Unit :=
  Run.modify fun store => store.write frame index value

/-- An unused identity. -/
@[inline]
def fresh : Run ε (Store κ) Nat := Run.modifyGet Store.fresh

/-- Fail with a cause. -/
@[inline]
def raise [Catchable ε] (cause : Cause) : Run ε (Store κ) α := Run.fail (Catchable.ofCause cause)

/-- Lift a result that does not touch the store. -/
@[inline]
def ofExcept [Catchable ε] : Except Cause α → Run ε (Store κ) α
  | .ok a => Run.pure a
  | .error cause => raise cause

/-- Run `x`; if it fails with a cause, go on with `handler`. -/
@[inline]
def catching [Catchable ε] (x : Run ε (Store κ) α) (handler : Cause → Run ε (Store κ) α) :
    Run ε (Store κ) α :=
  x.recover fun e =>
    match Catchable.cause? e with
    | some cause => handler cause
    | none => Run.fail e

end Eval

end Clausal
