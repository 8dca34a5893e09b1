import Clausal.Rope

/-!
# Sequences

Ropes with an identity. Making a sequence gives it a new identity, except where the result is one
of the operands or is empty: all empty sequences are one.
-/

namespace Clausal

/-- A rope with an identity. -/
structure Sequence (α : Type) where
  id : Nat
  content : Rope α
  deriving Repr

namespace Sequence

variable {α : Type}

/-- The identity of the empty sequence. -/
def emptyId : Nat := 0

/-- The one empty sequence. -/
def empty : Sequence α := ⟨emptyId, .empty⟩

/-- The number of items. -/
def size (xs : Sequence α) : Nat := xs.content.size

/-- Whether there are no items. -/
def isEmpty (xs : Sequence α) : Bool := xs.content.isEmpty

/-- The item at an index. -/
def get? (xs : Sequence α) (i : Nat) : Option α := xs.content.get? i

/-- The items in order. -/
def items (xs : Sequence α) : List α := xs.content.items

/-- A stored sequence of the identity `id`, unless it is empty. -/
def ofList (id : Nat) (items : List α) : Sequence α :=
  if items.isEmpty then empty else ⟨id, .leaf items.toArray⟩

/-- One sequence and then another; it is a new one of the identity `id` unless an operand is
empty. -/
def append (id : Nat) (a b : Sequence α) : Sequence α :=
  if a.isEmpty then b
  else if b.isEmpty then a
  else ⟨id, a.content.append b.content⟩

/-- The items from `start` up to `stop`, both cut to the size; they are a new sequence of the
identity `id` unless they are the whole or none. -/
def extract (id : Nat) (xs : Sequence α) (start stop : Nat) : Sequence α :=
  let stop := min stop xs.size
  let start := min start stop
  if start = 0 ∧ stop = xs.size then xs
  else if start = stop then empty
  else ⟨id, xs.content.extract start stop⟩

theorem sizeOf_lt_of_get? [SizeOf α] {xs : Sequence α} {i : Nat} {x : α}
    (h : xs.get? i = some x) : sizeOf x < sizeOf xs := by
  have := Rope.sizeOf_lt_of_get? h
  obtain ⟨id, content⟩ := xs
  simp only [Sequence.mk.sizeOf_spec] at *
  omega

theorem sizeOf_lt_of_mem_items [SizeOf α] {xs : Sequence α} {x : α} (h : x ∈ xs.items) :
    sizeOf x < sizeOf xs := by
  have := Rope.sizeOf_lt_of_mem_items h
  obtain ⟨id, content⟩ := xs
  simp only [Sequence.mk.sizeOf_spec] at *
  omega

end Sequence

end Clausal
