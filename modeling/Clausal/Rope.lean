/-!
# Ropes

Immutable sequences in which concatenating and slicing long sequences costs one node. A result of
at most eight items is copied into a plain array; a longer one refers to what it was made from.
Sizes are words of 64 bits.

* `Rope.get?` finds an item by walking down from the root.
* `Rope.items` is the sequence a rope stands for: its items in order of their index.
* `Rope.sizeOf_lt_of_get?`: an item is structurally smaller than its rope, which is what makes
  recursion through the items of a value well founded.
-/

namespace Clausal

/-- A sequence: stored, the concatenation of two, or a stretch of another. -/
inductive Rope (α : Type) where
  | leaf (items : Array α)
  /-- `head` and then `tail`, of `size` items in all. -/
  | cat (head tail : Rope α) (size : Nat)
  /-- The items of `base` from `start` up to `stop`. -/
  | slice (base : Rope α) (start stop : Nat)
  deriving Repr

namespace Rope

variable {α : Type}

/-- Results of at most this size are copied. -/
def copied : Nat := 8

/-- `2^64`: sizes are kept modulo this. -/
def wordSize : Nat := 18446744073709551616

/-- The empty sequence. -/
def empty : Rope α := .leaf #[]

/-- The number of items. -/
def size : Rope α → Nat
  | .leaf items => items.size
  | .cat _ _ size => size
  | .slice _ start stop => stop - start

/-- Whether there are no items. -/
def isEmpty (r : Rope α) : Bool := r.size == 0

/-- The item at an index. -/
def get? : Rope α → Nat → Option α
  | .leaf items, i => items[i]?
  | .cat head tail size, i =>
    if i < size then
      if i < head.size then head.get? i else tail.get? (i - head.size)
    else none
  | .slice base start stop, i => if i < stop - start then base.get? (start + i) else none

/-- The items from `start` on, `count` of them. -/
def stretch (r : Rope α) (start count : Nat) : List α :=
  (List.range' start count).filterMap r.get?

/-- The items in order. -/
def items (r : Rope α) : List α := r.stretch 0 r.size

/-- One sequence and then another. An empty operand leaves the other as it is. -/
def append (a b : Rope α) : Rope α :=
  if a.isEmpty then b
  else if b.isEmpty then a
  else
    let size := (a.size + b.size) % wordSize
    if size ≤ copied then .leaf (a.items ++ b.items).toArray else .cat a b size

/-- The items from `start` up to `stop`, not copied. A stretch of a stretch refers to the common
base. -/
def view : Rope α → Nat → Nat → Rope α
  | .slice base offset _, start, stop => .slice base (offset + start) (offset + stop)
  | r, start, stop => .slice r start stop

/-- The items from `start` up to `stop`, both cut to the size. The whole of a sequence is the
sequence itself. -/
def extract (r : Rope α) (start stop : Nat) : Rope α :=
  let stop := min stop r.size
  let start := min start stop
  if start = 0 ∧ stop = r.size then r
  else if start = stop then empty
  else if stop - start ≤ copied then .leaf (r.stretch start (stop - start)).toArray
  else r.view start stop

/-- An item is structurally smaller than its rope. -/
theorem sizeOf_lt_of_get? [SizeOf α] {r : Rope α} {i : Nat} {x : α} (h : r.get? i = some x) :
    sizeOf x < sizeOf r := by
  induction r generalizing i with
  | leaf items =>
    have := Array.sizeOf_lt_of_mem (Array.mem_of_getElem? h)
    simp only [leaf.sizeOf_spec]
    omega
  | cat head tail size hhead htail =>
    simp only [cat.sizeOf_spec]
    unfold get? at h
    split at h
    · split at h
      · have := hhead h
        omega
      · have := htail h
        omega
    · cases h
  | slice base start stop hbase =>
    simp only [slice.sizeOf_spec]
    unfold get? at h
    split at h
    · have := hbase h
      omega
    · cases h

theorem sizeOf_lt_of_mem_stretch [SizeOf α] {r : Rope α} {start count : Nat} {x : α}
    (h : x ∈ r.stretch start count) : sizeOf x < sizeOf r := by
  obtain ⟨i, _, hi⟩ := List.mem_filterMap.mp h
  exact sizeOf_lt_of_get? hi

theorem sizeOf_lt_of_mem_items [SizeOf α] {r : Rope α} {x : α} (h : x ∈ r.items) :
    sizeOf x < sizeOf r := sizeOf_lt_of_mem_stretch h

end Rope

end Clausal
