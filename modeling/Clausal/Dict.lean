/-!
# Dictionaries

Entries under the hashes of their keys, in order of insertion. The keys themselves are not kept:
two keys of one hash are one key. An entry that is written again keeps its place.
-/

namespace Clausal

/-- The 64-bit FNV-1a hash of the UTF-8 bytes of a key. -/
def keyHash (key : String) : UInt64 :=
  key.toUTF8.data.foldl (fun hash byte => (hash ^^^ byte.toUInt64) * 1099511628211)
    14695981039346656037

/-- Values under the hashes of their keys, in order of insertion. -/
structure Dict (α : Type) where
  entries : List (UInt64 × α)
  deriving Repr

namespace Dict

variable {α : Type}

/-- No entries. -/
def empty : Dict α := ⟨[]⟩

/-- The number of entries. -/
def size (d : Dict α) : Nat := d.entries.length

/-- Whether there are no entries. -/
def isEmpty (d : Dict α) : Bool := d.entries.isEmpty

/-- The value of the first entry with this hash. -/
def find? (d : Dict α) (hash : UInt64) : Option α := d.entries.lookup hash

/-- Whether an entry has this hash. -/
def contains (d : Dict α) (hash : UInt64) : Bool := d.entries.any (·.1 == hash)

/-- Replace the value of the first entry with this hash. -/
def replace (hash : UInt64) (value : α) : List (UInt64 × α) → List (UInt64 × α)
  | [] => []
  | (h, v) :: entries =>
    if h = hash then (h, value) :: entries else (h, v) :: replace hash value entries

/-- Write an entry, in the place of the first one with its hash or else at the end. -/
def insert (d : Dict α) (hash : UInt64) (value : α) : Dict α :=
  if d.contains hash then ⟨replace hash value d.entries⟩ else ⟨d.entries ++ [(hash, value)]⟩

/-- The entries of `a`, overridden in place by those of `b`, and the other entries of `b` after
them. -/
def append (a b : Dict α) : Dict α :=
  ⟨b.entries.foldl (fun entries (hash, value) =>
      if a.contains hash then replace hash value entries else entries ++ [(hash, value)])
    a.entries⟩

/-- A dictionary of exactly these entries, repeated keys included. -/
def ofEntries (entries : List (String × α)) : Dict α :=
  ⟨entries.map fun (key, value) => (keyHash key, value)⟩

theorem sizeOf_lt_of_find? [SizeOf α] {d : Dict α} {hash : UInt64} {x : α}
    (h : d.find? hash = some x) : sizeOf x < sizeOf d := by
  obtain ⟨entries⟩ := d
  have : sizeOf x < sizeOf entries := by
    simp only [find?] at h
    induction entries with
    | nil => cases h
    | cons e es ih =>
      obtain ⟨k, v⟩ := e
      simp only [List.lookup_cons] at h
      simp only [List.cons.sizeOf_spec, Prod.mk.sizeOf_spec]
      split at h
      · cases h
        omega
      · have := ih h
        omega
  simp only [Dict.mk.sizeOf_spec]
  omega

theorem sizeOf_lt_of_mem_entries [SizeOf α] {d : Dict α} {hash : UInt64} {x : α}
    (h : (hash, x) ∈ d.entries) : sizeOf x < sizeOf d := by
  obtain ⟨entries⟩ := d
  have := List.sizeOf_lt_of_mem h
  simp only [Prod.mk.sizeOf_spec, Dict.mk.sizeOf_spec] at *
  omega

end Dict

/-- A dictionary with an identity. -/
structure Table (α : Type) where
  id : Nat
  content : Dict α
  deriving Repr

namespace Table

variable {α : Type}

theorem sizeOf_lt_of_find? [SizeOf α] {t : Table α} {hash : UInt64} {x : α}
    (h : t.content.find? hash = some x) : sizeOf x < sizeOf t := by
  have := Dict.sizeOf_lt_of_find? h
  obtain ⟨id, content⟩ := t
  simp only [Table.mk.sizeOf_spec] at *
  omega

theorem sizeOf_lt_of_mem_entries [SizeOf α] {t : Table α} {hash : UInt64} {x : α}
    (h : (hash, x) ∈ t.content.entries) : sizeOf x < sizeOf t := by
  have := Dict.sizeOf_lt_of_mem_entries h
  obtain ⟨id, content⟩ := t
  simp only [Table.mk.sizeOf_spec] at *
  omega

end Table

end Clausal
