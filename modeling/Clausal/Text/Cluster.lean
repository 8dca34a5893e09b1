import Clausal.Text.Cluster.Class

/-!
# Grapheme clusters

What a reader takes for one character may be several: a letter and its marks, a syllable, a flag, a
sequence of joined pictographs. A text is cut into such clusters by the rules for extended grapheme
clusters, which look at a character, the one before it, and three things further back: how many
flag letters stand in a row, whether a pictograph waits to be joined, and whether a consonant does.
-/

namespace Clausal.Text.Cluster

/-- Whether the text read ends in something that waits to be joined to what follows. -/
inductive Link where
  /-- Nothing waits. -/
  | none
  /-- Something waits, but what joins has not been read. -/
  | waiting
  /-- Only what is to be joined is missing. -/
  | ready
  deriving Repr, DecidableEq

/-- What the rules need to know of the text read so far. -/
structure Context where
  /-- The class of the last character. -/
  last : Class
  /-- Whether an odd number of flag letters stands at the end. -/
  oddFlags : Bool
  /-- A pictograph and marks at the end, and whether the joiner follows them. -/
  pictograph : Link
  /-- A consonant and marks at the end, and whether a linker is among them. -/
  consonant : Link
  deriving Repr, DecidableEq

namespace Context

/-- Nothing read: as after a control, whatever follows starts a cluster. -/
def start : Context := ⟨.control, false, .none, .none⟩

/-- Whether a character of this class belongs to the cluster of the last one. -/
def joins (c : Context) (next : Class) : Bool :=
  match c.last, next with
  | .carriageReturn, .lineFeed => true
  | .carriageReturn, _ | .lineFeed, _ | .control, _ => false
  | _, .carriageReturn | _, .lineFeed | _, .control => false
  | .leading, .leading | .leading, .vowel | .leading, .openSyllable
  | .leading, .closedSyllable => true
  | .openSyllable, .vowel | .openSyllable, .trailing | .vowel, .vowel | .vowel, .trailing => true
  | .closedSyllable, .trailing | .trailing, .trailing => true
  | _, .extend | _, .linker | _, .nonJoiner | _, .joiner | _, .spacing => true
  | .prepended, _ => true
  | _, .consonant => c.consonant == .ready
  | .joiner, .pictograph => c.pictograph == .ready
  | .flag, .flag => c.oddFlags
  | _, _ => false

/-- What is known after one more character of this class. -/
def after (c : Context) (next : Class) : Context :=
  { last := next
    oddFlags := next == .flag && !c.oddFlags
    pictograph :=
      match next, c.pictograph with
      | .pictograph, _ => .waiting
      | .extend, .waiting | .linker, .waiting | .nonJoiner, .waiting => .waiting
      | .joiner, .waiting => .ready
      | _, _ => .none
    consonant :=
      match next, c.consonant with
      | .consonant, _ => .waiting
      | .linker, .waiting | .linker, .ready => .ready
      | .extend, link | .joiner, link => link
      | _, _ => .none }

end Context

/-- Cut a text into clusters, given what is known of the text before it and the cluster that was
begun there, in reverse. -/
def splitFrom : Context → List Char → List Char → List (List Char)
  | _, begun, [] => if begun.isEmpty then [] else [begun.reverse]
  | context, begun, c :: cs =>
    let next := Class.of c
    if begun.isEmpty || context.joins next then splitFrom (context.after next) (c :: begun) cs
    else begun.reverse :: splitFrom (context.after next) [c] cs

/-- The clusters of a text. -/
def split (text : List Char) : List (List Char) := splitFrom .start [] text

end Clausal.Text.Cluster
