import Clausal.Repl
import Clausal.Text.Cluster

/-!
# Terminals

The terminals the program is run on, which are the values of the loop's parameter. They show styles
by escape sequences, or not at all, and let a backspace in a line take back what stands before it.

* A styled piece stands between the escape sequence of its codes and the one that ends all styles.
  A piece that itself ends all styles somewhere inside takes up its own again from there.
* What a backspace takes back is a grapheme cluster.
-/

namespace Clausal

/-! ## Escape sequences -/

namespace Style

/-- The terminal's codes for a style, the weight first. -/
def codes (s : Style) : List String :=
  let weight := s.weight.map fun
    | .bold => "1"
    | .dimmed => "2"
  let color := s.color.map fun
    | .red => "31"
    | .green => "32"
    | .yellow => "33"
    | .blue => "34"
    | .magenta => "35"
    | .cyan => "36"
  weight.toList ++ color.toList

/-- The escape sequence that starts a style. -/
def opening (s : Style) : String := "\x1b[" ++ ";".intercalate s.codes ++ "m"

/-- The escape sequence that ends all styles. -/
def reset : String := "\x1b[0m"

end Style

namespace Painter

/-- The painter that writes escape sequences around every piece. -/
def escaping : Painter :=
  ⟨fun style text =>
    style.opening ++ (Style.reset ++ style.opening).intercalate (text.splitOn Style.reset) ++
      Style.reset⟩

/-- The painter for a terminal on which colors are wanted or not. -/
def ofColors (colors : Bool) : Painter := if colors then escaping else plain

/-- Where a painter is asked for, it is enough to say whether colors are wanted. -/
instance : Coe Bool Painter := ⟨ofColors⟩

end Painter

/-! ## Taking back -/

namespace Terminal

/-- A line being typed: its characters in reverse, and the sizes in bytes of its clusters, the
latest first. A size is kept in one byte. -/
structure Typed where
  characters : List Char := []
  sizes : List Nat := []

namespace Typed

/-- Characters in reverse without so many bytes of the latest. -/
def dropBytes : Nat → List Char → List Char
  | 0, cs => cs
  | _, [] => []
  | n + 1, c :: cs => dropBytes (n + 1 - c.utf8Size) cs

/-- Type one more cluster. A backspace takes back the one before it, if there is one. -/
def type (t : Typed) (cluster : List Char) : Typed :=
  if cluster = ['\x08'] then
    match t.sizes with
    | size :: sizes => ⟨dropBytes size t.characters, sizes⟩
    | [] => t
  else
    let size := (String.ofList cluster).utf8ByteSize
    ⟨cluster.reverse ++ t.characters, size % 256 :: t.sizes⟩

end Typed

/-- A line as it stands after the backspaces in it took effect. -/
def withoutTakenBack (line : String) : String :=
  if line.toList.contains '\x08' then
    String.ofList ((Text.Cluster.split line.toList).foldl Typed.type {}).characters.reverse
  else line

/-- The terminal on which colors are wanted or not. -/
def ofColors (colors : Bool) : Terminal := { toPainter := colors, read := withoutTakenBack }

end Terminal

end Clausal
