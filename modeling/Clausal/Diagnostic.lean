import Clausal.Error
import Clausal.Style

/-!
# Diagnostics

An error as the user sees it: its kind and message, where it was found, and the line of the source
with a mark below. The source counts lines as texts do: a line feed ends a line, a carriage return
before it belongs to the ending, and nothing after the last line feed is no line.
-/

namespace Clausal

namespace Text

/-- Cut a text at every line feed; what follows the last one is the last piece. -/
def pieces : List Char → List (List Char)
  | [] => [[]]
  | '\n' :: cs => [] :: pieces cs
  | c :: cs =>
    match pieces cs with
    | piece :: rest => (c :: piece) :: rest
    | [] => [[c]]

/-- A piece without one carriage return at its end. -/
def dropReturn (piece : List Char) : List Char :=
  match piece.getLast? with
  | some '\r' => piece.dropLast
  | _ => piece

/-- The lines of a text without their endings. -/
def lines (text : String) : List String :=
  let cut := pieces text.toList
  let ended := cut.dropLast.map dropReturn
  let last := cut.getLast?.getD []
  (if last.isEmpty then ended else ended ++ [last]).map String.ofList

/-- A number in at least three columns. -/
def inThreeColumns (n : Nat) : String :=
  let digits := toString n
  String.ofList (List.replicate (3 - digits.length) ' ') ++ digits

end Text

namespace Diagnostic

variable (painter : Painter)

/-- The line with the kind and the message. -/
def headline (e : Error) : String :=
  painter.paint (.bold .red) (e.kind.text ++ " error:") ++ " " ++ e.message ++ "\n"

/-- The line that says where. -/
def location (p : Position) : String :=
  "  " ++ painter.paint (.bold .blue) "-->" ++ " " ++
    painter.paint .dimmed (p.file.getD "input") ++ ":" ++
    painter.paint (.colored .cyan) (toString p.line ++ ":" ++ toString p.column) ++ "\n"

/-- The bar left of the excerpt. -/
def bar : String := "   " ++ painter.paint (.colored .blue) "|"

/-- The line of the position, the one before it, and a mark below the column. -/
def excerpt (p : Position) (lines : List String) : String :=
  match p.line with
  | 0 => ""
  | n + 1 =>
    match lines[n]? with
    | none => ""
    | some line =>
      let previous :=
        match n with
        | 0 => ""
        | m + 1 =>
          " " ++ painter.paint { weight := some .dimmed, color := some .blue }
              (Text.inThreeColumns n) ++ " | " ++
            painter.paint .dimmed (lines[m]?.getD "") ++ "\n"
      let mark := String.ofList (List.replicate (p.column - 1 + 7) ' ') ++ "^"
      bar painter ++ "\n" ++ previous ++
        " " ++ painter.paint (.bold .blue) (Text.inThreeColumns (n + 1)) ++ " | " ++ line ++
        "\n" ++
        bar painter ++ " " ++ painter.paint (.bold .red) mark ++ "\n" ++
        bar painter ++ "\n"

/-- The whole diagnostic, with an excerpt if the source is known and has the line. -/
def render (e : Error) (source : Option String) : String :=
  headline painter e ++
    match e.position with
    | none => ""
    | some p =>
      location painter p ++
        match source with
        | none => ""
        | some text => excerpt painter p (Text.lines text)

end Diagnostic

/-- The first error that has not been dealt with; later ones are dropped until it is. -/
structure Latch where
  pending : Option Error := none

namespace Latch

/-- Keep an error unless one is pending. -/
def arm (l : Latch) (e : Error) : Latch := ⟨l.pending.or (some e)⟩

/-- Whether an error is pending. -/
def isArmed (l : Latch) : Bool := l.pending.isSome

end Latch

end Clausal
