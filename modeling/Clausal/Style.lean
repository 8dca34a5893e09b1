/-!
# Styled text

What a piece of text for a terminal is meant to look like, and the painter that makes it so. How
terminals are told of styles is not the library's business: whatever is shown is stated for any
painter. The one that is fixed here shows everything as it is.
-/

namespace Clausal

/-- How heavy a piece of text is. -/
inductive Weight where
  | bold | dimmed
  deriving Repr, DecidableEq

/-- The color of a piece of text. -/
inductive Color where
  | red | green | yellow | blue | magenta | cyan
  deriving Repr, DecidableEq

/-- Weight and color of a piece of text. -/
structure Style where
  weight : Option Weight := none
  color : Option Color := none
  deriving Repr, DecidableEq

namespace Style

/-- A color alone. -/
def colored (c : Color) : Style := { color := some c }

/-- A bold color. -/
def bold (c : Color) : Style := { weight := some .bold, color := some c }

/-- Dimmed, in the color of the surroundings. -/
def dimmed : Style := { weight := some .dimmed }

end Style

/-- What shows pieces of text in their styles. -/
structure Painter where
  /-- A piece of text as it is written in a style. -/
  paint : Style → String → String

namespace Painter

/-- The painter without colors: every piece stands as it is. -/
def plain : Painter := ⟨fun _ text => text⟩

@[simp] theorem paint_plain (style : Style) (text : String) : plain.paint style text = text := rfl

end Painter

end Clausal
