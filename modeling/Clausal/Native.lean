/-!
# Built-in functions

The names of the functions that every program starts with, in the order in which they are known.
-/

namespace Clausal

/-- The built-in functions. -/
inductive Native where
  | sqrt | log | sin | cos | tan | floor
  | foldl | map | filter | len
  | str | print | die | catch
  deriving Repr, DecidableEq

namespace Native

/-- The name of a built-in function. -/
def name : Native → String
  | .sqrt => "sqrt"
  | .log => "log"
  | .sin => "sin"
  | .cos => "cos"
  | .tan => "tan"
  | .floor => "floor"
  | .foldl => "foldl"
  | .map => "map"
  | .filter => "filter"
  | .len => "len"
  | .str => "str"
  | .print => "print"
  | .die => "die"
  | .catch => "catch"

/-- All built-in functions, in order. -/
def all : List Native :=
  [.sqrt, .log, .sin, .cos, .tan, .floor, .foldl, .map, .filter, .len, .str, .print, .die, .catch]

end Native

end Clausal
