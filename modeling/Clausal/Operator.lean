import Clausal.Token

/-!
# Operators

The binary operators with their spelling and binding strength, and the two unary ones. All binary
operators group to the left.
-/

namespace Clausal

/-- The binary operators. -/
inductive BinaryOp where
  | add | subtract | multiply | divide | power
  | index | range
  | equal | notEqual | less | greater | lessEqual | greaterEqual
  | and | or
  deriving Repr, DecidableEq

namespace BinaryOp

/-- The spelling of an operator. -/
def text : BinaryOp → String
  | .add => "+"
  | .subtract => "-"
  | .multiply => "*"
  | .divide => "/"
  | .power => "^"
  | .index => "."
  | .range => ".."
  | .equal => "=="
  | .notEqual => "!="
  | .less => "<"
  | .greater => ">"
  | .lessEqual => "<="
  | .greaterEqual => ">="
  | .and => "and"
  | .or => "or"

/-- Binding strength; the higher binds tighter. -/
def precedence : BinaryOp → Nat
  | .power => 6
  | .index | .range => 5
  | .multiply | .divide => 4
  | .add | .subtract => 3
  | .equal | .notEqual | .less | .greater | .lessEqual | .greaterEqual => 2
  | .and | .or => 1

/-- The operator that a token stands for. -/
def ofToken? : Token.Kind → Option BinaryOp
  | .mark .plus => some .add
  | .mark .minus => some .subtract
  | .mark .star => some .multiply
  | .mark .slash => some .divide
  | .mark .caret => some .power
  | .mark .dot => some .index
  | .mark .dotDot => some .range
  | .mark .equalEqual => some .equal
  | .mark .notEqual => some .notEqual
  | .mark .less => some .less
  | .mark .greater => some .greater
  | .mark .lessEqual => some .lessEqual
  | .mark .greaterEqual => some .greaterEqual
  | .keyword .andWord => some .and
  | .keyword .orWord => some .or
  | _ => none

end BinaryOp

/-- The unary operators. -/
inductive UnaryOp where
  | negate | not
  deriving Repr, DecidableEq

namespace UnaryOp

/-- The spelling of an operator. -/
def text : UnaryOp → String
  | .negate => "-"
  | .not => "!"

end UnaryOp

end Clausal
