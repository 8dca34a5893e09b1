import Clausal.Value

/-!
# Operators on values

What the operators compute. An operator that makes a list or a map makes a new one, so applying
one takes an unused identity. The two logical operators are given both operands here; evaluation
decides on its own when the second is needed.
-/

namespace Clausal

namespace Value

/-! ## Indices -/

/-- A number as an index: cut to a whole number and to 64 bits; a negative or infinite number and
not-a-number are none. -/
def toIndex? (n : Float) : Option Nat :=
  if 0 ≤ n ∧ n.isFinite then some n.toUInt64.toNat else none

/-- The two bounds of a slice: a list of exactly two numbers, where what is no index counts as
zero. -/
def sliceBounds? (bounds : Sequence Value) : Option (Nat × Nat) :=
  match bounds.size, item bounds 0, item bounds 1 with
  | 2, .number start, .number stop => some ((toIndex? start).getD 0, (toIndex? stop).getD 0)
  | _, _, _ => none

/-- `start + i, start + (i + 1), …`, at most `count` of them, as long as they stay below `stop`
and grow; in front of them, in reverse, those in `before`. -/
def countUp (start stop : Float) : Nat → Nat → Float → List Value → List Value
  | 0, _, _, before => before.reverse
  | count + 1, i, last, before =>
    let n := start + Float.ofNat i
    if stop ≤ n ∨ n ≤ last then before.reverse
    else countUp start stop count (i + 1) n (.number n :: before)

/-- The numbers from `start` up to but not including `stop`, in steps of one. -/
def numbers (start stop : Float) : List Value :=
  if start.isFinite ∧ stop.isFinite ∧ start < stop then
    countUp start stop (stop - start).ceil.toUInt64.toNat 0 (-(1 / 0)) []
  else []

/-! ## One operator each -/

/-- `+`: adds numbers, joins lists, maps and strings, and puts the text of a number or a truth
value next to a string. -/
def add (id : Nat) (a b : Value) : Option Value :=
  match a, b with
  | .number x, .number y => some (.number (x + y))
  | .list xs, .list ys => some (.list (xs.append id ys))
  | .map t, .map u => some (.map ⟨id, t.content.append u.content⟩)
  | .text s, .text t => some (.text (s ++ t))
  | .text s, .number n => some (.text (s ++ (Value.number n).display))
  | .text s, .bool b => some (.text (s ++ (Value.bool b).display))
  | .number n, .text t => some (.text ((Value.number n).display ++ t))
  | .bool b, .text t => some (.text ((Value.bool b).display ++ t))
  | _, _ => none

/-- `.`: the item of a list, the character of a string or the value of a map, or void. -/
def index (a b : Value) : Option Value :=
  match a, b with
  | .list xs, .number n =>
    some (match toIndex? n with
      | some i => item xs i
      | none => .void)
  | .text s, .number n =>
    some (match (toIndex? n).bind (s.toList[·]?) with
      | some c => .text c.toString
      | none => .void)
  | .map t, .text key => some (entry t key)
  | _, _ => none

/-- `..`: the numbers between two, the rest of a list or string from an index on, or the part
between two indices. -/
def range (id : Nat) (a b : Value) : Option Value :=
  match a, b with
  | .number start, .number stop => some (.list (.ofList id (numbers start stop)))
  | .list xs, .number start =>
    some (.list (xs.extract id ((toIndex? start).getD 0) xs.size))
  | .text s, .number start =>
    some (.text (String.ofList (s.toList.drop ((toIndex? start).getD 0))))
  | .list xs, .list bounds =>
    (sliceBounds? bounds).map fun (start, stop) => .list (xs.extract id start stop)
  | .text s, .list bounds =>
    (sliceBounds? bounds).map fun (start, stop) =>
      .text (String.ofList ((s.toList.drop start).take (stop - start)))
  | _, _ => none

/-- The operators on two numbers; division by zero is refused. -/
def arithmetic (op : BinaryOp) (x y : Float) : Except Cause Float :=
  match op with
  | .subtract => .ok (x - y)
  | .multiply => .ok (x * y)
  | .divide => if y == 0 then .error .divisionByZero else .ok (x / y)
  | _ => .ok (x.pow y)

/-- Whether two values can stand on the two sides of an inequality. -/
def orderable : Value → Value → Bool
  | .number _, .number _ | .text _, .text _ => true
  | _, _ => false

/-- Whether an inequality holds of an order; without an order none does. -/
def holds (op : BinaryOp) : Option Ordering → Bool
  | none => false
  | some o =>
    match op with
    | .less => o == .lt
    | .greater => o == .gt
    | .lessEqual => o != .gt
    | _ => o != .lt

end Value

/-- Apply a binary operator; a list or map that it makes gets the identity `id`. -/
def BinaryOp.apply (id : Nat) (op : BinaryOp) (a b : Value) : Except Cause Value :=
  let refuse : Except Cause Value := .error (.badOperands op a.type b.type)
  let orRefuse (result : Option Value) : Except Cause Value :=
    match result with
    | some v => .ok v
    | none => refuse
  match op with
  | .add => orRefuse (a.add id b)
  | .subtract | .multiply | .divide | .power =>
    match a, b with
    | .number x, .number y => (Value.arithmetic op x y).map .number
    | _, _ => refuse
  | .index => orRefuse (a.index b)
  | .range => orRefuse (a.range id b)
  | .equal => .ok (.bool (a.equal b))
  | .notEqual => .ok (.bool !(a.equal b))
  | .less | .greater | .lessEqual | .greaterEqual =>
    if a.orderable b then .ok (.bool (Value.holds op (a.compare b))) else refuse
  | .and => .ok (if a.truthy then b else a)
  | .or => .ok (if a.truthy then a else b)

/-- Apply a unary operator: only numbers can be negated, everything has a truth. -/
def UnaryOp.apply (op : UnaryOp) (a : Value) : Except Cause Value :=
  match op, a with
  | .negate, .number n => .ok (.number (-n))
  | .negate, a => .error (.badOperand a.type)
  | .not, a => .ok (.bool !a.truthy)

end Clausal
