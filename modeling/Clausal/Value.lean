import Clausal.Dict
import Clausal.Error
import Clausal.Expr
import Clausal.Native
import Clausal.Sequence
import Clausal.Text.Quoted

/-!
# Values

The values of the language, their types, their truth, their order and their text. Lists, maps and
functions have an identity: one and the same list or map equals itself whatever it holds, and a
function equals only itself.
-/

namespace Clausal

/-- A function value. The functions of a program are known by their slot in its table, lambdas by
a number under which the store of an evaluation keeps what they are made of. -/
inductive Function where
  | native (fn : Native) (slot : Nat)
  | declared (name : String) (slot : Nat)
  | lambda (id : Nat)
  deriving Repr, DecidableEq

namespace Function

/-- The name of a function; a lambda has none. -/
def name? : Function → Option String
  | .native fn _ => some fn.name
  | .declared name _ => some name
  | .lambda _ => none

/-- Whether a function is built in. -/
def isNative : Function → Bool
  | .native .. => true
  | _ => false

end Function

/-- A value. -/
inductive Value where
  | void
  | number (n : Float)
  | bool (b : Bool)
  | text (s : String)
  | function (f : Function)
  | list (xs : Sequence Value)
  | map (t : Table Value)

namespace Value

instance : Inhabited Value := ⟨.void⟩

/-- The value a literal stands for. -/
def ofLiteral : Literal → Value
  | .void => .void
  | .number n => .number n
  | .bool b => .bool b
  | .text s => .text s

/-- The type of a value. -/
def type : Value → ValueType
  | .void => .void
  | .number _ => .number
  | .bool _ => .bool
  | .text _ => .string
  | .function _ => .function
  | .list _ => .list
  | .map _ => .map

/-- Whether a value counts as true: not void, zero, the false value, the empty string or the empty
list. Not-a-number counts. -/
def truthy : Value → Bool
  | .void => false
  | .number n => n != 0
  | .bool b => b
  | .text s => !s.isEmpty
  | .list xs => !xs.isEmpty
  | .function _ | .map _ => true

/-- The item of a list at an index, or void. -/
def item (xs : Sequence Value) (i : Nat) : Value := (xs.get? i).getD .void

/-- The value under a key of a map, or void. -/
def entry (t : Table Value) (key : String) : Value := (t.content.find? (keyHash key)).getD .void

/-- The characters of a string, each as a string. -/
def characters (s : String) : List Value := s.toList.map fun c => .text c.toString

/-! ## Order -/

/-- The order of two numbers; not-a-number has none. -/
def compareNumbers (x y : Float) : Option Ordering :=
  if x < y then some .lt
  else if x == y then some .eq
  else if y < x then some .gt
  else none

/-- Strings are ordered by code points. -/
def compareTexts (s t : String) : Ordering :=
  if s < t then .lt else if s = t then .eq else .gt

/-- Equal, or without an order. -/
def equalOrNone (equal : Bool) : Option Ordering := if equal then some .eq else none

/-- The order of two values. Only numbers and strings have one; other values of one type are equal
or without an order, and values of two types have none. Lists are equal item by item, maps when
they have as many entries and every entry of the first has an equal one in the second. -/
def compare (a b : Value) : Option Ordering :=
  match a, b with
  | .void, .void => some .eq
  | .number x, .number y => compareNumbers x y
  | .text s, .text t => some (compareTexts s t)
  | .bool x, .bool y => equalOrNone (x == y)
  | .function f, .function g => equalOrNone (f == g)
  | .list xs, .list ys =>
    equalOrNone (xs.id == ys.id || (xs.size == ys.size && Nat.all xs.size fun i _ =>
      match hx : xs.get? i, hy : ys.get? i with
      | some x, some y =>
        have := Sequence.sizeOf_lt_of_get? hx
        have := Sequence.sizeOf_lt_of_get? hy
        compare x y == some .eq
      | none, none => true
      | _, _ => false))
  | .map t, .map u =>
    equalOrNone (t.id == u.id || (t.content.size == u.content.size &&
      t.content.entries.attach.all fun ⟨(hash, v), hv⟩ =>
        match hw : u.content.find? hash with
        | some w =>
          have := Table.sizeOf_lt_of_mem_entries hv
          have := Table.sizeOf_lt_of_find? hw
          compare w v == some .eq
        | none => false))
  | _, _ => none
termination_by sizeOf a + sizeOf b
decreasing_by all_goals (simp only [list.sizeOf_spec, map.sizeOf_spec]; omega)

/-- Whether two values are equal. -/
def equal (a b : Value) : Bool := a.compare b == some .eq

/-! ## Text -/

/-- The text of a value. Strings stand as they are at the top and quoted inside a list; a map
shows only how many entries it has. -/
def display (v : Value) : String :=
  match v with
  | .void => "()"
  | .number n => Decimal.text n
  | .bool b => if b then "true" else "false"
  | .text s => s
  | .function f =>
    match f.name? with
    | some name => "<function " ++ name ++ ">"
    | none => "<lambda>"
  | .list xs =>
    let items := xs.items.attach.map fun ⟨x, hx⟩ =>
      have := Sequence.sizeOf_lt_of_mem_items hx
      if let .text s := x then Text.quoted s else x.display
    "[" ++ ", ".intercalate items ++ "]"
  | .map t => "<map of " ++ toString t.content.size ++ ">"
termination_by sizeOf v
decreasing_by simp only [list.sizeOf_spec]; omega

end Value

end Clausal
