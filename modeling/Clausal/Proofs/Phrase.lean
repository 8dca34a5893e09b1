import Clausal.Expr
import Clausal.Proofs.Lexeme

/-!
# Phrases

A phrase is an expression as it can be written: every form of the grammar, with the names and
number literals of the text. It stands for a tree (`Phrase.expr`), in which the forms that the
language has only in writing are gone: an operator as a function and an operator with its right
operand are lambdas, and a pattern is a guard on a parameter without a name.

A phrase is printed (`Phrase.lexemes`) with every compound part in parentheses, and the parts are
short against the whole (`Lexeme.forall_length_le`, `Phrase.Part.length_le`). Names and number
literals carry the proof that they are read as what they are, and the parameters of a clause the
proof that no name among them comes twice, so that every phrase can be written.
-/

namespace Clausal

/-- What a binding gives a name to. -/
inductive Phrase.Target where
  | name (name : Identifier)
  | items (front : List Identifier) (rest : Option Identifier)

mutual

/-- An expression as it can be written. -/
inductive Phrase where
  | void
  | number (n : Numeral)
  | bool (b : Bool)
  | text (content : String)
  | name (name : Identifier)
  | binary (op : BinaryOp) (left right : Phrase)
  | unary (op : UnaryOp) (operand : Phrase)
  | call (callee : Phrase) (args : List Phrase)
  | list (items : List Phrase)
  | map (entries : List Phrase.Entry)
  | comprehension (name : Identifier) (source : Phrase) (filter map : Option Phrase)
  | withBlock (bindings : List Phrase.Binding) (body : Phrase)
  | lambda (clauses : List Phrase.Clause)
  /-- An operator as a function of two arguments. -/
  | operator (op : BinaryOp)
  /-- An operator with its right operand, as a function of the left one. -/
  | operatorOn (op : BinaryOp) (operand : Phrase)

/-- An entry of a map literal. -/
structure Phrase.Entry where
  key : String
  value : Phrase

/-- A local binding. -/
structure Phrase.Binding where
  target : Phrase.Target
  value : Phrase

/-- A parameter list and a body. -/
inductive Phrase.Clause where
  | mk (params : Phrase.Params []) (body : Phrase)

/-- Parameters behind others that have the names `taken`: none of them comes again. -/
inductive Phrase.Params : List String → Type where
  | done {taken : List String} : Phrase.Params taken
  | name {taken : List String} (name : Identifier) (fresh : name.text ∉ taken)
    (guard : Option Phrase) (rest : Phrase.Params (name.text :: taken)) : Phrase.Params taken
  | pattern {taken : List String} (pattern : Phrase) (rest : Phrase.Params taken) :
    Phrase.Params taken

end

/-! ## The tree of a phrase -/

/-- The target that is written so. -/
def Phrase.Target.target : Phrase.Target → Clausal.Target
  | .name n => .name n.text
  | .items front rest => .items (front.map (·.text)) (rest.map (·.text))

mutual

/-- The tree that a phrase stands for. -/
def Phrase.expr : Phrase → Expr
  | .void => .literal .void
  | .number n => .literal (.number n.value)
  | .bool b => .literal (.bool b)
  | .text s => .literal (.text s)
  | .name n => .free n.text
  | .binary op l r => .binary op l.expr r.expr
  | .unary op e => .unary op e.expr
  | .call f args => .call f.expr (Phrase.exprs args)
  | .list items => .list (Phrase.exprs items)
  | .map es => .map (Phrase.Entry.entries es)
  | .comprehension n source f m =>
    .comprehension n.text source.expr (Phrase.expr? f) (Phrase.expr? m)
  | .withBlock bs body => .withBlock (Phrase.Binding.bindings bs) body.expr
  | .lambda cs => .lambda (Phrase.Clause.clauses cs)
  | .operator op =>
    .lambda [⟨[⟨none, none⟩, ⟨none, none⟩], .binary op (.parameter 0) (.parameter 1)⟩]
  | .operatorOn op e => .lambda [⟨[⟨none, none⟩], .binary op (.parameter 0) e.expr⟩]

/-- The trees of some phrases. -/
def Phrase.exprs : List Phrase → List Expr
  | [] => []
  | p :: ps => p.expr :: Phrase.exprs ps

/-- The tree of a phrase that may be absent. -/
def Phrase.expr? : Option Phrase → Option Expr
  | none => none
  | some p => some p.expr

/-- The entries of a map literal. -/
def Phrase.Entry.entries : List Phrase.Entry → List Clausal.Entry
  | [] => []
  | ⟨key, value⟩ :: es => ⟨key, value.expr⟩ :: Phrase.Entry.entries es

/-- The bindings of a `with` block. -/
def Phrase.Binding.bindings : List Phrase.Binding → List Clausal.Binding
  | [] => []
  | ⟨target, value⟩ :: bs => ⟨target.target, value.expr⟩ :: Phrase.Binding.bindings bs

/-- The clauses of a lambda. -/
def Phrase.Clause.clauses : List Phrase.Clause → List Clausal.Clause
  | [] => []
  | c :: cs => c.clause :: Phrase.Clause.clauses cs

/-- The clause that is written so. -/
def Phrase.Clause.clause : Phrase.Clause → Clausal.Clause
  | .mk params body => ⟨params.params 0, body.expr⟩

/-- The parameters from number `index` on. A pattern is a guard on the parameter of its number. -/
def Phrase.Params.params {taken : List String} (index : Nat) : Phrase.Params taken → List Param
  | .done => []
  | .name n _ guard rest => ⟨some n.text, Phrase.expr? guard⟩ :: rest.params (index + 1)
  | .pattern p rest =>
    ⟨none, some (.binary .equal (.parameter index) p.expr)⟩ :: rest.params (index + 1)

end

/-! ## Printing -/

/-- The token of a binary operator. -/
def BinaryOp.lexeme : BinaryOp → Lexeme
  | .add => .mark .plus
  | .subtract => .mark .minus
  | .multiply => .mark .star
  | .divide => .mark .slash
  | .power => .mark .caret
  | .index => .mark .dot
  | .range => .mark .dotDot
  | .equal => .mark .equalEqual
  | .notEqual => .mark .notEqual
  | .less => .mark .less
  | .greater => .mark .greater
  | .lessEqual => .mark .lessEqual
  | .greaterEqual => .mark .greaterEqual
  | .and => .keyword .andWord
  | .or => .keyword .orWord

/-- The token of a unary operator. -/
def UnaryOp.lexeme : UnaryOp → Lexeme
  | .negate => .mark .minus
  | .not => .mark .bang

namespace Lexeme

/-- Between two marks. -/
def between (first last : Mark) (ls : List Lexeme) : List Lexeme :=
  mark first :: (ls ++ [mark last])

/-- In parentheses. -/
def parens (ls : List Lexeme) : List Lexeme := between .leftParen .rightParen ls

/-- In parentheses unless atomic. -/
def grouped (atomic : Bool) (ls : List Lexeme) : List Lexeme := if atomic then ls else parens ls

/-- Pieces with commas between them. -/
def separated : List (List Lexeme) → List Lexeme
  | [] => []
  | [piece] => piece
  | piece :: pieces => piece ++ mark .comma :: separated pieces

end Lexeme

/-- The pieces of a list of names of which the last may take the rest of a list. -/
def Phrase.Target.names (front : List Identifier) (rest : Option Identifier) :
    List (List Lexeme) :=
  front.map (fun n => [.symbol n]) ++ (rest.map fun n => [.symbol n, .mark .dotDot]).toList

/-- How a target is written. -/
def Phrase.Target.lexemes : Phrase.Target → List Lexeme
  | .name n => [.symbol n]
  | .items front rest =>
    Lexeme.between .leftBracket .rightBracket (Lexeme.separated (Phrase.Target.names front rest))

/-- Whether a phrase is a literal or a name. -/
def Phrase.isAtomic : Phrase → Bool
  | .void | .number _ | .bool _ | .text _ | .name _ => true
  | _ => false

mutual

/-- How a phrase is written. -/
def Phrase.lexemes : Phrase → List Lexeme
  | .void => Lexeme.parens []
  | .number n => [.numeral n]
  | .bool b => [.keyword (if b then .trueWord else .falseWord)]
  | .text s => [.text s]
  | .name n => [.symbol n]
  | .binary op l r =>
    Lexeme.grouped l.isAtomic l.lexemes ++ op.lexeme :: Lexeme.grouped r.isAtomic r.lexemes
  | .unary op e => op.lexeme :: Lexeme.grouped e.isAtomic e.lexemes
  | .call f args =>
    Lexeme.grouped f.isAtomic f.lexemes ++ Lexeme.parens (Lexeme.separated (Phrase.pieces args))
  | .list items =>
    Lexeme.between .leftBracket .rightBracket (Lexeme.separated (Phrase.pieces items))
  | .map es =>
    Lexeme.between .leftBrace .rightBrace (Lexeme.separated (Phrase.Entry.pieces es))
  | .comprehension n source f m =>
    Lexeme.grouped source.isAtomic source.lexemes ++ .mark .dollar :: .symbol n ::
      (Phrase.lexemesAfter .colon f ++ Phrase.lexemesAfter .equal m)
  | .withBlock bs body =>
    .keyword .withWord :: (Lexeme.parens (Lexeme.separated (Phrase.Binding.pieces bs)) ++
      .mark .equal :: Lexeme.grouped body.isAtomic body.lexemes)
  | .lambda cs =>
    .mark .atSign :: Lexeme.between .leftBrace .rightBrace (Phrase.Clause.lexemesAll cs)
  | .operator op => [.mark .backtick, op.lexeme]
  | .operatorOn op e => .mark .ampersand :: op.lexeme :: Lexeme.parens e.lexemes

/-- How each of some phrases is written. -/
def Phrase.pieces : List Phrase → List (List Lexeme)
  | [] => []
  | p :: ps => Lexeme.grouped p.isAtomic p.lexemes :: Phrase.pieces ps

/-- A mark and a phrase, if there is one. -/
def Phrase.lexemesAfter (m : Mark) : Option Phrase → List Lexeme
  | none => []
  | some p => .mark m :: Lexeme.grouped p.isAtomic p.lexemes

/-- How each entry of a map literal is written; the key is a quoted text. -/
def Phrase.Entry.pieces : List Phrase.Entry → List (List Lexeme)
  | [] => []
  | ⟨key, value⟩ :: es =>
    (.text key :: .mark .colon :: Lexeme.grouped value.isAtomic value.lexemes) ::
      Phrase.Entry.pieces es

/-- How each binding is written. -/
def Phrase.Binding.pieces : List Phrase.Binding → List (List Lexeme)
  | [] => []
  | ⟨target, value⟩ :: bs =>
    (target.lexemes ++ .mark .equal :: Lexeme.grouped value.isAtomic value.lexemes) ::
      Phrase.Binding.pieces bs

/-- How the clauses of a lambda are written. -/
def Phrase.Clause.lexemesAll : List Phrase.Clause → List Lexeme
  | [] => []
  | c :: cs => .keyword .letWord :: (c.lexemes ++ Phrase.Clause.lexemesAll cs)

/-- How a clause is written. -/
def Phrase.Clause.lexemes : Phrase.Clause → List Lexeme
  | .mk params body =>
    Lexeme.parens (Lexeme.separated params.pieces) ++
      .mark .equal :: Lexeme.grouped body.isAtomic body.lexemes

/-- How each parameter is written; guards and patterns are always in parentheses. -/
def Phrase.Params.pieces {taken : List String} : Phrase.Params taken → List (List Lexeme)
  | .done => []
  | .name n _ guard rest => (.symbol n :: Phrase.guardLexemes guard) :: rest.pieces
  | .pattern p rest => Lexeme.parens p.lexemes :: rest.pieces

/-- A colon and a guard, if there is one. -/
def Phrase.guardLexemes : Option Phrase → List Lexeme
  | none => []
  | some p => .mark .colon :: Lexeme.parens p.lexemes

end

namespace Phrase

/-- How a phrase is written as a part of another. -/
def grouped (p : Phrase) : List Lexeme := Lexeme.grouped p.isAtomic p.lexemes

/-- The text of a phrase. -/
def render (p : Phrase) : String := String.ofList (Lexeme.layout p.lexemes)

example : (Phrase.call (.operatorOn .add (.text "a\"b")) [.bool true, .unary .not .void]).render =
    "( & + ( \"a\\\"b\" ) ) ( true , ( ! ( ) ) )" := by decide

end Phrase

/-! ## Printed parts -/

namespace Lexeme

/-- The first token of some lexemes; the end of the source if there are none. -/
def next : List Lexeme → Token.Kind
  | [] => .eof
  | l :: _ => l.kind

theorem next_append {ls : List Lexeme} (h : ls ≠ []) (rest : List Lexeme) :
    next (ls ++ rest) = next ls := by
  cases ls with
  | nil => exact absurd rfl h
  | cons l ls => rfl

theorem separated_cons_cons (piece piece' : List Lexeme) (pieces : List (List Lexeme)) :
    separated (piece :: piece' :: pieces) = piece ++ mark .comma :: separated (piece' :: pieces) :=
  rfl

theorem between_append (first last : Mark) (ls rest : List Lexeme) :
    between first last ls ++ rest = mark first :: (ls ++ mark last :: rest) := by
  simp [between]

theorem length_between (first last : Mark) (ls : List Lexeme) :
    (between first last ls).length = ls.length + 2 := by
  simp [between]

theorem length_parens (ls : List Lexeme) : (parens ls).length = ls.length + 2 :=
  length_between _ _ ls

theorem length_separated_cons (piece : List Lexeme) (pieces : List (List Lexeme)) :
    piece.length + (separated pieces).length ≤ (separated (piece :: pieces)).length := by
  cases pieces with
  | nil => simp [separated]
  | cons piece' pieces =>
    simp only [separated_cons_cons, List.length_append, List.length_cons]
    omega

/-- No piece is longer than all of them together. -/
theorem forall_length_le {pieces : List (List Lexeme)} {n : Nat}
    (h : (separated pieces).length ≤ n) : ∀ piece ∈ pieces, piece.length ≤ n := by
  induction pieces with
  | nil => exact List.forall_mem_nil _
  | cons piece pieces ih =>
    have hcons := length_separated_cons piece pieces
    exact List.forall_mem_cons.mpr ⟨by omega, ih (by omega)⟩

end Lexeme

namespace Phrase

/-- Whether a phrase is neither joined by an operator nor a call nor a comprehension. -/
def isPrimary : Phrase → Bool
  | .binary .. | .call .. | .comprehension .. => false
  | _ => true

/-- How a phrase can be printed as a part of another: in parentheses, or bare if it is atomic. -/
inductive Part (p : Phrase) : List Lexeme → Prop
  | bare (h : p.isAtomic = true) : Part p p.lexemes
  | parens : Part p (Lexeme.parens p.lexemes)

theorem part_grouped (p : Phrase) : p.Part p.grouped := by
  unfold grouped Lexeme.grouped
  split
  · next h => exact .bare h
  · exact .parens

namespace Part

variable {p : Phrase} {ls : List Lexeme}

theorem length_le (h : p.Part ls) : p.lexemes.length ≤ ls.length := by
  cases h with
  | bare => exact Nat.le_refl _
  | parens =>
    rw [Lexeme.length_parens]
    omega

theorem ne_nil (h : p.Part ls) : ls ≠ [] := by
  cases h with
  | bare h => cases p <;> first | exact List.cons_ne_nil _ _ | cases h
  | parens => exact List.cons_ne_nil _ _

theorem not_close (h : p.Part ls) {m : Mark} (hm : m = .rightParen ∨ m = .rightBracket) :
    (Lexeme.next ls).isMark m = false := by
  cases h with
  | bare h => rcases hm with rfl | rfl <;> cases p <;> first | rfl | cases h
  | parens => rcases hm with rfl | rfl <;> rfl

end Part

theorem lexemes_ne_nil (p : Phrase) : p.lexemes ≠ [] := by
  cases p <;> simp [Phrase.lexemes, Lexeme.parens, Lexeme.between]

/-- No phrase starts with a closing parenthesis. -/
theorem not_close (p : Phrase) : (Lexeme.next p.lexemes).isMark .rightParen = false := by
  have hgrouped (q : Phrase) (ls : List Lexeme) :
      (Lexeme.next (q.grouped ++ ls)).isMark .rightParen = false := by
    rw [Lexeme.next_append q.part_grouped.ne_nil]
    exact q.part_grouped.not_close (.inl rfl)
  cases p with
  | binary | call | comprehension => exact hgrouped _ _
  | unary op => cases op <;> rfl
  | _ => rfl

theorem Clause.count_le (cs : List Clause) : cs.length ≤ (Clause.lexemesAll cs).length := by
  induction cs with
  | nil => exact Nat.zero_le _
  | cons c cs ih =>
    simp only [Clause.lexemesAll, List.length_cons, List.length_append]
    omega

end Phrase

end Clausal
