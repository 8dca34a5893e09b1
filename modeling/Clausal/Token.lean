import Clausal.Decimal
import Clausal.Position

/-!
# Tokens

The vocabulary of the language: keywords, marks (operators and punctuation), literals and names.
Every character the language has no use for is a token of its own, so that scanning leaves the
complaint about it to the grammar.
-/

namespace Clausal

/-- The reserved words. -/
inductive Keyword where
  | letWord | withWord | useWord | trueWord | falseWord | orWord | andWord
  deriving Repr, DecidableEq

namespace Keyword

/-- The spelling of a reserved word. -/
def text : Keyword → String
  | .letWord => "let"
  | .withWord => "with"
  | .useWord => "use"
  | .trueWord => "true"
  | .falseWord => "false"
  | .orWord => "or"
  | .andWord => "and"

/-- All reserved words. -/
def all : List Keyword :=
  [.letWord, .withWord, .useWord, .trueWord, .falseWord, .orWord, .andWord]

/-- The reserved word of this spelling. -/
def ofText? (word : String) : Option Keyword := all.find? (·.text == word)

theorem ofText?_text (k : Keyword) : ofText? k.text = some k := by
  cases k <;> decide

end Keyword

/-- Operators and punctuation. -/
inductive Mark where
  | equalEqual | notEqual | greaterEqual | lessEqual | dotDot | arrow
  | plus | minus | star | slash | caret | less | greater | equal | bang | dot
  | dollar | atSign | backtick | ampersand
  | leftParen | rightParen | leftBracket | rightBracket | leftBrace | rightBrace
  | comma | colon
  deriving Repr, DecidableEq

namespace Mark

/-- The spelling of a mark. -/
def text : Mark → String
  | .equalEqual => "=="
  | .notEqual => "!="
  | .greaterEqual => ">="
  | .lessEqual => "<="
  | .dotDot => ".."
  | .arrow => "->"
  | .plus => "+"
  | .minus => "-"
  | .star => "*"
  | .slash => "/"
  | .caret => "^"
  | .less => "<"
  | .greater => ">"
  | .equal => "="
  | .bang => "!"
  | .dot => "."
  | .dollar => "$"
  | .atSign => "@"
  | .backtick => "`"
  | .ampersand => "&"
  | .leftParen => "("
  | .rightParen => ")"
  | .leftBracket => "["
  | .rightBracket => "]"
  | .leftBrace => "\x7b"
  | .rightBrace => "\x7d"
  | .comma => ","
  | .colon => ":"

/-- The mark of two characters that `first` and `second` spell. -/
def ofPair? (first second : Char) : Option Mark :=
  match first, second with
  | '=', '=' => some .equalEqual
  | '!', '=' => some .notEqual
  | '>', '=' => some .greaterEqual
  | '<', '=' => some .lessEqual
  | '.', '.' => some .dotDot
  | '-', '>' => some .arrow
  | _, _ => none

/-- The mark that a single character spells. -/
def ofChar? (c : Char) : Option Mark :=
  match c with
  | '+' => some .plus
  | '-' => some .minus
  | '*' => some .star
  | '/' => some .slash
  | '^' => some .caret
  | '<' => some .less
  | '>' => some .greater
  | '=' => some .equal
  | '!' => some .bang
  | '.' => some .dot
  | '$' => some .dollar
  | '@' => some .atSign
  | '\x60' => some .backtick
  | '&' => some .ampersand
  | '(' => some .leftParen
  | ')' => some .rightParen
  | '[' => some .leftBracket
  | ']' => some .rightBracket
  | '\x7b' => some .leftBrace
  | '\x7d' => some .rightBrace
  | ',' => some .comma
  | ':' => some .colon
  | _ => none

end Mark

/-- What a token is, apart from where it stands. -/
inductive Token.Kind where
  | keyword (word : Keyword)
  | mark (mark : Mark)
  | number (value : Float)
  | text (content : String)
  | symbol (name : String)
  /-- A character the language has no use for. -/
  | other (c : Char)
  /-- The end of the source. -/
  | eof
  deriving Repr, Inhabited

namespace Token.Kind

/-- The kind as diagnostics and listings show it. -/
def describe : Token.Kind → String
  | .keyword w => "keyword " ++ w.text
  | .mark m => "'" ++ m.text ++ "'"
  | .number n => "number " ++ Decimal.text n
  | .text t => "string \"" ++ t ++ "\""
  | .symbol s => "symbol " ++ s
  | .other c => "'" ++ c.toString ++ "'"
  | .eof => "end of input"

/-- Whether the token is this mark. -/
def isMark (k : Token.Kind) (m : Mark) : Bool :=
  match k with
  | .mark m' => m == m'
  | _ => false

/-- Whether the token is this reserved word. -/
def isKeyword (k : Token.Kind) (w : Keyword) : Bool :=
  match k with
  | .keyword w' => w == w'
  | _ => false

/-- Whether the source ends here. -/
def isEof : Token.Kind → Bool
  | .eof => true
  | _ => false

end Token.Kind

/-- A token and the position of its first character. -/
structure Token where
  kind : Token.Kind
  position : Position
  deriving Repr, Inhabited

end Clausal
