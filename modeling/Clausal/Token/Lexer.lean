import Clausal.Outcome
import Clausal.Token.Scan

/-!
# The lexer

A lexer stands on one token of a source and has the rest still to read. Advancing replaces the
token; when the next token is malformed the old one stays, and the characters read so far are
gone, so a later advance goes on behind the fault.
-/

namespace Clausal

/-- A source being read token by token. -/
structure Lexer where
  cursor : Cursor
  file : Option String
  /-- The token the lexer stands on. -/
  current : Token
  deriving Repr, Inhabited

namespace Lexer

/-- The lexer on the first token of a source. -/
def ofSource (source : String) (file : Option String) : Except Error Lexer :=
  match scan file (.ofSource source) with
  | (.ok token, cursor) => .ok ⟨cursor, file, token⟩
  | (.error e, _) => .error e

/-- Go on to the next token. -/
def advance : Run Error Lexer Unit := fun lexer =>
  match scan lexer.file lexer.cursor with
  | (.ok token, cursor) => .ok () { lexer with cursor := cursor, current := token }
  | (.error e, cursor) => .fail e { lexer with cursor := cursor }

/-- The position of the next unread character. -/
def position (lexer : Lexer) : Position := lexer.cursor.position lexer.file

end Lexer

namespace Token

/-- The tokens from a cursor on, the end of the source included. -/
def listFrom (file : Option String) (c : Cursor) : Except Error (List Token) :=
  match h : scan file c with
  | (.error e, _) => .error e
  | (.ok token, next) =>
    if hend : token.kind.isEof then .ok [token]
    else
      have : next.rest.length < c.rest.length := scan_length_lt h (by simpa using hend)
      match listFrom file next with
      | .ok tokens => .ok (token :: tokens)
      | .error e => .error e
termination_by c.rest.length

/-- All tokens of a source; the last one is its end. -/
def list (source : String) (file : Option String) : Except Error (List Token) :=
  listFrom file (.ofSource source)

end Token

end Clausal
