/-!
# Positions

Where a character stands in a source: the line and the column, both from 1, and the name of the
source if it has one. Columns count characters.
-/

namespace Clausal

/-- A line and a column. -/
structure Place where
  line : Nat := 1
  column : Nat := 1
  deriving Repr, DecidableEq, Inhabited

namespace Place

/-- The place after the character `c`: a line feed starts a line. -/
def after (p : Place) (c : Char) : Place :=
  if c = '\n' then ⟨p.line + 1, 1⟩ else ⟨p.line, p.column + 1⟩

/-- The place after a run of characters. -/
def afterAll (p : Place) (cs : List Char) : Place := cs.foldl after p

@[simp] theorem afterAll_nil (p : Place) : p.afterAll [] = p := rfl

@[simp] theorem afterAll_cons (p : Place) (c : Char) (cs : List Char) :
    p.afterAll (c :: cs) = (p.after c).afterAll cs := rfl

theorem afterAll_append (p : Place) (cs ds : List Char) :
    p.afterAll (cs ++ ds) = (p.afterAll cs).afterAll ds := List.foldl_append

end Place

/-- A place in a source, with the name of the source unless it has none. -/
structure Position where
  file : Option String
  line : Nat
  column : Nat
  deriving Repr, DecidableEq, Inhabited

namespace Position

/-- `line 3, column 7`, with the file before it when there is one. -/
def text (p : Position) : String :=
  let source := match p.file with
    | some file => "in '" ++ file ++ "': "
    | none => ""
  source ++ "line " ++ toString p.line ++ ", column " ++ toString p.column

end Position

end Clausal
