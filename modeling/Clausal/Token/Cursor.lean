import Clausal.Position

/-!
# Cursors

The unread part of a source together with the place of its first character. Reading only ever
drops characters from the front, and the place follows what was dropped: `Cursor.Reaches a b` says
that `b` is where reading some characters from `a` leads.
-/

namespace Clausal

/-- The unread characters of a source and the place of the first of them. -/
structure Cursor where
  rest : List Char
  place : Place := {}
  deriving Repr, DecidableEq, Inhabited

namespace Cursor

/-- The start of a source. -/
def ofSource (source : String) : Cursor := { rest := source.toList }

/-- The position of the next unread character. -/
def position (c : Cursor) (file : Option String) : Position :=
  ⟨file, c.place.line, c.place.column⟩

/-- The cursor after the characters `taken`, with `rest` still to be read. -/
def past (c : Cursor) (taken rest : List Char) : Cursor := ⟨rest, c.place.afterAll taken⟩

/-- Reading some characters from `a` leads to `b`. -/
def Reaches (a b : Cursor) : Prop :=
  ∃ taken, a.rest = taken ++ b.rest ∧ b.place = a.place.afterAll taken

theorem Reaches.refl (a : Cursor) : a.Reaches a := ⟨[], rfl, rfl⟩

theorem Reaches.trans {a b c : Cursor} (h : a.Reaches b) (k : b.Reaches c) : a.Reaches c := by
  obtain ⟨x, hx, px⟩ := h
  obtain ⟨y, hy, py⟩ := k
  exact ⟨x ++ y, by rw [hx, hy, List.append_assoc], by rw [py, px, Place.afterAll_append]⟩

theorem Reaches.length_le {a b : Cursor} (h : a.Reaches b) : b.rest.length ≤ a.rest.length := by
  obtain ⟨x, hx, _⟩ := h
  rw [hx, List.length_append]
  omega

theorem reaches_cons (c : Char) (cs : List Char) (p : Place) :
    Reaches ⟨c :: cs, p⟩ ⟨cs, p.after c⟩ := ⟨[c], rfl, rfl⟩

theorem reaches_past {a : Cursor} {taken rest : List Char} (h : a.rest = taken ++ rest) :
    a.Reaches (a.past taken rest) := ⟨taken, h, rfl⟩

end Cursor

end Clausal
