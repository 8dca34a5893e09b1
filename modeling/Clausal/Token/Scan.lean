import Clausal.Error
import Clausal.Text.Blank
import Clausal.Token.Cursor

/-!
# Scanning one token

Every scanner takes a cursor and gives back what it read and the cursor it stopped at, also when
it fails: the characters read up to a fault stay read.

* `scan_reaches`: a scan only drops characters from the front, and its place follows them.
* `scan_length_lt`: a scan that finds a token other than the end drops at least one.
-/

namespace Clausal

/-- What is wrong, and where. -/
structure Fault where
  place : Place
  cause : Cause
  deriving Repr

namespace Scan

/-- What a scanner found, and the cursor it stopped at. -/
abbrev Result (α : Type) : Type := Except Fault α × Cursor

/-- Whether `c` can stand in a name or a number. -/
def isNameChar (c : Char) : Bool := c.isAlphanum || c == '_' || c == '#' || c == '?'

/-! ## Blanks and comments -/

/-- The cursor at the first character that is neither blank nor inside a comment. A comment runs
from `;` to the end of its line. -/
def trivia (inComment : Bool) : List Char → Place → Cursor
  | [], p => ⟨[], p⟩
  | c :: cs, p =>
    if inComment then trivia (c != '\n') cs (p.after c)
    else if Text.isBlank c then trivia false cs (p.after c)
    else if c == ';' then trivia true cs (p.after c)
    else ⟨c :: cs, p⟩

/-- Skip blanks and comments. -/
def skipTrivia (c : Cursor) : Cursor := trivia false c.rest c.place

/-! ## Numbers -/

/-- The value of a digit in a base up to sixteen. -/
def digitValue? (base : Nat) (c : Char) : Option Nat :=
  let value? :=
    if c.isDigit then some (c.toNat - '0'.toNat)
    else if 'a' ≤ c && c ≤ 'f' then some (c.toNat - 'a'.toNat + 10)
    else if 'A' ≤ c && c ≤ 'F' then some (c.toNat - 'A'.toNat + 10)
    else none
  value?.filter (· < base)

/-- Fold the digits at the cursor into `acc`, as far as name characters go. A name character that
is no digit of the base is a fault at its place; it counts as read. -/
def digits {α : Type} (base : Nat) (add : α → Nat → α) : α → List Char → Place → Result α
  | acc, [], p => (.ok acc, ⟨[], p⟩)
  | acc, c :: cs, p =>
    if isNameChar c then
      match digitValue? base c with
      | some d => digits base add (add acc d) cs (p.after c)
      | none => (.error ⟨p, .badDigit⟩, ⟨cs, p.after c⟩)
    else (.ok acc, ⟨c :: cs, p⟩)

/-- The base a literal announces and the cursor after the announcement: `0x` for sixteen, `0`
before a digit for eight. -/
def announcedBase (c : Cursor) : Nat × Cursor :=
  match c.rest with
  | '0' :: 'x' :: cs => (16, c.past ['0', 'x'] cs)
  | '0' :: d :: cs => (if d.isDigit then 8 else 10, c.past ['0'] (d :: cs))
  | '0' :: [] => (10, c.past ['0'] [])
  | _ => (10, c)

/-- One more digit before the point. -/
def addWhole (base : Nat) (n : Float) (digit : Nat) : Float :=
  n * Float.ofNat base + Float.ofNat digit

/-- One more digit after the point, of the next smaller magnitude. -/
def addFraction (acc : Float × Float) (digit : Nat) : Float × Float :=
  let magnitude := acc.2 / 10
  (acc.1 + magnitude * Float.ofNat digit, magnitude)

/-- The digits after the point. -/
def fraction (whole : Float) (c : Cursor) : Result Float :=
  match digits 10 addFraction (whole, 1) c.rest c.place with
  | (.ok (n, _), c) => (.ok n, c)
  | (.error fault, c) => (.error fault, c)

/-- A number literal. A point that another point follows is not part of it: `1..5` is a range. -/
def number (c : Cursor) : Result Float :=
  let (base, start) := announcedBase c
  match digits base (addWhole base) 0 start.rest start.place with
  | (.error fault, c) => (.error fault, c)
  | (.ok whole, c) =>
    match c.rest with
    | '.' :: '.' :: _ => (.ok whole, c)
    | '.' :: cs =>
      if base = 10 then fraction whole (c.past ['.'] cs)
      else (.error ⟨c.place, .fractionBase⟩, c.past ['.'] cs)
    | _ => (.ok whole, c)

/-! ## Strings, names and marks -/

/-- The character that a backslash and `c` stand for. -/
def unescape (c : Char) : Char :=
  match c with
  | 'n' => '\n'
  | 't' => '\t'
  | 'r' => '\r'
  | c => c

/-- The content of a string literal after its opening quote, in front of the characters `acc` in
reverse; `none` if the source ends first. -/
def textContent : List Char → List Char → Place → Option String × Cursor
  | _, [], p => (none, ⟨[], p⟩)
  | acc, '"' :: cs, p => (some (String.ofList acc.reverse), ⟨cs, p.after '"'⟩)
  | _, ['\\'], p => (none, ⟨[], p.after '\\'⟩)
  | acc, '\\' :: c :: cs, p => textContent (unescape c :: acc) cs ((p.after '\\').after c)
  | acc, c :: cs, p => textContent (c :: acc) cs (p.after c)

/-- A string literal whose opening quote stands at the cursor `start` and before `cs`. One that is
not closed is a fault at its quote. -/
def text (start : Cursor) (cs : List Char) : Result String :=
  match textContent [] cs (start.place.after '"') with
  | (some content, c) => (.ok content, c)
  | (none, c) => (.error ⟨start.place, .openText⟩, c)

/-- A name or a reserved word. -/
def word (c : Cursor) : Token.Kind × Cursor :=
  let name := c.rest.takeWhile isNameChar
  let kind := match Keyword.ofText? (String.ofList name) with
    | some keyword => .keyword keyword
    | none => .symbol (String.ofList name)
  (kind, c.past name (c.rest.dropWhile isNameChar))

/-- The token that a single character is. -/
def single (c : Char) : Token.Kind :=
  match Mark.ofChar? c with
  | some m => .mark m
  | none => .other c

/-- A mark that starts with `first` at the cursor `start`, of two characters if they spell one. -/
def mark (start : Cursor) (first : Char) (cs : List Char) : Token.Kind × Cursor :=
  match cs with
  | second :: rest =>
    match Mark.ofPair? first second with
    | some m => (.mark m, start.past [first, second] rest)
    | none => (single first, start.past [first] cs)
  | [] => (single first, start.past [first] cs)

/-- The kind of the token at the cursor, which stands at no blank. -/
def kind (c : Cursor) : Result Token.Kind :=
  match c.rest with
  | [] => (.ok .eof, c)
  | first :: cs =>
    if first.isDigit then
      match number c with
      | (.ok n, c) => (.ok (.number n), c)
      | (.error fault, c) => (.error fault, c)
    else if first = '"' then
      match text c cs with
      | (.ok content, c) => (.ok (.text content), c)
      | (.error fault, c) => (.error fault, c)
    else if isNameChar first then
      match word c with
      | (k, c) => (.ok k, c)
    else
      match mark c first cs with
      | (k, c) => (.ok k, c)

end Scan

/-- The next token of a source, and the cursor after it. -/
def scan (file : Option String) (c : Cursor) : Except Error Token × Cursor :=
  match Scan.kind (Scan.skipTrivia c) with
  | (.ok k, stop) => (.ok ⟨k, (Scan.skipTrivia c).position file⟩, stop)
  | (.error fault, stop) =>
    (.error (.found ⟨file, fault.place.line, fault.place.column⟩ fault.cause), stop)

/-! ## Reading goes forward -/

namespace Scan

open Cursor

theorem trivia_reaches (b : Bool) (cs : List Char) (p : Place) :
    Reaches ⟨cs, p⟩ (trivia b cs p) := by
  induction cs generalizing b p with
  | nil => exact Reaches.refl _
  | cons c cs ih =>
    have step (b : Bool) : Reaches ⟨c :: cs, p⟩ (trivia b cs (p.after c)) :=
      (reaches_cons c cs p).trans (ih b (p.after c))
    unfold trivia
    split
    · exact step _
    · split
      · exact step _
      · split
        · exact step _
        · exact Reaches.refl _

theorem skipTrivia_reaches (c : Cursor) : c.Reaches (skipTrivia c) :=
  trivia_reaches false c.rest c.place

theorem digits_reaches {α : Type} (base : Nat) (add : α → Nat → α) (acc : α) (cs : List Char)
    (p : Place) : Reaches ⟨cs, p⟩ (digits base add acc cs p).2 := by
  induction cs generalizing acc p with
  | nil => exact Reaches.refl _
  | cons c cs ih =>
    unfold digits
    split
    · split
      · exact (reaches_cons c cs p).trans (ih _ _)
      · exact reaches_cons c cs p
    · exact Reaches.refl _

/-- Digits read from a digit of their base drop it. -/
theorem digits_length_lt {α : Type} (base : Nat) (add : α → Nat → α) (acc : α) (c : Char)
    (cs : List Char) (p : Place) (h : isNameChar c) :
    (digits base add acc (c :: cs) p).2.rest.length < (c :: cs).length := by
  unfold digits
  rw [if_pos h]
  split
  · rename_i d _
    have := (digits_reaches base add (add acc d) cs (p.after c)).length_le
    simp only [List.length_cons] at *
    omega
  · simp

theorem announcedBase_reaches (c : Cursor) : c.Reaches (announcedBase c).2 := by
  unfold announcedBase
  split
  · exact reaches_past (by assumption)
  · exact reaches_past (by assumption)
  · exact reaches_past (by assumption)
  · exact Reaches.refl _

theorem fraction_reaches (whole : Float) (c : Cursor) : c.Reaches (fraction whole c).2 := by
  have h := digits_reaches 10 addFraction (whole, 1) c.rest c.place
  unfold fraction
  split <;> rename_i heq <;> rw [heq] at h <;> exact h

/-- A number that starts with a digit drops it, and only drops. -/
theorem number_reaches {c : Cursor} {d : Char} {cs : List Char} (h : c.rest = d :: cs)
    (hd : d.isDigit) :
    c.Reaches (number c).2 ∧ (number c).2.rest.length < c.rest.length := by
  have base := announcedBase_reaches c
  have hn : isNameChar d := by simp [isNameChar, Char.isAlphanum, hd]
  -- the whole part already reads a character
  have whole : ∀ b, b = (announcedBase c).1 →
      c.Reaches (digits b (addWhole b) 0 (announcedBase c).2.rest (announcedBase c).2.place).2 ∧
      (digits b (addWhole b) 0 (announcedBase c).2.rest (announcedBase c).2.place).2.rest.length
        < c.rest.length := by
    intro b _
    have tail := digits_reaches b (addWhole b) 0 (announcedBase c).2.rest (announcedBase c).2.place
    refine ⟨base.trans tail, ?_⟩
    by_cases eq : (announcedBase c).2 = c
    · rw [eq, h]
      exact digits_length_lt b (addWhole b) 0 d cs c.place hn
    · have shorter : (announcedBase c).2.rest.length < c.rest.length := by
        unfold announcedBase at eq ⊢
        split at eq
        · rename_i heq
          simp only [heq, past, List.length_cons]
          omega
        · rename_i heq
          simp only [heq, past, List.length_cons]
          omega
        · rename_i heq
          simp only [heq, past, List.length_cons]
          omega
        · exact absurd rfl eq
      exact Nat.lt_of_le_of_lt tail.length_le shorter
  obtain ⟨reach, short⟩ := whole _ rfl
  unfold number
  split
  rename_i b start hstart
  simp only [hstart] at reach short
  split
  · rename_i heq
    rw [heq] at reach short
    exact ⟨reach, short⟩
  · rename_i n c' heq
    rw [heq] at reach short
    split
    · exact ⟨reach, short⟩
    · rename_i ds _ hds
      have point : c'.Reaches (c'.past ['.'] ds) := reaches_past hds
      split
      · have rest := point.trans (fraction_reaches n (c'.past ['.'] ds))
        exact ⟨reach.trans rest, Nat.lt_of_le_of_lt rest.length_le short⟩
      · exact ⟨reach.trans point, Nat.lt_of_le_of_lt point.length_le short⟩
    · exact ⟨reach, short⟩

theorem textContent_reaches (acc cs : List Char) (p : Place) :
    Reaches ⟨cs, p⟩ (textContent acc cs p).2 := by
  fun_induction textContent acc cs p with
  | case1 => exact Reaches.refl _
  | case2 => exact reaches_cons _ _ _
  | case3 => exact reaches_cons _ _ _
  | case4 _ _ _ _ ih => exact ((reaches_cons _ _ _).trans (reaches_cons _ _ _)).trans ih
  | case5 _ _ _ _ _ _ _ ih => exact (reaches_cons _ _ _).trans ih

theorem text_reaches {c : Cursor} {cs : List Char} (h : c.rest = '"' :: cs) :
    c.Reaches (text c cs).2 ∧ (text c cs).2.rest.length < c.rest.length := by
  have quote : c.Reaches (c.past ['"'] cs) := reaches_past h
  have inner := textContent_reaches [] cs (c.place.after '"')
  have both : c.Reaches (textContent [] cs (c.place.after '"')).2 ∧
      (textContent [] cs (c.place.after '"')).2.rest.length < c.rest.length := by
    refine ⟨quote.trans inner, Nat.lt_of_le_of_lt inner.length_le ?_⟩
    simp only [h, List.length_cons]
    omega
  unfold text
  split <;> rename_i heq <;> rw [heq] at both <;> exact both

theorem word_reaches {c : Cursor} {d : Char} {cs : List Char} (h : c.rest = d :: cs)
    (hd : isNameChar d) :
    c.Reaches (word c).2 ∧ (word c).2.rest.length < c.rest.length := by
  have reach : c.Reaches (word c).2 :=
    reaches_past (List.takeWhile_append_dropWhile).symm
  refine ⟨reach, ?_⟩
  have : (cs.dropWhile isNameChar).length ≤ cs.length := (List.dropWhile_sublist _).length_le
  simp only [word, past, h, List.dropWhile_cons, hd, if_true, List.length_cons]
  omega

theorem mark_reaches {c : Cursor} {first : Char} {cs : List Char} (h : c.rest = first :: cs) :
    c.Reaches (mark c first cs).2 ∧ (mark c first cs).2.rest.length < c.rest.length := by
  unfold mark
  split
  · split
    · exact ⟨reaches_past h, by simp only [past, h, List.length_cons]; omega⟩
    · exact ⟨reaches_past h, by simp only [past, h, List.length_cons]; omega⟩
  · exact ⟨reaches_past h, by simp only [past, h, List.length_cons]; omega⟩

/-- The scan of a kind only drops characters, and drops one unless the source is at its end. -/
theorem kind_reaches (c : Cursor) :
    c.Reaches (kind c).2 ∧ (c.rest ≠ [] → (kind c).2.rest.length < c.rest.length) := by
  unfold kind
  split
  · rename_i h
    exact ⟨Reaches.refl _, fun k => absurd h k⟩
  · rename_i first cs h
    split
    · rename_i hd
      have := number_reaches h hd
      split <;> rename_i heq <;> rw [heq] at this <;> exact ⟨this.1, fun _ => this.2⟩
    · split
      · rename_i hq
        subst hq
        have := text_reaches h
        split <;> rename_i heq <;> rw [heq] at this <;> exact ⟨this.1, fun _ => this.2⟩
      · split
        · rename_i hn
          have := word_reaches h hn
          exact ⟨this.1, fun _ => this.2⟩
        · have := mark_reaches h
          exact ⟨this.1, fun _ => this.2⟩

end Scan

/-- A scan only drops characters from the front, and its place follows them. -/
theorem scan_reaches (file : Option String) (c : Cursor) : c.Reaches (scan file c).2 := by
  have h := (Scan.skipTrivia_reaches c).trans (Scan.kind_reaches (Scan.skipTrivia c)).1
  unfold scan
  split <;> rename_i heq <;> simp only [heq] at h <;> exact h

/-- A scan that finds a token other than the end drops at least one character. -/
theorem scan_length_lt {file : Option String} {c c' : Cursor} {t : Token}
    (h : scan file c = (.ok t, c')) (ht : t.kind.isEof = false) :
    c'.rest.length < c.rest.length := by
  have skip := (Scan.skipTrivia_reaches c).length_le
  have step := (Scan.kind_reaches (Scan.skipTrivia c)).2
  unfold scan at h
  split at h
  · rename_i k c₁ heq
    simp only [Prod.mk.injEq, Except.ok.injEq] at h
    obtain ⟨rfl, rfl⟩ := h
    rw [heq] at step
    by_cases hnil : (Scan.skipTrivia c).rest = []
    · simp only [Scan.kind, hnil, Prod.mk.injEq, Except.ok.injEq] at heq
      obtain ⟨rfl, _⟩ := heq
      simp [Token.Kind.isEof] at ht
    · exact Nat.lt_of_lt_of_le (step hnil) skip
  · simp at h

end Clausal
