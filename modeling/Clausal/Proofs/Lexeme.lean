import Clausal.Operator
import Clausal.Token.Lexer

/-!
# Lexemes

A lexeme is a run of characters that is read as one token wherever a blank, a comment or the end
of the source follows it. Marks, reserved words, names, quoted texts and numerals have lexemes;
a text that lays lexemes out with a space between neighbours is read as their tokens, one after
the other (`Lexeme.exists_shows`).

A numeral is any run of characters that the scanner of numbers takes as a whole, with the value it
gives to it. What follows a numeral has no part in that value (`Scan.IsNumeral.number_append`).
-/

namespace Clausal

namespace Scan

/-! ## What may follow a token -/

/-- Nothing here can belong to a token before it: the source ends, or a blank or a comment
starts. -/
def Breaks (rest : List Char) : Prop := ∀ c ∈ rest.head?, Text.isBlank c = true ∨ c = ';'

theorem breaks_nil : Breaks [] := by
  intro c hc
  cases hc

theorem breaks_space (rest : List Char) : Breaks (' ' :: rest) := by
  intro c hc
  cases hc
  exact .inl (by decide)

/-- A name character is neither blank nor the start of a comment. -/
theorem isNameChar_solid {c : Char} (h : isNameChar c = true) :
    Text.isBlank c = false ∧ c ≠ ';' := by
  unfold isNameChar Char.isAlphanum Char.isAlpha Char.isUpper Char.isLower Char.isDigit at h
  simp only [Bool.or_eq_true, beq_iff_eq, Bool.and_eq_true, decide_eq_true_eq,
    UInt32.le_iff_toNat_le, ge_iff_le] at h
  change (((((65 ≤ c.toNat ∧ c.toNat ≤ 90) ∨ (97 ≤ c.toNat ∧ c.toNat ≤ 122)) ∨
    (48 ≤ c.toNat ∧ c.toNat ≤ 57)) ∨ c = '_') ∨ c = '#') ∨ c = '?' at h
  rcases h with ((h | rfl) | rfl) | rfl
  · constructor
    · simp only [Text.isBlank, Bool.or_eq_false_iff, Bool.and_eq_false_iff,
        decide_eq_false_iff_not, beq_eq_false_iff_ne]
      omega
    · rintro rfl
      have : ';'.toNat = 59 := rfl
      omega
  all_goals decide

theorem Breaks.not_isNameChar {c : Char} {rest : List Char} (h : Breaks (c :: rest)) :
    isNameChar c = false := by
  cases hc : isNameChar c with
  | false => rfl
  | true =>
    have hsolid := isNameChar_solid hc
    rcases h c rfl with hblank | hcomment
    · rw [hsolid.1] at hblank
      cases hblank
    · exact absurd hcomment hsolid.2

/-- Nothing here continues a run of name characters. -/
def Stops (rest : List Char) : Prop := ∀ c ∈ rest.head?, isNameChar c = false

theorem stops_nil : Stops [] := by
  intro c hc
  cases hc

theorem Breaks.stops {rest : List Char} (h : Breaks rest) : Stops rest := by
  intro c hc
  cases rest with
  | nil => cases hc
  | cons d rest =>
    cases hc
    exact h.not_isNameChar

theorem Breaks.ne {c d : Char} {rest : List Char} (h : Breaks (c :: rest))
    (hd : Text.isBlank d = false) (hcomment : d ≠ ';') : c ≠ d := by
  rintro rfl
  rcases h c rfl with hc | hc
  · rw [hd] at hc
    cases hc
  · exact hcomment hc

/-! ## Marks and words -/

theorem ofPair?_of_breaks {first c : Char} {rest : List Char} (h : Breaks (c :: rest)) :
    Mark.ofPair? first c = none := by
  have hequal : c ≠ '=' := h.ne (by decide) (by decide)
  have hdot : c ≠ '.' := h.ne (by decide) (by decide)
  have hgreater : c ≠ '>' := h.ne (by decide) (by decide)
  unfold Mark.ofPair?
  split <;> first | contradiction | rfl

theorem mark_of_breaks (start : Cursor) (first : Char) {rest : List Char} (h : Breaks rest) :
    mark start first rest = (single first, start.past [first] rest) := by
  cases rest with
  | nil => rfl
  | cons c rest =>
    unfold mark
    simp only [ofPair?_of_breaks h]

/-- A single character that is a mark is read as this mark. -/
theorem kind_single {c : Char} {m : Mark} {rest : List Char} (hm : Mark.ofChar? c = some m)
    (hdigit : c.isDigit = false) (hquote : c ≠ '"') (hname : isNameChar c = false)
    (h : Breaks rest) (p : Place) : kind ⟨c :: rest, p⟩ = (.ok (.mark m), ⟨rest, p.after c⟩) := by
  have hsingle : single c = .mark m := by simp only [single, hm]
  simp only [kind, hdigit, hquote, hname, if_false, Bool.false_eq_true, mark_of_breaks _ _ h,
    hsingle]
  rfl

theorem takeWhile_of_stops {name rest : List Char} (hname : ∀ c ∈ name, isNameChar c = true)
    (h : Stops rest) :
    (name ++ rest).takeWhile isNameChar = name ∧ (name ++ rest).dropWhile isNameChar = rest := by
  rw [List.takeWhile_append_of_pos hname, List.dropWhile_append_of_pos hname]
  cases rest with
  | nil => simp
  | cons c rest =>
    have hc : isNameChar c = false := h c rfl
    simp [hc]

/-- What is read of name characters that do not start with a digit. -/
theorem kind_word {name : List Char} {rest : List Char} {p : Place}
    (hleading : ∃ c cs, name = c :: cs ∧ c.isDigit = false)
    (hname : ∀ c ∈ name, isNameChar c = true) (hrest : Stops rest) :
    kind ⟨name ++ rest, p⟩ =
      (.ok ((Keyword.ofText? (String.ofList name)).elim (.symbol (String.ofList name)) .keyword),
        ⟨rest, p.afterAll name⟩) := by
  obtain ⟨htake, hdrop⟩ := takeWhile_of_stops hname hrest
  obtain ⟨c, cs, rfl, hdigit⟩ := hleading
  have hc : isNameChar c = true := hname c List.mem_cons_self
  have hquote : c ≠ '"' := by
    rintro rfl
    exact absurd hc (by decide)
  have hword : word ⟨c :: cs ++ rest, p⟩ =
      ((Keyword.ofText? (String.ofList (c :: cs))).elim (.symbol (String.ofList (c :: cs)))
          .keyword,
        ⟨rest, p.afterAll (c :: cs)⟩) := by
    cases h : Keyword.ofText? (String.ofList (c :: cs)) <;>
      simp only [word, htake, hdrop, h, Cursor.past, Option.elim]
  have hkind : kind ⟨c :: cs ++ rest, p⟩ = (.ok (word ⟨c :: cs ++ rest, p⟩).1,
      (word ⟨c :: cs ++ rest, p⟩).2) := by
    simp only [kind, List.cons_append, hdigit, hquote, hc, if_true, if_false, Bool.false_eq_true]
  rw [hkind, hword]

/-- A reserved word is read as itself, whatever follows that does not continue the word. -/
theorem kind_keyword (w : Keyword) {rest : List Char} (hrest : Stops rest) (p : Place) :
    kind ⟨w.text.toList ++ rest, p⟩ = (.ok (.keyword w), ⟨rest, p.afterAll w.text.toList⟩) := by
  have hleading : ∃ c cs, w.text.toList = c :: cs ∧ c.isDigit = false := by
    cases w <;> exact ⟨_, _, rfl, by decide⟩
  have hname : w.text.toList.all isNameChar = true := by cases w <;> rfl
  rw [kind_word hleading (List.all_eq_true.mp hname) hrest, String.ofList_toList,
    Keyword.ofText?_text]
  rfl

/-- A name character does not end a token. -/
theorem solid_of_isNameChar {cs : List Char} (hcs : cs ≠ [])
    (h : ∀ c ∈ cs, isNameChar c = true) :
    ∃ c ds, cs = c :: ds ∧ Text.isBlank c = false ∧ c ≠ ';' := by
  cases cs with
  | nil => exact absurd rfl hcs
  | cons c ds => exact ⟨c, ds, rfl, isNameChar_solid (h c List.mem_cons_self)⟩

/-! ## Numbers -/

/-- The characters are digits of the base. -/
def IsDigits (base : Nat) (run : List Char) : Prop :=
  ∀ c ∈ run, isNameChar c = true ∧ (digitValue? base c).isSome = true

/-- Fold one more digit into a value. -/
def addDigit {α : Type} (base : Nat) (add : α → Nat → α) (acc : α) (c : Char) : α :=
  add acc ((digitValue? base c).getD 0)

theorem isDigits_nil (base : Nat) : IsDigits base [] := by
  intro c hc
  cases hc

section

variable {α : Type} {base : Nat} {add : α → Nat → α}

theorem digits_append {run rest : List Char} (hrun : IsDigits base run) (hrest : Stops rest)
    (acc : α) (p : Place) :
    digits base add acc (run ++ rest) p =
      (.ok (run.foldl (addDigit base add) acc), ⟨rest, p.afterAll run⟩) := by
  induction run generalizing acc p with
  | nil =>
    cases rest with
    | nil => rfl
    | cons c rest =>
      have hc : isNameChar c = false := hrest c rfl
      simp [digits, hc]
  | cons c run ih =>
    obtain ⟨⟨hname, hdigit⟩, hrun⟩ := List.forall_mem_cons.mp hrun
    obtain ⟨d, hd⟩ := Option.isSome_iff_exists.mp hdigit
    simp only [List.cons_append, digits, hname, if_true, hd, List.foldl_cons, addDigit,
      Option.getD_some, Place.afterAll_cons]
    exact ih hrun _ _

theorem exists_digits {acc a : α} {cs : List Char} {p : Place} {c : Cursor}
    (h : digits base add acc cs p = (.ok a, c)) :
    ∃ run, cs = run ++ c.rest ∧ IsDigits base run ∧ Stops c.rest ∧
      a = run.foldl (addDigit base add) acc := by
  induction cs generalizing acc p with
  | nil =>
    cases h
    exact ⟨[], rfl, isDigits_nil base, stops_nil, rfl⟩
  | cons d cs ih =>
    rw [digits] at h
    split at h
    · next hname =>
      split at h
      · next v hv =>
        obtain ⟨run, rfl, hrun, hstops, rfl⟩ := ih h
        refine ⟨d :: run, rfl, ?_, hstops, ?_⟩
        · exact List.forall_mem_cons.mpr ⟨⟨hname, by rw [hv]; rfl⟩, hrun⟩
        · simp only [List.foldl_cons, addDigit, hv, Option.getD_some]
      · cases h
    · next hname =>
      cases h
      refine ⟨[], rfl, isDigits_nil base, ?_, rfl⟩
      intro e he
      cases he
      simpa using hname

end

/-- What follows the whole part of a number: a point and its fraction, or nothing. -/
def point (base : Nat) (whole : Float) (c : Cursor) : Result Float :=
  match c.rest with
  | '.' :: '.' :: _ => (.ok whole, c)
  | '.' :: cs =>
    if base = 10 then fraction whole (c.past ['.'] cs)
    else (.error ⟨c.place, .fractionBase⟩, c.past ['.'] cs)
  | _ => (.ok whole, c)

theorem number_eq_ok_iff {c stop : Cursor} {x : Float} :
    number c = (.ok x, stop) ↔
      ∃ whole mid, digits (announcedBase c).1 (addWhole (announcedBase c).1) 0
          (announcedBase c).2.rest (announcedBase c).2.place = (.ok whole, mid) ∧
        point (announcedBase c).1 whole mid = (.ok x, stop) := by
  unfold number
  split
  next base start hbase =>
  simp only [hbase]
  split
  · next fault mid heq => simp [heq]
  · next whole mid heq =>
    simp only [heq, Prod.mk.injEq, Except.ok.injEq]
    constructor
    · intro h
      exact ⟨whole, mid, ⟨rfl, rfl⟩, h⟩
    · rintro ⟨_, _, ⟨rfl, rfl⟩, h⟩
      exact h

/-- What can stand after the whole part of a number, and the value of both together. -/
inductive Fraction (base : Nat) (whole : Float) : List Char → Float → Prop
  | none : Fraction base whole [] whole
  | some {frac : List Char} (hbase : base = 10) (hfrac : IsDigits 10 frac) :
    Fraction base whole ('.' :: frac) (frac.foldl (addDigit 10 addFraction) (whole, 1)).1

theorem Fraction.stops_append {base : Nat} {whole x : Float} {cs rest : List Char}
    (h : Fraction base whole cs x) (hrest : Stops rest) : Stops (cs ++ rest) := by
  cases h with
  | none => exact hrest
  | some _ _ =>
    intro c hc
    cases hc
    decide

/-- A point in front of what may follow a fraction is no second point. -/
theorem ne_point_of_digits {run rest cs : List Char} {c : Char} (hrun : IsDigits 10 run)
    (hrest : Breaks rest) (h : run ++ rest = c :: cs) : c ≠ '.' := by
  cases run with
  | nil =>
    rw [List.nil_append] at h
    subst h
    exact hrest.ne (by decide) (by decide)
  | cons d run =>
    cases h
    rintro rfl
    exact absurd (hrun _ List.mem_cons_self).1 (by decide)

theorem point_append {base : Nat} {whole x : Float} {cs rest : List Char}
    (h : Fraction base whole cs x) (hrest : Breaks rest) (p : Place) :
    ∃ q, point base whole ⟨cs ++ rest, p⟩ = (.ok x, ⟨rest, q⟩) := by
  cases h with
  | none =>
    refine ⟨p, ?_⟩
    unfold point
    split
    · next heq => exact absurd rfl (ne_point_of_digits (isDigits_nil 10) hrest heq)
    · next heq => exact absurd rfl (ne_point_of_digits (isDigits_nil 10) hrest heq)
    · rfl
  | @some frac hbase hfrac =>
    refine ⟨(p.after '.').afterAll frac, ?_⟩
    unfold point
    split
    · next heq => exact absurd rfl (ne_point_of_digits hfrac hrest (List.cons.inj heq).2)
    · next cs _ heq =>
      have hcs : frac ++ rest = cs := (List.cons.inj heq).2
      subst hcs
      rw [if_pos hbase]
      simp only [fraction, Cursor.past, Place.afterAll_cons, Place.afterAll_nil,
        digits_append hfrac hrest.stops]
    · next hnot => exact absurd rfl (hnot (frac ++ rest))

theorem exists_fraction {base : Nat} {whole x : Float} {c stop : Cursor}
    (h : point base whole c = (.ok x, stop)) (hc : Stops c.rest) :
    ∃ cs, c.rest = cs ++ stop.rest ∧ Fraction base whole cs x ∧ Stops stop.rest := by
  unfold point at h
  split at h
  · cases h
    exact ⟨[], rfl, .none, hc⟩
  · next cs _ heq =>
    split at h
    · next hbase =>
      unfold fraction at h
      split at h
      · next n m stop' hdigits =>
        cases h
        obtain ⟨run, hcs, hrun, hstops, hvalue⟩ := exists_digits hdigits
        refine ⟨'.' :: run, by rw [heq, List.cons_append, ← hcs]; rfl, ?_, hstops⟩
        have hx : x = (run.foldl (addDigit 10 addFraction) (whole, 1)).1 := by rw [← hvalue]
        rw [hx]
        exact .some hbase hrun
      · cases h
    · cases h
  · cases h
    exact ⟨[], rfl, .none, hc⟩

/-- The base of a number literal depends on its own characters only. -/
theorem announcedBase_append {cs rest : List Char} (hcs : cs ≠ []) (hrest : Stops rest)
    (p : Place) :
    ∃ q, announcedBase ⟨cs ++ rest, p⟩ =
      ((announcedBase ⟨cs, {}⟩).1, ⟨(announcedBase ⟨cs, {}⟩).2.rest ++ rest, q⟩) := by
  match cs, hcs with
  | [c], _ =>
    by_cases hc : c = '0'
    · subst hc
      cases rest with
      | nil => exact ⟨_, rfl⟩
      | cons d rest =>
        have hd : isNameChar d = false := hrest d rfl
        have hdigit : d.isDigit = false := by
          simp only [isNameChar, Char.isAlphanum, Bool.or_eq_false_iff] at hd
          exact hd.1.1.1.2
        have hx : d ≠ 'x' := by
          rintro rfl
          exact absurd hd (by decide)
        exact ⟨p.after '0', by simp [announcedBase, hdigit, Cursor.past]⟩
    · exact ⟨p, by simp [announcedBase, hc]⟩
  | c :: d :: cs, _ =>
    by_cases hc : c = '0'
    · subst hc
      by_cases hd : d = 'x'
      · subst hd
        exact ⟨_, rfl⟩
      · exact ⟨p.after '0', by simp [announcedBase, Cursor.past]⟩
    · exact ⟨p, by simp [announcedBase, hc]⟩

/-- The characters make up a number literal of this value. -/
def IsNumeral (cs : List Char) (x : Float) : Prop :=
  ∃ base start run frac, announcedBase ⟨cs, {}⟩ = (base, start) ∧ start.rest = run ++ frac ∧
    IsDigits base run ∧ Fraction base (run.foldl (addDigit base (addWhole base)) 0) frac x

/-- A number literal is read as a whole wherever nothing follows that could belong to it. -/
theorem IsNumeral.number_append {cs rest : List Char} {x : Float} (h : IsNumeral cs x)
    (hcs : cs ≠ []) (hrest : Breaks rest) (p : Place) :
    ∃ q, number ⟨cs ++ rest, p⟩ = (.ok x, ⟨rest, q⟩) := by
  obtain ⟨base, start, run, frac, hbase, htail, hrun, hfrac⟩ := h
  obtain ⟨q, hq⟩ := announcedBase_append hcs hrest.stops p
  rw [hbase, htail, List.append_assoc] at hq
  obtain ⟨q', hq'⟩ := point_append hfrac hrest (q.afterAll run)
  refine ⟨q', number_eq_ok_iff.mpr ⟨_, ⟨frac ++ rest, q.afterAll run⟩, ?_, by rw [hq]; exact hq'⟩⟩
  rw [hq, digits_append hrun (hfrac.stops_append hrest.stops)]

/-- What is read as a number is a number literal. -/
theorem isNumeral_of_number {cs rest : List Char} {x : Float} {p q : Place} (hcs : cs ≠ [])
    (h : number ⟨cs ++ rest, p⟩ = (.ok x, ⟨rest, q⟩)) : IsNumeral cs x := by
  obtain ⟨whole, mid, hwhole, hpoint⟩ := number_eq_ok_iff.mp h
  obtain ⟨run, htail, hrun, hmid, hvalue⟩ := exists_digits hwhole
  obtain ⟨frac, hmid, hfrac, hrest⟩ := exists_fraction hpoint hmid
  obtain ⟨start, hbase⟩ := announcedBase_append hcs hrest p
  rw [hbase] at htail hrun hfrac hvalue
  rw [hvalue] at hfrac
  refine ⟨_, _, run, frac, rfl, ?_, hrun, hfrac⟩
  rw [hmid, ← List.append_assoc] at htail
  exact List.append_cancel_right htail

/-! ## Texts -/

/-- The characters between the quotes of a text: a quote and a backslash are escaped. -/
def escaped : List Char → List Char
  | [] => []
  | c :: cs => if c = '"' ∨ c = '\\' then '\\' :: c :: escaped cs else c :: escaped cs

theorem textContent_escaped (cs rest acc : List Char) (p : Place) :
    ∃ q, textContent acc (escaped cs ++ '"' :: rest) p =
      (some (String.ofList (acc.reverse ++ cs)), ⟨rest, q⟩) := by
  induction cs generalizing acc p with
  | nil => exact ⟨_, by simp [escaped, textContent]; rfl⟩
  | cons c cs ih =>
    rw [escaped]
    split
    · next hc =>
      have hunescape : unescape c = c := by rcases hc with rfl | rfl <;> rfl
      obtain ⟨q, hq⟩ := ih (c :: acc) ((p.after '\\').after c)
      refine ⟨q, ?_⟩
      simp only [List.cons_append, textContent, hunescape, hq, List.reverse_cons,
        List.append_assoc, List.nil_append]
    · next hc =>
      obtain ⟨hquote, hslash⟩ := not_or.mp hc
      obtain ⟨q, hq⟩ := ih (c :: acc) (p.after c)
      refine ⟨q, ?_⟩
      rw [List.cons_append, textContent]
      · simp only [hq, List.reverse_cons, List.append_assoc, List.singleton_append]
      · exact hquote
      · exact fun h _ => hslash h
      · exact fun c' cs' h _ => hslash h

end Scan

/-! ## Lexemes -/

/-- A run of characters that is read as one token wherever it stands by itself. -/
structure Lexeme where
  kind : Token.Kind
  chars : List Char
  /-- It starts with no blank and no comment. -/
  solid : ∃ c cs, chars = c :: cs ∧ Text.isBlank c = false ∧ c ≠ ';'
  /-- It is read as a whole, whatever break follows. -/
  scans : ∀ rest p, Scan.Breaks rest →
    ∃ q, Scan.kind ⟨chars ++ rest, p⟩ = (.ok kind, ⟨rest, q⟩)

/-- A name: name characters of which the first is no digit, and no reserved word. -/
structure Identifier where
  text : String
  leading : ∃ c cs, text.toList = c :: cs ∧ c.isDigit = false
  chars : ∀ c ∈ text.toList, Scan.isNameChar c = true
  free : Keyword.ofText? text = none

/-- A number literal: a run of characters that starts with a digit and that the scanner of numbers
takes as a whole, with the value it gives to it. -/
structure Numeral where
  chars : List Char
  value : Float
  leading : ∃ d ds, chars = d :: ds ∧ d.isDigit = true
  reads : ∃ q, Scan.number ⟨chars, {}⟩ = (.ok value, ⟨[], q⟩)

namespace Lexeme

open Scan

/-- A mark is read as itself. -/
def mark (m : Mark) : Lexeme where
  kind := .mark m
  chars := m.text.toList
  solid := by cases m <;> exact ⟨_, _, rfl, by decide, by decide⟩
  scans := by
    intro rest p hrest
    cases m
    case equalEqual | notEqual | greaterEqual | lessEqual | dotDot | arrow => exact ⟨_, rfl⟩
    all_goals exact ⟨_, kind_single rfl (by decide) (by decide) (by decide) hrest p⟩

/-- A reserved word is read as itself. -/
def keyword (w : Keyword) : Lexeme where
  kind := .keyword w
  chars := w.text.toList
  solid := by cases w <;> exact ⟨_, _, rfl, by decide, by decide⟩
  scans := by
    intro rest p hrest
    have hleading : ∃ c cs, w.text.toList = c :: cs ∧ c.isDigit = false := by
      cases w <;> exact ⟨_, _, rfl, by decide⟩
    have hname : w.text.toList.all isNameChar = true := by cases w <;> rfl
    rw [kind_word hleading (List.all_eq_true.mp hname) hrest.stops, String.ofList_toList,
      Keyword.ofText?_text]
    exact ⟨_, rfl⟩

/-- A name is read as itself. -/
def symbol (n : Identifier) : Lexeme where
  kind := .symbol n.text
  chars := n.text.toList
  solid := by
    obtain ⟨c, cs, hcs, -⟩ := n.leading
    exact solid_of_isNameChar (by rw [hcs]; exact List.cons_ne_nil c cs) n.chars
  scans := by
    intro rest p hrest
    rw [kind_word n.leading n.chars hrest.stops, String.ofList_toList, n.free]
    exact ⟨_, rfl⟩

/-- A text in quotes. -/
def text (content : String) : Lexeme where
  kind := .text content
  chars := '"' :: (escaped content.toList ++ ['"'])
  solid := ⟨_, _, rfl, by decide, by decide⟩
  scans := by
    intro rest p _
    obtain ⟨q, hq⟩ := textContent_escaped content.toList rest [] (p.after '"')
    refine ⟨q, ?_⟩
    rw [List.reverse_nil, List.nil_append, String.ofList_toList] at hq
    have htext : Scan.text ⟨'"' :: (escaped content.toList ++ '"' :: rest), p⟩
        (escaped content.toList ++ '"' :: rest) = (.ok content, ⟨rest, q⟩) := by
      simp only [Scan.text, hq]
    have hdigit : '"'.isDigit = false := by decide
    simp only [List.cons_append, List.append_assoc, List.nil_append, Scan.kind, hdigit,
      Bool.false_eq_true, if_false, if_true, htext]

/-- A number literal is read as its value. -/
def numeral (n : Numeral) : Lexeme where
  kind := .number n.value
  chars := n.chars
  solid := by
    obtain ⟨d, ds, hds, hd⟩ := n.leading
    refine ⟨d, ds, hds, isNameChar_solid ?_⟩
    simp [isNameChar, Char.isAlphanum, hd]
  scans := by
    intro rest p hrest
    obtain ⟨d, ds, hds, hd⟩ := n.leading
    obtain ⟨q, hq⟩ := n.reads
    have hne : n.chars ≠ [] := by rw [hds]; exact List.cons_ne_nil d ds
    have hnumeral : IsNumeral n.chars n.value := by
      rw [← List.append_nil n.chars] at hq
      exact isNumeral_of_number hne hq
    obtain ⟨q', hq'⟩ := hnumeral.number_append hne hrest p
    refine ⟨q', ?_⟩
    rw [hds] at hq' ⊢
    rw [List.cons_append] at hq' ⊢
    simp only [Scan.kind, hd, if_true, hq']

/-! ## Laying lexemes out -/

/-- Lexemes with a space before each. -/
def spaced (ls : List Lexeme) : List Char := ls.flatMap fun l => ' ' :: l.chars

/-- Lexemes with a space between neighbours. -/
def layout : List Lexeme → List Char
  | [] => []
  | l :: ls => l.chars ++ spaced ls

end Lexeme

/-- The lexer stands on the token of the first of these lexemes, those of the others follow, and
then the source ends. -/
def Lexer.Shows (lexer : Lexer) : List Lexeme → Prop
  | [] => lexer.current.kind = .eof
  | l :: ls =>
    lexer.current.kind = l.kind ∧ ∃ next, Lexer.advance lexer = .ok () next ∧ next.Shows ls

namespace Lexeme

open Scan

theorem spaced_cons (l : Lexeme) (ls : List Lexeme) :
    spaced (l :: ls) = ' ' :: (l.chars ++ spaced ls) := by
  simp only [spaced, List.flatMap_cons, List.cons_append]

theorem breaks_spaced (ls : List Lexeme) : Breaks (spaced ls) := by
  cases ls with
  | nil => exact breaks_nil
  | cons l ls =>
    rw [spaced_cons]
    exact breaks_space _

theorem length_spaced (ls : List Lexeme) : 2 * ls.length ≤ (spaced ls).length := by
  induction ls with
  | nil => exact Nat.zero_le _
  | cons l ls ih =>
    obtain ⟨c, cs, hcs, -⟩ := l.solid
    simp only [spaced_cons, hcs, List.length_cons, List.length_append]
    omega

theorem skipTrivia_solid (l : Lexeme) (rest : List Char) (p : Place) :
    skipTrivia ⟨l.chars ++ rest, p⟩ = ⟨l.chars ++ rest, p⟩ := by
  obtain ⟨c, cs, hcs, hblank, hcomment⟩ := l.solid
  simp [skipTrivia, hcs, trivia, hblank, hcomment]

/-- The scan of a lexeme at the cursor. -/
theorem scan_lexeme (l : Lexeme) (file : Option String) {rest : List Char} (hrest : Breaks rest)
    (p : Place) :
    ∃ position q, scan file ⟨l.chars ++ rest, p⟩ = (.ok ⟨l.kind, position⟩, ⟨rest, q⟩) := by
  obtain ⟨q, hq⟩ := l.scans rest p hrest
  exact ⟨_, q, by simp only [scan, l.skipTrivia_solid, hq]; rfl⟩

/-- A space before a lexeme is skipped. -/
theorem scan_space (file : Option String) (cs : List Char) (p : Place) :
    ∃ q, scan file ⟨' ' :: cs, p⟩ = scan file ⟨cs, q⟩ := ⟨p.after ' ', rfl⟩

/-- A lexer that stands on a lexeme and has others left to read shows them all. -/
theorem shows_of_rest {lexer : Lexer} {l : Lexeme} {ls : List Lexeme}
    (hkind : lexer.current.kind = l.kind) (h : lexer.cursor.rest = spaced ls) :
    lexer.Shows (l :: ls) := by
  induction ls generalizing lexer l with
  | nil =>
    obtain ⟨⟨rest, p⟩, file, current⟩ := lexer
    dsimp only [spaced, List.flatMap_nil] at h
    subst h
    exact ⟨hkind, _, rfl, rfl⟩
  | cons m ls ih =>
    obtain ⟨⟨rest, p⟩, file, current⟩ := lexer
    dsimp only at h
    subst h
    obtain ⟨p', hspace⟩ := scan_space file (m.chars ++ spaced ls) p
    obtain ⟨position, q, hscan⟩ := m.scan_lexeme file (breaks_spaced ls) p'
    have hadvance : Lexer.advance ⟨⟨spaced (m :: ls), p⟩, file, current⟩ =
        .ok () ⟨⟨spaced ls, q⟩, file, ⟨m.kind, position⟩⟩ := by
      simp only [Lexer.advance, spaced_cons, hspace, hscan]
    exact ⟨hkind, _, hadvance, ih rfl rfl⟩

/-- Lexemes laid out are read as their tokens. After the first token there are still two
characters left for each of the others. -/
theorem exists_shows (l : Lexeme) (ls : List Lexeme) (file : Option String) :
    ∃ lexer, Lexer.ofSource (String.ofList (layout (l :: ls))) file = .ok lexer ∧
      lexer.Shows (l :: ls) ∧ 2 * ls.length ≤ lexer.cursor.rest.length := by
  obtain ⟨position, q, hscan⟩ := l.scan_lexeme file (breaks_spaced ls) {}
  refine ⟨⟨⟨spaced ls, q⟩, file, ⟨l.kind, position⟩⟩, ?_, shows_of_rest rfl rfl, length_spaced ls⟩
  simp only [Lexer.ofSource, Cursor.ofSource, String.toList_ofList, layout, hscan]

end Lexeme

end Clausal
