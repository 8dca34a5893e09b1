import Clausal.Diagnostic
import Clausal.Proofs.Complaint
import Clausal.Proofs.Labelled
import Clausal.Proofs.Steps
import Clausal.Proofs.Whereabouts
import Mathlib.Data.List.Basic

/-!
# Excerpts

A lexer counts line feeds, and an excerpt takes a line out of the text cut into lines, without their
endings and without an empty last one. Both agree on every place that is complained about, because
no blank stands there (`Position.Marks`): between a carriage return and a line feed, the column
would lie outside of the line.

* `Text.LineAt text before line`: behind the characters `before`, the text has the line `line`. The
  lines of the text at the number of line feeds in `before` are these (`Text.LineAt.getElem?`).
* `Text.exists_within`: where no blank stands, a line goes on, or the text is over and with it all
  its lines.
* `Source.Raises o e`: lexing or parsing the text raises the error. All of these are complaints
  about the text (`Source.Raises.marks`).
* `Diagnostic.excerpt_quotes_line_of_error`: which lines the excerpt of such an error quotes.
-/

namespace Clausal

namespace Text

/-! ## Pieces -/

theorem pieces_ne_nil (cs : List Char) : pieces cs ≠ [] := by
  unfold pieces
  split
  · exact List.cons_ne_nil _ _
  · exact List.cons_ne_nil _ _
  · split
    · exact List.cons_ne_nil _ _
    · exact List.cons_ne_nil _ _

theorem pieces_cons {c : Char} (hc : c ≠ '\n') (cs : List Char) :
    pieces (c :: cs) = (pieces cs).modifyHead (c :: ·) := by
  obtain ⟨piece, rest, h⟩ := List.exists_cons_of_ne_nil (pieces_ne_nil cs)
  rw [pieces.eq_3 c cs hc, h]
  rfl

/-- The pieces of a text are those between its line feeds. -/
theorem pieces_eq (cs : List Char) : pieces cs = cs.splitOn '\n' := by
  induction cs with
  | nil => rfl
  | cons c cs ih =>
    rw [List.splitOn_eq_splitOnP, List.splitOnP_cons_eq_if_modifyHead,
      ← List.splitOn_eq_splitOnP, ← ih]
    by_cases hc : c = '\n'
    · subst hc
      rfl
    · rw [if_neg (by simpa using hc), pieces_cons hc]

theorem pieces_append (a b : List Char) : pieces (a ++ '\n' :: b) = pieces a ++ pieces b := by
  rw [pieces_eq, pieces_eq, pieces_eq]
  exact List.splitOnP_append_cons a b (beq_self_eq_true _)

theorem pieces_of_notMem {cs : List Char} (h : '\n' ∉ cs) : pieces cs = [cs] := by
  rw [pieces_eq, List.splitOn_eq_singleton h]

theorem length_pieces (cs : List Char) : (pieces cs).length = cs.count '\n' + 1 := by
  induction cs with
  | nil => rfl
  | cons c cs ih =>
    by_cases hc : c = '\n'
    · subst hc
      rw [List.count_cons_self, ← ih]
      rfl
    · rw [pieces_cons hc, List.length_modifyHead, ih, List.count_cons_of_ne hc]

/-! ## Lines -/

/-- A line with something behind it has its ending there. -/
theorem getElem?_lines_ended {text : String} {front back : List (List Char)} {piece : List Char}
    (h : pieces text.toList = front ++ piece :: back) (hback : back ≠ []) :
    (lines text)[front.length]? = some (String.ofList (dropReturn piece)) := by
  have hlast : (front ++ piece :: back).dropLast = front ++ piece :: back.dropLast := by
    rw [List.dropLast_append_of_ne_nil (List.cons_ne_nil _ _), List.dropLast_cons_of_ne_nil hback]
  unfold lines
  dsimp only
  rw [h, hlast]
  split <;> simp

/-- The last piece is a line unless it is empty. -/
theorem getElem?_lines_last {text : String} {front : List (List Char)} {piece : List Char}
    (h : pieces text.toList = front ++ [piece]) :
    (lines text)[front.length]? = if piece.isEmpty then none else some (String.ofList piece) := by
  unfold lines
  rw [h]
  simp only [List.dropLast_concat, List.getLast?_concat, Option.getD_some]
  split <;> simp

/-- What stands behind a line: its ending and more, or nothing. A carriage return before the line
feed belongs to the ending. -/
inductive Ends (line : List Char) : List Char → Prop
  | feed {after : List Char} (h : line.getLast? ≠ some '\r') : Ends line ('\n' :: after)
  | returnFeed {after : List Char} : Ends line ('\r' :: '\n' :: after)
  | last (h : line ≠ []) : Ends line []

/-- These characters reach to the start of a line. -/
def Starts (before : List Char) : Prop := before = [] ∨ before.getLast? = some '\n'

instance (before : List Char) : Decidable (Starts before) := inferInstanceAs (Decidable (_ ∨ _))

/-- Behind the characters `before`, the text has the line `line`. -/
structure LineAt (text before line : List Char) : Prop where
  starts : Starts before
  unbroken : '\n' ∉ line
  ends : ∃ after, text = before ++ line ++ after ∧ Ends line after

/-- Up to the start of a line, there is one piece for each line feed. -/
theorem Starts.exists_pieces {before : List Char} (h : Starts before) :
    ∃ front, front.length = before.count '\n' ∧
      ∀ cs, pieces (before ++ cs) = front ++ pieces cs := by
  rcases h with rfl | h
  · exact ⟨[], rfl, fun cs => rfl⟩
  · obtain ⟨earlier, rfl⟩ := List.getLast?_eq_some_iff.mp h
    refine ⟨pieces earlier, ?_, fun cs => ?_⟩
    · rw [length_pieces, List.count_append, List.count_singleton_self]
    · rw [List.append_assoc, List.singleton_append, pieces_append]

theorem dropReturn_of_getLast? {piece : List Char} (h : piece.getLast? ≠ some '\r') :
    dropReturn piece = piece := by
  unfold dropReturn
  split
  · next heq => exact absurd heq h
  · rfl

theorem dropReturn_concat (line : List Char) : dropReturn (line ++ ['\r']) = line := by
  simp [dropReturn]

/-- A line is found by the number of line feeds before it. -/
theorem LineAt.getElem? {text : String} {before line : List Char}
    (h : LineAt text.toList before line) :
    (lines text)[before.count '\n']? = some (String.ofList line) := by
  obtain ⟨hstarts, hline, after, htext, hends⟩ := h
  obtain ⟨front, hfront, hpieces⟩ := hstarts.exists_pieces
  rw [← hfront]
  cases hends with
  | @feed after hlast =>
    have hcut : pieces text.toList = front ++ line :: pieces after := by
      rw [htext, List.append_assoc, hpieces, pieces_append, pieces_of_notMem hline]
      rfl
    rw [getElem?_lines_ended hcut (pieces_ne_nil after), dropReturn_of_getLast? hlast]
  | @returnFeed after =>
    have hpiece : '\n' ∉ line ++ ['\r'] := by
      rw [List.mem_append, not_or]
      exact ⟨hline, by decide⟩
    have hcut : pieces text.toList = front ++ (line ++ ['\r']) :: pieces after := by
      have hafter : line ++ '\r' :: '\n' :: after = line ++ ['\r'] ++ '\n' :: after := by simp
      rw [htext, List.append_assoc, hpieces, hafter, pieces_append, pieces_of_notMem hpiece]
      rfl
    rw [getElem?_lines_ended hcut (pieces_ne_nil after), dropReturn_concat]
  | last hne =>
    have hcut : pieces text.toList = front ++ [line] := by
      rw [htext, List.append_nil, hpieces, pieces_of_notMem hline]
    rw [getElem?_lines_last hcut, if_neg (by simpa using hne)]

/-- At the end of a text of which all lines are ended there is no line. -/
theorem getElem?_lines_end {text : String} (h : Starts text.toList) :
    (lines text)[text.toList.count '\n']? = none := by
  obtain ⟨front, hfront, hpieces⟩ := h.exists_pieces
  have hcut : pieces text.toList = front ++ [[]] := by
    have hnil := hpieces []
    rwa [List.append_nil] at hnil
  rw [← hfront, getElem?_lines_last hcut]
  rfl

/-- A piece with a line feed behind it is a line without a carriage return at its end. -/
theorem lineAt_of_feed {text before piece after : List Char} (hstarts : Starts before)
    (hpiece : '\n' ∉ piece) (htext : text = before ++ piece ++ '\n' :: after) :
    LineAt text before (dropReturn piece) := by
  by_cases hlast : piece.getLast? = some '\r'
  · obtain ⟨line, rfl⟩ := List.getLast?_eq_some_iff.mp hlast
    rw [dropReturn_concat]
    rw [List.mem_append, not_or] at hpiece
    exact ⟨hstarts, hpiece.1, '\r' :: '\n' :: after, by rw [htext]; simp, .returnFeed⟩
  · rw [dropReturn_of_getLast? hlast]
    exact ⟨hstarts, hpiece, _, htext, .feed hlast⟩

/-- Some characters are lines and the part of a line behind them; what is counted of the former is
the line, and of the latter the column. -/
theorem exists_start (taken : List Char) :
    ∃ before start, taken = before ++ start ∧ Starts before ∧ '\n' ∉ start ∧
      Place.following taken = ⟨before.count '\n' + 1, start.length + 1⟩ := by
  have hstart : '\n' ∉ taken.reverse.takeWhile (· != '\n') := fun hmem => by
    have hfeed := List.all_eq_true.mp List.all_takeWhile _ hmem
    simp at hfeed
  have hboth : taken = (taken.reverse.dropWhile (· != '\n')).reverse ++
      (taken.reverse.takeWhile (· != '\n')).reverse := by
    rw [← List.reverse_append, List.takeWhile_append_dropWhile, List.reverse_reverse]
  refine ⟨_, _, hboth, ?_, ?_, ?_⟩
  · have hhead := List.head?_dropWhile_not (· != '\n') taken.reverse
    unfold Starts
    rw [List.getLast?_reverse]
    split at hhead
    · next c hc =>
      rw [hc]
      exact .inr (by simpa using hhead)
    · next hnone =>
      exact .inl (by simpa using hnone)
  · rwa [List.mem_reverse]
  · have hcount := congrArg (List.count '\n') hboth
    rw [List.count_append, List.count_reverse, List.count_reverse,
      List.count_eq_zero.mpr hstart] at hcount
    rw [Place.following, hcount, List.count_reverse, List.length_reverse]

theorem eq_dropReturn (piece : List Char) :
    piece = dropReturn piece ∨ piece = dropReturn piece ++ ['\r'] := by
  by_cases hlast : piece.getLast? = some '\r'
  · obtain ⟨line, rfl⟩ := List.getLast?_eq_some_iff.mp hlast
    rw [dropReturn_concat]
    exact .inr rfl
  · rw [dropReturn_of_getLast? hlast]
    exact .inl rfl

/-- Behind `earlier`, the text has the line `above`, and behind its ending the line that follows
`before`. -/
structure LineAbove (text before earlier above : List Char) : Prop where
  lineAt : LineAt text earlier above
  before_eq : before = earlier ++ above ++ ['\n'] ∨ before = earlier ++ above ++ ['\r', '\n']

theorem LineAbove.count {text before earlier above : List Char}
    (h : LineAbove text before earlier above) : before.count '\n' = earlier.count '\n' + 1 := by
  have habove := List.count_eq_zero.mpr h.lineAt.unbroken
  rcases h.before_eq with rfl | rfl
  · rw [List.count_append, List.count_append, habove]
    rfl
  · rw [List.count_append, List.count_append, habove]
    rfl

/-- Before a line that is not the first there is another. -/
theorem LineAt.exists_above {text before line : List Char} (h : LineAt text before line)
    (hbefore : before ≠ []) : ∃ earlier above, LineAbove text before earlier above := by
  obtain ⟨hstarts, -, after, htext, -⟩ := h
  obtain ⟨front, rfl⟩ := List.getLast?_eq_some_iff.mp (hstarts.resolve_left hbefore)
  obtain ⟨earlier, piece, rfl, hearlier, hpiece, -⟩ := exists_start front
  have hfeed : text = earlier ++ piece ++ '\n' :: (line ++ after) := by
    rw [htext]
    simp
  refine ⟨earlier, dropReturn piece, lineAt_of_feed hearlier hpiece hfeed, ?_⟩
  refine (eq_dropReturn piece).imp (fun hkept => ?_) (fun hdropped => ?_)
  · rw [← hkept]
  · conv_lhs => rw [hdropped]
    simp

theorem dropReturn_append (start : List Char) {finish : List Char} (h : finish ≠ []) :
    dropReturn (start ++ finish) = start ++ dropReturn finish := by
  unfold dropReturn
  rw [List.getLast?_append_of_ne_nil start h]
  split
  · rw [List.dropLast_append_of_ne_nil h]
  · rfl

/-- Behind the characters taken, `line` goes on, or ends there. -/
structure Within (text taken before line : List Char) : Prop where
  lineAt : LineAt text before line
  taken_eq : taken = before ++ line.take ((Place.following taken).column - 1)
  line_eq : (Place.following taken).line = before.count '\n' + 1
  column_pos : 1 ≤ (Place.following taken).column
  column_le : (Place.following taken).column ≤ line.length + 1

theorem within_of_start {text before start more : List Char}
    (hplace : Place.following (before ++ start) = ⟨before.count '\n' + 1, start.length + 1⟩)
    (h : LineAt text before (start ++ more)) :
    Within text (before ++ start) before (start ++ more) where
  lineAt := h
  taken_eq := by simp [hplace]
  line_eq := by rw [hplace]
  column_pos := by simp [hplace]
  column_le := by simp [hplace]

/-- Where no blank stands, a line goes on, or the text is over and with it all its lines. -/
theorem exists_within {taken rest : List Char}
    (hrest : ∀ d ∈ rest.head?, Text.isBlank d = false) :
    (rest = [] ∧ Starts taken) ∨ ∃ before line, Within (taken ++ rest) taken before line := by
  obtain ⟨before, start, rfl, hstarts, hstart, hplace⟩ := exists_start taken
  by_cases hfeed : '\n' ∈ rest
  · obtain ⟨finish, after, rfl, hfinish⟩ := List.eq_append_cons_of_mem hfeed
    have hne : finish ≠ [] := by
      rintro rfl
      exact absurd (hrest '\n' rfl) (by decide)
    have hpiece : '\n' ∉ start ++ finish := by
      rw [List.mem_append, not_or]
      exact ⟨hstart, hfinish⟩
    refine .inr ⟨before, start ++ dropReturn finish, within_of_start hplace ?_⟩
    rw [← dropReturn_append start hne]
    have htext : before ++ start ++ (finish ++ '\n' :: after) =
        before ++ (start ++ finish) ++ '\n' :: after := by simp
    exact lineAt_of_feed hstarts hpiece htext
  · by_cases hnil : start ++ rest = []
    · obtain ⟨rfl, rfl⟩ := List.append_eq_nil_iff.mp hnil
      rw [List.append_nil]
      exact .inl ⟨rfl, hstarts⟩
    · refine .inr ⟨before, start ++ rest, within_of_start hplace ⟨hstarts, ?_, [], ?_, .last hnil⟩⟩
      · rw [List.mem_append, not_or]
        exact ⟨hstart, hfeed⟩
      · simp

end Text

/-! ## Errors of a text -/

namespace Lexer

variable {o : Source}

/-- A call fails with a complaint about the text. -/
theorem marks_of_fail {lexer stop : Lexer} {e : Error} (hfile : lexer.file = o.name)
    (hcursor : (Cursor.ofSource o.text).Reaches lexer.cursor)
    (h : advance lexer = .fail e stop) : e.Marks o := by
  have hscan := scan_marks hcursor
  rw [advance, hfile] at h
  split at h
  · cases h
  · next heq =>
    cases h
    rw [heq] at hscan
    exact hscan

/-- Going on from inside a text, past faults as well, stays there. -/
theorem In.comesTo {first last : Lexer} (h : first.In o) (hcomes : first.ComesTo last) :
    last.In o := by
  refine hcomes.keeps (P := (·.In o)) (fun a b hab ha => ?_) (fun a e b hab ha => ?_) h
  · have hstays := Parse.StaysIn.advance a ha
    have hrun : Parse.advance a = .ok () b := hab
    rwa [hrun] at hstays
  · obtain ⟨hreaches, hfile⟩ := a.reaches_next
    rw [next_of_fail hab] at hreaches hfile
    refine ⟨hfile.trans ha.file, ha.cursor.trans hreaches, ?_⟩
    rw [current_of_fail hab]
    exact ha.current

end Lexer

namespace Source

variable {o : Source}

/-- A lexer that reading the text comes to. -/
def ReadTo (o : Source) (lexer : Lexer) : Prop :=
  ∃ start, Lexer.ofSource o.text o.name = .ok start ∧ start.ComesTo lexer

theorem ReadTo.isIn {lexer : Lexer} (h : o.ReadTo lexer) : lexer.In o := by
  obtain ⟨start, hstart, hcomes⟩ := h
  exact (Lexer.ofSource_in hstart).comesTo hcomes

/-- Lexing or parsing the text raises this error. Other errors may have come before it. -/
inductive Raises (o : Source) : Error → Prop
  | opening {e : Error} (h : Lexer.ofSource o.text o.name = .error e) : Raises o e
  | listing {e : Error} (h : Token.list o.text o.name = .error e) : Raises o e
  | token {lexer stop : Lexer} {e : Error} (hlexer : o.ReadTo lexer)
    (h : Lexer.advance lexer = .fail e stop) : Raises o e
  | expression {lexer stop : Lexer} {e : Error} (hlexer : o.ReadTo lexer)
    (h : Parse.expression lexer = .fail e stop) : Raises o e
  | wholeExpression {lexer stop : Lexer} {e : Error} (hlexer : o.ReadTo lexer)
    (h : Parse.wholeExpression lexer = .fail e stop) : Raises o e
  | statement {isNative : String → Bool} {lexer stop : Lexer} {e : Error} (hlexer : o.ReadTo lexer)
    (h : Parse.statement isNative lexer = .fail e stop) : Raises o e

theorem marks_of_staysIn {α : Type} {x : Parse α} {lexer stop : Lexer} {e : Error}
    (hx : x.StaysIn o) (hlexer : o.ReadTo lexer) (h : x lexer = .fail e stop) : e.Marks o := by
  have hstays := hx lexer hlexer.isIn
  rwa [h] at hstays

/-- Every error of a text is a complaint about it. -/
theorem Raises.marks {e : Error} (h : o.Raises e) : e.Marks o := by
  cases h with
  | opening h => exact Lexer.error_marks h
  | listing h =>
    have hlists : (Lexer.unread o.text o.name).Lists (Token.list o.text o.name) :=
      Lexer.lists_listFrom _
    rw [h] at hlists
    obtain ⟨n, -, -, stop, hcall⟩ := hlists.fails
    obtain ⟨hreaches, hfile⟩ := Lexer.reaches_afterCalls o.text o.name n
    exact Lexer.marks_of_fail hfile hreaches hcall
  | token hlexer h => exact Lexer.marks_of_fail hlexer.isIn.file hlexer.isIn.cursor h
  | expression hlexer h => exact marks_of_staysIn Parse.expression_staysIn hlexer h
  | wholeExpression hlexer h => exact marks_of_staysIn Parse.wholeExpression_staysIn hlexer h
  | statement hlexer h => exact marks_of_staysIn (Parse.statement_staysIn _) hlexer h

end Source

/-! ## Excerpts -/

namespace Diagnostic

variable (painter : Painter)

/-- The row of the line above. -/
def rowAbove (number : Nat) (line : String) : String :=
  " " ++ painter.paint { weight := some .dimmed, color := some .blue }
    (Text.inThreeColumns number) ++ " | " ++ painter.paint .dimmed line ++ "\n"

/-- The row of the line itself. -/
def row (number : Nat) (line : String) : String :=
  " " ++ painter.paint (.bold .blue) (Text.inThreeColumns number) ++ " | " ++ line ++ "\n"

/-- The row with the mark. -/
def markRow (column : Nat) : String :=
  bar painter ++ " " ++ painter.paint (.bold .red)
    (String.ofList (List.replicate (column - 1 + 7) ' ') ++ "^") ++ "\n"

/-- An excerpt that quotes a line, and another above it. -/
def quoting (p : Position) (above : Option String) (line : String) : String :=
  bar painter ++ "\n" ++ (above.map (rowAbove painter (p.line - 1))).getD "" ++
    row painter p.line line ++ markRow painter p.column ++ bar painter ++ "\n"

/-- Where there is the line of a position, it is quoted, with the line before it. -/
theorem excerpt_eq_quoting {p : Position} {lines : List String} {n : Nat} {line : String}
    (hp : p.line = n + 1) (hline : lines[n]? = some line) :
    excerpt painter p lines =
      quoting painter p (if n = 0 then none else some (lines[n - 1]?.getD "")) line := by
  unfold excerpt
  rw [hp]
  simp only [hline]
  unfold quoting rowAbove row markRow
  rw [hp]
  cases n with
  | zero =>
    simp only [if_true, Option.map_none, Option.getD_none, String.append_assoc]
  | succ m =>
    simp only [Nat.succ_ne_zero, if_false, Option.map_some, Option.getD_some, Nat.add_sub_cancel,
      String.append_assoc]

/-- Where there is no such line, nothing is quoted. -/
theorem excerpt_eq_empty {p : Position} {lines : List String} {n : Nat} (hp : p.line = n + 1)
    (hline : lines[n]? = none) : excerpt painter p lines = "" := by
  unfold excerpt
  rw [hp]
  simp only [hline]

theorem render_some {e : Error} {p : Position} (hp : e.position = some p) (text : String) :
    render painter e (some text) =
      render painter e none ++ excerpt painter p (Text.lines text) := by
  unfold render
  rw [hp]
  simp [String.append_assoc]

/-- At the end of a text of which all lines are ended nothing is quoted. -/
theorem excerpt_of_starts {text : String} (h : Text.Starts text.toList) (name : Option String) :
    excerpt painter ((Place.following text.toList).position name) (Text.lines text) = "" :=
  excerpt_eq_empty painter rfl (Text.getElem?_lines_end h)

/-- A place in a line quotes that line, and the one above it. -/
theorem excerpt_of_within {text : String} {taken before line : List Char} (name : Option String)
    (h : Text.Within text.toList taken before line) :
    let p := (Place.following taken).position name
    if before = [] then
      excerpt painter p (Text.lines text) = quoting painter p none (String.ofList line)
    else ∃ earlier above, Text.LineAbove text.toList before earlier above ∧
      excerpt painter p (Text.lines text) =
        quoting painter p (some (String.ofList above)) (String.ofList line) := by
  intro p
  have hquoting := excerpt_eq_quoting painter (p := p) h.line_eq h.lineAt.getElem?
  split
  · next hbefore =>
    rw [hquoting, hbefore]
    rfl
  · next hbefore =>
    obtain ⟨earlier, above, habove⟩ := h.lineAt.exists_above hbefore
    refine ⟨earlier, above, habove, ?_⟩
    rw [hquoting, habove.count, if_neg (Nat.succ_ne_zero _), Nat.add_sub_cancel,
      habove.lineAt.getElem?]
    rfl

/-- The excerpt of an error that lexing or parsing a text raises. The error is where reading the
characters `taken` leads to. If these are all of the text and all lines of it are ended, there is no
line to be quoted. Otherwise a line goes on behind them or ends there, and that line is quoted,
below the one before it unless it is the first. -/
theorem excerpt_quotes_line_of_error {o : Source} {e : Error} (h : o.Raises e) :
    ∃ p taken rest, e.position = some p ∧ o.text.toList = taken ++ rest ∧
      p = (Place.following taken).position o.name ∧
      if rest = [] ∧ Text.Starts o.text.toList then
        render painter e (some o.text) = render painter e none
      else ∃ before line, Text.Within o.text.toList taken before line ∧
        if before = [] then
          render painter e (some o.text) =
            render painter e none ++ quoting painter p none (String.ofList line)
        else ∃ earlier above, Text.LineAbove o.text.toList before earlier above ∧
          render painter e (some o.text) = render painter e none ++
            quoting painter p (some (String.ofList above)) (String.ofList line) := by
  obtain ⟨p, hp, c, ⟨taken, htext, hplace⟩, hblank, hc⟩ := h.marks.position
  replace htext : o.text.toList = taken ++ c.rest := htext
  obtain rfl : p = (Place.following taken).position o.name := by
    rw [hc, Cursor.position, hplace.trans (Place.afterAll_start taken)]
    rfl
  refine ⟨_, taken, c.rest, hp, htext, rfl, ?_⟩
  rw [render_some painter hp]
  split
  · next hover =>
    rw [hover.1, List.append_nil] at htext
    rw [← htext, excerpt_of_starts painter hover.2, String.append_empty]
  · next hgoes =>
    rcases Text.exists_within hblank with ⟨hrest, hstarts⟩ | ⟨before, line, hwithin⟩
    · rw [hrest, List.append_nil] at htext
      exact absurd ⟨hrest, htext ▸ hstarts⟩ hgoes
    rw [← htext] at hwithin
    refine ⟨before, line, hwithin, ?_⟩
    have hexcerpt := excerpt_of_within painter o.name hwithin
    split at hexcerpt
    · next hbefore =>
      rw [if_pos hbefore, hexcerpt]
    · next hbefore =>
      obtain ⟨earlier, above, habove, hexcerpt⟩ := hexcerpt
      rw [if_neg hbefore, hexcerpt]
      exact ⟨earlier, above, habove, rfl⟩

/-- A text of which the lines end with carriage return and line feed, and a sum in its second line
that breaks off. The parenthesis behind it, in the third, is complained about. -/
def brokenSum : Source := ⟨none, "let f(x) = x\r\nlet g(1 +\r\n  ) = 2"⟩

theorem exists_raised_brokenSum :
    ∃ e, brokenSum.Raises e ∧ e.position = some ⟨none, 3, 3⟩ := by
  have hcomputed : (Lexer.ofSource brokenSum.text brokenSum.name).toOption.any (fun start =>
      (Parse.statement (fun _ => false) start).error?.any fun e =>
        e.position == some ⟨none, 3, 3⟩) = true := by decide +kernel
  cases hstart : Lexer.ofSource brokenSum.text brokenSum.name with
  | ok start =>
    rw [hstart, Except.toOption, Option.any_some] at hcomputed
    obtain ⟨e, he, hposition⟩ := (Option.any_eq_true _ _).mp hcomputed
    obtain ⟨stop, hfails⟩ := Outcome.error?_eq_some.mp he
    exact ⟨e, .statement ⟨start, hstart, .refl start⟩ hfails, eq_of_beq hposition⟩
  | error e =>
    rw [hstart] at hcomputed
    cases hcomputed

/-- The line with the parenthesis is quoted, below the sum. -/
theorem excerpt_quotes_line_of_error_brokenSum :
    ∃ e, brokenSum.Raises e ∧ e.position = some ⟨none, 3, 3⟩ ∧
      render .plain e (some brokenSum.text) = render .plain e none ++
        quoting .plain ⟨none, 3, 3⟩ (some "let g(1 +") "  ) = 2" := by
  obtain ⟨e, hraises, hp⟩ := exists_raised_brokenSum
  refine ⟨e, hraises, hp, ?_⟩
  obtain ⟨p, taken, rest, hp', -, hplace, hshown⟩ := excerpt_quotes_line_of_error .plain hraises
  obtain rfl : ⟨none, 3, 3⟩ = p := Option.some.inj (hp.symm.trans hp')
  rw [if_neg (fun hover => absurd hover.2 (by decide +kernel))] at hshown
  obtain ⟨before, line, hwithin, hshown⟩ := hshown
  have hthird : before.count '\n' = 2 := by
    have hline : 3 = (Place.following taken).line := congrArg Position.line hplace
    have hcount := hwithin.line_eq
    omega
  have hbefore : before ≠ [] := by
    rintro rfl
    cases hthird
  rw [if_neg hbefore] at hshown
  obtain ⟨earlier, above, habove, hshown⟩ := hshown
  have hsecond : earlier.count '\n' = 1 := by
    have hcount := habove.count
    omega
  have hline := hwithin.lineAt.getElem?
  have habove' := habove.lineAt.getElem?
  rw [hthird] at hline
  rw [hsecond] at habove'
  have hlines : Text.lines brokenSum.text = ["let f(x) = x", "let g(1 +", "  ) = 2"] := by
    decide +kernel
  rw [hlines] at hline habove'
  rw [hshown, ← Option.some.inj hline, ← Option.some.inj habove']

end Diagnostic

end Clausal
