import Clausal.Proofs.Prompt
import Clausal.Proofs.Whereabouts

/-!
# Which inputs extend the program

A statement begins with the word `let` or the word `use`, whatever stands around the word. The loop
goes by the characters instead: it takes for a statement what starts with one of the words and a
space. So whatever it loads begins with one of the words, but of the statements it evaluates those
with a comment before the word and those with anything but a space behind it, and this always fails.

* `Keyword.OpensStatement`, `Token.first`: the two words, and the first token of a text.
* `Token.first_eq_keyword_iff`: where the first token of a text is a word.
* `Session.evalText_of_opensStatement`: no statement is an expression.
* `Repl.words_with_a_space_are_loaded`: which inputs are loaded, and what becomes of the statements
  that are not.
* `Repl.continued_statement_is_evaluated`: a statement with the rest of it on the next line.
-/

namespace Clausal

/-- The words that begin a statement. -/
inductive Keyword.OpensStatement : Keyword → Prop
  | letWord : OpensStatement .letWord
  | useWord : OpensStatement .useWord

/-- The first token of a text. -/
def Token.first (text : String) : Except Error Token := (Lexer.ofSource text none).map (·.current)

/-! ## The word at the start -/

/-- Only the start of a text is at line 1 and column 1. -/
theorem Place.eq_nil_of_position {t : List Char} {file : Option String}
    (h : (following t).position file = ⟨file, 1, 1⟩) : t = [] := by
  by_contra hne
  have hbefore := before_afterAll hne {}
  rw [afterAll_start] at hbefore
  have hline : (following t).line = 1 := congrArg Position.line h
  have hcolumn : (following t).column = 1 := congrArg Position.column h
  unfold Before at hbefore
  dsimp only at hbefore
  omega

namespace Scan

theorem single_ne_keyword (c : Char) (w : Keyword) : single c ≠ .keyword w := by
  unfold single
  split <;> nofun

theorem mark_ne_keyword (start : Cursor) (c : Char) (cs : List Char) (w : Keyword) :
    (mark start c cs).1 ≠ .keyword w := by
  unfold mark
  split
  · split
    · nofun
    · exact single_ne_keyword c w
  · exact single_ne_keyword c w

theorem word_eq_keyword {c stop : Cursor} {w : Keyword} (h : word c = (.keyword w, stop)) :
    c.rest = w.text.toList ++ stop.rest ∧ Stops stop.rest := by
  unfold word at h
  dsimp only at h
  split at h
  · next found hfound =>
    cases h
    have hspelt := List.find?_some hfound
    have htext : w.text = String.ofList (c.rest.takeWhile isNameChar) := beq_iff_eq.mp hspelt
    refine ⟨?_, fun d hd => ?_⟩
    · rw [htext, String.toList_ofList]
      exact List.takeWhile_append_dropWhile.symm
    · have hnot := List.head?_dropWhile_not isNameChar c.rest
      rw [show (c.rest.dropWhile isNameChar).head? = some d from hd] at hnot
      simpa using hnot
  · cases h

/-- Where a reserved word is found, its characters stand, and the next one belongs to no word. -/
theorem kind_eq_keyword {c stop : Cursor} {w : Keyword} (h : kind c = (.ok (.keyword w), stop)) :
    c.rest = w.text.toList ++ stop.rest ∧ Stops stop.rest := by
  unfold kind at h
  split at h
  · cases h
  · next first cs hrest =>
    split at h
    · split at h <;> cases h
    · split at h
      · split at h <;> cases h
      · split at h
        · split at h
          next k last hword =>
          cases h
          exact word_eq_keyword hword
        · split at h
          next k last hmark =>
          cases h
          exact absurd (congrArg Prod.fst hmark) (mark_ne_keyword c first cs w)

end Scan

namespace Token

/-- The first token of a text is a reserved word exactly if its characters stand behind trivia and
no word goes on behind them. -/
theorem first_eq_keyword_iff {text : String} {w : Keyword} {p : Position} :
    first text = .ok ⟨.keyword w, p⟩ ↔
      ∃ t rest, text.toList = t ++ (w.text.toList ++ rest) ∧ Trivia t ∧ Scan.Stops rest ∧
        p = (Place.following t).position none := by
  unfold first Lexer.ofSource Cursor.ofSource scan
  constructor
  · intro h
    obtain hending | ⟨t, solid, heq, ht, hsolid⟩ := Scan.exists_trivia text.toList
    · rw [Scan.skipTrivia_ending hending] at h
      cases h
    · have hskip := Scan.skipTrivia_of_solid hsolid [] (({} : Place).afterAll t)
      rw [List.append_nil] at hskip
      rw [heq, Scan.skipTrivia_append ht, hskip] at h
      cases hkind : Scan.kind ⟨solid, ({} : Place).afterAll t⟩ with
      | mk found stop =>
        rw [hkind] at h
        cases found with
        | error fault => cases h
        | ok k =>
          cases h
          obtain ⟨hrest, hstops⟩ := Scan.kind_eq_keyword hkind
          obtain rfl : solid = w.text.toList ++ stop.rest := hrest
          exact ⟨t, stop.rest, heq, ht, hstops, by rw [← Place.afterAll_start]; rfl⟩
  · rintro ⟨t, rest, heq, ht, hstops, rfl⟩
    have hskip := (Lexeme.keyword w).skipTrivia_solid rest (({} : Place).afterAll t)
    rw [show (Lexeme.keyword w).chars = w.text.toList from rfl] at hskip
    rw [heq, Scan.skipTrivia_append ht, hskip, Scan.kind_keyword w hstops, ← Place.afterAll_start]
    rfl

end Token

/-! ## Statements are no expressions -/

namespace Parse

variable {lexer : Lexer} {w : Keyword}

theorem primary_of_opensStatement (hw : w.OpensStatement) (h : lexer.current.kind = .keyword w)
    (g : Grammar) (steps : Nat) : primary g steps lexer = unexpected .expression lexer := by
  have hkind : kind lexer = .ok (.keyword w) lexer := by rw [← h]; rfl
  rw [primary, Run.bind_ok hkind]
  cases hw <;> rfl

/-- An expression starts with something else. -/
theorem wholeExpression_of_opensStatement (hw : w.OpensStatement)
    (h : lexer.current.kind = .keyword w) :
    wholeExpression lexer = unexpected .expression lexer := by
  have hoperand (g : Grammar) (steps : Nat) :
      operandWith g steps lexer = unexpected .expression lexer :=
    Run.bind_fail (primary_of_opensStatement hw h g steps)
  have hexpression : expression lexer = unexpected .expression lexer :=
    Run.bind_fail (hoperand _ _)
  exact Run.bind_fail hexpression

end Parse

/-- The complaint about a statement where an expression is wanted. -/
def Error.statementFound (w : Keyword) (p : Position) : Error :=
  .found p (.unexpected .expression (.keyword w))

/-- A text whose first token begins a statement is not evaluated: there is a complaint about this
token, and nothing but the text and the complaint is kept. -/
theorem Session.evalText_of_opensStatement {text : String} {w : Keyword} {p : Position}
    (hw : w.OpensStatement) (h : Token.first text = .ok ⟨.keyword w, p⟩) (s : Session) :
    evalText text s = .fail (.statementFound w p)
      { s.remember none text with latch := s.latch.arm (.statementFound w p) } := by
  unfold Token.first at h
  cases hlexer : Lexer.ofSource text none with
  | error e =>
    rw [hlexer] at h
    cases h
  | ok lexer =>
    rw [hlexer] at h
    have hcurrent : lexer.current = ⟨.keyword w, p⟩ := Except.ok.inj h
    have hwhole := Parse.wholeExpression_of_opensStatement hw (congrArg Token.kind hcurrent)
    have hparse : parseExpr text none = .error (.statementFound w p) := by
      rw [parseExpr, hlexer]
      simp only [Bind.bind, Except.bind, hwhole, Parse.unexpected, hcurrent]
      rfl
    rw [evalText_eq, hparse]

/-! ## The loop -/

theorem Session.env_dump (s : Session) (painter : Painter) : (s.dump painter).2.env = s.env := by
  unfold dump
  split <;> rfl

namespace Repl

/-- The input that a line completes. -/
def input (terminal : Terminal) (r : Repl) (line : String) : String :=
  Text.trim (r.buffer ++ typed terminal line)

/-- The input is loaded exactly if it starts with one of the words and a space. -/
theorem ofText_eq {text : String} (hempty : text ≠ "") (hcommand : text.startsWith ":" = false) :
    Input.ofText text =
      if text.startsWith "let " || text.startsWith "use " then .declare text
      else .evaluate text := by
  unfold Input.ofText
  rw [if_neg fun h => hempty (String.isEmpty_iff.mp h), if_neg (Bool.eq_false_iff.mp hcommand)]

/-- A text starts with a reserved word and a space exactly if the word is its first token, nothing
stands before it, and a space behind it. -/
theorem startsWith_word_iff {text : String} {w : Keyword} :
    text.startsWith (w.text ++ " ") = true ↔
      Token.first text = .ok ⟨.keyword w, ⟨none, 1, 1⟩⟩ ∧
        text.toList[w.text.length]? = some ' ' := by
  rw [String.startsWith_string_iff, String.toList_append, Token.first_eq_keyword_iff]
  constructor
  · rintro ⟨rest, hrest⟩
    rw [List.append_assoc] at hrest
    refine ⟨⟨[], ' ' :: rest, hrest.symm, .nil, (Scan.breaks_space rest).stops, rfl⟩, ?_⟩
    rw [← hrest, ← String.length_toList, List.getElem?_append_right (Nat.le_refl _), Nat.sub_self]
    rfl
  · rintro ⟨⟨t, rest, heq, -, -, hstart⟩, hspace⟩
    rw [Place.eq_nil_of_position hstart.symm, List.nil_append] at heq
    rw [heq, ← String.length_toList, List.getElem?_append_right (Nat.le_refl _), Nat.sub_self]
      at hspace
    obtain ⟨more, rfl⟩ : ∃ more, rest = ' ' :: more :=
      List.head?_eq_some_iff.mp (by rw [List.head?_eq_getElem?]; exact hspace)
    exact ⟨more, by rw [heq, List.append_assoc]; rfl⟩

theorem starts_iff {text : String} :
    (text.startsWith "let " || text.startsWith "use ") = true ↔
      ∃ w : Keyword, w.OpensStatement ∧ text.startsWith (w.text ++ " ") = true := by
  rw [Bool.or_eq_true]
  constructor
  · rintro (h | h)
    · exact ⟨.letWord, .letWord, h⟩
    · exact ⟨.useWord, .useWord, h⟩
  · rintro ⟨w, hw, h⟩
    cases hw with
    | letWord => exact .inl h
    | useWord => exact .inr h

variable {terminal : Terminal} {r : Repl} {line : String}

/-- What a line asks of the session that completes an input and no command. -/
theorem operation?_eq (hdone : (typed terminal line).endsWith "\\" = false)
    (hempty : r.input terminal line ≠ "")
    (hcommand : (r.input terminal line).startsWith ":" = false) :
    r.operation? terminal line =
      if (r.input terminal line).startsWith "let " || (r.input terminal line).startsWith "use " then
        some (.loadText (r.input terminal line))
      else some (.evalText (r.input terminal line)) := by
  rw [operation?, if_neg (Bool.eq_false_iff.mp hdone)]
  change (Input.ofText (r.input terminal line)).operation? = _
  rw [ofText_eq hempty hcommand]
  split <;> rfl

/-- A line that completes an input which is no command is loaded or evaluated. It is loaded exactly
if its first token is one of the words that begin a statement, with nothing before it and a space
behind it. So whatever is loaded begins a statement; if an input that begins a statement is
evaluated, then this fails with a complaint about the word, the functions stay what they were, and
the input does not count. -/
theorem words_with_a_space_are_loaded (hdone : (typed terminal line).endsWith "\\" = false)
    (hempty : r.input terminal line ≠ "")
    (hcommand : (r.input terminal line).startsWith ":" = false) :
    (r.operation? terminal line = some (.loadText (r.input terminal line)) ∨
      r.operation? terminal line = some (.evalText (r.input terminal line))) ∧
    (r.operation? terminal line = some (.loadText (r.input terminal line)) ↔
      ∃ w : Keyword, w.OpensStatement ∧
        Token.first (r.input terminal line) = .ok ⟨.keyword w, ⟨none, 1, 1⟩⟩ ∧
        (r.input terminal line).toList[w.text.length]? = some ' ') ∧
    ∀ (w : Keyword) p, w.OpensStatement →
      Token.first (r.input terminal line) = .ok ⟨.keyword w, p⟩ →
      r.operation? terminal line = some (.evalText (r.input terminal line)) → ∀ fs,
        (∃ t, (Operation.evalText (r.input terminal line)).step fs r.session =
          .fail (.statementFound w p) t) ∧
        ∃ next, (r.step terminal fs line).1 = some next ∧ next.session.env = r.session.env ∧
          next.number = r.number := by
  have hoperation := operation?_eq hdone hempty hcommand
  refine ⟨?_, ?_, fun w p hw hfirst heval fs => ?_⟩
  · rw [hoperation]
    split
    · exact .inl rfl
    · exact .inr rfl
  · simp only [← startsWith_word_iff]
    rw [hoperation, ← starts_iff]
    split
    · next h => exact iff_of_true rfl h
    · next h => exact iff_of_false (by simp) h
  · have hfails := Session.evalText_of_opensStatement hw hfirst r.session
    have hstep : (Operation.evalText (r.input terminal line)).step fs r.session =
        .fail (.statementFound w p) _ := Run.bind_fail hfails
    refine ⟨⟨_, hstep⟩, _, congrArg Prod.fst (step_of_fail heval hstep), ?_, rfl⟩
    exact Session.env_dump _ _

/-- A comment, and then a declaration in the next line. -/
theorem words_with_a_space_are_loaded_commented :
    let r : Repl := { buffer := "; twice\n" }
    let line := "let double(x) = x * 2"
    r.operation? .plain line = some (.evalText (r.input .plain line)) ∧
      ∃ next, (r.step .plain Session.muddle line).1 = some next ∧
        next.session.env = r.session.env ∧ next.number = 1 := by
  intro r line
  have hinput : r.input .plain line = "; twice\nlet double(x) = x * 2" := by decide +kernel
  have hfirst : Token.first (r.input .plain line) = .ok ⟨.keyword .letWord, ⟨none, 2, 1⟩⟩ := by
    rw [hinput, Token.first_eq_keyword_iff]
    exact ⟨"; twice\n".toList, ' ' :: "double(x) = x * 2".toList, by decide,
      @Trivia.comment " twice".toList [] (by decide) .nil, (Scan.breaks_space _).stops, by decide⟩
  obtain ⟨hor, hload, hfails⟩ := @words_with_a_space_are_loaded .plain r line (by decide +kernel)
    (by rw [hinput]; decide) (by rw [hinput]; decide +kernel)
  have heval := hor.resolve_left fun h => by
    obtain ⟨w, -, hother, -⟩ := hload.mp h
    rw [hfirst] at hother
    cases hother
  obtain ⟨-, next, hstep⟩ := hfails _ _ .letWord hfirst heval Session.muddle
  exact ⟨heval, next, hstep⟩

/-- The word `let` in one line and the rest of a declaration in the next. The input begins with a
reserved word and can be loaded, which makes a function; but it is evaluated, which fails. -/
theorem continued_statement_is_evaluated :
    let line := "double(x) = x * 2"
    ∃ r, after .plain [(Session.muddle, "let\\")] {} = some r ∧
      Token.first (r.input .plain line) = .ok ⟨.keyword .letWord, ⟨none, 1, 1⟩⟩ ∧
      (Session.loadText Session.muddle (r.input .plain line) r.session).passes
        (fun _ s => s.env.contains "double") = true ∧
      r.operation? .plain line = some (.evalText (r.input .plain line)) ∧
      (r.step .plain Session.muddle line).2.err =
        "Syntax error: Expected expression, got keyword let\n" ++
        "  --> input:1:1\n" ++
        "   |\n" ++
        "   1 | let\n" ++
        "   |        ^\n" ++
        "   |\n" := by
  intro line
  have hcomputed : (after .plain [(Session.muddle, "let\\")] {}).any (fun r =>
      r.input .plain line == "let\ndouble(x) = x * 2" &&
      ((Session.loadText Session.muddle (r.input .plain line) r.session).passes fun _ s =>
        s.env.contains "double") &&
      (r.step .plain Session.muddle line).2.err ==
        "Syntax error: Expected expression, got keyword let\n" ++
        "  --> input:1:1\n" ++
        "   |\n" ++
        "   1 | let\n" ++
        "   |        ^\n" ++
        "   |\n") = true := by decide +kernel
  obtain ⟨r, hr, hcomputed⟩ := (Option.any_eq_true _ _).mp hcomputed
  simp only [Bool.and_eq_true, beq_iff_eq] at hcomputed
  obtain ⟨⟨hinput, hloads⟩, hshown⟩ := hcomputed
  refine ⟨r, hr, ?_, hloads, ?_, hshown⟩
  · rw [hinput, Token.first_eq_keyword_iff]
    refine ⟨[], '\n' :: "double(x) = x * 2".toList, by decide, .nil, fun c hc => ?_, by decide⟩
    cases hc
    decide
  · rw [operation?_eq (by decide +kernel) (by rw [hinput]; decide)
      (by rw [hinput]; decide +kernel), hinput, if_neg (by decide +kernel)]

end Repl

end Clausal
