import Clausal.Program
import Clausal.Proofs.Lexeme

/-!
# What lexers and parsers complain about

A complaint about a text names a place in that text, under the name the text is read with, and is
lexical or one of grammar (`Error.In`). Places are those that reading from the start of the text
leads to, so line and column follow the characters before them. Nothing is ever complained about at
a blank: where a complaint points, a token stands or the text ends (`Error.Marks`).

* `scan_marks`: a scan from inside a text finds a token there or complains about a place there.
* `Parse.StaysIn o x`: from a lexer inside the text `o`, the parser `x` ends at one or complains
  about a place in `o`. There is a rule for each primitive, then one lemma per parser; the two that
  refer back to each other are settled by induction on the steps they are given
  (`Parse.grammar_staysIn`).
* `Parse.statement_staysIn`, `Parse.wholeExpression_staysIn`: so do statements and whole
  expressions.
-/

namespace Clausal

/-- A text and the name it is read under, if it has one. -/
structure Source where
  name : Option String
  text : String
  deriving DecidableEq

/-- A position in a text: reading from the start of the text leads to it. -/
def Position.In (p : Position) (o : Source) : Prop :=
  ∃ c, (Cursor.ofSource o.text).Reaches c ∧ p = c.position o.name

/-- A complaint about a text: lexical or one of grammar, and at a place of the text. -/
structure Error.In (e : Error) (o : Source) : Prop where
  kind : e.kind = .lexical ∨ e.kind = .grammar
  position : ∃ p, e.position = some p ∧ p.In o

/-- No blank stands at the cursor. -/
def Cursor.AtNoBlank (c : Cursor) : Prop := ∀ d ∈ c.rest.head?, Text.isBlank d = false

/-- A position in a text at which no blank stands. -/
def Position.Marks (p : Position) (o : Source) : Prop :=
  ∃ c, (Cursor.ofSource o.text).Reaches c ∧ c.AtNoBlank ∧ p = c.position o.name

/-- A complaint about a text that points at no blank. -/
structure Error.Marks (e : Error) (o : Source) : Prop where
  kind : e.kind = .lexical ∨ e.kind = .grammar
  position : ∃ p, e.position = some p ∧ p.Marks o

/-- A lexer inside a text. -/
structure Lexer.In (lexer : Lexer) (o : Source) : Prop where
  file : lexer.file = o.name
  cursor : (Cursor.ofSource o.text).Reaches lexer.cursor
  current : lexer.current.position.Marks o

variable {o : Source}

theorem Position.In.file {p : Position} (h : p.In o) : p.file = o.name := by
  obtain ⟨c, -, rfl⟩ := h
  rfl

theorem Position.Marks.isIn {p : Position} (h : p.Marks o) : p.In o := by
  obtain ⟨c, hc, -, rfl⟩ := h
  exact ⟨c, hc, rfl⟩

theorem Error.Marks.isIn {e : Error} (h : e.Marks o) : e.In o := by
  obtain ⟨hkind, p, hp, hmarks⟩ := h
  exact ⟨hkind, p, hp, hmarks.isIn⟩

/-! ## Scanning -/

namespace Scan

/-- A lexical fault at a place that reading from the cursor leads to, and not at a blank. -/
def Result.FaultAhead {α : Type} (r : Result α) (c : Cursor) : Prop :=
  ∀ fault, r.1 = .error fault → fault.cause.kind = .lexical ∧
    ∃ stop, c.Reaches stop ∧ stop.AtNoBlank ∧ fault.place = stop.place

open Cursor

theorem trivia_atNoBlank (b : Bool) (cs : List Char) (p : Place) : (trivia b cs p).AtNoBlank := by
  induction cs generalizing b p with
  | nil => exact nofun
  | cons c cs ih =>
    unfold trivia
    split
    · exact ih _ _
    split
    · exact ih _ _
    split
    · exact ih _ _
    · next hblank _ =>
      intro d hd
      cases hd
      simpa using hblank

theorem digits_faultAhead {α : Type} (base : Nat) (add : α → Nat → α) (acc : α) (cs : List Char)
    (p : Place) : (digits base add acc cs p).FaultAhead ⟨cs, p⟩ := by
  induction cs generalizing acc p with
  | nil =>
    intro fault h
    cases h
  | cons c cs ih =>
    intro fault h
    rw [digits] at h
    split at h
    · next hname =>
      split at h
      · obtain ⟨hkind, stop, hstop, hblank, hplace⟩ := ih _ _ fault h
        exact ⟨hkind, stop, (reaches_cons c cs p).trans hstop, hblank, hplace⟩
      · cases h
        refine ⟨rfl, ⟨c :: cs, p⟩, Reaches.refl _, fun d hd => ?_, rfl⟩
        cases hd
        exact (isNameChar_solid hname).1
    · cases h

theorem fraction_faultAhead (whole : Float) (c : Cursor) :
    (fraction whole c).FaultAhead c := by
  have hdigits := digits_faultAhead 10 addFraction (whole, 1) c.rest c.place
  intro fault h
  rw [fraction] at h
  split at h
  · cases h
  · next found heq =>
    cases h
    rw [heq] at hdigits
    exact hdigits _ rfl

theorem number_faultAhead (c : Cursor) : (number c).FaultAhead c := by
  have hstart := announcedBase_reaches c
  intro fault h
  rw [number] at h
  generalize announcedBase c = announced at h hstart
  obtain ⟨base, start⟩ := announced
  have hahead := digits_faultAhead base (addWhole base) 0 start.rest start.place
  have hreach := hstart.trans (digits_reaches base (addWhole base) 0 start.rest start.place)
  dsimp only at h
  split at h
  · next found stop heq =>
    cases h
    rw [heq] at hahead
    obtain ⟨hkind, stop, hstop, hblank, hplace⟩ := hahead _ rfl
    exact ⟨hkind, stop, hstart.trans hstop, hblank, hplace⟩
  · next whole stop heq =>
    rw [heq] at hreach
    split at h
    · cases h
    · next cs _ hpoint =>
      split at h
      · obtain ⟨hkind, last, hlast, hblank, hplace⟩ := fraction_faultAhead whole _ fault h
        exact ⟨hkind, last, (hreach.trans (reaches_past hpoint)).trans hlast, hblank, hplace⟩
      · cases h
        refine ⟨rfl, stop, hreach, fun d hd => ?_, rfl⟩
        rw [hpoint] at hd
        cases hd
        decide
    · cases h

theorem text_faultAhead {c : Cursor} {cs : List Char} (hc : c.rest = '"' :: cs) :
    (text c cs).FaultAhead c := by
  intro fault h
  rw [text] at h
  split at h
  · cases h
  · cases h
    refine ⟨rfl, c, Reaches.refl c, fun d hd => ?_, rfl⟩
    rw [hc] at hd
    cases hd
    decide

theorem kind_faultAhead (c : Cursor) : (kind c).FaultAhead c := by
  intro fault h
  rw [kind] at h
  split at h
  · cases h
  · next first cs hcs =>
    split at h
    · have hnumber := number_faultAhead c
      split at h
      · cases h
      · next heq =>
        cases h
        exact hnumber fault (by rw [heq])
    · split at h
      · next hquote =>
        subst hquote
        have htext := text_faultAhead hcs
        split at h
        · cases h
        · next heq =>
          cases h
          exact htext fault (by rw [heq])
      · split at h <;> cases h

end Scan

/-- From inside a text a scan finds a token there, or complains about a place there. -/
theorem scan_marks {c : Cursor} (hc : (Cursor.ofSource o.text).Reaches c) :
    match (scan o.name c).1 with
    | .ok token => token.position.Marks o
    | .error e => e.Marks o := by
  have hskip := hc.trans (Scan.skipTrivia_reaches c)
  have hfault := Scan.kind_faultAhead (Scan.skipTrivia c)
  rw [scan]
  generalize Scan.kind (Scan.skipTrivia c) = found at hfault
  obtain ⟨result, stop⟩ := found
  cases result with
  | ok k => exact ⟨_, hskip, Scan.trivia_atNoBlank _ _ _, rfl⟩
  | error fault =>
    obtain ⟨hkind, place, hplace, hblank, heq⟩ := hfault fault rfl
    refine ⟨.inl hkind, _, rfl, place, hskip.trans hplace, hblank, ?_⟩
    rw [heq]
    rfl

theorem Lexer.ofSource_in {text : String} {file : Option String} {lexer : Lexer}
    (h : Lexer.ofSource text file = .ok lexer) : lexer.In ⟨file, text⟩ := by
  have hscan := scan_marks (o := ⟨file, text⟩) (Cursor.Reaches.refl _)
  have hreach := scan_reaches file (Cursor.ofSource text)
  rw [Lexer.ofSource] at h
  split at h
  · next heq =>
    cases h
    rw [heq] at hscan hreach
    exact ⟨rfl, hreach, hscan⟩
  · cases h

theorem Lexer.error_marks {text : String} {file : Option String} {e : Error}
    (h : Lexer.ofSource text file = .error e) : e.Marks ⟨file, text⟩ := by
  have hscan := scan_marks (o := ⟨file, text⟩) (Cursor.Reaches.refl _)
  rw [Lexer.ofSource] at h
  split at h
  · cases h
  · next heq =>
    cases h
    rw [heq] at hscan
    exact hscan

namespace Parse

variable {α β : Type}

/-- From a lexer inside the text, the parser ends at one or complains about a place there. -/
def StaysIn (o : Source) (x : Parse α) : Prop :=
  ∀ lexer : Lexer, lexer.In o →
    match x lexer with
    | .ok _ stop => stop.In o
    | .fail e _ => e.Marks o
    | .exhausted => True

namespace StaysIn

variable {x : Parse α} {f : α → Parse β}

theorem bind (hx : StaysIn o x) (hf : ∀ a, StaysIn o (f a)) : StaysIn o (x >>= f) := by
  intro lexer hlexer
  have hstop := hx lexer hlexer
  cases hrun : x lexer with
  | ok a stop =>
    rw [hrun] at hstop
    rw [Run.bind_ok hrun]
    exact hf a stop hstop
  | fail e stop =>
    rw [hrun] at hstop
    rw [Run.bind_fail hrun]
    exact hstop
  | exhausted =>
    rw [Run.bind_exhausted hrun]
    trivial

theorem ret (a : α) : StaysIn o (pure a : Parse α) := fun _ hlexer => hlexer

theorem exhaust : StaysIn o (Run.exhaust : Parse α) := fun _ _ => trivial

theorem read (g : Lexer → α) : StaysIn o (Run.read g : Parse α) := fun _ hlexer => hlexer

/-- What is read off the lexer is passed on. -/
theorem reading {g : Lexer → α} (hf : ∀ a, StaysIn o (f a)) : StaysIn o (Run.read g >>= f) :=
  bind (read g) hf

/-- The position of the token is one in the text. -/
theorem atPosition {f : Position → Parse β} (hf : ∀ p : Position, p.Marks o → StaysIn o (f p)) :
    StaysIn o (position >>= f) :=
  fun lexer hlexer => hf _ hlexer.current lexer hlexer

theorem advance : StaysIn o advance := by
  intro lexer hlexer
  have hscan := scan_marks hlexer.cursor
  have hreach := scan_reaches o.name lexer.cursor
  rw [Parse.advance, Lexer.advance, hlexer.file]
  generalize scan o.name lexer.cursor = found at hscan hreach
  obtain ⟨result, cursor⟩ := found
  cases result with
  | ok token => exact ⟨rfl, hlexer.cursor.trans hreach, hscan⟩
  | error e => exact hscan

/-- After the next token comes what follows. -/
theorem next {f : Unit → Parse β} (hf : ∀ a, StaysIn o (f a)) : StaysIn o (Parse.advance >>= f) :=
  bind advance hf

theorem unexpected (wanted : Expectation) : StaysIn o (unexpected wanted : Parse α) :=
  fun _ hlexer => ⟨.inr rfl, _, rfl, hlexer.current⟩

/-- A complaint about a position that was read before. -/
theorem complain {p : Position} {cause : Cause} (hp : p.Marks o) (hcause : cause.kind = .grammar) :
    StaysIn o (Run.fail (.found p cause) : Parse α) :=
  fun _ _ => ⟨.inr hcause, p, rfl, hp⟩

end StaysIn

/-! ## Tokens -/

theorem expect_staysIn (m : Mark) : StaysIn o (expect m) := by
  refine .reading fun seen => ?_
  split
  · exact .advance
  · exact .unexpected _

theorem expectWord_staysIn (w : Keyword) : StaysIn o (expectWord w) := by
  refine .reading fun seen => ?_
  split
  · exact .advance
  · exact .unexpected _

theorem name_staysIn : StaysIn o name := by
  refine .reading fun kind => ?_
  split
  · exact .next fun _ => .ret _
  · exact .unexpected _

theorem operator_staysIn : StaysIn o operator := by
  refine .reading fun kind => ?_
  split
  · exact .next fun _ => .ret _
  · exact .unexpected _

theorem separated_staysIn {close : Mark} {item : List α → Parse α}
    (hitem : ∀ before, StaysIn o (item before)) (steps : Nat) (before : List α) :
    StaysIn o (separated close item steps before) := by
  induction steps generalizing before with
  | zero => exact .exhaust
  | succ steps ih =>
    rw [separated]
    refine .reading fun closed => ?_
    split
    · exact .next fun _ => .ret _
    · refine .bind (hitem before) fun next => .reading fun comma => ?_
      split
      · exact .next fun _ => ih _
      · refine .reading fun closed => ?_
        split
        · exact .bind (.unexpected _) fun _ => ih _
        · exact ih _

/-! ## Clauses -/

/-- The two parsers that all others refer back to stay in the text. -/
structure Grammar.StaysIn (g : Grammar) (o : Source) : Prop where
  expression : Parse.StaysIn o g.expression
  operand : Parse.StaysIn o g.operand

variable {g : Grammar}

theorem param_staysIn (hg : g.StaysIn o) (index : Nat) : StaysIn o (param g index) := by
  refine .reading fun kind => ?_
  split
  · refine .next fun _ => .reading fun colon => ?_
    split
    · exact .next fun _ => .bind hg.expression fun guard => .ret _
    · refine .reading fun kind => ?_
      split
      · exact .next fun _ => .bind hg.operand fun operand => .ret _
      · exact .ret _
  · exact .bind hg.expression fun pattern => .ret _

/-- A repeated parameter is complained about where the parameter starts. -/
theorem nextParam_staysIn (hg : g.StaysIn o) (before : List Param) :
    StaysIn o (nextParam g before) := by
  refine .atPosition fun start hstart => .bind (param_staysIn hg _) fun p => ?_
  split
  · split
    · exact .complain hstart rfl
    · exact .ret _
  · exact .ret _

theorem clause_staysIn (hg : g.StaysIn o) (steps : Nat) : StaysIn o (clause g steps) := by
  refine .bind (expect_staysIn _) fun _ => ?_
  refine .bind (separated_staysIn (nextParam_staysIn hg) steps []) fun params => ?_
  exact .bind (expect_staysIn _) fun _ => .bind hg.expression fun body => .ret _

theorem clauses_stayIn (hg : g.StaysIn o) (inner steps : Nat) :
    StaysIn o (clauses g inner steps) := by
  induction steps with
  | zero => exact .exhaust
  | succ steps ih =>
    rw [clauses]
    refine .reading fun closed => ?_
    split
    · exact .next fun _ => .ret _
    · refine .bind (expectWord_staysIn _) fun _ => .bind (clause_staysIn hg inner) fun first => ?_
      exact .bind ih fun rest => .ret _

/-! ## Primary expressions -/

theorem lambda_staysIn (hg : g.StaysIn o) (steps : Nat) : StaysIn o (lambda g steps) := by
  refine .reading fun paren => ?_
  split
  · exact .bind (clause_staysIn hg steps) fun c => .ret _
  · refine .bind (expect_staysIn _) fun _ => ?_
    exact .bind (clauses_stayIn hg steps steps) fun cs => .ret _

theorem operatorLambda_staysIn : StaysIn o operatorLambda :=
  .bind operator_staysIn fun _ => .ret _

theorem operatorSection_staysIn (hg : g.StaysIn o) : StaysIn o (operatorSection g) :=
  .bind operator_staysIn fun _ => .bind hg.operand fun _ => .ret _

theorem entry_staysIn (hg : g.StaysIn o) : StaysIn o (entry g) := by
  have hrest (key : String) : StaysIn o (do
      advance
      expect .colon
      let value ← g.expression
      return Entry.mk key value) :=
    .next fun _ => .bind (expect_staysIn _) fun _ => .bind hg.expression fun value => .ret _
  refine .reading fun kind => ?_
  dsimp only
  split
  · exact .bind (.ret _) hrest
  · exact .bind (.ret _) hrest
  · exact .bind (.unexpected _) hrest

theorem itemName_staysIn (before : List (String × Bool)) : StaysIn o (itemName before) := by
  have hrest : StaysIn o (do
      let s ← name
      if ← sees .dotDot then
        advance
        return (s, true)
      return (s, false)) := by
    refine .bind name_staysIn fun s => .reading fun dots => ?_
    split
    · exact .next fun _ => .ret _
    · exact .ret _
  unfold itemName
  split
  · exact .bind (.unexpected _) fun _ => hrest
  · exact hrest

theorem target_staysIn (steps : Nat) : StaysIn o (target steps) := by
  refine .reading fun bracket => ?_
  split
  · refine .next fun _ => ?_
    exact .bind (separated_staysIn itemName_staysIn steps []) fun names => .ret _
  · exact .bind name_staysIn fun s => .ret _

theorem binding_staysIn (hg : g.StaysIn o) (steps : Nat) : StaysIn o (binding g steps) :=
  .bind (target_staysIn steps) fun _ => .bind (expect_staysIn _) fun _ =>
    .bind hg.expression fun _ => .ret _

theorem withBlock_staysIn (hg : g.StaysIn o) (steps : Nat) : StaysIn o (withBlock g steps) := by
  refine .bind (expect_staysIn _) fun _ => ?_
  refine .bind (separated_staysIn (fun _ => binding_staysIn hg steps) steps []) fun bindings => ?_
  exact .bind (expect_staysIn _) fun _ => .bind hg.expression fun body => .ret _

theorem parenthesized_staysIn (hg : g.StaysIn o) : StaysIn o (parenthesized g) := by
  refine .reading fun closed => ?_
  split
  · exact .next fun _ => .ret _
  · exact .bind hg.expression fun e => .bind (expect_staysIn _) fun _ => .ret _

theorem primary_staysIn (hg : g.StaysIn o) (steps : Nat) : StaysIn o (primary g steps) := by
  refine .reading fun kind => ?_
  split
  · exact .next fun _ => .ret _
  · exact .next fun _ => .ret _
  · exact .next fun _ => .ret _
  · exact .next fun _ => .ret _
  · exact .next fun _ => .ret _
  · exact .next fun _ => parenthesized_staysIn hg
  · exact .next fun _ => .bind (separated_staysIn (fun _ => hg.expression) steps []) fun _ => .ret _
  · exact .next fun _ => .bind (separated_staysIn (fun _ => entry_staysIn hg) steps []) fun _ =>
      .ret _
  · exact .next fun _ => lambda_staysIn hg steps
  · exact .next fun _ => operatorLambda_staysIn
  · exact .next fun _ => operatorSection_staysIn hg
  · exact .next fun _ => withBlock_staysIn hg steps
  · exact .next fun _ => .bind hg.operand fun _ => .ret _
  · exact .next fun _ => .bind hg.operand fun _ => .ret _
  · exact .unexpected _

/-! ## Operands and expressions -/

theorem suffixes_stayIn (hg : g.StaysIn o) (inner steps : Nat) (e : Expr) :
    StaysIn o (suffixes g inner steps e) := by
  induction steps generalizing e with
  | zero => exact .exhaust
  | succ steps ih =>
    rw [suffixes]
    refine .reading fun kind => ?_
    split
    · refine .next fun _ => ?_
      exact .bind (separated_staysIn (fun _ => hg.expression) inner []) fun args => ih _
    · exact .next fun _ => .bind (primary_staysIn hg inner) fun callee => ih _
    · exact .ret _

theorem operandWith_staysIn (hg : g.StaysIn o) (steps : Nat) : StaysIn o (operandWith g steps) :=
  .bind (primary_staysIn hg steps) fun e => suffixes_stayIn hg steps steps e

theorem chain_staysIn (hg : g.StaysIn o) (steps : Nat) : StaysIn o (chain g steps) := by
  induction steps with
  | zero => exact .exhaust
  | succ steps ih =>
    rw [chain]
    refine .reading fun kind => ?_
    split
    · exact .next fun _ => .bind hg.operand fun operand => .bind ih fun rest => .ret _
    · exact .ret _

theorem optional_staysIn (hg : g.StaysIn o) (m : Mark) : StaysIn o (optional g m) := by
  refine .reading fun seen => ?_
  split
  · exact .next fun _ => .bind hg.expression fun e => .ret _
  · exact .ret _

theorem expressionWith_staysIn (hg : g.StaysIn o) (steps : Nat) :
    StaysIn o (expressionWith g steps) := by
  refine .bind hg.operand fun first => .bind (chain_staysIn hg steps) fun rest => ?_
  refine .reading fun dollar => ?_
  split
  · refine .next fun _ => .bind name_staysIn fun s => ?_
    refine .bind (optional_staysIn hg _) fun filter => ?_
    exact .bind (optional_staysIn hg _) fun map => .ret _
  · exact .ret _

/-- The two parsers that all others refer back to, at any number of steps. -/
theorem grammar_staysIn (steps : Nat) :
    Grammar.StaysIn ⟨expressionIn steps, operandIn steps⟩ o := by
  induction steps with
  | zero => exact ⟨.exhaust, .exhaust⟩
  | succ steps ih => exact ⟨expressionWith_staysIn ih steps, operandWith_staysIn ih steps⟩

theorem expression_staysIn : StaysIn o expression :=
  fun lexer => (grammar_staysIn (stepsFor lexer)).expression lexer

theorem wholeExpression_staysIn : StaysIn o wholeExpression := by
  refine .bind expression_staysIn fun e => .reading fun kind => ?_
  split
  · exact .ret _
  · exact .unexpected _

/-! ## Statements -/

theorem wholeClause_staysIn : StaysIn o wholeClause :=
  fun lexer => clause_staysIn (grammar_staysIn (stepsFor lexer)) (stepsFor lexer) lexer

variable (isNative : String → Bool)

/-- The name of a built-in function is complained about where it stands. -/
theorem declaration_staysIn : StaysIn o (declaration isNative) := by
  refine .bind (expectWord_staysIn _) fun _ => .atPosition fun start hstart => ?_
  refine .bind name_staysIn fun s => ?_
  have hrest : StaysIn o (do let c ← wholeClause; return Declaration.mk s c) :=
    .bind wholeClause_staysIn fun c => .ret _
  dsimp only
  split
  · exact .bind (.complain hstart rfl) fun _ => hrest
  · exact hrest

theorem declarations_stayIn (steps : Nat) : StaysIn o (declarations isNative steps) := by
  induction steps with
  | zero => exact .exhaust
  | succ steps ih =>
    rw [declarations]
    refine .reading fun more => ?_
    split
    · exact .bind (declaration_staysIn isNative) fun first => .bind ih fun rest => .ret _
    · exact .ret _

/-- A `use` without a file name is complained about where it starts. -/
theorem useStatement_staysIn : StaysIn o useStatement := by
  refine .atPosition fun start hstart => .bind (expectWord_staysIn _) fun _ => ?_
  refine .reading fun operand => .next fun _ => ?_
  split
  · exact .ret _
  · exact .complain hstart rfl

theorem statement_staysIn : StaysIn o (statement isNative) := by
  refine .reading fun kind => ?_
  split
  · exact .ret _
  · exact .bind useStatement_staysIn fun s => .ret _
  · exact .reading fun steps => .bind (declarations_stayIn isNative steps) fun group => .ret _
  · exact .unexpected _

/-- A `use` stands where the lexer stood. -/
theorem position_of_use {isNative : String → Bool} {lexer stop : Lexer} {path : String}
    {p : Position} (h : statement isNative lexer = .ok (some (.use path p)) stop) :
    p = lexer.current.position := by
  obtain ⟨kind, here, hkind, h⟩ := Run.bind_eq_ok_iff.mp h
  obtain ⟨-, rfl⟩ := Outcome.ok.inj hkind
  split at h
  · cases h
  · obtain ⟨found, last, huse, h⟩ := Run.bind_eq_ok_iff.mp h
    cases h
    obtain ⟨start, here, hstart, huse⟩ := Run.bind_eq_ok_iff.mp huse
    cases hstart
    obtain ⟨_, here, -, huse⟩ := Run.bind_eq_ok_iff.mp huse
    obtain ⟨operand, here, -, huse⟩ := Run.bind_eq_ok_iff.mp huse
    obtain ⟨_, here, -, huse⟩ := Run.bind_eq_ok_iff.mp huse
    split at huse
    · cases huse
      rfl
    · cases huse
  · obtain ⟨steps, here, -, h⟩ := Run.bind_eq_ok_iff.mp h
    obtain ⟨group, here, -, h⟩ := Run.bind_eq_ok_iff.mp h
    cases h
  · cases h

end Parse

end Clausal
