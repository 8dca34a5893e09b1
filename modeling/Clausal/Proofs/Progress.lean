import Clausal.Program

/-!
# Parsing comes to an end

A parser is given a number of steps that depends on the characters left. It never runs out of them.
What a lexer has left (`Lexer.left`) gets less with every token that is passed over, and nothing
that calls itself does so without passing over a token: the loops take one step per item at most,
and between an expression and the next one inside it, or an operand and the next, there is a token.

`Parse.Halts x lexer bound` is the judgement: from this lexer `x` comes to an end, and if it ends in
a value, then with less than `bound` left. `Halts x lexer lexer.left` says that `x` passes over a
token. The two parsers that refer back to each other are settled by induction on what is left
(`Parse.expressionIn_halts`); with the others, a statement is, whatever the number of steps that it
is given at each place, if this covers what is left there (`Parse.statementWith_halts`).
-/

namespace Clausal

/-- How much a lexer has left: the characters behind the token it stands on, and the token. -/
def Lexer.left (lexer : Lexer) : Nat :=
  lexer.cursor.rest.length + if lexer.current.kind.isEof then 0 else 1

namespace Token.Kind

variable {k : Token.Kind}

theorem isEof_of_isMark {m : Mark} (h : k.isMark m = true) : k.isEof = false := by
  cases k <;> first | rfl | cases h

theorem isEof_of_isKeyword {w : Keyword} (h : k.isKeyword w = true) : k.isEof = false := by
  cases k <;> first | rfl | cases h

theorem isEof_of_ofToken? {op : BinaryOp} (h : BinaryOp.ofToken? k = some op) :
    k.isEof = false := by
  cases k <;> first | rfl | cases h

end Token.Kind

namespace Parse

variable {α β : Type}

/-- From this lexer the parser comes to an end, and a value leaves less than `bound`. -/
def Halts (x : Parse α) (lexer : Lexer) (bound : Nat) : Prop :=
  match x lexer with
  | .ok _ stop => stop.left < bound
  | .fail _ _ => True
  | .exhausted => False

namespace Halts

variable {x : Parse α} {f : α → Parse β} {lexer : Lexer} {m n : Nat}

theorem mono (h : Halts x lexer m) (hmn : m ≤ n) : Halts x lexer n := by
  unfold Halts at h ⊢
  split at h
  · omega
  · trivial
  · exact h

theorem ne_exhausted (h : Halts x lexer n) : x lexer ≠ .exhausted := by
  intro hrun
  rw [Halts, hrun] at h
  exact h

theorem bind (hx : Halts x lexer m) (hf : ∀ a stop, stop.left < m → Halts (f a) stop n) :
    Halts (x >>= f) lexer n := by
  unfold Halts at hx
  split at hx
  · next a stop hrun =>
    have hstop := hf a stop hx
    unfold Halts at hstop ⊢
    rwa [Run.bind_ok hrun]
  · next e stop hrun =>
    unfold Halts
    rw [Run.bind_fail hrun]
    trivial
  · exact hx.elim

theorem ret {a : α} (h : lexer.left < n) : Halts (pure a) lexer n := h

theorem fail (e : Error) : Halts (Run.fail e : Parse α) lexer n := trivial

theorem unexpected (wanted : Expectation) : Halts (unexpected wanted : Parse α) lexer n := trivial

theorem read {g : Lexer → α} (h : Halts (f (g lexer)) lexer n) : Halts (Run.read g >>= f) lexer n :=
  h

/-- After a parser that never gives a value, anything may follow. -/
theorem fail_bind (e : Error) : Halts ((Run.fail e : Parse α) >>= f) lexer n := trivial

theorem unexpected_bind (wanted : Expectation) :
    Halts (Parse.unexpected wanted >>= f) lexer n := trivial

/-- Going on leaves a token and the characters behind it, or the end. -/
theorem advance_rest (lexer : Lexer) :
    Halts advance lexer (lexer.cursor.rest.length + 1) := by
  have hreach := (scan_reaches lexer.file lexer.cursor).length_le
  unfold Halts
  rw [Parse.advance, Lexer.advance]
  cases hscan : scan lexer.file lexer.cursor with
  | mk found cursor =>
    rw [hscan] at hreach
    cases found with
    | error e => trivial
    | ok token =>
      simp only [Lexer.left]
      cases hend : token.kind.isEof with
      | true => simpa using Nat.lt_succ_of_le hreach
      | false =>
        have hless := scan_length_lt hscan hend
        simpa using hless

/-- Going on at the end of the source stays there. -/
theorem advance_le (lexer : Lexer) : Halts advance lexer (lexer.left + 1) := by
  refine (advance_rest lexer).mono ?_
  unfold Lexer.left
  omega

/-- Going on from a token passes over it. -/
theorem advance (h : lexer.current.kind.isEof = false) : Halts advance lexer lexer.left := by
  refine (advance_rest lexer).mono ?_
  simp [Lexer.left, h]

end Halts

/-! ## Tokens -/

variable (lexer : Lexer)

theorem expect_halts (m : Mark) : Halts (expect m) lexer lexer.left := by
  refine .read ?_
  split
  · next h => exact .advance (Token.Kind.isEof_of_isMark h)
  · exact .unexpected _

theorem expectWord_halts (w : Keyword) : Halts (expectWord w) lexer lexer.left := by
  refine .read ?_
  split
  · next h => exact .advance (Token.Kind.isEof_of_isKeyword h)
  · exact .unexpected _

theorem name_halts : Halts name lexer lexer.left := by
  refine .read ?_
  split
  · next h => exact .bind (.advance (by rw [h]; rfl)) fun _ _ hstop => .ret hstop
  · exact .unexpected _

theorem operator_halts : Halts operator lexer lexer.left := by
  refine .read ?_
  split
  · next h =>
    exact .bind (.advance (Token.Kind.isEof_of_ofToken? h)) fun _ _ hstop => .ret hstop
  · exact .unexpected _

variable {lexer}

/-- A loop over items, each of which passes over a token, takes a step per item. -/
theorem separated_halts {close : Mark} {item : List α → Parse α} {n : Nat}
    (hitem : ∀ before stop, stop.left < n → Halts (item before) stop stop.left) {steps : Nat}
    (hn : lexer.left < n) (hsteps : lexer.left < steps) (before : List α) :
    Halts (separated close item steps before) lexer lexer.left := by
  induction steps generalizing lexer before with
  | zero => omega
  | succ steps ih =>
    have hrest {next : α} {stop : Lexer} (hstop : stop.left < lexer.left) :
        Halts (separated close item steps (next :: before)) stop lexer.left :=
      (ih (by omega) (by omega) _).mono (by omega)
    rw [separated]
    refine .read ?_
    split
    · next h =>
      exact .bind (.advance (Token.Kind.isEof_of_isMark h)) fun _ stop hstop => .ret hstop
    · refine .bind (hitem before lexer hn) fun next stop hstop => .read ?_
      split
      · next h =>
        refine .bind (.advance (Token.Kind.isEof_of_isMark h)) fun _ stop' hstop' => ?_
        exact hrest (by omega)
      · refine .read ?_
        split
        · exact .unexpected_bind _
        · exact hrest hstop

/-! ## Clauses -/

/-- The two parsers come to an end and pass over a token wherever less than `n` is left. -/
structure Grammar.Halts (g : Grammar) (n : Nat) : Prop where
  expression : ∀ lexer : Lexer, lexer.left < n → Parse.Halts g.expression lexer lexer.left
  operand : ∀ lexer : Lexer, lexer.left < n → Parse.Halts g.operand lexer lexer.left

variable {g : Grammar} {n steps inner : Nat}

theorem param_halts (hg : g.Halts n) (hn : lexer.left < n) (index : Nat) :
    Halts (param g index) lexer lexer.left := by
  refine .read ?_
  split
  · next h =>
    refine .bind (.advance (by rw [h]; rfl)) fun _ stop hstop => .read ?_
    split
    · next hcolon =>
      refine .bind (.advance (Token.Kind.isEof_of_isMark hcolon)) fun _ stop' hstop' => ?_
      refine .bind (hg.expression stop' (by omega)) fun e stop'' hstop'' => .ret (by omega)
    · refine .read ?_
      split
      · next hop =>
        refine .bind (.advance (Token.Kind.isEof_of_ofToken? hop)) fun _ stop' hstop' => ?_
        refine .bind (hg.operand stop' (by omega)) fun e stop'' hstop'' => .ret (by omega)
      · exact .ret hstop
  · exact .bind (hg.expression lexer hn) fun e stop hstop => .ret hstop

theorem nextParam_halts (hg : g.Halts n) (hn : lexer.left < n) (before : List Param) :
    Halts (nextParam g before) lexer lexer.left := by
  refine .read (.bind (param_halts hg hn _) fun p stop hstop => ?_)
  split
  · split
    · exact .fail _
    · exact .ret hstop
  · exact .ret hstop

theorem clause_halts (hg : g.Halts n) (hn : lexer.left < n) (hsteps : lexer.left < steps) :
    Halts (clause g steps) lexer lexer.left := by
  refine .bind (expect_halts lexer _) fun _ stop hstop => ?_
  refine .bind (separated_halts (fun before stop' h => nextParam_halts hg h before) (n := n)
    (by omega) (by omega) []) fun params stop' hstop' => ?_
  refine .bind (expect_halts stop' _) fun _ stop'' hstop'' => ?_
  exact .bind (hg.expression stop'' (by omega)) fun body last hlast => .ret (by omega)

theorem clauses_halt (hg : g.Halts n) (hn : lexer.left < n) (hinner : lexer.left < inner)
    (hsteps : lexer.left < steps) : Halts (clauses g inner steps) lexer lexer.left := by
  induction steps generalizing lexer with
  | zero => omega
  | succ steps ih =>
    rw [clauses]
    refine .read ?_
    split
    · next h =>
      exact .bind (.advance (Token.Kind.isEof_of_isMark h)) fun _ stop hstop => .ret hstop
    · refine .bind (expectWord_halts lexer _) fun _ stop hstop => ?_
      refine .bind (clause_halts hg (by omega) (by omega)) fun first stop' hstop' => ?_
      refine .bind (ih (by omega) (by omega) (by omega)) fun rest last hlast => .ret (by omega)

/-! ## Primary expressions -/

theorem lambda_halts (hg : g.Halts n) (hn : lexer.left < n) (hsteps : lexer.left < steps) :
    Halts (lambda g steps) lexer lexer.left := by
  refine .read ?_
  split
  · exact .bind (clause_halts hg hn hsteps) fun c stop hstop => .ret hstop
  · refine .bind (expect_halts lexer _) fun _ stop hstop => ?_
    exact .bind (clauses_halt hg (by omega) (by omega) (by omega)) fun cs last hlast =>
      .ret (by omega)

theorem entry_halts (hg : g.Halts n) (hn : lexer.left < n) :
    Halts (entry g) lexer lexer.left := by
  have hrest (key : String) (h : lexer.current.kind.isEof = false) :
      Halts (do
        advance
        expect .colon
        let value ← g.expression
        return Entry.mk key value) lexer lexer.left := by
    refine .bind (.advance h) fun _ stop hstop => ?_
    refine .bind (expect_halts stop _) fun _ stop' hstop' => ?_
    exact .bind (hg.expression stop' (by omega)) fun value last hlast => .ret (by omega)
  refine .read ?_
  split
  · next h => exact hrest _ (by rw [h]; rfl)
  · next h => exact hrest _ (by rw [h]; rfl)
  · exact .unexpected_bind _

theorem itemName_halts (before : List (String × Bool)) :
    Halts (itemName before) lexer lexer.left := by
  have hrest : Halts (do
      let s ← name
      if ← sees .dotDot then
        advance
        return (s, true)
      return (s, false)) lexer lexer.left := by
    refine .bind (name_halts lexer) fun s stop hstop => .read ?_
    split
    · next h =>
      exact .bind (.advance (Token.Kind.isEof_of_isMark h)) fun _ last hlast => .ret (by omega)
    · exact .ret hstop
  unfold itemName
  split
  · exact .unexpected_bind _
  · exact hrest

theorem target_halts (hsteps : lexer.left < steps) : Halts (target steps) lexer lexer.left := by
  refine .read ?_
  split
  · next h =>
    refine .bind (.advance (Token.Kind.isEof_of_isMark h)) fun _ stop hstop => ?_
    refine .bind (separated_halts (fun before _ _ => itemName_halts before) (n := steps)
      (by omega) (by omega) []) fun names last hlast => .ret (by omega)
  · exact .bind (name_halts lexer) fun s stop hstop => .ret hstop

theorem binding_halts (hg : g.Halts n) (hn : lexer.left < n) (hsteps : lexer.left < steps) :
    Halts (binding g steps) lexer lexer.left := by
  refine .bind (target_halts hsteps) fun t stop hstop => ?_
  refine .bind (expect_halts stop _) fun _ stop' hstop' => ?_
  exact .bind (hg.expression stop' (by omega)) fun value last hlast => .ret (by omega)

theorem withBlock_halts (hg : g.Halts n) (hn : lexer.left < n) (hsteps : lexer.left < steps) :
    Halts (withBlock g steps) lexer lexer.left := by
  refine .bind (expect_halts lexer _) fun _ stop hstop => ?_
  refine .bind (separated_halts (n := min n steps)
    (fun _ stop' h => binding_halts hg (by omega) (by omega)) (by omega) (by omega) [])
    fun bindings stop' hstop' => ?_
  refine .bind (expect_halts stop' _) fun _ stop'' hstop'' => ?_
  exact .bind (hg.expression stop'' (by omega)) fun body last hlast => .ret (by omega)

theorem parenthesized_halts (hg : g.Halts n) (hn : lexer.left < n) :
    Halts (parenthesized g) lexer lexer.left := by
  refine .read ?_
  split
  · next h =>
    exact .bind (.advance (Token.Kind.isEof_of_isMark h)) fun _ stop hstop => .ret hstop
  · refine .bind (hg.expression lexer hn) fun e stop hstop => ?_
    exact .bind (expect_halts stop _) fun _ last hlast => .ret (by omega)

theorem operatorSection_halts (hg : g.Halts n) (hn : lexer.left < n) :
    Halts (operatorSection g) lexer lexer.left := by
  refine .bind (operator_halts lexer) fun op stop hstop => ?_
  exact .bind (hg.operand stop (by omega)) fun e last hlast => .ret (by omega)

/-- A primary expression passes over its first token before it refers back. -/
theorem primary_halts (hg : g.Halts n) (hn : lexer.left ≤ n) (hsteps : lexer.left ≤ steps) :
    Halts (primary g steps) lexer lexer.left := by
  have hword {e : Expr} (h : lexer.current.kind.isEof = false) :
      Halts (do advance; return e) lexer lexer.left :=
    .bind (.advance h) fun _ stop hstop => .ret hstop
  have hnext {x : Parse Expr} (h : lexer.current.kind.isEof = false)
      (hx : ∀ stop : Lexer, stop.left < lexer.left → Halts x stop stop.left) :
      Halts (do advance; x) lexer lexer.left :=
    .bind (.advance h) fun _ stop hstop => (hx stop hstop).mono (by omega)
  refine .read ?_
  split
  case h_1 h => exact hword (by rw [h]; rfl)
  case h_2 h => exact hword (by rw [h]; rfl)
  case h_3 h => exact hword (by rw [h]; rfl)
  case h_4 h => exact hword (by rw [h]; rfl)
  case h_5 h => exact hword (by rw [h]; rfl)
  case h_6 h => exact hnext (by rw [h]; rfl) fun stop hstop => parenthesized_halts hg (by omega)
  case h_7 h =>
    refine hnext (by rw [h]; rfl) fun stop hstop => ?_
    exact .bind (separated_halts (fun _ => hg.expression) (by omega) (by omega) [])
      fun items last hlast => .ret hlast
  case h_8 h =>
    refine hnext (by rw [h]; rfl) fun stop hstop => ?_
    exact .bind (separated_halts (fun _ _ h => entry_halts hg h) (by omega) (by omega) [])
      fun entries last hlast => .ret hlast
  case h_9 h =>
    exact hnext (by rw [h]; rfl) fun stop hstop => lambda_halts hg (by omega) (by omega)
  case h_10 h =>
    refine hnext (by rw [h]; rfl) fun stop hstop => ?_
    exact .bind (operator_halts stop) fun op last hlast => .ret hlast
  case h_11 h => exact hnext (by rw [h]; rfl) fun stop hstop => operatorSection_halts hg (by omega)
  case h_12 h =>
    exact hnext (by rw [h]; rfl) fun stop hstop => withBlock_halts hg (by omega) (by omega)
  case h_13 h =>
    refine hnext (by rw [h]; rfl) fun stop hstop => ?_
    exact .bind (hg.operand stop (by omega)) fun e last hlast => .ret hlast
  case h_14 h =>
    refine hnext (by rw [h]; rfl) fun stop hstop => ?_
    exact .bind (hg.operand stop (by omega)) fun e last hlast => .ret hlast
  case h_15 => exact .unexpected _

/-! ## Operands and expressions -/

/-- Suffixes pass over tokens, if there are any. -/
theorem suffixes_halt (hg : g.Halts n) (hn : lexer.left ≤ n) (hinner : lexer.left ≤ inner)
    (hsteps : lexer.left < steps) (e : Expr) :
    Halts (suffixes g inner steps e) lexer (lexer.left + 1) := by
  induction steps generalizing lexer e with
  | zero => omega
  | succ steps ih =>
    have hrest {stop : Lexer} (hstop : stop.left < lexer.left) (e : Expr) :
        Halts (suffixes g inner steps e) stop (lexer.left + 1) :=
      (ih (by omega) (by omega) (by omega) e).mono (by omega)
    rw [suffixes]
    refine .read ?_
    split
    · next h =>
      refine .bind (.advance (by rw [h]; rfl)) fun _ stop hstop => ?_
      refine .bind (separated_halts (fun _ => hg.expression) (by omega) (by omega) [])
        fun args stop' hstop' => ?_
      exact hrest (by omega) _
    · next h =>
      refine .bind (.advance (by rw [h]; rfl)) fun _ stop hstop => ?_
      refine .bind (primary_halts hg (by omega) (by omega)) fun callee stop' hstop' => ?_
      exact hrest (by omega) _
    · exact .ret (Nat.lt_succ_self _)

theorem operandWith_halts (hg : g.Halts n) (hn : lexer.left ≤ n) (hsteps : lexer.left ≤ steps) :
    Halts (operandWith g steps) lexer lexer.left := by
  refine .bind (primary_halts hg hn hsteps) fun e stop hstop => ?_
  exact (suffixes_halt hg (by omega) (by omega) (by omega) e).mono (by omega)

theorem chain_halts (hg : g.Halts n) (hn : lexer.left ≤ n) (hsteps : lexer.left < steps) :
    Halts (chain g steps) lexer (lexer.left + 1) := by
  induction steps generalizing lexer with
  | zero => omega
  | succ steps ih =>
    rw [chain]
    refine .read ?_
    split
    · next h =>
      refine .bind (.advance (Token.Kind.isEof_of_ofToken? h)) fun _ stop hstop => ?_
      refine .bind (hg.operand stop (by omega)) fun e stop' hstop' => ?_
      exact .bind (ih (by omega) (by omega)) fun rest last hlast => .ret (by omega)
    · exact .ret (Nat.lt_succ_self _)

theorem optional_halts (hg : g.Halts n) (hn : lexer.left ≤ n) (m : Mark) :
    Halts (optional g m) lexer (lexer.left + 1) := by
  refine .read ?_
  split
  · next h =>
    refine .bind (.advance (Token.Kind.isEof_of_isMark h)) fun _ stop hstop => ?_
    exact .bind (hg.expression stop (by omega)) fun e last hlast => .ret (by omega)
  · exact .ret (Nat.lt_succ_self _)

/-- An expression starts with an operand, from the very lexer it starts from. -/
theorem expressionWith_halts (hg : g.Halts n) (hn : lexer.left ≤ n) (hsteps : lexer.left ≤ steps)
    (hfirst : Halts g.operand lexer lexer.left) :
    Halts (expressionWith g steps) lexer lexer.left := by
  refine .bind hfirst fun first stop hstop => ?_
  refine .bind (chain_halts hg (by omega) (by omega)) fun rest stop' hstop' => .read ?_
  split
  · next h =>
    refine .bind (.advance (Token.Kind.isEof_of_isMark h)) fun _ stop₂ hstop₂ => ?_
    refine .bind (name_halts stop₂) fun s stop₃ hstop₃ => ?_
    refine .bind (optional_halts hg (by omega) _) fun filter stop₄ hstop₄ => ?_
    exact .bind (optional_halts hg (by omega) _) fun map last hlast => .ret (by omega)
  · exact .ret (by omega)

theorem operandIn_halts (hg : Grammar.Halts ⟨expressionIn steps, operandIn steps⟩ n)
    (hn : lexer.left ≤ n) (hsteps : lexer.left ≤ steps) :
    Halts (operandIn (steps + 1)) lexer lexer.left := by
  have hwith := operandWith_halts hg hn hsteps
  unfold Halts at hwith ⊢
  rwa [operandIn]

theorem expressionIn_halts (hg : Grammar.Halts ⟨expressionIn steps, operandIn steps⟩ n)
    (hn : lexer.left ≤ n) (hsteps : lexer.left ≤ steps)
    (hfirst : Halts (operandIn steps) lexer lexer.left) :
    Halts (expressionIn (steps + 1)) lexer lexer.left := by
  have hwith := expressionWith_halts hg hn hsteps hfirst
  unfold Halts at hwith ⊢
  rwa [expressionIn]

/-- Two steps for every token and character left are enough. -/
theorem grammar_halts (hsteps : 2 * n ≤ steps) :
    Grammar.Halts ⟨expressionIn steps, operandIn steps⟩ n := by
  -- an expression takes a step to its first operand, and an operand one to what is inside of it
  induction n generalizing steps with
  | zero => exact ⟨fun _ h => by omega, fun _ h => by omega⟩
  | succ n ih =>
    obtain ⟨steps, rfl⟩ : ∃ k, steps = k + 1 + 1 := ⟨steps - 2, by omega⟩
    refine ⟨fun lexer hn => ?_, fun lexer hn => ?_⟩
    · refine expressionIn_halts (ih (by omega)) (by omega) (by omega) ?_
      exact operandIn_halts (ih (by omega)) (by omega) (by omega)
    · exact operandIn_halts (ih (by omega)) (by omega) (by omega)

/-! ## Statements -/

/-- A clause, with as many steps as `budget` says. -/
def wholeClauseWith (budget : Lexer → Nat) : Parse Clause := fun lexer =>
  let steps := budget lexer
  clause ⟨expressionIn steps, operandIn steps⟩ steps lexer

/-- A declaration, with as many steps as `budget` says. -/
def declarationWith (budget : Lexer → Nat) (isNative : String → Bool) : Parse Declaration := do
  expectWord .letWord
  let start ← position
  let s ← name
  if isNative s then
    Run.fail (.found start (.nativeDeclared s))
  let c ← wholeClauseWith budget
  return ⟨s, c⟩

/-- Declarations as long as there are any, each with as many steps as `budget` says. -/
def declarationsWith (budget : Lexer → Nat) (isNative : String → Bool) :
    Nat → Parse (List Declaration)
  | 0 => Run.exhaust
  | steps + 1 => do
    if ← seesWord .letWord then
      let first ← declarationWith budget isNative
      let rest ← declarationsWith budget isNative steps
      return first :: rest
    return []

/-- The next statement, with as many steps as `budget` says. -/
def statementWith (budget : Lexer → Nat) (isNative : String → Bool) :
    Parse (Option Statement) := do
  match ← kind with
  | .eof => return none
  | .keyword .useWord => return some (← useStatement)
  | .keyword .letWord =>
    let steps ← Run.read budget
    let group ← declarationsWith budget isNative steps
    return some (.declarations group)
  | _ => unexpected .statement

/-- Wherever no more than `n` is left, `budget` gives two steps for what is left, and two more. -/
def Covers (budget : Lexer → Nat) (n : Nat) : Prop :=
  ∀ lexer : Lexer, lexer.left ≤ n → 2 * (lexer.left + 1) ≤ budget lexer

theorem left_le_stepsFor (lexer : Lexer) : 2 * (lexer.left + 1) ≤ stepsFor lexer := by
  unfold Lexer.left stepsFor
  split <;> omega

theorem covers_stepsFor (n : Nat) : Covers stepsFor n := fun lexer _ => left_le_stepsFor lexer

section

variable {budget : Lexer → Nat} (hbudget : Covers budget n) (isNative : String → Bool)

include hbudget

theorem wholeClauseWith_halts (hn : lexer.left ≤ n) :
    Halts (wholeClauseWith budget) lexer lexer.left := by
  have hsteps := hbudget lexer hn
  have hclause := clause_halts (grammar_halts hsteps) (Nat.lt_succ_self lexer.left)
    (by omega : lexer.left < budget lexer)
  unfold Halts at hclause ⊢
  rwa [wholeClauseWith]

theorem declarationWith_halts (hn : lexer.left ≤ n) :
    Halts (declarationWith budget isNative) lexer lexer.left := by
  refine .bind (expectWord_halts lexer _) fun _ stop hstop => .read ?_
  refine .bind (name_halts stop) fun s stop' hstop' => ?_
  split
  · exact .fail_bind _
  · exact .bind (wholeClauseWith_halts hbudget (by omega)) fun c last hlast => .ret (by omega)

/-- A first declaration, and others behind it. -/
theorem declarationWith_then_halts {rest : Parse (List Declaration)} (hn : lexer.left ≤ n)
    (hrest : ∀ stop : Lexer, stop.left < lexer.left → Halts rest stop (stop.left + 1)) :
    Halts (do
      let first ← declarationWith budget isNative
      let rest ← rest
      return first :: rest) lexer lexer.left := by
  refine .bind (declarationWith_halts hbudget isNative hn) fun first stop hstop => ?_
  exact .bind (hrest stop hstop) fun rest last hlast => .ret (by omega)

theorem declarationsWith_halt (hn : lexer.left ≤ n) (hsteps : lexer.left < steps) :
    Halts (declarationsWith budget isNative steps) lexer (lexer.left + 1) := by
  induction steps generalizing lexer with
  | zero => omega
  | succ steps ih =>
    rw [declarationsWith]
    refine .read ?_
    split
    · refine (declarationWith_then_halts hbudget isNative hn fun stop hstop => ?_).mono (by omega)
      exact ih (by omega) (by omega)
    · exact .ret (Nat.lt_succ_self _)

end

theorem useStatement_halts (lexer : Lexer) : Halts useStatement lexer lexer.left := by
  refine .read (.bind (expectWord_halts lexer _) fun _ stop hstop => .read ?_)
  refine .bind (.advance_le stop) fun _ stop' hstop' => ?_
  split
  · exact .ret (by omega)
  · exact .fail _

/-- A statement is more than nothing. -/
theorem statementWith_halts {budget : Lexer → Nat} (hbudget : Covers budget n)
    (isNative : String → Bool) (hn : lexer.left ≤ n) (h : lexer.current.kind ≠ .eof) :
    Halts (statementWith budget isNative) lexer lexer.left := by
  refine .read ?_
  split
  · next hend => exact absurd hend h
  · exact .bind (useStatement_halts lexer) fun s stop hstop => .ret hstop
  · next hword =>
    -- the word that starts the group is read by its first declaration
    have hlet : lexer.current.kind.isKeyword .letWord = true := by rw [hword]; rfl
    have hsteps := hbudget lexer hn
    refine .read ?_
    obtain ⟨steps, heq⟩ : ∃ steps, budget lexer = steps + 1 := ⟨budget lexer - 1, by omega⟩
    rw [heq, declarationsWith]
    refine .bind (.read ?_) fun group stop hstop => .ret hstop
    rw [if_pos hlet]
    refine declarationWith_then_halts hbudget isNative hn fun stop hstop => ?_
    exact declarationsWith_halt hbudget isNative (by omega) (by omega)
  · exact .unexpected _

theorem statementWith_of_eof {budget : Lexer → Nat} (isNative : String → Bool)
    (h : lexer.current.kind = .eof) : statementWith budget isNative lexer = .ok none lexer := by
  have hkind : kind lexer = .ok .eof lexer := congrArg (Outcome.ok · lexer) h
  rw [statementWith, Run.bind_ok hkind]
  rfl

theorem statementWith_ne_exhausted {budget : Lexer → Nat} (hbudget : Covers budget lexer.left)
    (isNative : String → Bool) : statementWith budget isNative lexer ≠ .exhausted := by
  by_cases h : lexer.current.kind = .eof
  · rw [statementWith_of_eof isNative h]
    exact nofun
  · exact (statementWith_halts hbudget isNative (Nat.le_refl _) h).ne_exhausted

/-! ## With the steps that they are given -/

section

variable (isNative : String → Bool)

theorem declarationsWith_stepsFor (steps : Nat) :
    declarationsWith stepsFor isNative steps = declarations isNative steps := by
  induction steps with
  | zero => rfl
  | succ steps ih =>
    rw [declarationsWith, declarations, ih]
    rfl

theorem statementWith_stepsFor : statementWith stepsFor isNative = statement isNative := by
  have hgroup : declarationsWith stepsFor isNative = declarations isNative :=
    funext (declarationsWith_stepsFor isNative)
  rw [statementWith, hgroup]
  rfl

theorem expression_halts (lexer : Lexer) : Halts expression lexer lexer.left := by
  have hsame : expression lexer = expressionIn (stepsFor lexer) lexer := rfl
  rw [Halts, hsame]
  exact (grammar_halts (left_le_stepsFor lexer)).expression lexer (Nat.lt_succ_self _)

theorem wholeExpression_halts (lexer : Lexer) : Halts wholeExpression lexer lexer.left := by
  refine .bind (expression_halts lexer) fun e stop hstop => .read ?_
  split
  · exact .ret hstop
  · exact .unexpected _

theorem declaration_halts (lexer : Lexer) : Halts (declaration isNative) lexer lexer.left :=
  declarationWith_halts (covers_stepsFor lexer.left) isNative (Nat.le_refl _)

theorem declarations_halt (hsteps : lexer.left < steps) :
    Halts (declarations isNative steps) lexer (lexer.left + 1) := by
  rw [← declarationsWith_stepsFor]
  exact declarationsWith_halt (covers_stepsFor lexer.left) isNative (Nat.le_refl _) hsteps

theorem statement_halts {lexer : Lexer} (h : lexer.current.kind ≠ .eof) :
    Halts (statement isNative) lexer lexer.left := by
  rw [← statementWith_stepsFor]
  exact statementWith_halts (covers_stepsFor lexer.left) isNative (Nat.le_refl _) h

theorem statement_of_eof {lexer : Lexer} (h : lexer.current.kind = .eof) :
    statement isNative lexer = .ok none lexer := by
  rw [← statementWith_stepsFor]
  exact statementWith_of_eof isNative h

theorem statement_ne_exhausted (lexer : Lexer) : statement isNative lexer ≠ .exhausted := by
  rw [← statementWith_stepsFor]
  exact statementWith_ne_exhausted (covers_stepsFor lexer.left) isNative

theorem statement_less {isNative : String → Bool} {lexer stop : Lexer} {found : Statement}
    (hrun : statement isNative lexer = .ok (some found) stop) : stop.left < lexer.left := by
  by_cases h : lexer.current.kind = .eof
  · rw [statement_of_eof isNative h] at hrun
    cases hrun
  · have hhalts := statement_halts isNative h
    rwa [Halts, hrun] at hhalts

end

end Parse

end Clausal
