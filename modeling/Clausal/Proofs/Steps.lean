import Clausal.Proofs.Progress

/-!
# Steps make no difference

A parser is given a number of steps, and all that this number decides is whether the parser comes
to an end. One that does, in a value or in a complaint, ends in the same way and at the same place
with every larger number of steps. The place is one that going on from token to token leads to, so
whatever the parsers do, a lexer only ever moves forward.

* `Lexer.ComesTo first last`: going on from `first`, past tokens and past faults, leads to `last`.
* `Parse.Within x y`: wherever `x` ends, it is at a place further on, and `y` ends so too. Here `y`
  is `x` with more steps. There is a rule for each primitive and one lemma per parser; the two that
  refer back to each other are settled by induction on the steps (`Parse.grammar_within`).
* `Parse.expressionIn_eq`, `Parse.statementIn_eq`: two steps for what is left, and two more, are as
  good as any larger number.
-/

namespace Clausal

/-! ## Going on -/

namespace Lexer

/-- Going on from the first lexer leads to the last one. Behind a malformed token the old one stays,
and what was read of the malformed one is gone. -/
inductive ComesTo : Lexer → Lexer → Prop
  | refl (lexer : Lexer) : ComesTo lexer lexer
  | token {first next last : Lexer} (hnext : Lexer.advance first = .ok () next)
    (h : ComesTo next last) : ComesTo first last
  | fault {first next last : Lexer} {e : Error} (hnext : Lexer.advance first = .fail e next)
    (h : ComesTo next last) : ComesTo first last

namespace ComesTo

variable {first mid last : Lexer}

theorem trans (h : first.ComesTo mid) (h' : mid.ComesTo last) : first.ComesTo last := by
  induction h with
  | refl => exact h'
  | token hnext _ ih => exact .token hnext (ih h')
  | fault hnext _ ih => exact .fault hnext (ih h')

/-- A property that every move keeps, whether it finds a token or a fault. -/
theorem keeps {P : Lexer → Prop} (htoken : ∀ a b, Lexer.advance a = .ok () b → P a → P b)
    (hfault : ∀ a e b, Lexer.advance a = .fail e b → P a → P b) (h : first.ComesTo last)
    (hfirst : P first) : P last := by
  induction h with
  | refl => exact hfirst
  | token hnext _ ih => exact ih (htoken _ _ hnext hfirst)
  | fault hnext _ ih => exact ih (hfault _ _ _ hnext hfirst)

/-- Going on never leaves more. -/
theorem left_le (h : first.ComesTo last) : last.left ≤ first.left := by
  refine h.keeps (P := fun lexer => lexer.left ≤ first.left) (fun a b hab ha => ?_)
    (fun a e b hab ha => ?_) (Nat.le_refl _)
  · have hhalts := Parse.Halts.advance_le a
    have hrun : Parse.advance a = .ok () b := hab
    rw [Parse.Halts, hrun] at hhalts
    omega
  · -- the token stays, and the characters up to the fault are gone
    have hreach := (scan_reaches a.file a.cursor).length_le
    rw [Lexer.advance] at hab
    split at hab
    · cases hab
    · next hscan =>
      rw [hscan] at hreach
      cases hab
      unfold Lexer.left at ha ⊢
      dsimp only at hreach ⊢
      omega

end ComesTo

end Lexer

namespace Parse

variable {α β : Type}

/-- Wherever `x` ends, it has only gone on, and `y` ends there too and in the same way. -/
def Within (x y : Parse α) : Prop := ∀ lexer,
  match x lexer with
  | .ok a stop => lexer.ComesTo stop ∧ y lexer = .ok a stop
  | .fail e stop => lexer.ComesTo stop ∧ y lexer = .fail e stop
  | .exhausted => True

namespace Within

variable {x y : Parse α} {f g : α → Parse β}

theorem eq_of_ne (h : Within x y) {lexer : Lexer} (hx : x lexer ≠ .exhausted) :
    y lexer = x lexer := by
  have hlexer := h lexer
  cases hrun : x lexer with
  | ok a stop =>
    rw [hrun] at hlexer
    exact hlexer.2
  | fail e stop =>
    rw [hrun] at hlexer
    exact hlexer.2
  | exhausted => exact absurd hrun hx

theorem bind (hx : Within x y) (hf : ∀ a, Within (f a) (g a)) : Within (x >>= f) (y >>= g) := by
  intro lexer
  have hlexer := hx lexer
  cases hrun : x lexer with
  | ok a mid =>
    rw [hrun] at hlexer
    obtain ⟨hmid, hy⟩ := hlexer
    rw [Run.bind_ok hrun, Run.bind_ok hy]
    have hrest := hf a mid
    split
    · next hstop =>
      rw [hstop] at hrest
      exact ⟨hmid.trans hrest.1, hrest.2⟩
    · next hstop =>
      rw [hstop] at hrest
      exact ⟨hmid.trans hrest.1, hrest.2⟩
    · trivial
  | fail e mid =>
    rw [hrun] at hlexer
    obtain ⟨hmid, hy⟩ := hlexer
    rw [Run.bind_fail hrun, Run.bind_fail hy]
    exact ⟨hmid, rfl⟩
  | exhausted =>
    rw [Run.bind_exhausted hrun]
    trivial

theorem ret (a : α) : Within (pure a : Parse α) (pure a) := fun lexer => ⟨.refl lexer, rfl⟩

theorem fail (e : Error) : Within (Run.fail e : Parse α) (Run.fail e) :=
  fun lexer => ⟨.refl lexer, rfl⟩

theorem unexpected (wanted : Expectation) :
    Within (unexpected wanted : Parse α) (Parse.unexpected wanted) :=
  fun lexer => ⟨.refl lexer, rfl⟩

/-- A parser without steps is within every other. -/
theorem exhaust : Within Run.exhaust y := fun _ => trivial

/-- Both go by what they read off the lexer. -/
theorem reads {r r' : Lexer → α} (hf : ∀ lexer, Within (f (r lexer)) (g (r' lexer))) :
    Within (Run.read r >>= f) (Run.read r' >>= g) :=
  fun lexer => hf lexer lexer

/-- Both read the same off the lexer. -/
theorem read {r : Lexer → α} (hf : ∀ a, Within (f a) (g a)) :
    Within (Run.read r >>= f) (Run.read r >>= g) :=
  reads fun lexer => hf (r lexer)

theorem advance : Within advance Parse.advance := by
  intro lexer
  cases hnext : Parse.advance lexer with
  | ok a stop => exact ⟨.token hnext (.refl stop), rfl⟩
  | fail e stop => exact ⟨.fault hnext (.refl stop), rfl⟩
  | exhausted => trivial

/-- After the next token. -/
theorem next {f g : Unit → Parse β} (hf : Within (f ()) (g ())) :
    Within (Parse.advance >>= f) (Parse.advance >>= g) :=
  bind advance fun _ => hf

end Within

/-! ## Tokens -/

theorem expect_within (m : Mark) : Within (expect m) (expect m) := by
  refine .read fun seen => ?_
  split
  · exact .advance
  · exact .unexpected _

theorem expectWord_within (w : Keyword) : Within (expectWord w) (expectWord w) := by
  refine .read fun seen => ?_
  split
  · exact .advance
  · exact .unexpected _

theorem name_within : Within name name := by
  refine .read fun k => ?_
  split
  · exact .next (.ret _)
  · exact .unexpected _

theorem operator_within : Within operator operator := by
  refine .read fun k => ?_
  split
  · exact .next (.ret _)
  · exact .unexpected _

theorem separated_within {close : Mark} {item item' : List α → Parse α}
    (hitem : ∀ before, Within (item before) (item' before)) {steps steps' : Nat}
    (hsteps : steps ≤ steps') (before : List α) :
    Within (separated close item steps before) (separated close item' steps' before) := by
  induction steps generalizing steps' before with
  | zero => exact .exhaust
  | succ steps ih =>
    obtain ⟨more, rfl⟩ : ∃ more, steps' = more + 1 := ⟨steps' - 1, by omega⟩
    have hrest (next : α) : Within (separated close item steps (next :: before))
        (separated close item' more (next :: before)) := ih (by omega) _
    rw [separated, separated]
    refine .read fun closed => ?_
    split
    · exact .next (.ret _)
    · refine .bind (hitem before) fun next => .read fun comma => ?_
      split
      · exact .next (hrest next)
      · refine .read fun closing => ?_
        split
        · exact .bind (.unexpected _) fun _ => hrest next
        · exact hrest next

/-! ## Clauses -/

/-- Both parsers of the one grammar are within those of the other. -/
structure Grammar.Within (g g' : Grammar) : Prop where
  expression : Parse.Within g.expression g'.expression
  operand : Parse.Within g.operand g'.operand

variable {g g' : Grammar} (hg : g.Within g') {steps steps' inner inner' : Nat}

include hg

theorem param_within (index : Nat) : Within (param g index) (param g' index) := by
  refine .read fun k => ?_
  split
  · refine .next (.read fun colon => ?_)
    split
    · exact .next (.bind hg.expression fun guard => .ret _)
    · refine .read fun k => ?_
      split
      · exact .next (.bind hg.operand fun operand => .ret _)
      · exact .ret _
  · exact .bind hg.expression fun pattern => .ret _

theorem nextParam_within (before : List Param) :
    Within (nextParam g before) (nextParam g' before) := by
  refine .read fun start => .bind (param_within hg _) fun p => ?_
  split
  · split
    · exact .fail _
    · exact .ret _
  · exact .ret _

theorem clause_within (hsteps : steps ≤ steps') : Within (clause g steps) (clause g' steps') := by
  refine .bind (expect_within _) fun _ => ?_
  refine .bind (separated_within (nextParam_within hg) hsteps []) fun params => ?_
  refine .bind (expect_within _) fun _ => ?_
  exact .bind hg.expression fun body => .ret _

theorem clauses_within (hinner : inner ≤ inner') (hsteps : steps ≤ steps') :
    Within (clauses g inner steps) (clauses g' inner' steps') := by
  induction steps generalizing steps' with
  | zero => exact .exhaust
  | succ steps ih =>
    obtain ⟨more, rfl⟩ : ∃ more, steps' = more + 1 := ⟨steps' - 1, by omega⟩
    rw [clauses, clauses]
    refine .read fun closed => ?_
    split
    · exact .next (.ret _)
    · refine .bind (expectWord_within _) fun _ => ?_
      refine .bind (clause_within hg hinner) fun first => ?_
      exact .bind (ih (by omega)) fun rest => .ret _

/-! ## Primary expressions -/

theorem lambda_within (hsteps : steps ≤ steps') : Within (lambda g steps) (lambda g' steps') := by
  refine .read fun paren => ?_
  split
  · exact .bind (clause_within hg hsteps) fun c => .ret _
  · refine .bind (expect_within _) fun _ => ?_
    exact .bind (clauses_within hg hsteps hsteps) fun cs => .ret _

omit hg in
theorem operatorLambda_within : Within operatorLambda operatorLambda :=
  .bind operator_within fun _ => .ret _

theorem operatorSection_within : Within (operatorSection g) (operatorSection g') :=
  .bind operator_within fun _ => .bind hg.operand fun _ => .ret _

theorem entry_within : Within (entry g) (entry g') := by
  have hrest (key : String) : Within (do
      advance
      expect .colon
      let value ← g.expression
      return Entry.mk key value) (do
      advance
      expect .colon
      let value ← g'.expression
      return Entry.mk key value) :=
    .next (.bind (expect_within _) fun _ => .bind hg.expression fun value => .ret _)
  refine .read fun k => ?_
  dsimp only
  split
  · exact hrest _
  · exact hrest _
  · exact .bind (.unexpected _) hrest

omit hg in
theorem itemName_within (before : List (String × Bool)) :
    Within (itemName before) (itemName before) := by
  have hrest : Within (do
      let s ← name
      if ← sees .dotDot then
        advance
        return (s, true)
      return (s, false)) (do
      let s ← name
      if ← sees .dotDot then
        advance
        return (s, true)
      return (s, false)) := by
    refine .bind name_within fun s => .read fun dots => ?_
    split
    · exact .next (.ret _)
    · exact .ret _
  unfold itemName
  split
  · exact .bind (.unexpected _) fun _ => hrest
  · exact hrest

omit hg in
theorem target_within (hsteps : steps ≤ steps') : Within (target steps) (target steps') := by
  refine .read fun bracket => ?_
  split
  · exact .next (.bind (separated_within itemName_within hsteps []) fun names => .ret _)
  · exact .bind name_within fun s => .ret _

theorem binding_within (hsteps : steps ≤ steps') :
    Within (binding g steps) (binding g' steps') := by
  refine .bind (target_within hsteps) fun t => .bind (expect_within _) fun _ => ?_
  exact .bind hg.expression fun value => .ret _

theorem withBlock_within (hsteps : steps ≤ steps') :
    Within (withBlock g steps) (withBlock g' steps') := by
  refine .bind (expect_within _) fun _ => ?_
  refine .bind (separated_within (fun _ => binding_within hg hsteps) hsteps []) fun bindings => ?_
  refine .bind (expect_within _) fun _ => ?_
  exact .bind hg.expression fun body => .ret _

theorem parenthesized_within : Within (parenthesized g) (parenthesized g') := by
  refine .read fun closed => ?_
  split
  · exact .next (.ret _)
  · exact .bind hg.expression fun e => .bind (expect_within _) fun _ => .ret _

theorem primary_within (hsteps : steps ≤ steps') :
    Within (primary g steps) (primary g' steps') := by
  refine .read fun k => ?_
  split
  case h_1 | h_2 | h_3 | h_4 | h_5 => exact .next (.ret _)
  case h_6 => exact .next (parenthesized_within hg)
  case h_7 =>
    exact .next (.bind (separated_within (fun _ => hg.expression) hsteps []) fun _ => .ret _)
  case h_8 =>
    exact .next (.bind (separated_within (fun _ => entry_within hg) hsteps []) fun _ => .ret _)
  case h_9 => exact .next (lambda_within hg hsteps)
  case h_10 => exact .next operatorLambda_within
  case h_11 => exact .next (operatorSection_within hg)
  case h_12 => exact .next (withBlock_within hg hsteps)
  case h_13 | h_14 => exact .next (.bind hg.operand fun _ => .ret _)
  case h_15 => exact .unexpected _

/-! ## Operands and expressions -/

theorem suffixes_within (hinner : inner ≤ inner') (hsteps : steps ≤ steps') (e : Expr) :
    Within (suffixes g inner steps e) (suffixes g' inner' steps' e) := by
  induction steps generalizing steps' e with
  | zero => exact .exhaust
  | succ steps ih =>
    obtain ⟨more, rfl⟩ : ∃ more, steps' = more + 1 := ⟨steps' - 1, by omega⟩
    rw [suffixes, suffixes]
    refine .read fun k => ?_
    split
    · refine .next (.bind (separated_within (fun _ => hg.expression) hinner []) fun args => ?_)
      exact ih (by omega) _
    · exact .next (.bind (primary_within hg hinner) fun callee => ih (by omega) _)
    · exact .ret e

theorem operandWith_within (hsteps : steps ≤ steps') :
    Within (operandWith g steps) (operandWith g' steps') :=
  .bind (primary_within hg hsteps) fun e => suffixes_within hg hsteps hsteps e

theorem chain_within (hsteps : steps ≤ steps') : Within (chain g steps) (chain g' steps') := by
  induction steps generalizing steps' with
  | zero => exact .exhaust
  | succ steps ih =>
    obtain ⟨more, rfl⟩ : ∃ more, steps' = more + 1 := ⟨steps' - 1, by omega⟩
    rw [chain, chain]
    refine .read fun k => ?_
    split
    · exact .next (.bind hg.operand fun e => .bind (ih (by omega)) fun rest => .ret _)
    · exact .ret _

theorem optional_within (m : Mark) : Within (optional g m) (optional g' m) := by
  refine .read fun seen => ?_
  split
  · exact .next (.bind hg.expression fun e => .ret _)
  · exact .ret _

theorem expressionWith_within (hsteps : steps ≤ steps') :
    Within (expressionWith g steps) (expressionWith g' steps') := by
  refine .bind hg.operand fun first => .bind (chain_within hg hsteps) fun rest => ?_
  refine .read fun dollar => ?_
  split
  · refine .next (.bind name_within fun s => ?_)
    exact .bind (optional_within hg _) fun filter => .bind (optional_within hg _) fun map => .ret _
  · exact .ret _

omit hg

/-- More steps, and the parsers that refer back to each other end as they did. -/
theorem grammar_within (hsteps : steps ≤ steps') :
    Grammar.Within ⟨expressionIn steps, operandIn steps⟩
      ⟨expressionIn steps', operandIn steps'⟩ := by
  induction steps generalizing steps' with
  | zero => exact ⟨fun _ => trivial, fun _ => trivial⟩
  | succ steps ih =>
    obtain ⟨more, rfl⟩ : ∃ more, steps' = more + 1 := ⟨steps' - 1, by omega⟩
    have hless : steps ≤ more := by omega
    exact ⟨expressionWith_within (ih hless) hless, operandWith_within (ih hless) hless⟩

theorem expression_within : Within expression expression :=
  fun lexer => (grammar_within (Nat.le_refl (stepsFor lexer))).expression lexer

theorem wholeExpression_within : Within wholeExpression wholeExpression := by
  refine .bind expression_within fun e => .read fun k => ?_
  split
  · exact .ret _
  · exact .unexpected _

/-! ## Statements -/

section

variable {budget budget' : Lexer → Nat} (hbudget : ∀ lexer, budget lexer ≤ budget' lexer)
  (isNative : String → Bool)

include hbudget

theorem wholeClauseWith_within : Within (wholeClauseWith budget) (wholeClauseWith budget') :=
  fun lexer => clause_within (grammar_within (hbudget lexer)) (hbudget lexer) lexer

theorem declarationWith_within :
    Within (declarationWith budget isNative) (declarationWith budget' isNative) := by
  refine .bind (expectWord_within _) fun _ => .read fun start => .bind name_within fun s => ?_
  have hrest : Within (do let c ← wholeClauseWith budget; return Declaration.mk s c)
      (do let c ← wholeClauseWith budget'; return Declaration.mk s c) :=
    .bind (wholeClauseWith_within hbudget) fun c => .ret _
  split
  · exact .bind (.fail _) fun _ => hrest
  · exact hrest

theorem declarationsWith_within (hsteps : steps ≤ steps') :
    Within (declarationsWith budget isNative steps) (declarationsWith budget' isNative steps') := by
  induction steps generalizing steps' with
  | zero => exact .exhaust
  | succ steps ih =>
    obtain ⟨more, rfl⟩ : ∃ more, steps' = more + 1 := ⟨steps' - 1, by omega⟩
    rw [declarationsWith, declarationsWith]
    refine .read fun more => ?_
    split
    · refine .bind (declarationWith_within hbudget isNative) fun first => ?_
      exact .bind (ih (by omega)) fun rest => .ret _
    · exact .ret _

omit hbudget in
theorem useStatement_within : Within useStatement useStatement := by
  refine .read fun start => .bind (expectWord_within _) fun _ => .read fun operand => .next ?_
  split
  · exact .ret _
  · exact .fail _

theorem statementWith_within :
    Within (statementWith budget isNative) (statementWith budget' isNative) := by
  refine .read fun k => ?_
  split
  · exact .ret _
  · exact .bind useStatement_within fun s => .ret _
  · refine .reads fun lexer => ?_
    exact .bind (declarationsWith_within hbudget isNative (hbudget lexer)) fun group => .ret _
  · exact .unexpected _

end

theorem statement_within (isNative : String → Bool) :
    Within (statement isNative) (statement isNative) := by
  rw [← statementWith_stepsFor]
  exact statementWith_within (fun _ => Nat.le_refl _) isNative

/-! ## Enough steps -/

/-- The next statement, with one number of steps for all that it is made of. -/
def statementIn (isNative : String → Bool) (steps : Nat) : Parse (Option Statement) :=
  statementWith (fun _ => steps) isNative

variable {lexer : Lexer}

theorem expressionIn_ne_exhausted (hsteps : 2 * (lexer.left + 1) ≤ steps) :
    expressionIn steps lexer ≠ .exhausted :=
  ((grammar_halts hsteps).expression lexer (Nat.lt_succ_self _)).ne_exhausted

/-- All numbers of steps that are enough come to the same. -/
theorem expressionIn_eq (hsteps : 2 * (lexer.left + 1) ≤ steps) :
    expressionIn steps lexer = expression lexer := by
  have hfew := (grammar_within (Nat.le_max_left steps (stepsFor lexer))).expression.eq_of_ne
    (expressionIn_ne_exhausted hsteps)
  have hgiven := (grammar_within (Nat.le_max_right steps (stepsFor lexer))).expression.eq_of_ne
    (expressionIn_ne_exhausted (left_le_stepsFor lexer))
  exact hfew.symm.trans hgiven

theorem statementIn_ne_exhausted (isNative : String → Bool)
    (hsteps : 2 * (lexer.left + 1) ≤ steps) : statementIn isNative steps lexer ≠ .exhausted :=
  statementWith_ne_exhausted (fun _ _ => by omega) isNative

theorem statementIn_eq (isNative : String → Bool) (hsteps : 2 * (lexer.left + 1) ≤ steps) :
    statementIn isNative steps lexer = statement isNative lexer := by
  have hfew := (statementWith_within (fun l => Nat.le_max_left steps (stepsFor l))
    isNative).eq_of_ne (statementIn_ne_exhausted isNative hsteps)
  have hgiven := (statementWith_within (fun l => Nat.le_max_right steps (stepsFor l))
    isNative).eq_of_ne (statementWith_ne_exhausted (covers_stepsFor lexer.left) isNative)
  rw [statementWith_stepsFor] at hgiven
  exact hfew.symm.trans hgiven

end Parse

end Clausal
