import Clausal.Expr.Parser
import Clausal.Proofs.Phrase

/-!
# Reading lexemes

`Parse.Reads x ls a rest`: standing in front of the lexemes `ls`, the parser `x` ends in `a` and
stands in front of `rest`. Sequencing composes such statements (`Parse.Reads.bind`), so the proof
about a parser follows its text. `Parse.separated_reads` is the rule for lists of items with commas
between them.

What comes after a phrase matters only through its first token (`Lexeme.next`): an operand goes on
with an argument list or a pipe (`Token.Kind.isSuffix`), an expression also with an operator or `$`
(`Token.Kind.continues`), and one that is not in parentheses with `:` or `=`.
-/

namespace Clausal

/-! ## The token after a phrase -/

/-- Whether the token goes on with an operand: an argument list or a pipe. -/
def Token.Kind.isSuffix (k : Token.Kind) : Bool := k.isMark .leftParen || k.isMark .arrow

/-- Whether the token goes on with an expression that ends in an operand. -/
def Token.Kind.continues (k : Token.Kind) : Bool :=
  k.isSuffix || (BinaryOp.ofToken? k).isSome || k.isMark .dollar

/-- Whether the token ends every expression: it closes a parenthesis, or the source ends. -/
def Token.Kind.closes (k : Token.Kind) : Bool := k.isEof || k.isMark .rightParen

namespace Token.Kind

variable {k : Token.Kind}

theorem isMark_self (m : Mark) : (Token.Kind.mark m).isMark m = true := by
  simp [isMark]

theorem isSuffix_of_continues (h : k.continues = false) : k.isSuffix = false := by
  simp only [continues, Bool.or_eq_false_iff] at h
  exact h.1.1

theorem ofToken?_of_continues (h : k.continues = false) : BinaryOp.ofToken? k = none := by
  simp only [continues, Bool.or_eq_false_iff] at h
  simpa using h.1.2

theorem isMark_dollar_of_continues (h : k.continues = false) : k.isMark .dollar = false := by
  simp only [continues, Bool.or_eq_false_iff] at h
  exact h.2

/-- A token that ends every expression is the end of the source or the closing parenthesis. -/
theorem closes_iff : k.closes = true ↔ k = .eof ∨ k = .mark .rightParen := by
  cases k with
  | mark m => cases m <;> simp [closes, isEof, isMark]
  | _ => simp [closes, isEof, isMark]

theorem continues_of_closes (h : k.closes = true) : k.continues = false := by
  rcases closes_iff.mp h with rfl | rfl <;> rfl

end Token.Kind

open Lexeme (next)

theorem Lexer.Shows.kind_eq {lexer : Lexer} {ls : List Lexeme} (h : lexer.Shows ls) :
    lexer.current.kind = next ls := by
  cases ls with
  | nil => exact h
  | cons l ls => exact h.1

theorem BinaryOp.ofToken?_lexeme (op : BinaryOp) : BinaryOp.ofToken? op.lexeme.kind = some op := by
  cases op <;> rfl

namespace Parse

variable {α β : Type}

/-! ## What a parser reads -/

/-- In front of the lexemes `ls` the parser ends in `a`, and in front of `rest`. -/
def Reads (x : Parse α) (ls : List Lexeme) (a : α) (rest : List Lexeme) : Prop :=
  ∀ lexer : Lexer, lexer.Shows ls → ∃ stop, x lexer = .ok a stop ∧ stop.Shows rest

namespace Reads

variable {x : Parse α} {f : α → Parse β} {ls ls' rest : List Lexeme} {a : α} {b : β}

theorem ret : Reads (pure a) ls a ls := fun lexer h => ⟨lexer, rfl, h⟩

theorem bind (hx : Reads x ls a ls') (hf : Reads (f a) ls' b rest) : Reads (x >>= f) ls b rest := by
  intro lexer h
  obtain ⟨mid, hmid, hshows⟩ := hx lexer h
  obtain ⟨stop, hstop, hrest⟩ := hf mid hshows
  exact ⟨stop, by rw [Run.bind_ok hmid, hstop], hrest⟩

theorem kind : Reads kind ls (next ls) ls := by
  intro lexer h
  refine ⟨lexer, ?_, h⟩
  rw [← h.kind_eq]
  rfl

theorem sees (m : Mark) : Reads (sees m) ls ((next ls).isMark m) ls := by
  intro lexer h
  refine ⟨lexer, ?_, h⟩
  rw [← h.kind_eq]
  rfl

theorem seesWord (w : Keyword) : Reads (seesWord w) ls ((next ls).isKeyword w) ls := by
  intro lexer h
  refine ⟨lexer, ?_, h⟩
  rw [← h.kind_eq]
  rfl

/-- What is read does not depend on where it stands. -/
theorem position {f : Position → Parse β} (hf : ∀ p, Reads (f p) ls b rest) :
    Reads (Parse.position >>= f) ls b rest := by
  intro lexer h
  exact hf lexer.current.position lexer h

theorem advance (l : Lexeme) : Reads advance (l :: ls) () ls := fun _ h => h.2

theorem ifSees {m : Mark} {x y : Parse β} (hm : (next ls).isMark m = true)
    (hx : Reads x ls b rest) : Reads (do if ← Parse.sees m then x else y) ls b rest := by
  refine .bind (.sees m) ?_
  rw [if_pos hm]
  exact hx

theorem ifNotSees {m : Mark} {x y : Parse β} (hm : (next ls).isMark m = false)
    (hy : Reads y ls b rest) : Reads (do if ← Parse.sees m then x else y) ls b rest := by
  refine .bind (.sees m) ?_
  rw [hm]
  exact hy

theorem expect (m : Mark) : Reads (expect m) (.mark m :: ls) () ls :=
  .ifSees (Token.Kind.isMark_self m) (.advance _)

theorem expectWord (w : Keyword) : Reads (expectWord w) (.keyword w :: ls) () ls := by
  refine .bind (.seesWord w) ?_
  have hw : (next (.keyword w :: ls)).isKeyword w = true := by
    simp [next, Lexeme.keyword, Token.Kind.isKeyword]
  rw [hw]
  exact .advance _

theorem name (n : Identifier) : Reads name (.symbol n :: ls) n.text ls :=
  .bind .kind (.bind (.advance _) .ret)

theorem operator (op : BinaryOp) : Reads operator (op.lexeme :: ls) op ls := by
  refine .bind .kind ?_
  simp only [next, op.ofToken?_lexeme]
  exact .bind (.advance _) .ret

end Reads

/-! ## Items with commas between them -/

/-- Read one after the other behind the values `before`, the pieces give these values: each piece
starts with no closing mark and is read up to a comma or the closing mark. -/
inductive Items (close : Mark) (item : List α → Parse α) :
    List α → List (List Lexeme) → List α → Prop
  | nil (before : List α) : Items close item before [] []
  | cons {before : List α} {piece : List Lexeme} {pieces : List (List Lexeme)} {value : α}
    {values : List α} (hne : piece ≠ []) (hstart : (next piece).isMark close = false)
    (hpiece : ∀ rest, next rest = .mark .comma ∨ next rest = .mark close →
      Reads (item before) (piece ++ rest) value rest)
    (hpieces : Items close item (value :: before) pieces values) :
    Items close item before (piece :: pieces) (value :: values)

theorem separated_reads {close : Mark} {item : List α → Parse α} {before values : List α}
    {pieces : List (List Lexeme)} (h : Items close item before pieces values)
    (hcomma : close ≠ .comma) {steps : Nat} (hsteps : pieces.length < steps)
    (rest : List Lexeme) :
    Reads (separated close item steps before) (Lexeme.separated pieces ++ .mark close :: rest)
      (before.reverse ++ values) rest := by
  induction h generalizing steps with
  | nil before =>
    obtain ⟨steps, rfl⟩ := Nat.exists_eq_add_of_lt hsteps
    rw [separated, List.append_nil]
    exact .ifSees (Token.Kind.isMark_self close) (.bind (.advance _) .ret)
  | @cons before piece pieces value values hne hstart hpiece hpieces ih =>
    obtain ⟨steps, rfl⟩ : ∃ n, steps = n + 1 := ⟨steps - 1, by omega⟩
    have hvalues : before.reverse ++ value :: values = (value :: before).reverse ++ values := by
      simp
    have ih := ih (Nat.lt_of_succ_lt_succ hsteps)
    rw [separated, hvalues]
    cases pieces with
    | nil =>
      have hclose : (Token.Kind.mark close).isMark .comma = false := by
        simpa [Token.Kind.isMark] using Ne.symm hcomma
      refine .ifNotSees (by rwa [Lexeme.separated, Lexeme.next_append hne]) ?_
      refine .bind (hpiece _ (.inr rfl)) (.ifNotSees hclose (.bind (.sees close) ?_))
      rw [next, Lexeme.mark, Token.Kind.isMark_self]
      exact ih
    | cons piece' pieces =>
      rw [Lexeme.separated_cons_cons, List.append_assoc]
      refine .ifNotSees (by rwa [Lexeme.next_append hne]) ?_
      refine .bind (hpiece _ (.inl rfl)) ?_
      exact .ifSees (Token.Kind.isMark_self _) (.bind (.advance _) ih)

theorem Items.count_le {close : Mark} {item : List α → Parse α} {before values : List α}
    {pieces : List (List Lexeme)} (h : Items close item before pieces values) :
    pieces.length ≤ (Lexeme.separated pieces).length := by
  induction h with
  | nil => exact Nat.zero_le _
  | @cons before piece pieces value values hne _ _ _ ih =>
    have hcons := Lexeme.length_separated_cons piece pieces
    have hpos := List.length_pos_iff.mpr hne
    rw [List.length_cons]
    omega

/-- As many steps as there are lexemes are enough for the items and the closing mark. -/
theorem Items.reads {close : Mark} {item : List α → Parse α} {values : List α}
    {pieces : List (List Lexeme)} (h : Items close item [] pieces values)
    (hcomma : close ≠ .comma) {steps : Nat} (hsteps : (Lexeme.separated pieces).length < steps)
    (rest : List Lexeme) :
    Reads (separated close item steps []) (Lexeme.separated pieces ++ .mark close :: rest) values
      rest :=
  separated_reads h hcomma (Nat.lt_of_le_of_lt h.count_le hsteps) rest

end Parse

end Clausal
