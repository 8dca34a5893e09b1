import Clausal.Proofs.Reading

/-!
# Reading phrases back

The text of a phrase is read as the tree that the phrase stands for (`Phrase.expression_render`).
One lemma for each parser says what it makes of the lexemes of a phrase, given that the two parsers
all others refer back to read the phrases of fewer lexemes (`Parse.Grammar.Reads`).

Reading a phrase nests at most four steps for each of its lexemes (`Parse.grammar_reads`).
-/

namespace Clausal

open Lexeme (next)

namespace Parse

/-! ## Parts of a phrase -/

/-- The two parsers that all others refer back to read the phrases of up to `n` lexemes. -/
structure Grammar.Reads (g : Grammar) (n : Nat) : Prop where
  /-- As it is printed by itself. -/
  expression : ∀ p : Phrase, p.lexemes.length ≤ n → ∀ rest, (next rest).closes = true →
    Parse.Reads g.expression (p.lexemes ++ rest) p.expr rest
  /-- As it is printed in a place for an expression. -/
  part : ∀ (p : Phrase) (ls : List Lexeme), p.Part ls → p.lexemes.length ≤ n → ∀ rest,
    (next rest).continues = false → Parse.Reads g.expression (ls ++ rest) p.expr rest
  /-- As it is printed in a place for an operand. -/
  operand : ∀ (p : Phrase) (ls : List Lexeme), p.Part ls → p.lexemes.length ≤ n → ∀ rest,
    (next rest).isSuffix = false → Parse.Reads g.operand (ls ++ rest) p.expr rest

variable {g : Grammar} {n : Nat}

/-- What follows an item of a list does not go on with it. -/
theorem continues_of_item {k : Token.Kind} {close : Mark}
    (hclose : close = .rightParen ∨ close = .rightBracket ∨ close = .rightBrace)
    (h : k = .mark .comma ∨ k = .mark close) : k.continues = false := by
  rcases h with rfl | rfl
  · rfl
  · rcases hclose with rfl | rfl | rfl <;> rfl

theorem phrases_items {close : Mark} (hg : g.Reads n)
    (hclose : close = .rightParen ∨ close = .rightBracket) (ps : List Phrase)
    (hlength : ∀ piece ∈ Phrase.pieces ps, piece.length ≤ n) (before : List Expr) :
    Items close (fun _ => g.expression) before (Phrase.pieces ps) (Phrase.exprs ps) := by
  induction ps generalizing before with
  | nil => exact .nil before
  | cons p ps ih =>
    obtain ⟨hp, hps⟩ := List.forall_mem_cons.mp hlength
    have hpart := p.part_grouped
    refine .cons hpart.ne_nil (hpart.not_close hclose) (fun rest hrest => ?_) (ih hps _)
    refine hg.part p _ hpart (Nat.le_trans hpart.length_le hp) rest (continues_of_item ?_ hrest)
    rcases hclose with h | h
    · exact .inl h
    · exact .inr (.inl h)

/-! ## Clauses -/

theorem guard_reads (hg : g.Reads n) {guard : Option Phrase}
    (hlength : (Phrase.guardLexemes guard).length ≤ n) (s : Identifier) (index : Nat)
    {rest : List Lexeme} (hrest : next rest = .mark .comma ∨ next rest = .mark .rightParen) :
    Reads (param g index) (.symbol s :: (Phrase.guardLexemes guard ++ rest))
      ⟨some s.text, Phrase.expr? guard⟩ rest := by
  refine .bind .kind (.bind (.advance _) ?_)
  cases guard with
  | none =>
    have hcolon : (next rest).isMark .colon = false := by rcases hrest with h | h <;> rw [h] <;> rfl
    have hoperator : BinaryOp.ofToken? (next rest) = none := by
      rcases hrest with h | h <;> rw [h] <;> rfl
    refine .ifNotSees hcolon (.bind .kind ?_)
    rw [Phrase.guardLexemes, List.nil_append, hoperator]
    exact .ret
  | some p =>
    refine .ifSees rfl (.bind (.advance _) ?_)
    refine .bind (hg.part p _ .parens ?_ rest (continues_of_item (.inl rfl) hrest)) .ret
    simp only [Phrase.guardLexemes, List.length_cons, Lexeme.length_parens] at hlength
    omega

theorem pattern_reads (hg : g.Reads n) {p : Phrase} (hlength : p.lexemes.length ≤ n) (index : Nat)
    {rest : List Lexeme} (hrest : next rest = .mark .comma ∨ next rest = .mark .rightParen) :
    Reads (param g index) (Lexeme.parens p.lexemes ++ rest)
      ⟨none, some (.binary .equal (.parameter index) p.expr)⟩ rest :=
  .bind .kind (.bind (hg.part p _ .parens hlength rest (continues_of_item (.inl rfl) hrest)) .ret)

theorem params_items (hg : g.Reads n) {taken : List String} :
    (ps : Phrase.Params taken) → (before : List Param) →
    (∀ q ∈ before, ∀ s, q.name = some s → s ∈ taken) →
    (∀ piece ∈ ps.pieces, piece.length ≤ n) →
    Items .rightParen (nextParam g) before ps.pieces (ps.params before.length)
  | .done, before, _, _ => .nil before
  | .name s fresh guard ps, before, hbefore, hlength => by
    obtain ⟨hguard, hps⟩ := List.forall_mem_cons.mp hlength
    have hfresh : before.any (fun q => q.name == some s.text) = false := by
      rw [List.any_eq_false]
      intro q hq heq
      exact fresh (hbefore q hq s.text (by simpa using heq))
    refine .cons (List.cons_ne_nil _ _) rfl (fun rest hrest => .position fun _ => ?_)
      (params_items hg ps _ ?_ hps)
    · refine .bind (guard_reads hg (Nat.le_of_succ_le hguard) s _ hrest) ?_
      simp only [hfresh, Bool.false_eq_true, if_false]
      exact .ret
    · refine List.forall_mem_cons.mpr ⟨?_, fun q hq t ht => .tail _ (hbefore q hq t ht)⟩
      rintro t ⟨⟩
      exact List.mem_cons_self
  | .pattern p ps, before, hbefore, hlength => by
    obtain ⟨hp, hps⟩ := List.forall_mem_cons.mp hlength
    rw [Lexeme.length_parens] at hp
    refine .cons (List.cons_ne_nil _ _) rfl (fun rest hrest => .position fun _ => ?_)
      (params_items hg ps _ ?_ hps)
    · exact .bind (pattern_reads hg (by omega) _ hrest) .ret
    · refine List.forall_mem_cons.mpr ⟨?_, hbefore⟩
      rintro t ⟨⟩


theorem clause_reads (hg : g.Reads n) {c : Phrase.Clause} (hlength : c.lexemes.length ≤ n)
    {steps : Nat} (hsteps : n ≤ steps) {rest : List Lexeme}
    (hrest : (next rest).continues = false) :
    Reads (clause g steps) (c.lexemes ++ rest) c.clause rest := by
  obtain ⟨ps, body⟩ := c
  have hpart := body.part_grouped
  have hbody := hpart.length_le
  simp only [Phrase.Clause.lexemes, List.length_append, List.length_cons, Lexeme.length_parens]
    at hlength
  change _ + (body.grouped.length + 1) ≤ n at hlength
  have hitems := params_items hg ps [] (List.forall_mem_nil _)
    (Lexeme.forall_length_le (by omega))
  rw [Phrase.Clause.lexemes, List.append_assoc, Lexeme.parens, Lexeme.between_append]
  refine .bind (.expect _) (.bind (hitems.reads (by decide) (by omega) _) ?_)
  exact .bind (.expect _) (.bind (hg.part body _ hpart (by omega) rest hrest) .ret)

theorem clauses_reads (hg : g.Reads n) (cs : List Phrase.Clause)
    (hlength : (Phrase.Clause.lexemesAll cs).length ≤ n) {inner steps : Nat} (hinner : n ≤ inner)
    (hsteps : cs.length < steps) (rest : List Lexeme) :
    Reads (clauses g inner steps) (Phrase.Clause.lexemesAll cs ++ .mark .rightBrace :: rest)
      (Phrase.Clause.clauses cs) rest := by
  induction cs generalizing steps with
  | nil =>
    obtain ⟨steps, rfl⟩ := Nat.exists_eq_add_of_lt hsteps
    rw [clauses]
    exact .ifSees rfl (.bind (.advance _) .ret)
  | cons c cs ih =>
    obtain ⟨steps, rfl⟩ : ∃ n, steps = n + 1 := ⟨steps - 1, by omega⟩
    simp only [Phrase.Clause.lexemesAll, List.length_cons, List.length_append] at hlength
    have ih := ih (by omega) (Nat.lt_of_succ_lt_succ hsteps)
    -- another clause or the closing brace
    have hnext : (next (Phrase.Clause.lexemesAll cs ++ .mark .rightBrace :: rest)).continues
        = false := by
      cases cs <;> rfl
    rw [clauses, Phrase.Clause.lexemesAll, List.cons_append, List.append_assoc]
    refine .ifNotSees rfl (.bind (.expectWord _) ?_)
    exact .bind (clause_reads hg (by omega) hinner hnext) (.bind ih .ret)

/-! ## Maps and bindings -/

theorem entries_items (hg : g.Reads n) (es : List Phrase.Entry)
    (hlength : ∀ piece ∈ Phrase.Entry.pieces es, piece.length ≤ n) (before : List Entry) :
    Items .rightBrace (fun _ => entry g) before (Phrase.Entry.pieces es)
      (Phrase.Entry.entries es) := by
  induction es generalizing before with
  | nil => exact .nil before
  | cons e es ih =>
    obtain ⟨key, value⟩ := e
    obtain ⟨hvalue, hes⟩ := List.forall_mem_cons.mp hlength
    have hpart := value.part_grouped
    have hle := hpart.length_le
    change value.grouped.length + 1 + 1 ≤ n at hvalue
    refine .cons (List.cons_ne_nil _ _) rfl (fun rest hrest => ?_) (ih hes _)
    refine .bind .kind (.bind .ret (.bind (.advance _) (.bind (.expect _) ?_)))
    refine .bind (hg.part value _ hpart (by omega) rest ?_) .ret
    exact continues_of_item (.inr (.inr rfl)) hrest

/-- The names of a target as they are read, each with whether it takes the rest. -/
def itemValues (front : List Identifier) (rest : Option Identifier) : List (String × Bool) :=
  front.map (fun n => (n.text, false)) ++ (rest.map fun n => (n.text, true)).toList

theorem names_items (front : List Identifier) (rest : Option Identifier)
    {before : List (String × Bool)} (hbefore : before.any (·.2) = false) :
    Items .rightBracket itemName before (Phrase.Target.names front rest)
      (itemValues front rest) := by
  induction front generalizing before with
  | nil =>
    cases rest with
    | none => exact .nil before
    | some s =>
      refine .cons (List.cons_ne_nil _ _) rfl (fun rest hrest => ?_) (.nil _)
      rw [itemName, hbefore]
      exact .bind (.name s) (.ifSees rfl (.bind (.advance _) .ret))
  | cons s front ih =>
    refine .cons (List.cons_ne_nil _ _) rfl (fun rest hrest => ?_) (ih (by simpa using hbefore))
    have hdots : (next rest).isMark .dotDot = false := by
      rcases hrest with h | h <;> rw [h] <;> rfl
    rw [itemName, hbefore]
    exact .bind (.name s) (.ifNotSees hdots .ret)

theorem targetOf_itemValues (front : List Identifier) (rest : Option Identifier) :
    targetOf (itemValues front rest) = .items (front.map (·.text)) (rest.map (·.text)) := by
  have hfilter : (front.map fun n => (n.text, false)).filter (!·.2) =
      front.map fun n => (n.text, false) := List.filter_eq_self.mpr (by simp)
  have hfind : (front.map fun n => (n.text, false)).find? (·.2) = none :=
    List.find?_eq_none.mpr (by simp)
  cases rest <;>
    simp [targetOf, itemValues, List.filter_append, List.find?_append, hfilter, hfind,
      Function.comp_def]

theorem target_reads (t : Phrase.Target) {steps : Nat} (hsteps : t.lexemes.length ≤ steps)
    (rest : List Lexeme) : Reads (target steps) (t.lexemes ++ rest) t.target rest := by
  cases t with
  | name s => exact .ifNotSees rfl (.bind (.name s) .ret)
  | items front last =>
    simp only [Phrase.Target.lexemes, Lexeme.length_between] at hsteps
    rw [Phrase.Target.lexemes, Lexeme.between_append]
    refine .ifSees rfl (.bind (.advance _) ?_)
    refine .bind ((names_items front last rfl).reads (by decide) (by omega) _) ?_
    rw [targetOf_itemValues]
    exact .ret

theorem bindings_items (hg : g.Reads n) (bs : List Phrase.Binding)
    (hlength : ∀ piece ∈ Phrase.Binding.pieces bs, piece.length ≤ n) {steps : Nat}
    (hsteps : n ≤ steps) (before : List Binding) :
    Items .rightParen (fun _ => binding g steps) before (Phrase.Binding.pieces bs)
      (Phrase.Binding.bindings bs) := by
  induction bs generalizing before with
  | nil => exact .nil before
  | cons b bs ih =>
    obtain ⟨t, value⟩ := b
    obtain ⟨hvalue, hbs⟩ := List.forall_mem_cons.mp hlength
    have hpart := value.part_grouped
    have hle := hpart.length_le
    simp only [List.length_append, List.length_cons] at hvalue
    change t.lexemes.length + (value.grouped.length + 1) ≤ n at hvalue
    refine .cons ?_ ?_ (fun rest hrest => ?_) (ih hbs _)
    · simp
    · cases t <;> rfl
    · rw [List.append_assoc]
      refine .bind (target_reads t (by omega) _) (.bind (.expect _) ?_)
      refine .bind (hg.part value _ hpart (by omega) rest ?_) .ret
      exact continues_of_item (.inl rfl) hrest

/-! ## Operands -/

theorem atom_reads {p : Phrase} (h : p.isAtomic = true) (steps : Nat) (rest : List Lexeme) :
    Reads (primary g steps) (p.lexemes ++ rest) p.expr rest := by
  cases p with
  | void => exact .bind .kind (.bind (.advance _) (.ifSees rfl (.bind (.advance _) .ret)))
  | bool b => cases b <;> exact .bind .kind (.bind (.advance _) .ret)
  | number | text | name => exact .bind .kind (.bind (.advance _) .ret)
  | _ => cases h

/-- What is read by itself is read as a part. -/
theorem part_reads {p : Phrase} {ls : List Lexeme} (hpart : p.Part ls)
    (hp : ∀ rest, (next rest).closes = true → Reads g.expression (p.lexemes ++ rest) p.expr rest)
    (steps : Nat) (rest : List Lexeme) : Reads (primary g steps) (ls ++ rest) p.expr rest := by
  cases hpart with
  | bare h => exact atom_reads h steps rest
  | parens =>
    rw [Lexeme.parens, Lexeme.between_append]
    refine .bind .kind (.bind (.advance _) (.ifNotSees ?_ ?_))
    · rw [Lexeme.next_append p.lexemes_ne_nil]
      exact p.not_close
    · exact .bind (hp _ rfl) (.bind (.expect _) .ret)

theorem primary_reads (hg : g.Reads n) {p : Phrase} (hp : p.isPrimary = true)
    (hlength : p.lexemes.length ≤ n + 1) {steps : Nat} (hsteps : n ≤ steps) {rest : List Lexeme}
    (hrest : (next rest).closes = true) :
    Reads (primary g steps) (p.lexemes ++ rest) p.expr rest := by
  have hends := Token.Kind.continues_of_closes hrest
  have hsuffix := Token.Kind.isSuffix_of_continues hends
  cases p with
  | binary | call | comprehension => cases hp
  | void | number | bool | text | name => exact atom_reads rfl steps rest
  | unary op e =>
    have hpart := e.part_grouped
    have hle := hpart.length_le
    change e.grouped.length + 1 ≤ n + 1 at hlength
    have he := hg.operand e _ hpart (by omega) rest hsuffix
    cases op <;> exact .bind .kind (.bind (.advance _) (.bind he .ret))
  | list items =>
    rw [Phrase.lexemes, Lexeme.length_between] at hlength
    have hitems := phrases_items hg (.inr rfl) items (Lexeme.forall_length_le (by omega)) []
    rw [Phrase.lexemes, Lexeme.between_append]
    refine .bind .kind (.bind (.advance _) ?_)
    exact .bind (hitems.reads (by decide) (by omega) _) .ret
  | map es =>
    rw [Phrase.lexemes, Lexeme.length_between] at hlength
    have hitems := entries_items hg es (Lexeme.forall_length_le (by omega)) []
    rw [Phrase.lexemes, Lexeme.between_append]
    refine .bind .kind (.bind (.advance _) ?_)
    exact .bind (hitems.reads (by decide) (by omega) _) .ret
  | withBlock bs body =>
    have hpart := body.part_grouped
    have hle := hpart.length_le
    simp only [Phrase.lexemes, List.length_cons, List.length_append, Lexeme.length_parens]
      at hlength
    change _ + (body.grouped.length + 1) + 1 ≤ n + 1 at hlength
    have hitems := bindings_items hg bs (Lexeme.forall_length_le (by omega)) hsteps []
    rw [Phrase.lexemes, List.cons_append, List.append_assoc, Lexeme.parens, Lexeme.between_append]
    refine .bind .kind (.bind (.advance _) (.bind (.expect _) ?_))
    refine .bind (hitems.reads (by decide) (by omega) _) (.bind (.expect _) ?_)
    exact .bind (hg.part body _ hpart (by omega) rest hends) .ret
  | lambda cs =>
    simp only [Phrase.lexemes, List.length_cons, Lexeme.length_between] at hlength
    have hcount := Phrase.Clause.count_le cs
    have hcs : Reads (clauses g steps steps) _ _ rest :=
      clauses_reads hg cs (by omega) hsteps (by omega) rest
    rw [Phrase.lexemes, List.cons_append, Lexeme.between_append]
    refine .bind .kind (.bind (.advance _) (.ifNotSees rfl ?_))
    exact .bind (.expect _) (.bind hcs .ret)
  | operator op => exact .bind .kind (.bind (.advance _) (.bind (.operator op) .ret))
  | operatorOn op e =>
    simp only [Phrase.lexemes, List.length_cons, Lexeme.length_parens] at hlength
    have he := hg.operand e _ .parens (by omega) rest hsuffix
    exact .bind .kind (.bind (.advance _) (.bind (.operator op) (.bind he .ret)))

theorem suffixes_reads_none {inner steps : Nat} (hsteps : 0 < steps) {e : Expr}
    {rest : List Lexeme} (hrest : (next rest).isSuffix = false) :
    Reads (suffixes g inner steps e) rest e rest := by
  obtain ⟨steps, rfl⟩ := Nat.exists_eq_add_of_lt hsteps
  rw [suffixes]
  refine .bind .kind ?_
  split
  · next h => rw [h] at hrest; cases hrest
  · next h => rw [h] at hrest; cases hrest
  · exact .ret

theorem call_reads (hg : g.Reads n) {args : List Phrase}
    (hlength : (Lexeme.separated (Phrase.pieces args)).length ≤ n) {inner steps : Nat}
    (hinner : n < inner) (hsteps : 1 < steps) {e : Expr} {rest : List Lexeme}
    (hrest : (next rest).isSuffix = false) :
    Reads (suffixes g inner steps e)
      (Lexeme.parens (Lexeme.separated (Phrase.pieces args)) ++ rest)
      (.call e (Phrase.exprs args)) rest := by
  have hitems := phrases_items hg (.inl rfl) args (Lexeme.forall_length_le hlength) []
  obtain ⟨steps, rfl⟩ : ∃ n, steps = n + 1 := ⟨steps - 1, by omega⟩
  rw [suffixes, Lexeme.parens, Lexeme.between_append]
  refine .bind .kind (.bind (.advance _) ?_)
  refine .bind (hitems.reads (by decide) (by omega) _) ?_
  exact suffixes_reads_none (by omega) hrest

/-- A phrase that is not joined by operators, as it is printed by itself. -/
theorem operandWith_reads (hg : g.Reads n) {p : Phrase}
    (hp : (∃ f args, p = .call f args) ∨ p.isPrimary = true)
    (hlength : p.lexemes.length ≤ n + 1) {steps : Nat} (hsteps : n + 1 < steps)
    {rest : List Lexeme} (hrest : (next rest).closes = true) :
    Reads (operandWith g steps) (p.lexemes ++ rest) p.expr rest := by
  have hsuffix := Token.Kind.isSuffix_of_continues (Token.Kind.continues_of_closes hrest)
  rcases hp with ⟨f, args, rfl⟩ | hp
  · have hpart := f.part_grouped
    have hle := hpart.length_le
    have hpos := List.length_pos_iff.mpr hpart.ne_nil
    rw [Phrase.lexemes, List.length_append, Lexeme.length_parens] at hlength
    change f.grouped.length + _ ≤ n + 1 at hlength
    rw [Phrase.lexemes, List.append_assoc]
    refine .bind (part_reads hpart (hg.expression f (by omega)) steps _) ?_
    exact call_reads hg (by omega) (by omega) (by omega) hsuffix
  · exact .bind (primary_reads hg hp hlength (by omega) hrest)
      (suffixes_reads_none (by omega) hsuffix)

/-! ## Expressions -/

theorem chain_reads_none {steps : Nat} (hsteps : 0 < steps) {rest : List Lexeme}
    (hrest : BinaryOp.ofToken? (next rest) = none) : Reads (chain g steps) rest [] rest := by
  obtain ⟨steps, rfl⟩ := Nat.exists_eq_add_of_lt hsteps
  rw [chain]
  refine .bind .kind ?_
  rw [hrest]
  exact .ret

/-- An operand with no operator after it is an expression. -/
theorem expressionWith_reads_operand {ls rest : List Lexeme} {e : Expr}
    (he : Reads g.operand ls e rest) {steps : Nat} (hsteps : 0 < steps)
    (hrest : (next rest).continues = false) : Reads (expressionWith g steps) ls e rest := by
  have hchain := chain_reads_none (g := g) hsteps (Token.Kind.ofToken?_of_continues hrest)
  have hdollar := Token.Kind.isMark_dollar_of_continues hrest
  exact .bind he (.bind hchain (.ifNotSees hdollar .ret))

theorem join_single (left right : Expr) (op : BinaryOp) :
    Expr.join left [(op, right)] = .binary op left right := by
  simp [Expr.join, Expr.extend, Expr.settle]

theorem binary_reads (hg : g.Reads n) {op : BinaryOp} {l r : Phrase}
    (hlength : (Phrase.binary op l r).lexemes.length ≤ n + 1) {steps : Nat} (hsteps : 1 < steps)
    {rest : List Lexeme} (hrest : (next rest).continues = false) :
    Reads (expressionWith g steps) ((Phrase.binary op l r).lexemes ++ rest)
      (Phrase.binary op l r).expr rest := by
  have hl := l.part_grouped
  have hr := r.part_grouped
  have hlle := hl.length_le
  have hrle := hr.length_le
  have hlpos := List.length_pos_iff.mpr hl.ne_nil
  rw [Phrase.lexemes, List.length_append, List.length_cons] at hlength
  change l.grouped.length + (r.grouped.length + 1) ≤ n + 1 at hlength
  obtain ⟨steps, rfl⟩ : ∃ n, steps = n + 1 := ⟨steps - 1, by omega⟩
  have hsuffix : op.lexeme.kind.isSuffix = false := by cases op <;> rfl
  have hdollar := Token.Kind.isMark_dollar_of_continues hrest
  have hchain : Reads (chain g (steps + 1)) (op.lexeme :: (r.grouped ++ rest)) [(op, r.expr)]
      rest := by
    rw [chain]
    refine .bind .kind ?_
    simp only [next, op.ofToken?_lexeme]
    have hright := hg.operand r _ hr (by omega) rest (Token.Kind.isSuffix_of_continues hrest)
    have hnone : Reads (chain g steps) rest [] rest :=
      chain_reads_none (by omega) (Token.Kind.ofToken?_of_continues hrest)
    exact .bind (.advance _) (.bind hright (.bind hnone .ret))
  rw [Phrase.lexemes, List.append_assoc]
  refine .bind (hg.operand l _ hl (by omega) _ hsuffix) (.bind hchain (.ifNotSees hdollar ?_))
  rw [join_single]
  exact .ret

theorem optional_reads (hg : g.Reads n) {m : Mark} (p : Option Phrase)
    (hlength : (Phrase.lexemesAfter m p).length ≤ n + 1) {rest : List Lexeme}
    (hrest : (next rest).continues = false) (hm : (next rest).isMark m = false) :
    Reads (optional g m) (Phrase.lexemesAfter m p ++ rest) (Phrase.expr? p) rest := by
  cases p with
  | none => exact .ifNotSees hm .ret
  | some p =>
    have hpart := p.part_grouped
    have hle := hpart.length_le
    change p.grouped.length + 1 ≤ n + 1 at hlength
    refine .ifSees (Token.Kind.isMark_self m) (.bind (.advance _) ?_)
    exact .bind (hg.part p _ hpart (by omega) rest hrest) .ret

theorem comprehension_reads (hg : g.Reads n) {s : Identifier} {source : Phrase}
    {filter map : Option Phrase}
    (hlength : (Phrase.comprehension s source filter map).lexemes.length ≤ n + 1) {steps : Nat}
    (hsteps : 0 < steps) {rest : List Lexeme} (hrest : (next rest).closes = true) :
    Reads (expressionWith g steps) ((Phrase.comprehension s source filter map).lexemes ++ rest)
      (Phrase.comprehension s source filter map).expr rest := by
  have hpart := source.part_grouped
  have hle := hpart.length_le
  simp only [Phrase.lexemes, List.length_append, List.length_cons] at hlength
  change source.grouped.length + _ ≤ n + 1 at hlength
  have hends := Token.Kind.continues_of_closes hrest
  have hcolon : (next rest).isMark .colon = false ∧ (next rest).isMark .equal = false := by
    rcases Token.Kind.closes_iff.mp hrest with h | h <;> rw [h] <;> exact ⟨rfl, rfl⟩
  -- a filter ends in front of `=` or of what follows the whole
  have hafter : (next (Phrase.lexemesAfter .equal map ++ rest)).continues = false ∧
      (next (Phrase.lexemesAfter .equal map ++ rest)).isMark .colon = false := by
    cases map with
    | none => exact ⟨hends, hcolon.1⟩
    | some p => exact ⟨rfl, rfl⟩
  have hmap := optional_reads hg map (by omega) hends hcolon.2
  have hfilter := optional_reads hg filter (by omega) hafter.1 hafter.2
  simp only [Phrase.lexemes, List.append_assoc, List.cons_append]
  refine .bind (hg.operand source _ hpart (by omega) _ rfl) (.bind (chain_reads_none hsteps rfl) ?_)
  refine .ifSees rfl (.bind (.advance _) (.bind (.name s) ?_))
  exact .bind hfilter (.bind hmap .ret)

/-! ## Tying the knot -/

/-- The two parsers that all others refer back to, at so many steps. -/
def grammar (steps : Nat) : Grammar := ⟨expressionIn steps, operandIn steps⟩

theorem grammar_expression {steps : Nat} (hg : (grammar steps).Reads n)
    (hg' : (grammar (steps + 1)).Reads n) (hsteps : n + 1 < steps) {p : Phrase}
    (hlength : p.lexemes.length ≤ n + 1) {rest : List Lexeme}
    (hrest : (next rest).closes = true) :
    Reads (expressionIn (steps + 2)) (p.lexemes ++ rest) p.expr rest := by
  have hends := Token.Kind.continues_of_closes hrest
  have hoperand (hp : (∃ f args, p = .call f args) ∨ p.isPrimary = true) :
      Reads (expressionIn (steps + 2)) (p.lexemes ++ rest) p.expr rest :=
    expressionWith_reads_operand (g := grammar (steps + 1))
      (operandWith_reads hg hp hlength (by omega) hrest) (Nat.succ_pos _) hends
  cases p with
  | binary op l r => exact binary_reads hg' hlength (by omega) hends
  | comprehension s source filter map => exact comprehension_reads hg' hlength (by omega) hrest
  | call f args => exact hoperand (.inl ⟨f, args, rfl⟩)
  | _ => exact hoperand (.inr rfl)

theorem grammar_operand {steps : Nat} {p : Phrase}
    (hp : ∀ rest, (next rest).closes = true →
      Reads (expressionIn steps) (p.lexemes ++ rest) p.expr rest) (hsteps : 0 < steps)
    {ls : List Lexeme} (hpart : p.Part ls) {rest : List Lexeme}
    (hrest : (next rest).isSuffix = false) :
    Reads (operandIn (steps + 1)) (ls ++ rest) p.expr rest :=
  .bind (part_reads (g := grammar steps) hpart hp steps rest) (suffixes_reads_none hsteps hrest)

/-- Four steps for each lexeme of a phrase are enough to read it, and two more to read it as a
part. -/
theorem grammar_reads {steps : Nat} (hsteps : 4 * n + 2 ≤ steps) : (grammar steps).Reads n := by
  induction n generalizing steps with
  | zero =>
    have hnone {p : Phrase} (h : p.lexemes.length ≤ 0) : False :=
      p.lexemes_ne_nil (List.eq_nil_of_length_eq_zero (Nat.le_zero.mp h))
    exact ⟨fun p h => (hnone h).elim, fun p _ _ h => (hnone h).elim, fun p _ _ h => (hnone h).elim⟩
  | succ n ih =>
    have hexpression (p : Phrase) (hp : p.lexemes.length ≤ n + 1) (m : Nat) (hm : 4 * n + 4 ≤ m)
        (rest : List Lexeme) (hrest : (next rest).closes = true) :
        Reads (expressionIn m) (p.lexemes ++ rest) p.expr rest := by
      obtain ⟨m, rfl⟩ : ∃ k, m = k + 2 := ⟨m - 2, by omega⟩
      exact grammar_expression (ih (by omega)) (ih (by omega)) (by omega) hp hrest
    have hoperand (p : Phrase) (ls : List Lexeme) (hpart : p.Part ls)
        (hp : p.lexemes.length ≤ n + 1) (m : Nat) (hm : 4 * n + 5 ≤ m)
        (rest : List Lexeme) (hrest : (next rest).isSuffix = false) :
        Reads (operandIn m) (ls ++ rest) p.expr rest := by
      obtain ⟨m, rfl⟩ : ∃ k, m = k + 1 := ⟨m - 1, by omega⟩
      exact grammar_operand (hexpression p hp m (by omega)) (by omega) hpart hrest
    refine ⟨fun p hp => hexpression p hp steps (by omega), fun p ls hpart hp rest hrest => ?_,
      fun p ls hpart hp => hoperand p ls hpart hp steps (by omega)⟩
    obtain ⟨steps, rfl⟩ : ∃ k, steps = k + 1 := ⟨steps - 1, by omega⟩
    have hsuffix := Token.Kind.isSuffix_of_continues hrest
    exact expressionWith_reads_operand (g := grammar steps)
      (hoperand p ls hpart hp steps (by omega) rest hsuffix) (by omega) hrest

end Parse

/-- The text of a phrase is read as the tree that the phrase stands for, up to its end. -/
theorem Phrase.expression_render (p : Phrase) (file : Option String) :
    ∃ start stop, Lexer.ofSource p.render file = .ok start ∧
      Parse.expression start = .ok p.expr stop ∧ stop.current.kind = .eof := by
  obtain ⟨l, ls, hls⟩ := List.exists_cons_of_ne_nil p.lexemes_ne_nil
  obtain ⟨start, hstart, hshows, hroom⟩ := Lexeme.exists_shows l ls file
  rw [← hls] at hstart hshows
  have hlength : p.lexemes.length = ls.length + 1 := by rw [hls, List.length_cons]
  have hsteps : 4 * p.lexemes.length + 2 ≤ Parse.stepsFor start := by
    unfold Parse.stepsFor
    omega
  have hreads := (Parse.grammar_reads hsteps).expression p (Nat.le_refl _) [] rfl
  rw [List.append_nil] at hreads
  obtain ⟨stop, hstop, hend⟩ := hreads start hshows
  exact ⟨start, stop, hstart, hstop, hend⟩

end Clausal
