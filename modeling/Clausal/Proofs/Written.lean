import Clausal.Proofs.Parsed
import Clausal.Proofs.RoundTrip

/-!
# Every parsed tree can be written

Phrases are all there is to the grammar: whatever text an expression was read from, some phrase
stands for the tree that was read (`Parse.expression_finds`), and the same holds of the clauses of
a program (`Parse.statement_finds`). Together with `Phrase.expression_render` this makes printing
and reading inverse on exactly the trees that parsing gives.

A name or a number in a tree can be written because it was a token. `Token.Kind.Genuine` says so
of one token, and `Parse.Finds P x` that `x`, from a lexer on such a token, ends on such a token
and in a value with the property `P`, if it ends in one.
-/

namespace Clausal

/-! ## Tokens -/

/-- A name can be written as a name, and a number as a number literal. -/
def Token.Kind.Genuine : Token.Kind → Prop
  | .symbol s => ∃ n : Identifier, n.text = s
  | .number x => ∃ n : Numeral, n.value = x
  | _ => True

namespace Scan

theorem number_genuine {c stop : Cursor} {d : Char} {cs : List Char} {x : Float}
    (hc : c.rest = d :: cs) (hd : d.isDigit = true) (h : number c = (.ok x, stop)) :
    ∃ n : Numeral, n.value = x := by
  obtain ⟨⟨taken, htaken, -⟩, hlt⟩ := number_reaches hc hd
  rw [h] at htaken hlt
  obtain ⟨rest, p⟩ := c
  obtain ⟨stop, q⟩ := stop
  dsimp only at hc htaken hlt
  have hne : taken ≠ [] := by
    rintro rfl
    rw [htaken, List.nil_append] at hlt
    exact absurd hlt (Nat.lt_irrefl _)
  rw [htaken] at h
  obtain ⟨e, es, rfl⟩ := List.exists_cons_of_ne_nil hne
  have he : e = d := by
    rw [htaken] at hc
    exact (List.cons.inj hc).1
  have hreads := (isNumeral_of_number hne h).number_append hne breaks_nil {}
  rw [List.append_nil] at hreads
  exact ⟨⟨e :: es, x, ⟨e, es, rfl, by rw [he]; exact hd⟩, hreads⟩, rfl⟩

theorem word_genuine {c : Cursor} {d : Char} {cs : List Char} (hc : c.rest = d :: cs)
    (hd : d.isDigit = false) (hname : isNameChar d = true) : (word c).1.Genuine := by
  have htake : c.rest.takeWhile isNameChar = d :: cs.takeWhile isNameChar := by
    rw [hc, List.takeWhile_cons_of_pos hname]
  unfold word
  cases hfree : Keyword.ofText? (String.ofList (c.rest.takeWhile isNameChar)) with
  | some w => simp only [hfree, Token.Kind.Genuine]
  | none =>
    simp only [hfree]
    refine ⟨⟨String.ofList (c.rest.takeWhile isNameChar), ?_, ?_, hfree⟩, rfl⟩
    · exact ⟨d, cs.takeWhile isNameChar, by rw [String.toList_ofList, htake], hd⟩
    · rw [String.toList_ofList]
      exact fun e he => List.all_eq_true.mp List.all_takeWhile e he

theorem mark_genuine (start : Cursor) (first : Char) (cs : List Char) :
    (mark start first cs).1.Genuine := by
  have hsingle : (single first).Genuine := by
    unfold single
    split <;> trivial
  unfold mark
  split
  · split
    · trivial
    · exact hsingle
  · exact hsingle

theorem kind_genuine {c stop : Cursor} {k : Token.Kind} (h : kind c = (.ok k, stop)) :
    k.Genuine := by
  unfold kind at h
  split at h
  · cases h
    trivial
  · next first cs hc =>
    split at h
    · next hd =>
      split at h
      · next hnumber =>
        cases h
        exact number_genuine hc hd hnumber
      · cases h
    · next hd =>
      split at h
      · split at h
        · cases h
          trivial
        · cases h
      · split at h
        · next hname =>
          cases h
          exact word_genuine hc (by simpa using hd) hname
        · cases h
          exact mark_genuine _ _ _

end Scan

theorem scan_genuine {file : Option String} {c stop : Cursor} {token : Token}
    (h : scan file c = (.ok token, stop)) : token.kind.Genuine := by
  unfold scan at h
  split at h
  · next hkind =>
    cases h
    exact Scan.kind_genuine hkind
  · cases h

theorem Lexer.ofSource_genuine {source : String} {file : Option String} {lexer : Lexer}
    (h : Lexer.ofSource source file = .ok lexer) : lexer.current.kind.Genuine := by
  unfold Lexer.ofSource at h
  split at h
  · next hscan =>
    cases h
    exact scan_genuine hscan
  · cases h

/-! ## Trees that can be written -/

/-- Some phrase stands for the tree. -/
def Expr.Written (e : Expr) : Prop := ∃ p : Phrase, p.expr = e

/-- The clause can be written. -/
def Clause.Written (c : Clause) : Prop := ∃ q : Phrase.Clause, q.clause = c

/-- The name and the clause can be written. -/
def Declaration.Written (d : Declaration) : Prop :=
  (∃ n : Identifier, n.text = d.name) ∧ d.clause.Written

/-- The parameter, in the place `index`, can be written. -/
inductive Param.WrittenAt (index : Nat) : Param → Prop
  | named (n : Identifier) (guard : Option Phrase) :
    Param.WrittenAt index ⟨some n.text, Phrase.expr? guard⟩
  | pattern (p : Phrase) :
    Param.WrittenAt index ⟨none, some (.binary .equal (.parameter index) p.expr)⟩

namespace Phrase

theorem exists_exprs {es : List Expr} (h : ∀ e ∈ es, e.Written) : ∃ ps, exprs ps = es := by
  induction es with
  | nil => exact ⟨[], rfl⟩
  | cons e es ih =>
    obtain ⟨⟨p, rfl⟩, hes⟩ := List.forall_mem_cons.mp h
    obtain ⟨ps, rfl⟩ := ih hes
    exact ⟨p :: ps, rfl⟩

theorem exists_expr? {e : Option Expr} (h : ∀ f, e = some f → f.Written) : ∃ p, expr? p = e := by
  cases e with
  | none => exact ⟨none, rfl⟩
  | some e =>
    obtain ⟨p, rfl⟩ := h e rfl
    exact ⟨some p, rfl⟩

theorem exists_entries {es : List Clausal.Entry} (h : ∀ e ∈ es, e.value.Written) :
    ∃ qs, Entry.entries qs = es := by
  induction es with
  | nil => exact ⟨[], rfl⟩
  | cons e es ih =>
    obtain ⟨key, value⟩ := e
    obtain ⟨⟨p, rfl⟩, hes⟩ := List.forall_mem_cons.mp h
    obtain ⟨qs, rfl⟩ := ih hes
    exact ⟨⟨key, p⟩ :: qs, rfl⟩

theorem exists_bindings {bs : List Clausal.Binding}
    (h : ∀ b ∈ bs, (∃ t : Target, t.target = b.target) ∧ b.value.Written) :
    ∃ qs, Binding.bindings qs = bs := by
  induction bs with
  | nil => exact ⟨[], rfl⟩
  | cons b bs ih =>
    obtain ⟨target, value⟩ := b
    obtain ⟨⟨⟨t, rfl⟩, p, rfl⟩, hbs⟩ := List.forall_mem_cons.mp h
    obtain ⟨qs, rfl⟩ := ih hbs
    exact ⟨⟨t, p⟩ :: qs, rfl⟩

theorem exists_clauses {cs : List Clausal.Clause} (h : ∀ c ∈ cs, c.Written) :
    ∃ qs, Clause.clauses qs = cs := by
  induction cs with
  | nil => exact ⟨[], rfl⟩
  | cons c cs ih =>
    obtain ⟨⟨q, rfl⟩, hcs⟩ := List.forall_mem_cons.mp h
    obtain ⟨qs, rfl⟩ := ih hcs
    exact ⟨q :: qs, rfl⟩

/-- One more parameter behind others, if its name is not among theirs. -/
theorem Params.exists_append {p : Param} {taken : List String} :
    (qs : Params taken) → (index : Nat) → p.WrittenAt (index + (qs.params index).length) →
    (∀ s, p.name = some s → s ∉ taken ∧ ∀ q ∈ qs.params index, q.name ≠ some s) →
    ∃ qs' : Params taken, qs'.params index = qs.params index ++ [p]
  | .done, index, hp, hfresh => by
    cases hp with
    | named n guard => exact ⟨.name n (hfresh n.text rfl).1 guard .done, rfl⟩
    | pattern p => exact ⟨.pattern p .done, rfl⟩
  | .name n fresh guard qs, index, hp, hfresh => by
    have hplace : index + 1 + (qs.params (index + 1)).length =
        index + ((Params.name n fresh guard qs).params index).length := by
      simp only [Params.params, List.length_cons]
      omega
    obtain ⟨qs', hqs'⟩ := Params.exists_append qs (index + 1) (by rwa [hplace]) fun s hs => by
      obtain ⟨htaken, hothers⟩ := hfresh s hs
      obtain ⟨hfirst, hothers⟩ := List.forall_mem_cons.mp hothers
      refine ⟨fun hmem => ?_, hothers⟩
      rcases List.mem_cons.mp hmem with rfl | hmem
      · exact hfirst rfl
      · exact htaken hmem
    exact ⟨.name n fresh guard qs', by simp only [Params.params, hqs', List.cons_append]⟩
  | .pattern p' qs, index, hp, hfresh => by
    have hplace : index + 1 + (qs.params (index + 1)).length =
        index + ((Params.pattern p' qs).params index).length := by
      simp only [Params.params, List.length_cons]
      omega
    obtain ⟨qs', hqs'⟩ := Params.exists_append qs (index + 1) (by rwa [hplace]) fun s hs =>
      ⟨(hfresh s hs).1, (List.forall_mem_cons.mp (hfresh s hs).2).2⟩
    exact ⟨.pattern p' qs', by simp only [Params.params, hqs', List.cons_append]⟩

end Phrase

theorem Expr.written_binary (op : BinaryOp) (left right : Expr) (hleft : left.Written)
    (hright : right.Written) : (Expr.binary op left right).Written := by
  obtain ⟨l, rfl⟩ := hleft
  obtain ⟨r, rfl⟩ := hright
  exact ⟨.binary op l r, rfl⟩

/-! ## What a parser finds -/

namespace Parse

variable {α β : Type} {g : Grammar}

/-- From a token that can be written, the parser ends on such a token and in a value with this
property, if it ends in one. -/
def Finds (P : α → Prop) (x : Parse α) : Prop :=
  ∀ lexer a stop, lexer.current.kind.Genuine → x lexer = .ok a stop →
    stop.current.kind.Genuine ∧ P a

namespace Finds

variable {x : Parse α} {f : α → Parse β} {P : α → Prop} {Q : β → Prop}

theorem bind (hx : x.Finds P) (hf : ∀ a, P a → (f a).Finds Q) : (x >>= f).Finds Q := by
  intro lexer b stop hgenuine h
  cases hs : x lexer with
  | ok a mid =>
    rw [Run.bind_ok hs] at h
    obtain ⟨hmid, ha⟩ := hx lexer a mid hgenuine hs
    exact hf a ha mid b stop hmid h
  | fail e mid =>
    rw [Run.bind_fail hs] at h
    cases h
  | exhausted =>
    rw [Run.bind_exhausted hs] at h
    cases h

theorem mono {P' : α → Prop} (hx : x.Finds P) (h : ∀ a, P a → P' a) : x.Finds P' :=
  fun lexer a stop hgenuine hs => (hx lexer a stop hgenuine hs).imp_right (h a)

/-- Whatever the first parser ends in. -/
theorem after (hx : x.Finds fun _ => True) (hf : ∀ a, (f a).Finds Q) : (x >>= f).Finds Q :=
  hx.bind fun a _ => hf a

theorem ret {a : α} (h : P a) : (pure a : Parse α).Finds P := by
  intro lexer b stop hgenuine hs
  cases hs
  exact ⟨hgenuine, h⟩

theorem fail (e : Error) : Finds P (Run.fail e) := by
  intro lexer b stop _ hs
  cases hs

theorem exhaust : Finds P Run.exhaust := by
  intro lexer b stop _ hs
  cases hs

theorem unexpected (wanted : Expectation) : (Parse.unexpected wanted : Parse α).Finds P := by
  intro lexer b stop _ hs
  cases hs

/-- Whatever is read off the lexer. -/
theorem look {r : Lexer → α} (hf : ∀ a, (f a).Finds Q) : Finds Q (Run.read r >>= f) :=
  fun lexer b stop hgenuine h => hf (r lexer) lexer b stop hgenuine h

theorem kind : Parse.kind.Finds Token.Kind.Genuine := by
  intro lexer k stop hgenuine hs
  cases hs
  exact ⟨hgenuine, hgenuine⟩

theorem advance : Parse.advance.Finds fun _ => True := by
  intro lexer a stop _ h
  unfold Parse.advance Lexer.advance at h
  split at h
  · next hscan =>
    cases h
    exact ⟨scan_genuine hscan, trivial⟩
  · cases h

/-- After the next token. -/
theorem step {y : Unit → Parse β} (hy : (y ()).Finds Q) : (Parse.advance >>= y).Finds Q :=
  advance.after fun _ => hy

theorem expect (m : Mark) : (Parse.expect m).Finds fun _ => True := by
  refine look fun seen => ?_
  split
  · exact advance
  · exact unexpected _

theorem expectWord (w : Keyword) : (Parse.expectWord w).Finds fun _ => True := by
  refine look fun seen => ?_
  split
  · exact advance
  · exact unexpected _

theorem name : Parse.name.Finds fun s => ∃ n : Identifier, n.text = s := by
  refine kind.bind fun k hk => ?_
  split
  · exact step (ret hk)
  · exact unexpected _

theorem operator : Parse.operator.Finds fun _ => True := by
  refine look fun k => ?_
  split
  · exact step (ret trivial)
  · exact unexpected _

end Finds

/-- Items of which each, after others with a property, keeps it; the latest comes first. -/
theorem separated_finds {P : List α → Prop} {close : Mark} {item : List α → Parse α}
    (hitem : ∀ before, P before → (item before).Finds fun a => P (a :: before)) (steps : Nat)
    {before : List α} (hbefore : P before) :
    (separated close item steps before).Finds fun found => P found.reverse := by
  induction steps generalizing before with
  | zero => exact .exhaust
  | succ steps ih =>
    rw [separated]
    refine .look fun closed => ?_
    split
    · exact .step (.ret (by rwa [List.reverse_reverse]))
    · refine (hitem before hbefore).bind fun next hnext => .look fun comma => ?_
      split
      · exact .step (ih hnext)
      · refine .look fun closing => ?_
        split
        · exact .after (.unexpected _) fun _ => ih hnext
        · exact ih hnext

/-- Items that do not depend on those before them. -/
theorem separated_finds_all {P : α → Prop} {close : Mark} {item : Parse α} (hitem : item.Finds P)
    (steps : Nat) :
    (separated close (fun _ => item) steps []).Finds fun found => ∀ a ∈ found, P a := by
  have hfinds : (separated close (fun _ => item) steps []).Finds
      fun found => ∀ a ∈ found.reverse, P a := by
    refine separated_finds (P := fun before => ∀ a ∈ before, P a) (fun before hbefore => ?_) steps
      (List.forall_mem_nil _)
    exact hitem.mono fun a ha => List.forall_mem_cons.mpr ⟨ha, hbefore⟩
  exact hfinds.mono fun found hfound a ha => hfound a (List.mem_reverse.mpr ha)

/-- Both parsers that the others refer back to find trees that can be written. -/
structure Grammar.Written (g : Grammar) : Prop where
  expression : g.expression.Finds Expr.Written
  operand : g.operand.Finds Expr.Written

/-! ## Clauses -/

theorem param_finds (hg : g.Written) (index : Nat) :
    (param g index).Finds (Param.WrittenAt index) := by
  rw [param]
  refine Finds.kind.bind fun k hk => ?_
  split
  · obtain ⟨n, rfl⟩ := hk
    refine .step (.look fun colon => ?_)
    split
    · refine .step (hg.expression.bind fun guard hguard => .ret ?_)
      obtain ⟨p, rfl⟩ := hguard
      exact .named n (some p)
    · refine .look fun k => ?_
      split
      · next op _ =>
        refine .step (hg.operand.bind fun operand hoperand => .ret ?_)
        obtain ⟨p, rfl⟩ := hoperand
        exact .named n (some (.binary op (.name n) p))
      · exact .ret (.named n none)
  · refine hg.expression.bind fun pattern hpattern => .ret ?_
    obtain ⟨p, rfl⟩ := hpattern
    exact .pattern p

/-- The parameters, latest first, can be written. -/
def ParamsWritten (before : List Param) : Prop :=
  ∃ ps : Phrase.Params [], ps.params 0 = before.reverse

theorem nextParam_finds (hg : g.Written) {before : List Param} (hbefore : ParamsWritten before) :
    (nextParam g before).Finds fun p => ParamsWritten (p :: before) := by
  obtain ⟨ps, hps⟩ := hbefore
  have happend {p : Param} (hp : p.WrittenAt before.length)
      (hfresh : ∀ s, p.name = some s → ∀ q ∈ before, q.name ≠ some s) :
      ParamsWritten (p :: before) := by
    have hlength : 0 + (ps.params 0).length = before.length := by
      rw [hps, List.length_reverse, Nat.zero_add]
    obtain ⟨ps', hps'⟩ := ps.exists_append 0 (by rwa [hlength]) fun s hs => by
      refine ⟨List.not_mem_nil, fun q hq => hfresh s hs q ?_⟩
      rwa [hps, List.mem_reverse] at hq
    exact ⟨ps', by rw [hps', hps, List.reverse_cons]⟩
  rw [nextParam]
  refine .look fun start => (param_finds hg before.length).bind fun p hp => ?_
  split
  · next s hs =>
    split
    · exact .fail _
    · next hany =>
      refine .ret (happend hp fun t ht q hq hname => hany ?_)
      rw [List.any_eq_true]
      rw [hs] at ht
      cases ht
      exact ⟨q, hq, by simp [hname]⟩
  · next hnone =>
    refine .ret (happend hp fun t ht => ?_)
    rw [hnone] at ht
    cases ht

theorem clause_finds (hg : g.Written) (steps : Nat) : (clause g steps).Finds Clause.Written := by
  refine .after (.expect _) fun _ => ?_
  refine (separated_finds (P := ParamsWritten) (fun _ => nextParam_finds hg) steps
    ⟨.done, rfl⟩).bind fun params hparams => ?_
  refine .after (.expect _) fun _ => hg.expression.bind fun body hbody => .ret ?_
  obtain ⟨ps, hps⟩ := hparams
  obtain ⟨p, rfl⟩ := hbody
  exact ⟨.mk ps p, by rw [Phrase.Clause.clause, hps, List.reverse_reverse]⟩

theorem clauses_finds (hg : g.Written) (inner steps : Nat) :
    (clauses g inner steps).Finds fun cs => ∀ c ∈ cs, c.Written := by
  induction steps with
  | zero => exact .exhaust
  | succ steps ih =>
    rw [clauses]
    refine .look fun closed => ?_
    split
    · exact .step (.ret (List.forall_mem_nil _))
    · refine .after (.expectWord _) fun _ => (clause_finds hg inner).bind fun first hfirst => ?_
      exact ih.bind fun rest hrest => .ret (List.forall_mem_cons.mpr ⟨hfirst, hrest⟩)

/-! ## Primary expressions -/

theorem written_lambda {cs : List Clause} (hcs : ∀ c ∈ cs, c.Written) :
    (Expr.lambda cs).Written := by
  obtain ⟨qs, rfl⟩ := Phrase.exists_clauses hcs
  exact ⟨.lambda qs, rfl⟩

theorem lambda_finds (hg : g.Written) (steps : Nat) : (lambda g steps).Finds Expr.Written := by
  rw [lambda]
  refine .look fun paren => ?_
  split
  · refine (clause_finds hg steps).bind fun c hc => .ret (written_lambda ?_)
    exact List.forall_mem_singleton.mpr hc
  · refine .after (.expect _) fun _ => ?_
    exact (clauses_finds hg steps steps).bind fun cs hcs => .ret (written_lambda hcs)

theorem operatorLambda_finds : operatorLambda.Finds Expr.Written :=
  .after .operator fun op => .ret ⟨.operator op, rfl⟩

theorem operatorSection_finds (hg : g.Written) : (operatorSection g).Finds Expr.Written := by
  refine .after .operator fun op => hg.operand.bind fun operand hoperand => .ret ?_
  obtain ⟨p, rfl⟩ := hoperand
  exact ⟨.operatorOn op p, rfl⟩

theorem entry_finds (hg : g.Written) : (entry g).Finds fun e => e.value.Written := by
  have hrest (key : String) : (do
      advance
      expect .colon
      let value ← g.expression
      return Entry.mk key value : Parse Entry).Finds fun e => e.value.Written :=
    .step (.after (.expect _) fun _ => hg.expression.bind fun value hvalue => .ret hvalue)
  refine .look fun k => ?_
  dsimp only
  split
  · exact hrest _
  · exact hrest _
  · exact .after (.unexpected _) fun key => hrest key

/-- The names of a target, latest first, can be written. -/
def NamesWritten (before : List (String × Bool)) : Prop :=
  ∃ front rest, before.reverse = itemValues front rest

theorem itemName_finds {before : List (String × Bool)} (hbefore : NamesWritten before) :
    (itemName before).Finds fun a => NamesWritten (a :: before) := by
  obtain ⟨front, rest, hnames⟩ := hbefore
  rw [itemName]
  split
  · exact .bind (P := fun _ => False) (.unexpected _) fun _ h => h.elim
  · next hany =>
    -- none of the names before takes the rest
    have hfront : before.reverse = itemValues front none := by
      cases rest with
      | none => exact hnames
      | some n =>
        refine absurd ?_ hany
        rw [← List.any_reverse, hnames]
        simp [itemValues]
    refine Finds.name.bind fun s hs => .look fun dots => ?_
    obtain ⟨n, rfl⟩ := hs
    split
    · exact .step (.ret ⟨front, some n, by simp [hfront, itemValues]⟩)
    · exact .ret ⟨front ++ [n], none, by simp [hfront, itemValues]⟩

theorem target_finds (steps : Nat) :
    (target steps).Finds fun t => ∃ q : Phrase.Target, q.target = t := by
  rw [target]
  refine .look fun bracket => ?_
  split
  · refine .step ((separated_finds (P := NamesWritten) (fun _ => itemName_finds) steps
      ⟨[], none, rfl⟩).bind fun names hnames => .ret ?_)
    obtain ⟨front, rest, hnames⟩ := hnames
    rw [List.reverse_reverse] at hnames
    exact ⟨.items front rest, by rw [hnames, targetOf_itemValues]; rfl⟩
  · refine Finds.name.bind fun s hs => .ret ?_
    obtain ⟨n, rfl⟩ := hs
    exact ⟨.name n, rfl⟩

theorem binding_finds (hg : g.Written) (steps : Nat) :
    (binding g steps).Finds fun b =>
      (∃ t : Phrase.Target, t.target = b.target) ∧ b.value.Written := by
  refine (target_finds steps).bind fun t ht => .after (.expect _) fun _ => ?_
  exact hg.expression.bind fun value hvalue => .ret ⟨ht, hvalue⟩

theorem withBlock_finds (hg : g.Written) (steps : Nat) :
    (withBlock g steps).Finds Expr.Written := by
  refine .after (.expect _) fun _ => ?_
  refine (separated_finds_all (binding_finds hg steps) steps).bind fun bs hbs => ?_
  refine .after (.expect _) fun _ => hg.expression.bind fun body hbody => .ret ?_
  obtain ⟨qs, rfl⟩ := Phrase.exists_bindings hbs
  obtain ⟨p, rfl⟩ := hbody
  exact ⟨.withBlock qs p, rfl⟩

theorem parenthesized_finds (hg : g.Written) : (parenthesized g).Finds Expr.Written := by
  rw [parenthesized]
  refine .look fun closed => ?_
  split
  · exact .step (.ret ⟨.void, rfl⟩)
  · exact hg.expression.bind fun e he => .after (.expect _) fun _ => .ret he

theorem negation_finds (hg : g.Written) (op : UnaryOp) :
    (do advance; let operand ← g.operand; return .unary op operand : Parse Expr).Finds
      Expr.Written := by
  refine .step (hg.operand.bind fun operand hoperand => .ret ?_)
  obtain ⟨p, rfl⟩ := hoperand
  exact ⟨.unary op p, rfl⟩

theorem primary_finds (hg : g.Written) (steps : Nat) : (primary g steps).Finds Expr.Written := by
  rw [primary]
  refine Finds.kind.bind fun k hk => ?_
  split
  · obtain ⟨n, rfl⟩ := hk
    exact .step (.ret ⟨.number n, rfl⟩)
  · next s => exact .step (.ret ⟨.text s, rfl⟩)
  · exact .step (.ret ⟨.bool true, rfl⟩)
  · exact .step (.ret ⟨.bool false, rfl⟩)
  · obtain ⟨n, rfl⟩ := hk
    exact .step (.ret ⟨.name n, rfl⟩)
  · exact .step (parenthesized_finds hg)
  · refine .step ((separated_finds_all hg.expression steps).bind fun es hes => .ret ?_)
    obtain ⟨ps, rfl⟩ := Phrase.exists_exprs hes
    exact ⟨.list ps, rfl⟩
  · refine .step ((separated_finds_all (entry_finds hg) steps).bind fun es hes => .ret ?_)
    obtain ⟨qs, rfl⟩ := Phrase.exists_entries hes
    exact ⟨.map qs, rfl⟩
  · exact .step (lambda_finds hg steps)
  · exact .step operatorLambda_finds
  · exact .step (operatorSection_finds hg)
  · exact .step (withBlock_finds hg steps)
  · exact negation_finds hg .negate
  · exact negation_finds hg .not
  · exact .unexpected _

/-! ## Operands and expressions -/

theorem written_call {callee : Expr} {args : List Expr} (hcallee : callee.Written)
    (hargs : ∀ e ∈ args, e.Written) : (Expr.call callee args).Written := by
  obtain ⟨p, rfl⟩ := hcallee
  obtain ⟨ps, rfl⟩ := Phrase.exists_exprs hargs
  exact ⟨.call p ps, rfl⟩

theorem suffixes_finds (hg : g.Written) (inner steps : Nat) {e : Expr} (he : e.Written) :
    (suffixes g inner steps e).Finds Expr.Written := by
  induction steps generalizing e with
  | zero => exact .exhaust
  | succ steps ih =>
    rw [suffixes]
    refine .look fun k => ?_
    split
    · refine .step ((separated_finds_all hg.expression inner).bind fun es hes => ?_)
      exact ih (written_call he hes)
    · refine .step ((primary_finds hg inner).bind fun callee hcallee => ?_)
      exact ih (written_call hcallee (List.forall_mem_singleton.mpr he))
    · exact .ret he

theorem operandWith_finds (hg : g.Written) (steps : Nat) :
    (operandWith g steps).Finds Expr.Written :=
  (primary_finds hg steps).bind fun _ he => suffixes_finds hg steps steps he

theorem chain_finds (hg : g.Written) (steps : Nat) :
    (chain g steps).Finds fun rest => ∀ r ∈ rest, r.2.Written := by
  induction steps with
  | zero => exact .exhaust
  | succ steps ih =>
    rw [chain]
    refine .look fun k => ?_
    split
    · refine .step (hg.operand.bind fun operand hoperand => ih.bind fun rest hrest => .ret ?_)
      exact List.forall_mem_cons.mpr ⟨hoperand, hrest⟩
    · exact .ret (List.forall_mem_nil _)

theorem optional_finds (hg : g.Written) (m : Mark) :
    (optional g m).Finds fun e => ∀ f, e = some f → f.Written := by
  rw [optional]
  refine .look fun seen => ?_
  split
  · refine .step (hg.expression.bind fun e he => .ret ?_)
    rintro f ⟨⟩
    exact he
  · refine .ret ?_
    rintro f ⟨⟩

theorem expressionWith_finds (hg : g.Written) (steps : Nat) :
    (expressionWith g steps).Finds Expr.Written := by
  rw [expressionWith]
  refine hg.operand.bind fun first hfirst => (chain_finds hg steps).bind fun rest hrest => ?_
  have hjoin : (Expr.join first rest).Written :=
    Expr.join_induction Expr.written_binary hfirst hrest
  refine .look fun dollar => ?_
  split
  · refine .step (Finds.name.bind fun s hs => ?_)
    refine (optional_finds hg _).bind fun filter hfilter => ?_
    refine (optional_finds hg _).bind fun map hmap => .ret ?_
    obtain ⟨n, rfl⟩ := hs
    obtain ⟨p, hp⟩ := hjoin
    obtain ⟨f, rfl⟩ := Phrase.exists_expr? hfilter
    obtain ⟨m, rfl⟩ := Phrase.exists_expr? hmap
    exact ⟨.comprehension n p f m, by rw [Phrase.expr, hp]⟩
  · exact .ret hjoin

theorem grammar_written (steps : Nat) : (grammar steps).Written := by
  induction steps with
  | zero => exact ⟨.exhaust, .exhaust⟩
  | succ steps ih => exact ⟨expressionWith_finds ih steps, operandWith_finds ih steps⟩

theorem expression_finds : expression.Finds Expr.Written :=
  fun lexer => (grammar_written (stepsFor lexer)).expression lexer

theorem wholeExpression_finds : wholeExpression.Finds Expr.Written := by
  refine expression_finds.bind fun e he => .look fun k => ?_
  split
  · exact .ret he
  · exact .unexpected _

/-! ## Statements -/

theorem declaration_finds (isNative : String → Bool) :
    (declaration isNative).Finds Declaration.Written := by
  have hclause : wholeClause.Finds Clause.Written :=
    fun lexer => clause_finds (grammar_written (stepsFor lexer)) (stepsFor lexer) lexer
  rw [declaration]
  refine .after (.expectWord _) fun _ => .look fun start => Finds.name.bind fun s hs => ?_
  split
  · exact .after (.fail _) fun _ => hclause.bind fun c hc => .ret ⟨hs, hc⟩
  · exact hclause.bind fun c hc => .ret ⟨hs, hc⟩

theorem declarations_finds (isNative : String → Bool) (steps : Nat) :
    (declarations isNative steps).Finds fun group => ∀ d ∈ group, d.Written := by
  induction steps with
  | zero => exact .exhaust
  | succ steps ih =>
    rw [declarations]
    refine .look fun more => ?_
    split
    · refine (declaration_finds isNative).bind fun first hfirst => ih.bind fun rest hrest => ?_
      exact .ret (List.forall_mem_cons.mpr ⟨hfirst, hrest⟩)
    · exact .ret (List.forall_mem_nil _)

theorem useStatement_finds :
    useStatement.Finds fun s => ∀ group, s ≠ .declarations group := by
  refine .look fun start => .after (.expectWord _) fun _ => .look fun operand => .step ?_
  split
  · exact .ret fun _ => Statement.noConfusion
  · exact .fail _

theorem statement_finds (isNative : String → Bool) :
    (statement isNative).Finds fun found =>
      ∀ group, found = some (.declarations group) → ∀ d ∈ group, d.Written := by
  rw [statement]
  refine .look fun k => ?_
  split
  · refine .ret ?_
    rintro group ⟨⟩
  · refine useStatement_finds.bind fun s hs => .ret fun group h => ?_
    exact absurd (Option.some.inj h) (hs group)
  · refine .look fun steps => (declarations_finds isNative steps).bind fun group hgroup => ?_
    refine .ret fun group' h => ?_
    cases h
    exact hgroup
  · exact .unexpected _

end Parse

/-- Reading inverts printing, on the whole syntax: the text of a phrase is read as the tree that
the phrase stands for, up to the end of the text, and no tree is ever read that no phrase stands
for. -/
theorem expression_inverts_render :
    (∀ (p : Phrase) (file : Option String), ∃ start stop, Lexer.ofSource p.render file = .ok start ∧
      Parse.expression start = .ok p.expr stop ∧ stop.current.kind = .eof) ∧
    ∀ e : Expr, (∃ source file start stop, Lexer.ofSource source file = .ok start ∧
      Parse.expression start = .ok e stop) ↔ ∃ p : Phrase, p.expr = e := by
  refine ⟨Phrase.expression_render, fun e => ⟨?_, ?_⟩⟩
  · rintro ⟨source, file, start, stop, hstart, hparse⟩
    exact (Parse.expression_finds start e stop (Lexer.ofSource_genuine hstart) hparse).2
  · rintro ⟨p, rfl⟩
    obtain ⟨start, stop, hstart, hparse, -⟩ := p.expression_render none
    exact ⟨p.render, none, start, stop, hstart, hparse⟩

end Clausal
