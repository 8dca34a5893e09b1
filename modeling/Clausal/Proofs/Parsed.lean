import Clausal.Program
import Clausal.Proofs.Scope

/-!
# Slots in parsed trees

The parser makes references to slots by number for patterns and for operators used as functions;
all other symbols it leaves unresolved. Each such reference is to a parameter of the clause it
stands in. A tree as it was parsed is therefore scoped wherever it is put (`Expr.Closed`), and so
are the clauses of a program (`Parse.statement_yields`).

`Run.Yields P x` says that `x` ends in values with the property `P` if it ends in one. The parsers
that are loops or refer back to others keep it by induction on the steps they are given.
-/

namespace Clausal

/-! ## What a run yields -/

namespace Run

variable {ε σ α β : Type} {x : Run ε σ α} {f : α → Run ε σ β} {P : α → Prop} {Q : β → Prop}

/-- Every value that a run ends in has the property. -/
def Yields (P : α → Prop) (x : Run ε σ α) : Prop := ∀ s a t, x s = .ok a t → P a

theorem Yields.bind (hx : x.Yields P) (hf : ∀ a, P a → (f a).Yields Q) : (x >>= f).Yields Q := by
  intro s b u h
  cases hs : x s with
  | ok a t =>
    rw [bind_ok hs] at h
    exact hf a (hx s a t hs) t b u h
  | fail e t =>
    rw [bind_fail hs] at h
    cases h
  | exhausted =>
    rw [bind_exhausted hs] at h
    cases h

/-- Whatever the first run ends in, the second yields. -/
theorem Yields.after (hf : ∀ a, (f a).Yields Q) : (x >>= f).Yields Q :=
  Yields.bind (P := fun _ => True) (fun _ _ _ _ => trivial) fun a _ => hf a

theorem Yields.ret {a : α} (h : P a) : (Pure.pure a : Run ε σ α).Yields P := by
  intro s b t hs
  cases hs
  exact h

theorem Yields.fail (e : ε) : (Run.fail e : Run ε σ α).Yields P := by
  intro s b t hs
  cases hs

theorem Yields.exhaust : (Run.exhaust : Run ε σ α).Yields P := by
  intro s b t hs
  cases hs

end Run

/-! ## Closed trees -/

/-- Scoped wherever it is put: every slot that the expression refers to is one of its own. -/
def Expr.Closed (e : Expr) : Prop := ∀ scopes, e.Scoped scopes

/-- Scoped wherever it is put. -/
def Clause.Closed (c : Clause) : Prop := ∀ scopes, c.Scoped scopes

/-- Scoped among at least so many names, wherever these are put. -/
def Expr.ClosedAbove (count : Nat) (e : Expr) : Prop :=
  ∀ names scopes, count ≤ List.length names → e.Scoped (names :: scopes)

section

variable {scopes : Scopes}

theorem Expr.Closed.above {e : Expr} (h : e.Closed) (count : Nat) : e.ClosedAbove count :=
  fun names scopes _ => h (names :: scopes)

theorem Expr.closedAbove_parameter (index : Nat) : (Expr.parameter index).ClosedAbove (index + 1) :=
  fun names _ h => ⟨names, rfl, h⟩

theorem Expr.ClosedAbove.binary {count : Nat} {op : BinaryOp} {left right : Expr}
    (hleft : left.ClosedAbove count) (hright : right.ClosedAbove count) :
    (Expr.binary op left right).ClosedAbove count :=
  fun names scopes h => ⟨hleft names scopes h, hright names scopes h⟩

theorem Expr.Closed.binary {op : BinaryOp} {left right : Expr} (hleft : left.Closed)
    (hright : right.Closed) : (Expr.binary op left right).Closed :=
  fun scopes => ⟨hleft scopes, hright scopes⟩

theorem Expr.closed_free (name : String) : (Expr.free name).Closed := fun _ => trivial

theorem Expr.closed_literal (v : Literal) : (Expr.literal v).Closed := fun _ => trivial

theorem Expr.allScoped_of_forall {es : List Expr} (h : ∀ e ∈ es, e.Closed) :
    Expr.AllScoped scopes es := by
  induction es with
  | nil => trivial
  | cons e es ih =>
    exact ⟨h e List.mem_cons_self scopes, ih fun e he => h e (List.mem_cons_of_mem _ he)⟩

theorem Entry.allScoped_of_forall {es : List Entry} (h : ∀ e ∈ es, e.value.Closed) :
    Entry.AllScoped scopes es := by
  induction es with
  | nil => trivial
  | cons e es ih =>
    obtain ⟨key, value⟩ := e
    exact ⟨h ⟨key, value⟩ List.mem_cons_self scopes, ih fun e he => h e (List.mem_cons_of_mem _ he)⟩

theorem Binding.allScoped_of_forall {bound : List String} {bs : List Binding}
    (h : ∀ b ∈ bs, b.value.Closed) : Binding.AllScoped scopes bound bs := by
  induction bs generalizing bound with
  | nil => trivial
  | cons b bs ih =>
    obtain ⟨target, value⟩ := b
    exact ⟨h ⟨target, value⟩ List.mem_cons_self _, ih fun b hb => h b (List.mem_cons_of_mem _ hb)⟩

theorem Param.allScoped_of_forall {ps : List Param}
    (h : ∀ p ∈ ps, Expr.OptionScoped scopes p.guard) : Param.AllScoped scopes ps := by
  induction ps with
  | nil => trivial
  | cons p ps ih =>
    obtain ⟨name, guard⟩ := p
    exact ⟨h ⟨name, guard⟩ List.mem_cons_self, ih fun p hp => h p (List.mem_cons_of_mem _ hp)⟩

theorem Clause.allScoped_of_forall {cs : List Clause} (h : ∀ c ∈ cs, c.Closed) :
    Clause.AllScoped scopes cs := by
  induction cs with
  | nil => trivial
  | cons c cs ih =>
    exact ⟨h c List.mem_cons_self scopes, ih fun c hc => h c (List.mem_cons_of_mem _ hc)⟩

end

/-- The guard of a parameter, in the place `index`, refers to no parameter after it. -/
def Param.ClosedAt (index : Nat) (p : Param) : Prop :=
  ∀ g, p.guard = some g → g.ClosedAbove (index + 1)

theorem Clause.closed_of_params {params : List Param} {body : Expr}
    (hparams : ∀ (index : Nat) (p : Param), params[index]? = some p → p.ClosedAt index)
    (hbody : body.ClosedAbove params.length) : (Clause.mk params body).Closed := by
  intro scopes
  have hlength : (Clause.scope params).length = params.length := List.length_map _
  refine ⟨Param.allScoped_of_forall fun p hp => ?_, hbody _ _ (by omega)⟩
  obtain ⟨index, hindex⟩ := List.getElem?_of_mem hp
  obtain ⟨hlt, -⟩ := List.getElem?_eq_some_iff.mp hindex
  cases hguard : p.guard with
  | none => trivial
  | some g => exact hparams index p hindex g hguard _ _ (by omega)

/-! ## Joining operands -/

namespace Expr

section

variable {P : Expr → Prop}

theorem settle_forall (hbinary : ∀ op left right, P left → P right → P (.binary op left right))
    (strength : Nat) {waiting : Waiting} {e : Expr} (hwaiting : ∀ w ∈ waiting, P w.1) (he : P e) :
    (∀ w ∈ (settle strength waiting e).1, P w.1) ∧ P (settle strength waiting e).2 := by
  induction waiting generalizing e with
  | nil => exact ⟨hwaiting, he⟩
  | cons w waiting ih =>
    obtain ⟨left, op⟩ := w
    rw [settle]
    split
    · have hleft : P left := hwaiting _ List.mem_cons_self
      exact ih (fun w hw => hwaiting w (List.mem_cons_of_mem _ hw)) (hbinary op left e hleft he)
    · exact ⟨hwaiting, he⟩

/-- What holds of all operands and is kept by operators holds of the operands joined. -/
theorem join_induction (hbinary : ∀ op left right, P left → P right → P (.binary op left right))
    {first : Expr} {rest : List (BinaryOp × Expr)} (hfirst : P first)
    (hrest : ∀ r ∈ rest, P r.2) : P (join first rest) := by
  have hfold (state : Waiting × Expr) (hstate : (∀ w ∈ state.1, P w.1) ∧ P state.2) :
      (∀ w ∈ (rest.foldl extend state).1, P w.1) ∧ P (rest.foldl extend state).2 := by
    induction rest generalizing state with
    | nil => exact hstate
    | cons r rest ih =>
      refine ih (fun r hr => hrest r (List.mem_cons_of_mem _ hr)) _ ⟨?_, hrest r List.mem_cons_self⟩
      have hsettled := settle_forall hbinary r.1.precedence hstate.1 hstate.2
      intro w hw
      cases hw with
      | head => exact hsettled.2
      | tail _ hw => exact hsettled.1 w hw
  have hall := hfold ([], first) ⟨(fun w hw => nomatch hw), hfirst⟩
  exact (settle_forall hbinary 0 hall.1 hall.2).2

end

theorem closed_join {first : Expr} {rest : List (BinaryOp × Expr)} (hfirst : first.Closed)
    (hrest : ∀ r ∈ rest, r.2.Closed) : (join first rest).Closed :=
  join_induction (fun _ _ _ => Closed.binary) hfirst hrest

end Expr

/-! ## Parsers -/

namespace Parse

open Run (Yields)

variable {α : Type} {g : Grammar}

theorem unexpected_yields (wanted : Expectation) {P : α → Prop} : (unexpected wanted).Yields P := by
  intro lexer a lexer' h
  cases h

/-- Both parsers that the others refer back to yield closed expressions. -/
structure Grammar.Closed (g : Grammar) : Prop where
  expression : g.expression.Yields Expr.Closed
  operand : g.operand.Yields Expr.Closed

/-- The items of a list have a property that depends on their place. -/
def Each (P : Nat → α → Prop) (xs : List α) : Prop := ∀ i x, xs[i]? = some x → P i x

theorem Each.append {P : Nat → α → Prop} {xs : List α} {x : α} (hxs : Each P xs)
    (hx : P xs.length x) : Each P (xs ++ [x]) := by
  intro i y hy
  rw [List.getElem?_append] at hy
  split at hy
  · exact hxs i y hy
  · obtain ⟨hlt, rfl⟩ := List.getElem?_eq_some_iff.mp hy
    have hi : i = xs.length := by
      rw [List.length_singleton] at hlt
      omega
    subst hi
    simpa using hx

theorem separated_yields_after {P : Nat → α → Prop} {close : Mark} {item : List α → Parse α}
    (hitem : ∀ before, (item before).Yields (P before.length)) (steps : Nat) {before : List α}
    (hbefore : Each P before.reverse) :
    (separated close item steps before).Yields (Each P) := by
  induction steps generalizing before with
  | zero => exact .exhaust
  | succ steps ih =>
    rw [separated]
    refine .after fun closed => ?_
    split
    · exact .after fun _ => .ret hbefore
    · refine (hitem before).bind fun next hnext => ?_
      have hrest : (separated close item steps (next :: before)).Yields (Each P) := by
        refine ih ?_
        rw [List.reverse_cons]
        exact hbefore.append (by rw [List.length_reverse]; exact hnext)
      refine .after fun comma => ?_
      split
      · exact .after fun _ => hrest
      · refine .after fun closing => ?_
        split
        · exact .after fun _ => hrest
        · exact hrest

theorem separated_yields {P : Nat → α → Prop} {close : Mark} {item : List α → Parse α}
    (hitem : ∀ before, (item before).Yields (P before.length)) (steps : Nat) :
    (separated close item steps []).Yields (Each P) :=
  separated_yields_after hitem steps fun _ _ h => nomatch h

/-- Items that do not depend on those before them. -/
theorem separated_yields_all {P : α → Prop} {close : Mark} {item : Parse α} (hitem : item.Yields P)
    (steps : Nat) : (separated close (fun _ => item) steps []).Yields fun xs => ∀ x ∈ xs, P x := by
  intro lexer xs lexer' h x hx
  obtain ⟨i, hi⟩ := List.getElem?_of_mem hx
  exact separated_yields (P := fun _ => P) (fun _ => hitem) steps lexer xs lexer' h i x hi

/-! ## Clauses -/

theorem param_yields (hg : g.Closed) (index : Nat) :
    (param g index).Yields (Param.ClosedAt index) := by
  rw [param]
  refine .after fun kind => ?_
  split
  · next s =>
    refine .after fun _ => .after fun colon => ?_
    split
    · refine .after fun _ => hg.expression.bind fun guard hguard => .ret fun g h => ?_
      cases h
      exact hguard.above _
    · refine .after fun kind => ?_
      split
      · refine .after fun _ => hg.operand.bind fun operand hoperand => .ret fun g h => ?_
        cases h
        exact ((Expr.closed_free s).above _).binary (hoperand.above _)
      · exact .ret fun g h => nomatch h
  · refine hg.expression.bind fun pattern hpattern => .ret fun g h => ?_
    cases h
    exact (Expr.closedAbove_parameter index).binary (hpattern.above _)

theorem nextParam_yields (hg : g.Closed) (before : List Param) :
    (nextParam g before).Yields (Param.ClosedAt before.length) := by
  rw [nextParam]
  refine .after fun start => (param_yields hg before.length).bind fun p hp => ?_
  split
  · split
    · exact .fail _
    · exact .ret hp
  · exact .ret hp

theorem clause_yields (hg : g.Closed) (steps : Nat) : (clause g steps).Yields Clause.Closed := by
  refine .after fun _ => ?_
  refine (separated_yields (nextParam_yields hg) steps).bind fun params hparams => ?_
  refine .after fun _ => hg.expression.bind fun body hbody => .ret ?_
  exact Clause.closed_of_params hparams (hbody.above _)

theorem clauses_yields (hg : g.Closed) (inner steps : Nat) :
    (clauses g inner steps).Yields fun cs => ∀ c ∈ cs, c.Closed := by
  induction steps with
  | zero => exact .exhaust
  | succ steps ih =>
    rw [clauses]
    refine .after fun closed => ?_
    split
    · exact .after fun _ => .ret fun c hc => nomatch hc
    · refine .after fun _ => (clause_yields hg inner).bind fun first hfirst => ?_
      refine ih.bind fun rest hrest => .ret ?_
      exact List.forall_mem_cons.mpr ⟨hfirst, hrest⟩

/-! ## Primary expressions -/

theorem lambda_yields (hg : g.Closed) (steps : Nat) : (lambda g steps).Yields Expr.Closed := by
  rw [lambda]
  refine .after fun paren => ?_
  split
  · refine (clause_yields hg steps).bind fun c hc => .ret fun scopes => ?_
    exact ⟨hc scopes, trivial⟩
  · refine .after fun _ => (clauses_yields hg steps steps).bind fun cs hcs => .ret fun scopes => ?_
    exact Clause.allScoped_of_forall hcs

/-- An operator whose operands are the first parameters of a lambda, or closed. -/
theorem closed_operator_lambda {params : List Param} {op : BinaryOp} {left right : Expr}
    (hparams : ∀ p ∈ params, p.guard = none) (hleft : left.ClosedAbove params.length)
    (hright : right.ClosedAbove params.length) :
    (Expr.lambda [⟨params, .binary op left right⟩]).Closed := by
  have hclause : (Clause.mk params (.binary op left right)).Closed := by
    refine Clause.closed_of_params (fun index p hp g hguard => ?_) (hleft.binary hright)
    rw [hparams p (List.mem_of_getElem? hp)] at hguard
    cases hguard
  exact fun scopes => ⟨hclause scopes, trivial⟩

theorem operatorLambda_yields : operatorLambda.Yields Expr.Closed := by
  refine .after fun op => .ret (closed_operator_lambda ?_ ?_ ?_)
  · simp
  · exact fun names scopes h => ⟨names, rfl, Nat.lt_of_succ_lt h⟩
  · exact Expr.closedAbove_parameter 1

theorem operatorSection_yields (hg : g.Closed) : (operatorSection g).Yields Expr.Closed := by
  refine .after fun op => hg.operand.bind fun operand hoperand => ?_
  refine .ret (closed_operator_lambda ?_ (Expr.closedAbove_parameter 0) (hoperand.above _))
  simp

theorem entry_yields (hg : g.Closed) : (entry g).Yields fun e => e.value.Closed := by
  refine .after fun kind => ?_
  have hrest (key : String) : (do
      advance
      expect .colon
      let value ← g.expression
      return Entry.mk key value : Parse Entry).Yields fun e => e.value.Closed :=
    .after fun _ => .after fun _ => hg.expression.bind fun value hvalue => .ret hvalue
  dsimp only
  split
  · exact .after hrest
  · exact .after hrest
  · exact .after hrest

theorem binding_yields (hg : g.Closed) (steps : Nat) :
    (binding g steps).Yields fun b => b.value.Closed := by
  refine .after fun t => .after fun _ => hg.expression.bind fun value hvalue => ?_
  exact .ret hvalue

theorem withBlock_yields (hg : g.Closed) (steps : Nat) :
    (withBlock g steps).Yields Expr.Closed := by
  refine .after fun _ => ?_
  refine (separated_yields_all (binding_yields hg steps) steps).bind fun bs hbs => ?_
  refine .after fun _ => hg.expression.bind fun body hbody => .ret fun scopes => ?_
  exact ⟨Binding.allScoped_of_forall hbs, hbody _⟩

theorem parenthesized_yields (hg : g.Closed) : (parenthesized g).Yields Expr.Closed := by
  rw [parenthesized]
  refine .after fun closed => ?_
  split
  · exact .after fun _ => .ret (Expr.closed_literal _)
  · exact hg.expression.bind fun e he => .after fun _ => .ret he

theorem primary_yields (hg : g.Closed) (steps : Nat) : (primary g steps).Yields Expr.Closed := by
  rw [primary]
  refine .after fun kind => ?_
  split
  · exact .after fun _ => .ret (Expr.closed_literal _)
  · exact .after fun _ => .ret (Expr.closed_literal _)
  · exact .after fun _ => .ret (Expr.closed_literal _)
  · exact .after fun _ => .ret (Expr.closed_literal _)
  · exact .after fun _ => .ret (Expr.closed_free _)
  · exact .after fun _ => parenthesized_yields hg
  · refine .after fun _ => (separated_yields_all hg.expression steps).bind fun es hes => ?_
    exact .ret fun scopes => Expr.allScoped_of_forall hes
  · refine .after fun _ => (separated_yields_all (entry_yields hg) steps).bind fun es hes => ?_
    exact .ret fun scopes => Entry.allScoped_of_forall hes
  · exact .after fun _ => lambda_yields hg steps
  · exact .after fun _ => operatorLambda_yields
  · exact .after fun _ => operatorSection_yields hg
  · exact .after fun _ => withBlock_yields hg steps
  · exact .after fun _ => hg.operand.bind fun e he => .ret he
  · exact .after fun _ => hg.operand.bind fun e he => .ret he
  · exact unexpected_yields _

/-! ## Operands and expressions -/

theorem suffixes_yields (hg : g.Closed) (inner steps : Nat) {e : Expr} (he : e.Closed) :
    (suffixes g inner steps e).Yields Expr.Closed := by
  induction steps generalizing e with
  | zero => exact .exhaust
  | succ steps ih =>
    rw [suffixes]
    refine .after fun kind => ?_
    split
    · refine .after fun _ => (separated_yields_all hg.expression inner).bind fun es hes => ?_
      exact ih fun scopes => ⟨he scopes, Expr.allScoped_of_forall hes⟩
    · refine .after fun _ => (primary_yields hg inner).bind fun callee hcallee => ?_
      exact ih fun scopes => ⟨hcallee scopes, he scopes, trivial⟩
    · exact .ret he

theorem operandWith_yields (hg : g.Closed) (steps : Nat) :
    (operandWith g steps).Yields Expr.Closed :=
  (primary_yields hg steps).bind fun _ he => suffixes_yields hg steps steps he

theorem chain_yields (hg : g.Closed) (steps : Nat) :
    (chain g steps).Yields fun rest => ∀ r ∈ rest, r.2.Closed := by
  induction steps with
  | zero => exact .exhaust
  | succ steps ih =>
    rw [chain]
    refine .after fun kind => ?_
    split
    · refine .after fun _ => hg.operand.bind fun operand hoperand => ih.bind fun rest hrest => ?_
      exact .ret (List.forall_mem_cons.mpr ⟨hoperand, hrest⟩)
    · exact .ret fun r hr => nomatch hr

theorem optional_yields (hg : g.Closed) (m : Mark) :
    (optional g m).Yields fun e => ∀ scopes, Expr.OptionScoped scopes e := by
  rw [optional]
  refine .after fun seen => ?_
  split
  · exact .after fun _ => hg.expression.bind fun e he => .ret he
  · exact .ret fun _ => trivial

theorem expressionWith_yields (hg : g.Closed) (steps : Nat) :
    (expressionWith g steps).Yields Expr.Closed := by
  rw [expressionWith]
  refine hg.operand.bind fun first hfirst => (chain_yields hg steps).bind fun rest hrest => ?_
  have hjoin := Expr.closed_join hfirst hrest
  refine .after fun dollar => ?_
  split
  · refine .after fun _ => .after fun s => ?_
    refine (optional_yields hg _).bind fun filter hfilter => ?_
    refine (optional_yields hg _).bind fun map hmap => .ret fun scopes => ?_
    exact ⟨hjoin scopes, hfilter _, hmap _⟩
  · exact .ret hjoin

/-- The two parsers that all others refer back to, at any number of steps. -/
theorem grammar_closed (steps : Nat) : Grammar.Closed ⟨expressionIn steps, operandIn steps⟩ := by
  induction steps with
  | zero => exact ⟨.exhaust, .exhaust⟩
  | succ steps ih => exact ⟨expressionWith_yields ih steps, operandWith_yields ih steps⟩

theorem wholeExpression_yields : wholeExpression.Yields Expr.Closed := by
  have hexpression : expression.Yields Expr.Closed :=
    fun lexer => (grammar_closed (stepsFor lexer)).expression lexer
  refine hexpression.bind fun e he => .after fun kind => ?_
  split
  · exact .ret he
  · exact unexpected_yields _

/-! ## Statements -/

theorem wholeClause_yields : wholeClause.Yields Clause.Closed :=
  fun lexer => clause_yields (grammar_closed (stepsFor lexer)) (stepsFor lexer) lexer

theorem declaration_yields (isNative : String → Bool) :
    (declaration isNative).Yields fun d => d.clause.Closed := by
  rw [declaration]
  refine .after fun _ => .after fun start => .after fun s => ?_
  have hrest : (do let c ← wholeClause; return Declaration.mk s c : Parse Declaration).Yields
      fun d => d.clause.Closed := wholeClause_yields.bind fun c hc => .ret hc
  split
  · exact .after fun _ => hrest
  · exact hrest

theorem declarations_yields (isNative : String → Bool) (steps : Nat) :
    (declarations isNative steps).Yields fun group => ∀ d ∈ group, d.clause.Closed := by
  induction steps with
  | zero => exact .exhaust
  | succ steps ih =>
    rw [declarations]
    refine .after fun more => ?_
    split
    · refine (declaration_yields isNative).bind fun first hfirst => ih.bind fun rest hrest => ?_
      exact .ret (List.forall_mem_cons.mpr ⟨hfirst, hrest⟩)
    · exact .ret fun d hd => nomatch hd

theorem useStatement_yields : useStatement.Yields fun s => ∀ group, s ≠ .declarations group := by
  refine .after fun start => .after fun _ => .after fun operand => .after fun _ => ?_
  split
  · exact .ret fun _ => Statement.noConfusion
  · exact .fail _

theorem statement_yields (isNative : String → Bool) :
    (statement isNative).Yields fun found =>
      ∀ group, found = some (.declarations group) → ∀ d ∈ group, d.clause.Closed := by
  rw [statement]
  refine .after fun kind => ?_
  split
  · exact .ret fun group h => nomatch h
  · refine useStatement_yields.bind fun s hs => .ret fun group h => ?_
    exact absurd (Option.some.inj h) (hs group)
  · refine .after fun steps => (declarations_yields isNative steps).bind fun group hgroup => ?_
    refine .ret fun group' h => ?_
    cases h
    exact hgroup
  · exact unexpected_yields _

end Parse

end Clausal
