import Clausal.Proofs.Loose

/-!
# One grammar for both trees

The parsers of loose trees read the same tokens, end at the same places and complain about the same
as those of expressions do. What they make is the expression as a loose tree.

* `Parse.Recasts f x y`: `y` reads what `x` reads and makes `f` of it. There is a rule for each
  primitive and one lemma per parser, as with `Parse.Within`.
* `Loose.entries_recasts`, `Loose.itemNames_recasts`: the loops that fill two lists, or a list and a
  mark, against those that collect entries and marked names.
* `Loose.expression_recasts`, `Loose.wholeExpression_recasts`, `Loose.statement_recasts`.
-/

namespace Clausal

/-! ## What parsers make of what they read -/

namespace Parse

variable {α β γ δ : Type}

/-- The second parser reads what the first does, and makes `f` of it. -/
def Recasts (f : α → β) (x : Parse α) (y : Parse β) : Prop := y = f <$> x

namespace Recasts

variable {f : α → β} {h : γ → δ} {x : Parse α} {y : Parse β}

theorem bind {k : α → Parse γ} {l : β → Parse δ} (hx : Recasts f x y)
    (hk : ∀ a, Recasts h (k a) (l (f a))) : Recasts h (x >>= k) (y >>= l) := by
  have hrest : (fun a => l (f a)) = fun a => h <$> k a := funext hk
  rw [Recasts, hx, map_bind, bind_map_left, hrest]

/-- Both do the same first. -/
theorem same {x : Parse α} {k : α → Parse γ} {l : α → Parse δ} (hk : ∀ a, Recasts h (k a) (l a)) :
    Recasts h (x >>= k) (x >>= l) :=
  bind (f := id) (id_map x).symm hk

theorem ret (a : α) : Recasts f (pure a) (pure (f a)) := (map_pure f a).symm

theorem fail (e : Error) : Recasts f (Run.fail e) (Run.fail e) := rfl

theorem unexpected (wanted : Expectation) :
    Recasts f (unexpected wanted) (Parse.unexpected wanted) := rfl

theorem exhaust : Recasts f Run.exhaust Run.exhaust := rfl

/-- After the next token. -/
theorem next {k : Unit → Parse γ} {l : Unit → Parse δ} (hk : Recasts h (k ()) (l ())) :
    Recasts h (Parse.advance >>= k) (Parse.advance >>= l) :=
  same fun _ => hk

/-- The first parser makes `k` of what it reads only in the end. -/
theorem last {k : γ → α} {z : Parse γ} (hz : Recasts (fun c => f (k c)) z y) :
    Recasts f (z >>= fun c => pure (k c)) y := by
  rw [Recasts, hz, map_bind]
  simp only [map_pure]
  rfl

/-- After the complaint nothing is read. -/
theorem unexpected_bind {wanted : Expectation} {k : α → Parse γ} {l : β → Parse δ} :
    Recasts h (Parse.unexpected wanted >>= k) (Parse.unexpected wanted >>= l) := rfl

end Recasts

/-- After an item comes a comma, or the end. -/
theorem afterItem_recasts {f : α → β} {x : Parse α} {y : Parse β} (close : Mark)
    (hrest : Recasts f x y) :
    Recasts f (do
      if ← sees .comma then
        advance
      else if !(← sees close) then
        unexpected (.separator close)
      x) (do
      if ← sees .comma then
        advance
      else if !(← sees close) then
        unexpected (.separator close)
      y) := by
  refine .same fun comma => ?_
  split
  · exact .next hrest
  · refine .same fun closing => ?_
    split
    · exact .unexpected_bind
    · exact hrest

theorem separated_recasts {f : α → β} {close : Mark} {item : List α → Parse α}
    {item' : List β → Parse β} (hitem : ∀ before, Recasts f (item before) (item' (before.map f)))
    (steps : Nat) (before : List α) :
    Recasts (List.map f) (separated close item steps before)
      (separated close item' steps (before.map f)) := by
  induction steps generalizing before with
  | zero => exact .exhaust
  | succ steps ih =>
    rw [separated, separated]
    refine .same fun closed => ?_
    split
    · rw [← List.map_reverse]
      exact .next (.ret _)
    · exact .bind (hitem before) fun next => afterItem_recasts close (ih (next :: before))

end Parse

namespace Loose

open Parse (Recasts advance afterItem_recasts expect name sees separated separated_recasts)

/-- Both parsers of the one grammar read what those of the other do. -/
structure Grammar.Recasts (g : Parse.Grammar) (g' : Grammar) : Prop where
  expression : Parse.Recasts Clausal.Expr.loose g.expression g'.expression
  operand : Parse.Recasts Clausal.Expr.loose g.operand g'.operand

section

variable {g : Parse.Grammar} {g' : Grammar} (hg : Grammar.Recasts g g')

include hg

theorem param_recasts (index : Nat) :
    Recasts Clausal.Param.loose (Parse.param g index) (param g' index) := by
  refine .same fun k => ?_
  cases k with
  | symbol s =>
    refine .next (.same fun colon => ?_)
    split
    · exact .next (.bind hg.expression fun guard => .ret (Clausal.Param.mk (some s) (some guard)))
    · refine .same fun k => ?_
      cases BinaryOp.ofToken? k with
      | some op =>
        exact .next (.bind hg.operand fun operand =>
          .ret (Clausal.Param.mk (some s) (some (.binary op (.free s) operand))))
      | none => exact .ret (Clausal.Param.mk (some s) none)
  | number | text | keyword | mark | other | eof =>
    exact .bind hg.expression fun pattern =>
      .ret (Clausal.Param.mk none (some (.binary .equal (.parameter index) pattern)))

theorem nextParam_recasts (before : List Clausal.Param) :
    Recasts Clausal.Param.loose (Parse.nextParam g before)
      (nextParam g' (before.map Clausal.Param.loose)) := by
  have htaken (s : String) : (before.map Clausal.Param.loose).any (·.name == some s) =
      before.any (·.name == some s) := List.any_map
  rw [nextParam, List.length_map]
  refine .same fun start => .bind (param_recasts hg _) fun p => ?_
  obtain ⟨name, guard⟩ := p
  cases name with
  | none => exact .ret _
  | some s =>
    dsimp only [Clausal.Param.loose]
    rw [htaken]
    split
    · exact .fail _
    · exact .ret _

theorem clause_recasts (steps : Nat) :
    Recasts Clausal.Clause.loose (Parse.clause g steps) (clause g' steps) := by
  refine .same fun _ => .bind (separated_recasts (nextParam_recasts hg) steps []) fun params => ?_
  refine .same fun _ => .bind hg.expression fun body => ?_
  rw [← Clausal.Param.looseAll_eq_map]
  exact .ret (Clausal.Clause.mk params body)

theorem clauses_recasts (inner steps : Nat) :
    Recasts (List.map Clausal.Clause.loose) (Parse.clauses g inner steps)
      (clauses g' inner steps) := by
  induction steps with
  | zero => exact .exhaust
  | succ steps ih =>
    rw [Parse.clauses, clauses]
    refine .same fun closed => ?_
    split
    · exact .next (.ret [])
    · refine .same fun _ => .bind (clause_recasts hg inner) fun first => .bind ih fun rest => ?_
      exact .ret (first :: rest)

theorem lambda_recasts (steps : Nat) :
    Recasts Clausal.Expr.loose (Parse.lambda g steps) (lambda g' steps) := by
  refine .same fun paren => ?_
  split
  · exact .bind (clause_recasts hg steps) fun c => .ret (Clausal.Expr.lambda [c])
  · refine .same fun _ => .bind (clauses_recasts hg steps steps) fun cs => ?_
    rw [← Clausal.Clause.looseAll_eq_map]
    exact .ret (Clausal.Expr.lambda cs)

omit hg in
theorem operatorLambda_recasts :
    Recasts Clausal.Expr.loose Parse.operatorLambda operatorLambda :=
  .same fun op => .ret (Clausal.Expr.lambda
    [⟨[⟨none, none⟩, ⟨none, none⟩], .binary op (.parameter 0) (.parameter 1)⟩])

theorem operatorSection_recasts :
    Recasts Clausal.Expr.loose (Parse.operatorSection g) (operatorSection g') :=
  .same fun op => .bind hg.operand fun operand =>
    .ret (Clausal.Expr.lambda [⟨[⟨none, none⟩], .binary op (.parameter 0) operand⟩])

omit hg in
theorem entry_eq (g : Parse.Grammar) :
    Parse.entry g = (do
      let k ← key
      advance
      expect .colon
      let value ← g.expression
      return Entry.mk k value) := by
  rw [Parse.entry, key, bind_assoc]
  congr 1
  funext k
  cases k <;> rfl

/-- The keys and the values of entries are put to those before them, one of each at a time. -/
theorem entries_recasts (steps : Nat) (before : List Entry) :
    Recasts (fun es => (Clausal.Expr.map es).loose)
      (separated .rightBrace (fun _ => Parse.entry g) steps before)
      (entries g' steps (before.reverse.map (·.key)) (before.reverse.map (·.value.loose))) := by
  rw [entry_eq]
  induction steps generalizing before with
  | zero => exact .exhaust
  | succ steps ih =>
    rw [separated, entries]
    refine .same fun closed => ?_
    split
    · rw [← Entry.looseValues_eq_map]
      exact .next (.ret before.reverse)
    · simp only [bind_assoc, pure_bind]
      refine .same fun k => .next (.same fun _ => .bind hg.expression fun value => ?_)
      have hrest := ih (⟨k, value⟩ :: before)
      rw [List.reverse_cons, List.map_append, List.map_append] at hrest
      exact afterItem_recasts .rightBrace hrest

omit hg in
/-- As long as only the last name may have the mark, the target is that of all names. -/
theorem targetOf_loose {before : List (String × Bool)} (hlast : before.tail.any (·.2) = false) :
    (Parse.targetOf before.reverse).loose =
      .items (before.reverse.map (·.1)) (before.any (·.2)) := by
  cases before with
  | nil => rfl
  | cons last older =>
    obtain ⟨s, dots⟩ := last
    have hfilter : older.reverse.filter (!·.2) = older.reverse :=
      List.filter_eq_self.mpr fun p hp => by
        simpa using List.any_eq_false.mp hlast p (List.mem_reverse.mp hp)
    have hfind : older.reverse.find? (·.2) = none :=
      List.find?_eq_none.mpr fun p hp => List.any_eq_false.mp hlast p (List.mem_reverse.mp hp)
    have hany : older.any (·.2) = false := hlast
    rw [List.reverse_cons, Parse.targetOf, List.filter_append, List.find?_append, hfilter, hfind]
    cases dots <;> simp [Clausal.Target.loose, hany]

omit hg in
/-- The names are put to those before them, and the mark is kept beside them. -/
theorem itemNames_recasts (steps : Nat) (before : List (String × Bool))
    (hlast : before.tail.any (·.2) = false) :
    Recasts (fun names => (Parse.targetOf names).loose)
      (separated .rightBracket Parse.itemName steps before)
      (itemNames steps (before.reverse.map (·.1)) (before.any (·.2))) := by
  induction steps generalizing before with
  | zero => exact .exhaust
  | succ steps ih =>
    rw [separated, itemNames]
    refine .same fun closed => ?_
    split
    · rw [← targetOf_loose hlast]
      exact .next (.ret before.reverse)
    · rw [Parse.itemName]
      split
      · exact .unexpected_bind
      · next hopen =>
        simp only [bind_assoc]
        refine .same fun s => .same fun dots => ?_
        have hnone : before.any (·.2) = false := Bool.eq_false_iff.mpr hopen
        have hrest := ih ((s, dots) :: before) hnone
        rw [List.reverse_cons, List.map_append, List.any_cons, hnone, Bool.or_false] at hrest
        rw [hnone, Bool.false_or]
        cases dots with
        | true =>
          simp only [if_true, bind_assoc, pure_bind]
          exact .next (afterItem_recasts .rightBracket hrest)
        | false => exact afterItem_recasts .rightBracket hrest

omit hg in
theorem target_recasts (steps : Nat) :
    Recasts Clausal.Target.loose (Parse.target steps) (target steps) := by
  refine .same fun bracket => ?_
  split
  · exact .next (.last (itemNames_recasts steps [] rfl))
  · exact .same fun s => .ret (Clausal.Target.name s)

theorem binding_recasts (steps : Nat) :
    Recasts Clausal.Binding.loose (Parse.binding g steps) (binding g' steps) := by
  refine .bind (target_recasts steps) fun t => .same fun _ => ?_
  exact .bind hg.expression fun value => .ret (Clausal.Binding.mk t value)

theorem withBlock_recasts (steps : Nat) :
    Recasts Clausal.Expr.loose (Parse.withBlock g steps) (withBlock g' steps) := by
  refine .same fun _ => ?_
  refine .bind (separated_recasts (fun _ => binding_recasts hg steps) steps []) fun bs => ?_
  refine .same fun _ => .bind hg.expression fun body => ?_
  rw [← Clausal.Binding.looseAll_eq_map]
  exact .ret (Clausal.Expr.withBlock bs body)

theorem parenthesized_recasts :
    Recasts Clausal.Expr.loose (Parse.parenthesized g) (parenthesized g') := by
  refine .same fun closed => ?_
  split
  · exact .next (.ret (Clausal.Expr.literal .void))
  · exact .bind hg.expression fun e => .same fun _ => .ret e

theorem primary_recasts (steps : Nat) :
    Recasts Clausal.Expr.loose (Parse.primary g steps) (primary g' steps) := by
  refine .same fun k => ?_
  cases k with
  | number n => exact .next (.ret (Clausal.Expr.literal (.number n)))
  | text s => exact .next (.ret (Clausal.Expr.literal (.text s)))
  | symbol s => exact .next (.ret (Clausal.Expr.free s))
  | keyword w =>
    cases w with
    | trueWord => exact .next (.ret (Clausal.Expr.literal (.bool true)))
    | falseWord => exact .next (.ret (Clausal.Expr.literal (.bool false)))
    | withWord => exact .next (withBlock_recasts hg steps)
    | letWord | useWord | orWord | andWord => exact .unexpected _
  | mark m =>
    cases m with
    | leftParen => exact .next (parenthesized_recasts hg)
    | leftBracket =>
      refine .next (.bind (separated_recasts (fun _ => hg.expression) steps []) fun items => ?_)
      rw [← Clausal.Expr.looseAll_eq_map]
      exact .ret (Clausal.Expr.list items)
    | leftBrace => exact .next (.last (entries_recasts hg steps []))
    | atSign => exact .next (lambda_recasts hg steps)
    | backtick => exact .next operatorLambda_recasts
    | ampersand => exact .next (operatorSection_recasts hg)
    | minus => exact .next (.bind hg.operand fun e => .ret (Clausal.Expr.unary .negate e))
    | bang => exact .next (.bind hg.operand fun e => .ret (Clausal.Expr.unary .not e))
    | _ => exact .unexpected _
  | other | eof => exact .unexpected _

theorem suffixes_recasts (inner steps : Nat) (e : Clausal.Expr) :
    Recasts Clausal.Expr.loose (Parse.suffixes g inner steps e)
      (suffixes g' inner steps e.loose) := by
  induction steps generalizing e with
  | zero => exact .exhaust
  | succ steps ih =>
    rw [Parse.suffixes, suffixes]
    refine .same fun k => ?_
    cases k with
    | mark m =>
      cases m with
      | leftParen =>
        refine .next (.bind (separated_recasts (fun _ => hg.expression) inner []) fun args => ?_)
        rw [← Clausal.Expr.looseAll_eq_map]
        exact ih (.call e args)
      | arrow => exact .next (.bind (primary_recasts hg inner) fun f => ih (.call f [e]))
      | _ => exact .ret e
    | number | text | symbol | keyword | other | eof => exact .ret e

theorem operandWith_recasts (steps : Nat) :
    Recasts Clausal.Expr.loose (Parse.operandWith g steps) (operandWith g' steps) :=
  .bind (primary_recasts hg steps) fun e => suffixes_recasts hg steps steps e

theorem chain_recasts (steps : Nat) :
    Recasts (List.map fun next => (next.1, next.2.loose)) (Parse.chain g steps)
      (chain g' steps) := by
  induction steps with
  | zero => exact .exhaust
  | succ steps ih =>
    rw [Parse.chain, chain]
    refine .same fun k => ?_
    cases BinaryOp.ofToken? k with
    | some op =>
      exact .next (.bind hg.operand fun e => .bind ih fun rest => .ret ((op, e) :: rest))
    | none => exact .ret []

theorem optional_recasts (m : Mark) :
    Recasts Clausal.Expr.looseOption (Parse.optional g m) (optional g' m) := by
  refine .same fun seen => ?_
  split
  · exact .next (.bind hg.expression fun e => .ret (some e))
  · exact .ret none

theorem expressionWith_recasts (steps : Nat) :
    Recasts Clausal.Expr.loose (Parse.expressionWith g steps) (expressionWith g' steps) := by
  refine .bind hg.operand fun first => .bind (chain_recasts hg steps) fun rest => ?_
  rw [Clausal.Expr.join_loose]
  refine .same fun dollar => ?_
  split
  · refine .next (.same fun s => ?_)
    refine .bind (optional_recasts hg _) fun f => .bind (optional_recasts hg _) fun m => ?_
    exact .ret (Clausal.Expr.comprehension s (Clausal.Expr.join first rest) f m)
  · exact .ret (Clausal.Expr.join first rest)

end

theorem grammar_recasts (steps : Nat) :
    Grammar.Recasts ⟨Parse.expressionIn steps, Parse.operandIn steps⟩
      ⟨expressionIn steps, operandIn steps⟩ := by
  induction steps with
  | zero => exact ⟨rfl, rfl⟩
  | succ steps ih => exact ⟨expressionWith_recasts ih steps, operandWith_recasts ih steps⟩

/-- How many steps are given depends on the lexer alone. -/
theorem recasts_of_steps {α β : Type} {f : α → β} {x : Nat → Parse α} {y : Nat → Parse β}
    (h : ∀ steps, Recasts f (x steps) (y steps)) (budget : Lexer → Nat) :
    Recasts f (fun lexer => x (budget lexer) lexer) fun lexer => y (budget lexer) lexer :=
  funext fun lexer => congrFun (h (budget lexer)) lexer

theorem expression_recasts : Recasts Clausal.Expr.loose Parse.expression expression :=
  recasts_of_steps (fun steps => (grammar_recasts steps).expression) Parse.stepsFor

theorem wholeExpression_recasts :
    Recasts Clausal.Expr.loose Parse.wholeExpression wholeExpression := by
  refine .bind expression_recasts fun e => .same fun k => ?_
  cases k with
  | eof => exact .ret e
  | number | text | symbol | keyword | mark | other => exact .unexpected _

/-! ## Statements -/

theorem wholeClause_recasts : Recasts Clausal.Clause.loose Parse.wholeClause wholeClause :=
  recasts_of_steps (fun steps => clause_recasts (grammar_recasts steps) steps) Parse.stepsFor

theorem declaration_recasts (isNative : String → Bool) :
    Recasts Clausal.Declaration.loose (Parse.declaration isNative) (declaration isNative) := by
  refine .same fun _ => .same fun start => .same fun s => ?_
  split
  · rfl
  · exact .bind wholeClause_recasts fun c => .ret (Clausal.Declaration.mk s c)

theorem declarations_recasts (isNative : String → Bool) (steps : Nat) :
    Recasts (List.map Clausal.Declaration.loose) (Parse.declarations isNative steps)
      (declarations isNative steps) := by
  induction steps with
  | zero => exact .exhaust
  | succ steps ih =>
    rw [Parse.declarations, declarations]
    refine .same fun more => ?_
    split
    · exact .bind (declaration_recasts isNative) fun first => .bind ih fun rest =>
        .ret (first :: rest)
    · exact .ret []

theorem useStatement_recasts :
    Recasts Clausal.Statement.loose Parse.useStatement useStatement := by
  refine .same fun start => .same fun _ => .same fun k => .next ?_
  cases k with
  | text path => exact .ret (Clausal.Statement.use path start)
  | number | symbol | keyword | mark | other | eof => exact .fail _

theorem statement_recasts (isNative : String → Bool) :
    Recasts (Option.map Clausal.Statement.loose) (Parse.statement isNative)
      (statement isNative) := by
  refine .same fun k => ?_
  cases k with
  | eof => exact .ret none
  | keyword w =>
    cases w with
    | useWord => exact .bind useStatement_recasts fun s => .ret (some s)
    | letWord =>
      exact .same fun steps => .bind (declarations_recasts isNative steps) fun group =>
        .ret (some (Clausal.Statement.declarations group))
    | withWord | trueWord | falseWord | orWord | andWord => exact .unexpected _
  | number | text | symbol | mark | other => exact .unexpected _

end Loose

end Clausal
