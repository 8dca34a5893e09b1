import Clausal.Environment
import Clausal.Proofs.Scope

/-!
# Looking up symbols with one stack of scopes

Here is the other way to resolve symbols, in which no scopes are handed down: there is one stack of
them, a scope is pushed where it opens and popped where it closes, and the names of a binding are
added to the scope on top once its value is resolved (`Locator.expr`, `Locator.clause`).

* `Locator.expr_eq`, `Locator.clause_eq`: that is resolving in the scopes on the stack, and it
  leaves the stack as it was. The only step that does not is reading bindings, which leaves their
  names on top for the body (`Locator.bindings_eq`).
* `Expr.CompletedBy`: two trees that differ at most in what unresolved symbols of the first stand
  for. Resolving completes a tree, whatever the functions and the scopes are
  (`Expr.completedBy_resolve`).
* `Locator.resolving_is_stable`: both together, for trees that have been resolved before.
-/

namespace Clausal

/-! ## One stack -/

namespace Locator

/-- A step that may change the stack of scopes. -/
abbrev Locating := StateM Scopes

/-- Open a scope. -/
def push (names : List String) : Locating Unit := modify (names :: ·)

/-- Close the innermost scope. -/
def pop : Locating Unit := modify List.tail

/-- Put names into the innermost scope, behind those it has. -/
def add (names : List String) : Locating Unit :=
  modify fun
    | [] => []
    | scope :: scopes => (scope ++ names) :: scopes

section

variable (isGlobal : String → Bool)

mutual

/-- Resolve the symbols of an expression in the scopes on the stack. -/
def expr : Expr → Locating Expr
  | .literal value => return .literal value
  | .symbol name .unresolved => do
    let scopes ← get
    return .symbol name (.of isGlobal scopes name)
  | .symbol name (.slot index depth) => return .symbol name (.slot index depth)
  | .symbol name .global => return .symbol name .global
  | .binary op left right => do
    let left ← expr left
    let right ← expr right
    return .binary op left right
  | .unary op operand => do
    let operand ← expr operand
    return .unary op operand
  | .call callee args => do
    let callee ← expr callee
    let args ← exprs args
    return .call callee args
  | .list items => do
    let items ← exprs items
    return .list items
  | .map es => do
    let es ← entries es
    return .map es
  | .comprehension name source filter map => do
    let source ← expr source
    push [name]
    let filter ← optional filter
    let map ← optional map
    pop
    return .comprehension name source filter map
  | .withBlock bs body => do
    push []
    let bs ← bindings bs
    let body ← expr body
    pop
    return .withBlock bs body
  | .lambda cs => do
    let cs ← clauses cs
    return .lambda cs

/-- Resolve some expressions, one after the other. -/
def exprs : List Expr → Locating (List Expr)
  | [] => return []
  | e :: es => do
    let e ← expr e
    let es ← exprs es
    return e :: es

/-- Resolve an expression that may be absent. -/
def optional : Option Expr → Locating (Option Expr)
  | none => return none
  | some e => do
    let e ← expr e
    return some e

/-- Resolve the values of entries. -/
def entries : List Entry → Locating (List Entry)
  | [] => return []
  | ⟨key, value⟩ :: es => do
    let value ← expr value
    let es ← entries es
    return ⟨key, value⟩ :: es

/-- Resolve bindings, each of which adds its names to the innermost scope. -/
def bindings : List Binding → Locating (List Binding)
  | [] => return []
  | ⟨target, value⟩ :: bs => do
    let value ← expr value
    add target.names
    let bs ← bindings bs
    return ⟨target, value⟩ :: bs

/-- Resolve the guards of parameters. -/
def params : List Param → Locating (List Param)
  | [] => return []
  | ⟨name, guard⟩ :: ps => do
    let guard ← optional guard
    let ps ← params ps
    return ⟨name, guard⟩ :: ps

/-- Resolve the guards and the body of a clause inside the scope of its parameters. -/
def clause : Clause → Locating Clause
  | ⟨ps, body⟩ => do
    push (Clause.scope ps)
    let ps ← params ps
    let body ← expr body
    pop
    return ⟨ps, body⟩

/-- Resolve the clauses of a lambda. -/
def clauses : List Clause → Locating (List Clause)
  | [] => return []
  | c :: cs => do
    let c ← clause c
    let cs ← clauses cs
    return c :: cs

end

/-! ## The stack is left as it was -/

variable {α β : Type} {x : Locating α} {f : α → Locating β} {s t : Scopes} {a : α}

theorem bind_eq (h : x s = (a, t)) : (x >>= f) s = f a t := by
  simp only [Bind.bind, StateT.bind, h]

/-- The last step, which only puts the parts together. -/
theorem map_eq {g : α → β} (h : x s = (a, t)) : (x >>= fun a => pure (g a)) s = (g a, t) :=
  bind_eq h

mutual

theorem expr_eq (scopes : Scopes) :
    ∀ e : Expr, expr isGlobal e scopes = (e.resolve isGlobal scopes, scopes)
  | .literal _ => rfl
  | .symbol _ .unresolved => rfl
  | .symbol _ (.slot ..) => rfl
  | .symbol _ .global => rfl
  | .binary _ left right => (bind_eq (expr_eq scopes left)).trans (map_eq (expr_eq scopes right))
  | .unary _ operand => map_eq (expr_eq scopes operand)
  | .call callee args => (bind_eq (expr_eq scopes callee)).trans (map_eq (exprs_eq scopes args))
  | .list items => map_eq (exprs_eq scopes items)
  | .map es => map_eq (entries_eq scopes es)
  | .comprehension name source filter map => by
    refine (bind_eq (expr_eq scopes source)).trans ((bind_eq (t := [name] :: scopes) rfl).trans ?_)
    exact (bind_eq (optional_eq _ filter)).trans (bind_eq (optional_eq _ map))
  | .withBlock bs body => by
    refine (bind_eq (t := [] :: scopes) rfl).trans ((bind_eq (bindings_eq scopes [] bs)).trans ?_)
    exact bind_eq (expr_eq _ body)
  | .lambda cs => map_eq (clauses_eq scopes cs)

theorem exprs_eq (scopes : Scopes) :
    ∀ es : List Expr, exprs isGlobal es scopes = (Expr.resolveAll isGlobal scopes es, scopes)
  | [] => rfl
  | e :: es => (bind_eq (expr_eq scopes e)).trans (map_eq (exprs_eq scopes es))

theorem optional_eq (scopes : Scopes) : ∀ e : Option Expr,
    optional isGlobal e scopes = (Expr.resolveOption isGlobal scopes e, scopes)
  | none => rfl
  | some e => map_eq (expr_eq scopes e)

theorem entries_eq (scopes : Scopes) :
    ∀ es : List Entry, entries isGlobal es scopes = (Entry.resolveAll isGlobal scopes es, scopes)
  | [] => rfl
  | ⟨_, value⟩ :: es => (bind_eq (expr_eq scopes value)).trans (map_eq (entries_eq scopes es))

/-- The scope on top has the names of all bindings afterwards. -/
theorem bindings_eq (scopes : Scopes) (bound : List String) : ∀ bs : List Binding,
    bindings isGlobal bs (bound :: scopes) =
      (Binding.resolveAll isGlobal scopes bound bs, Binding.scope bound bs :: scopes)
  | [] => rfl
  | ⟨target, value⟩ :: bs => by
    refine (bind_eq (expr_eq (bound :: scopes) value)).trans ?_
    refine (bind_eq (t := (bound ++ target.names) :: scopes) rfl).trans ?_
    exact map_eq (bindings_eq scopes (bound ++ target.names) bs)

theorem params_eq (scopes : Scopes) :
    ∀ ps : List Param, params isGlobal ps scopes = (Param.resolveAll isGlobal scopes ps, scopes)
  | [] => rfl
  | ⟨_, guard⟩ :: ps => (bind_eq (optional_eq scopes guard)).trans (map_eq (params_eq scopes ps))

theorem clause_eq (scopes : Scopes) :
    ∀ c : Clause, clause isGlobal c scopes = (c.resolve isGlobal scopes, scopes)
  | ⟨ps, body⟩ => by
    refine (bind_eq (t := Clause.scope ps :: scopes) rfl).trans ?_
    exact (bind_eq (params_eq _ ps)).trans (bind_eq (expr_eq _ body))

theorem clauses_eq (scopes : Scopes) : ∀ cs : List Clause,
    clauses isGlobal cs scopes = (Clause.resolveAll isGlobal scopes cs, scopes)
  | [] => rfl
  | c :: cs => (bind_eq (clause_eq scopes c)).trans (map_eq (clauses_eq scopes cs))

end

end

end Locator

/-! ## Trees that differ in what is unresolved -/

/-- What a symbol stands for is the same, unless it was unresolved. -/
def Resolution.CompletedBy (before after : Resolution) : Prop :=
  before = .unresolved ∨ after = before

mutual

/-- The second tree is the first one, where some unresolved symbols stand for something. -/
inductive Expr.CompletedBy : Expr → Expr → Prop
  | literal (value : Literal) : Expr.CompletedBy (.literal value) (.literal value)
  | symbol (name : String) {r r' : Resolution} (h : r.CompletedBy r') :
    Expr.CompletedBy (.symbol name r) (.symbol name r')
  | binary (op : BinaryOp) {left left' right right' : Expr} (hl : left.CompletedBy left')
    (hr : right.CompletedBy right') :
    Expr.CompletedBy (.binary op left right) (.binary op left' right')
  | unary (op : UnaryOp) {e e' : Expr} (h : e.CompletedBy e') :
    Expr.CompletedBy (.unary op e) (.unary op e')
  | call {callee callee' : Expr} {args args' : List Expr} (hc : callee.CompletedBy callee')
    (ha : Expr.AllCompletedBy args args') :
    Expr.CompletedBy (.call callee args) (.call callee' args')
  | list {items items' : List Expr} (h : Expr.AllCompletedBy items items') :
    Expr.CompletedBy (.list items) (.list items')
  | map {es es' : List Entry} (h : Entry.AllCompletedBy es es') :
    Expr.CompletedBy (.map es) (.map es')
  | comprehension (name : String) {source source' : Expr} {filter filter' map map' : Option Expr}
    (hs : source.CompletedBy source') (hf : Expr.OptionCompletedBy filter filter')
    (hm : Expr.OptionCompletedBy map map') :
    Expr.CompletedBy (.comprehension name source filter map)
      (.comprehension name source' filter' map')
  | withBlock {bs bs' : List Binding} {body body' : Expr} (hbs : Binding.AllCompletedBy bs bs')
    (hbody : body.CompletedBy body') : Expr.CompletedBy (.withBlock bs body) (.withBlock bs' body')
  | lambda {cs cs' : List Clause} (h : Clause.AllCompletedBy cs cs') :
    Expr.CompletedBy (.lambda cs) (.lambda cs')

/-- Some expressions, one by one. -/
inductive Expr.AllCompletedBy : List Expr → List Expr → Prop
  | nil : Expr.AllCompletedBy [] []
  | cons {e e' : Expr} {es es' : List Expr} (h : e.CompletedBy e')
    (hs : Expr.AllCompletedBy es es') : Expr.AllCompletedBy (e :: es) (e' :: es')

/-- An expression that may be absent. -/
inductive Expr.OptionCompletedBy : Option Expr → Option Expr → Prop
  | none : Expr.OptionCompletedBy none none
  | some {e e' : Expr} (h : e.CompletedBy e') : Expr.OptionCompletedBy (some e) (some e')

/-- The values of entries. -/
inductive Entry.AllCompletedBy : List Entry → List Entry → Prop
  | nil : Entry.AllCompletedBy [] []
  | cons (key : String) {e e' : Expr} {es es' : List Entry} (h : e.CompletedBy e')
    (hs : Entry.AllCompletedBy es es') : Entry.AllCompletedBy (⟨key, e⟩ :: es) (⟨key, e'⟩ :: es')

/-- The values of bindings. -/
inductive Binding.AllCompletedBy : List Binding → List Binding → Prop
  | nil : Binding.AllCompletedBy [] []
  | cons (target : Target) {e e' : Expr} {bs bs' : List Binding} (h : e.CompletedBy e')
    (hs : Binding.AllCompletedBy bs bs') :
    Binding.AllCompletedBy (⟨target, e⟩ :: bs) (⟨target, e'⟩ :: bs')

/-- The guards of parameters. -/
inductive Param.AllCompletedBy : List Param → List Param → Prop
  | nil : Param.AllCompletedBy [] []
  | cons (name : Option String) {g g' : Option Expr} {ps ps' : List Param}
    (h : Expr.OptionCompletedBy g g') (hs : Param.AllCompletedBy ps ps') :
    Param.AllCompletedBy (⟨name, g⟩ :: ps) (⟨name, g'⟩ :: ps')

/-- The guards and the body of a clause. -/
inductive Clause.CompletedBy : Clause → Clause → Prop
  | mk {ps ps' : List Param} {body body' : Expr} (hps : Param.AllCompletedBy ps ps')
    (hbody : body.CompletedBy body') : Clause.CompletedBy ⟨ps, body⟩ ⟨ps', body'⟩

/-- The clauses of a lambda. -/
inductive Clause.AllCompletedBy : List Clause → List Clause → Prop
  | nil : Clause.AllCompletedBy [] []
  | cons {c c' : Clause} {cs cs' : List Clause} (h : c.CompletedBy c')
    (hs : Clause.AllCompletedBy cs cs') : Clause.AllCompletedBy (c :: cs) (c' :: cs')

end

section

variable (isGlobal : String → Bool)

mutual

/-- Resolving changes nothing but symbols that are unresolved, under whatever functions and in
whatever scopes. -/
theorem Expr.completedBy_resolve (scopes : Scopes) :
    ∀ e : Expr, e.CompletedBy (e.resolve isGlobal scopes)
  | .literal value => .literal value
  | .symbol name .unresolved => .symbol name (.inl rfl)
  | .symbol name (.slot ..) => .symbol name (.inr rfl)
  | .symbol name .global => .symbol name (.inr rfl)
  | .binary op left right =>
    .binary op (left.completedBy_resolve scopes) (right.completedBy_resolve scopes)
  | .unary op operand => .unary op (operand.completedBy_resolve scopes)
  | .call callee args =>
    .call (callee.completedBy_resolve scopes) (Expr.allCompletedBy_resolve scopes args)
  | .list items => .list (Expr.allCompletedBy_resolve scopes items)
  | .map es => .map (Entry.allCompletedBy_resolve scopes es)
  | .comprehension name source filter map =>
    .comprehension name (source.completedBy_resolve scopes)
      (Expr.optionCompletedBy_resolve ([name] :: scopes) filter)
      (Expr.optionCompletedBy_resolve ([name] :: scopes) map)
  | .withBlock bs body =>
    .withBlock (Binding.allCompletedBy_resolve scopes [] bs)
      (body.completedBy_resolve (Binding.scope [] bs :: scopes))
  | .lambda cs => .lambda (Clause.allCompletedBy_resolve scopes cs)

theorem Expr.allCompletedBy_resolve (scopes : Scopes) :
    ∀ es : List Expr, Expr.AllCompletedBy es (Expr.resolveAll isGlobal scopes es)
  | [] => .nil
  | e :: es => .cons (e.completedBy_resolve scopes) (Expr.allCompletedBy_resolve scopes es)

theorem Expr.optionCompletedBy_resolve (scopes : Scopes) :
    ∀ e : Option Expr, Expr.OptionCompletedBy e (Expr.resolveOption isGlobal scopes e)
  | none => .none
  | some e => .some (e.completedBy_resolve scopes)

theorem Entry.allCompletedBy_resolve (scopes : Scopes) :
    ∀ es : List Entry, Entry.AllCompletedBy es (Entry.resolveAll isGlobal scopes es)
  | [] => .nil
  | ⟨key, value⟩ :: es =>
    .cons key (value.completedBy_resolve scopes) (Entry.allCompletedBy_resolve scopes es)

theorem Binding.allCompletedBy_resolve (scopes : Scopes) (bound : List String) :
    ∀ bs : List Binding, Binding.AllCompletedBy bs (Binding.resolveAll isGlobal scopes bound bs)
  | [] => .nil
  | ⟨target, value⟩ :: bs =>
    .cons target (value.completedBy_resolve (bound :: scopes))
      (Binding.allCompletedBy_resolve scopes (bound ++ target.names) bs)

theorem Param.allCompletedBy_resolve (scopes : Scopes) :
    ∀ ps : List Param, Param.AllCompletedBy ps (Param.resolveAll isGlobal scopes ps)
  | [] => .nil
  | ⟨name, guard⟩ :: ps =>
    .cons name (Expr.optionCompletedBy_resolve scopes guard)
      (Param.allCompletedBy_resolve scopes ps)

theorem Clause.completedBy_resolve (scopes : Scopes) :
    ∀ c : Clause, c.CompletedBy (c.resolve isGlobal scopes)
  | ⟨ps, body⟩ =>
    .mk (Param.allCompletedBy_resolve (Clause.scope ps :: scopes) ps)
      (body.completedBy_resolve (Clause.scope ps :: scopes))

theorem Clause.allCompletedBy_resolve (scopes : Scopes) :
    ∀ cs : List Clause, Clause.AllCompletedBy cs (Clause.resolveAll isGlobal scopes cs)
  | [] => .nil
  | c :: cs => .cons (c.completedBy_resolve scopes) (Clause.allCompletedBy_resolve scopes cs)

end

end

/-! ## Resolving what has been resolved -/

namespace Locator

/-- Resolving is stable. Reading an expression or a clause with the scopes `scopes` on the stack
resolves it in them and leaves them on the stack. Reading the result again, with the same functions
and scopes, changes nothing; with any other functions and scopes it changes nothing but symbols that
are still unresolved, and leaves that stack as it was too. -/
theorem resolving_is_stable (env : Environment) (scopes : Scopes) :
    (∀ e : Expr, ∃ e', expr env.contains e scopes = (e', scopes) ∧ e' = env.resolve scopes e ∧
      expr env.contains e' scopes = (e', scopes) ∧
      ∀ (other : Environment) (around : Scopes), ∃ e'',
        expr other.contains e' around = (e'', around) ∧ e'.CompletedBy e'') ∧
    ∀ c : Clause, ∃ c', clause env.contains c scopes = (c', scopes) ∧
      c' = c.resolve env.contains scopes ∧ clause env.contains c' scopes = (c', scopes) ∧
      ∀ (other : Environment) (around : Scopes), ∃ c'',
        clause other.contains c' around = (c'', around) ∧ c'.CompletedBy c'' := by
  constructor
  · intro e
    refine ⟨_, expr_eq _ scopes e, rfl, ?_, fun other around => ?_⟩
    · rw [expr_eq, Expr.resolve_resolve]
    · exact ⟨_, expr_eq _ around _, Expr.completedBy_resolve _ around _⟩
  · intro c
    refine ⟨_, clause_eq _ scopes c, rfl, ?_, fun other around => ?_⟩
    · rw [clause_eq, Clause.resolve_resolve]
    · exact ⟨_, clause_eq _ around _, Clause.completedBy_resolve _ around _⟩

end Locator

end Clausal
