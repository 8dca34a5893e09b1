import Clausal.Proofs.Scope

/-!
# Linking

A symbol that no scope has and that is no function of the program when its clause is resolved stays
unresolved for good. Had more functions been known, it would stand for one of them if it has its
name, and nothing else in the clause would be different (`Clause.resolve_eq_link`).
-/

namespace Clausal

section

variable (fresh : String → Bool)

/-- Let an unresolved symbol of a fresh name stand for the function of this name. -/
def Resolution.link (name : String) : Resolution → Resolution
  | .unresolved => if fresh name then .global else .unresolved
  | .slot index depth => .slot index depth
  | .global => .global

mutual

/-- Let the unresolved symbols of fresh names stand for functions. -/
def Expr.link : Expr → Expr
  | .literal value => .literal value
  | .symbol name resolution => .symbol name (resolution.link fresh name)
  | .binary op left right => .binary op left.link right.link
  | .unary op operand => .unary op operand.link
  | .call callee args => .call callee.link (Expr.linkAll args)
  | .list items => .list (Expr.linkAll items)
  | .map entries => .map (Entry.linkAll entries)
  | .comprehension name source filter map =>
    .comprehension name source.link (Expr.linkOption filter) (Expr.linkOption map)
  | .withBlock bindings body => .withBlock (Binding.linkAll bindings) body.link
  | .lambda clauses => .lambda (Clause.linkAll clauses)

/-- Link some expressions. -/
def Expr.linkAll : List Expr → List Expr
  | [] => []
  | e :: es => e.link :: Expr.linkAll es

/-- Link an expression that may be absent. -/
def Expr.linkOption : Option Expr → Option Expr
  | none => none
  | some e => some e.link

/-- Link the values of entries. -/
def Entry.linkAll : List Entry → List Entry
  | [] => []
  | ⟨key, value⟩ :: es => ⟨key, value.link⟩ :: Entry.linkAll es

/-- Link the values of bindings. -/
def Binding.linkAll : List Binding → List Binding
  | [] => []
  | ⟨target, value⟩ :: bs => ⟨target, value.link⟩ :: Binding.linkAll bs

/-- Link the guards of parameters. -/
def Param.linkAll : List Param → List Param
  | [] => []
  | ⟨name, guard⟩ :: ps => ⟨name, Expr.linkOption guard⟩ :: Param.linkAll ps

/-- Link the guards and the body of a clause. -/
def Clause.link : Clause → Clause
  | ⟨params, body⟩ => ⟨Param.linkAll params, body.link⟩

/-- Link the clauses of a lambda. -/
def Clause.linkAll : List Clause → List Clause
  | [] => []
  | c :: cs => c.link :: Clause.linkAll cs

end

end

section

variable {known more : String → Bool}

/-- Whatever is known among some functions is known among more of them. -/
def Widens (known more : String → Bool) : Prop := ∀ n, known n = true → more n = true

/-- The names that are known only later. -/
def newlyKnown (known more : String → Bool) (name : String) : Bool := more name && !known name

/-- What a symbol stands for among more functions. -/
theorem Resolution.of_eq_link (hmore : Widens known more) (scopes : Scopes) (name : String) :
    Resolution.of more scopes name =
      (Resolution.of known scopes name).link (newlyKnown known more) name := by
  unfold Resolution.of
  split
  · rfl
  · cases hknown : known name with
    | true => simp [hmore name hknown, Resolution.link]
    | false => cases hnew : more name <;> simp [Resolution.link, newlyKnown, hknown, hnew]

mutual

theorem Expr.resolve_eq_link (hmore : Widens known more) (scopes : Scopes) : ∀ e : Expr,
    e.resolve more scopes = (e.resolve known scopes).link (newlyKnown known more)
  | .literal _ => by simp only [Expr.resolve, Expr.link]
  | .symbol name .unresolved => by
    simp only [Expr.resolve, Expr.link, Resolution.of_eq_link hmore scopes name]
  | .symbol _ (.slot ..) => by simp only [Expr.resolve, Expr.link, Resolution.link]
  | .symbol _ .global => by simp only [Expr.resolve, Expr.link, Resolution.link]
  | .binary _ left right => by
    simp only [Expr.resolve, Expr.link, left.resolve_eq_link hmore scopes,
      right.resolve_eq_link hmore scopes]
  | .unary _ operand => by
    simp only [Expr.resolve, Expr.link, operand.resolve_eq_link hmore scopes]
  | .call callee args => by
    simp only [Expr.resolve, Expr.link, callee.resolve_eq_link hmore scopes,
      Expr.resolveAll_eq_link hmore scopes args]
  | .list items => by
    simp only [Expr.resolve, Expr.link, Expr.resolveAll_eq_link hmore scopes items]
  | .map entries => by
    simp only [Expr.resolve, Expr.link, Entry.resolveAll_eq_link hmore scopes entries]
  | .comprehension name source filter map => by
    simp only [Expr.resolve, Expr.link, source.resolve_eq_link hmore scopes,
      Expr.resolveOption_eq_link hmore ([name] :: scopes) filter,
      Expr.resolveOption_eq_link hmore ([name] :: scopes) map]
  | .withBlock bindings body => by
    simp only [Expr.resolve, Expr.link, Binding.resolveAll_eq_link hmore scopes [] bindings,
      body.resolve_eq_link hmore (Binding.scope [] bindings :: scopes)]
  | .lambda clauses => by
    simp only [Expr.resolve, Expr.link, Clause.resolveAll_eq_link hmore scopes clauses]

theorem Expr.resolveAll_eq_link (hmore : Widens known more) (scopes : Scopes) : ∀ es : List Expr,
    Expr.resolveAll more scopes es =
      Expr.linkAll (newlyKnown known more) (Expr.resolveAll known scopes es)
  | [] => by simp only [Expr.resolveAll, Expr.linkAll]
  | e :: es => by
    simp only [Expr.resolveAll, Expr.linkAll, e.resolve_eq_link hmore scopes,
      Expr.resolveAll_eq_link hmore scopes es]

theorem Expr.resolveOption_eq_link (hmore : Widens known more) (scopes : Scopes) :
    ∀ e : Option Expr, Expr.resolveOption more scopes e =
      Expr.linkOption (newlyKnown known more) (Expr.resolveOption known scopes e)
  | none => by simp only [Expr.resolveOption, Expr.linkOption]
  | some e => by simp only [Expr.resolveOption, Expr.linkOption, e.resolve_eq_link hmore scopes]

theorem Entry.resolveAll_eq_link (hmore : Widens known more) (scopes : Scopes) : ∀ es : List Entry,
    Entry.resolveAll more scopes es =
      Entry.linkAll (newlyKnown known more) (Entry.resolveAll known scopes es)
  | [] => by simp only [Entry.resolveAll, Entry.linkAll]
  | ⟨_, value⟩ :: es => by
    simp only [Entry.resolveAll, Entry.linkAll, value.resolve_eq_link hmore scopes,
      Entry.resolveAll_eq_link hmore scopes es]

theorem Binding.resolveAll_eq_link (hmore : Widens known more) (scopes : Scopes)
    (bound : List String) : ∀ bs : List Binding,
    Binding.resolveAll more scopes bound bs =
      Binding.linkAll (newlyKnown known more) (Binding.resolveAll known scopes bound bs)
  | [] => by simp only [Binding.resolveAll, Binding.linkAll]
  | ⟨target, value⟩ :: bs => by
    simp only [Binding.resolveAll, Binding.linkAll, value.resolve_eq_link hmore (bound :: scopes),
      Binding.resolveAll_eq_link hmore scopes (bound ++ target.names) bs]

theorem Param.resolveAll_eq_link (hmore : Widens known more) (scopes : Scopes) : ∀ ps : List Param,
    Param.resolveAll more scopes ps =
      Param.linkAll (newlyKnown known more) (Param.resolveAll known scopes ps)
  | [] => by simp only [Param.resolveAll, Param.linkAll]
  | ⟨_, guard⟩ :: ps => by
    simp only [Param.resolveAll, Param.linkAll, Expr.resolveOption_eq_link hmore scopes guard,
      Param.resolveAll_eq_link hmore scopes ps]

/-- Among more functions a clause is resolved as before, and then its unresolved symbols of the
new names are linked. -/
theorem Clause.resolve_eq_link (hmore : Widens known more) (scopes : Scopes) : ∀ c : Clause,
    c.resolve more scopes = (c.resolve known scopes).link (newlyKnown known more)
  | ⟨params, body⟩ => by
    simp only [Clause.resolve, Clause.link,
      Param.resolveAll_eq_link hmore (Clause.scope params :: scopes) params,
      body.resolve_eq_link hmore (Clause.scope params :: scopes)]

theorem Clause.resolveAll_eq_link (hmore : Widens known more) (scopes : Scopes) :
    ∀ cs : List Clause, Clause.resolveAll more scopes cs =
      Clause.linkAll (newlyKnown known more) (Clause.resolveAll known scopes cs)
  | [] => by simp only [Clause.resolveAll, Clause.linkAll]
  | c :: cs => by
    simp only [Clause.resolveAll, Clause.linkAll, c.resolve_eq_link hmore scopes,
      Clause.resolveAll_eq_link hmore scopes cs]

end

end

end Clausal
