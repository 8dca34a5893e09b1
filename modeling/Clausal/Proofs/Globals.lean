import Clausal.Expr.Resolve
import Clausal.Proofs.Phrase

/-!
# References to functions of the program

The names that a tree refers to as functions of the program, wherever in it they stand
(`Expr.globals`). Parsing makes no such reference, so the tree of a phrase has none
(`Phrase.globals_expr`); resolving makes one only for a name that is known
(`Clause.globals_resolve`).
-/

namespace Clausal

mutual

/-- The names that an expression refers to as functions of the program. -/
def Expr.globals : Expr → List String
  | .literal _ => []
  | .symbol name .global => [name]
  | .symbol _ .unresolved | .symbol _ (.slot ..) => []
  | .binary _ left right => left.globals ++ right.globals
  | .unary _ operand => operand.globals
  | .call callee args => callee.globals ++ Expr.globalsAll args
  | .list items => Expr.globalsAll items
  | .map entries => Entry.globalsAll entries
  | .comprehension _ source filter map =>
    source.globals ++ (Expr.globalsOption filter ++ Expr.globalsOption map)
  | .withBlock bindings body => Binding.globalsAll bindings ++ body.globals
  | .lambda clauses => Clause.globalsAll clauses

/-- The names that some expressions refer to. -/
def Expr.globalsAll : List Expr → List String
  | [] => []
  | e :: es => e.globals ++ Expr.globalsAll es

/-- The names that an expression refers to, if there is one. -/
def Expr.globalsOption : Option Expr → List String
  | none => []
  | some e => e.globals

/-- The names that the values of entries refer to. -/
def Entry.globalsAll : List Entry → List String
  | [] => []
  | ⟨_, value⟩ :: es => value.globals ++ Entry.globalsAll es

/-- The names that the values of bindings refer to. -/
def Binding.globalsAll : List Binding → List String
  | [] => []
  | ⟨_, value⟩ :: bs => value.globals ++ Binding.globalsAll bs

/-- The names that the guards of parameters refer to. -/
def Param.globalsAll : List Param → List String
  | [] => []
  | ⟨_, guard⟩ :: ps => Expr.globalsOption guard ++ Param.globalsAll ps

/-- The names that the guards and the body of a clause refer to. -/
def Clause.globals : Clause → List String
  | ⟨params, body⟩ => Param.globalsAll params ++ body.globals

/-- The names that some clauses refer to. -/
def Clause.globalsAll : List Clause → List String
  | [] => []
  | c :: cs => c.globals ++ Clause.globalsAll cs

end

/-! ## Phrases -/

mutual

/-- A tree as it is written refers to no function of the program. -/
theorem Phrase.globals_expr : (p : Phrase) → p.expr.globals = []
  | .void | .number _ | .bool _ | .text _ | .name _ | .operator _ => rfl
  | .binary _ l r => by rw [Phrase.expr, Expr.globals, l.globals_expr, r.globals_expr]; rfl
  | .unary _ e => by rw [Phrase.expr, Expr.globals, e.globals_expr]
  | .call f args => by
    rw [Phrase.expr, Expr.globals, f.globals_expr, Phrase.globals_exprs args]; rfl
  | .list items => by rw [Phrase.expr, Expr.globals, Phrase.globals_exprs items]
  | .map es => by rw [Phrase.expr, Expr.globals, Phrase.Entry.globals_entries es]
  | .comprehension _ source f m => by
    rw [Phrase.expr, Expr.globals, source.globals_expr, Phrase.globals_expr? f,
      Phrase.globals_expr? m]
    rfl
  | .withBlock bs body => by
    rw [Phrase.expr, Expr.globals, Phrase.Binding.globals_bindings bs, body.globals_expr]; rfl
  | .lambda cs => by rw [Phrase.expr, Expr.globals, Phrase.Clause.globals_clauses cs]
  | .operatorOn _ e => by
    simp only [Phrase.expr, Expr.globals, Clause.globalsAll, Clause.globals, Param.globalsAll,
      Expr.globalsOption, Expr.parameter, e.globals_expr, List.append_nil]

theorem Phrase.globals_exprs : (ps : List Phrase) → Expr.globalsAll (Phrase.exprs ps) = []
  | [] => rfl
  | p :: ps => by
    rw [Phrase.exprs, Expr.globalsAll, p.globals_expr, Phrase.globals_exprs ps]; rfl

theorem Phrase.globals_expr? : (p : Option Phrase) → Expr.globalsOption (Phrase.expr? p) = []
  | none => rfl
  | some p => by rw [Phrase.expr?, Expr.globalsOption, p.globals_expr]

theorem Phrase.Entry.globals_entries :
    (es : List Phrase.Entry) → Entry.globalsAll (Phrase.Entry.entries es) = []
  | [] => rfl
  | ⟨_, value⟩ :: es => by
    rw [Phrase.Entry.entries, Entry.globalsAll, value.globals_expr,
      Phrase.Entry.globals_entries es]
    rfl

theorem Phrase.Binding.globals_bindings :
    (bs : List Phrase.Binding) → Binding.globalsAll (Phrase.Binding.bindings bs) = []
  | [] => rfl
  | ⟨_, value⟩ :: bs => by
    rw [Phrase.Binding.bindings, Binding.globalsAll, value.globals_expr,
      Phrase.Binding.globals_bindings bs]
    rfl

theorem Phrase.Clause.globals_clauses :
    (cs : List Phrase.Clause) → Clause.globalsAll (Phrase.Clause.clauses cs) = []
  | [] => rfl
  | c :: cs => by
    rw [Phrase.Clause.clauses, Clause.globalsAll, c.globals_clause,
      Phrase.Clause.globals_clauses cs]
    rfl

theorem Phrase.Clause.globals_clause : (c : Phrase.Clause) → c.clause.globals = []
  | .mk params body => by
    rw [Phrase.Clause.clause, Clause.globals, params.globals_params 0, body.globals_expr]; rfl

theorem Phrase.Params.globals_params {taken : List String} :
    (ps : Phrase.Params taken) → (index : Nat) → Param.globalsAll (ps.params index) = []
  | .done, _ => rfl
  | .name _ _ guard ps, index => by
    rw [Phrase.Params.params, Param.globalsAll, Phrase.globals_expr? guard,
      ps.globals_params (index + 1)]
    rfl
  | .pattern p ps, index => by
    simp only [Phrase.Params.params, Param.globalsAll, Expr.globalsOption, Expr.globals,
      Expr.parameter, p.globals_expr, ps.globals_params (index + 1), List.append_nil]

end

/-! ## Resolving -/

section

variable {isGlobal : String → Bool} {n : String}

theorem known_or_mem_append {known : Prop} {as bs as' bs' : List String}
    (ha : n ∈ as' → known ∨ n ∈ as) (hb : n ∈ bs' → known ∨ n ∈ bs) (h : n ∈ as' ++ bs') :
    known ∨ n ∈ as ++ bs := by
  rw [List.mem_append]
  rcases List.mem_append.mp h with h | h
  · exact (ha h).imp_right .inl
  · exact (hb h).imp_right .inr

mutual

/-- Resolving makes references to names that are known, and no others. -/
theorem Expr.globals_resolve {scopes : Scopes} :
    (e : Expr) → n ∈ (e.resolve isGlobal scopes).globals → isGlobal n = true ∨ n ∈ e.globals
  | .literal _, h => .inr h
  | .symbol name .unresolved, h => by
    rw [Expr.resolve, Resolution.of] at h
    split at h
    · cases h
    · split at h
      · next hglobal =>
        rw [Expr.globals, List.mem_singleton] at h
        exact .inl (h ▸ hglobal)
      · cases h
  | .symbol _ (.slot ..), h => .inr h
  | .symbol _ .global, h => .inr h
  | .binary _ left right, h => known_or_mem_append left.globals_resolve right.globals_resolve h
  | .unary _ operand, h => operand.globals_resolve h
  | .call callee args, h =>
    known_or_mem_append callee.globals_resolve (Expr.globalsAll_resolveAll args) h
  | .list items, h => Expr.globalsAll_resolveAll items h
  | .map entries, h => Entry.globalsAll_resolveAll entries h
  | .comprehension _ source filter map, h =>
    known_or_mem_append source.globals_resolve
      (known_or_mem_append (Expr.globalsOption_resolveOption filter)
        (Expr.globalsOption_resolveOption map)) h
  | .withBlock bindings body, h =>
    known_or_mem_append (Binding.globalsAll_resolveAll bindings) body.globals_resolve h
  | .lambda clauses, h => Clause.globalsAll_resolveAll clauses h

theorem Expr.globalsAll_resolveAll {scopes : Scopes} : (es : List Expr) →
    n ∈ Expr.globalsAll (Expr.resolveAll isGlobal scopes es) →
    isGlobal n = true ∨ n ∈ Expr.globalsAll es
  | [], h => nomatch h
  | e :: es, h => known_or_mem_append e.globals_resolve (Expr.globalsAll_resolveAll es) h

theorem Expr.globalsOption_resolveOption {scopes : Scopes} : (e : Option Expr) →
    n ∈ Expr.globalsOption (Expr.resolveOption isGlobal scopes e) →
    isGlobal n = true ∨ n ∈ Expr.globalsOption e
  | none, h => nomatch h
  | some e, h => e.globals_resolve h

theorem Entry.globalsAll_resolveAll {scopes : Scopes} : (es : List Entry) →
    n ∈ Entry.globalsAll (Entry.resolveAll isGlobal scopes es) →
    isGlobal n = true ∨ n ∈ Entry.globalsAll es
  | [], h => nomatch h
  | ⟨_, value⟩ :: es, h =>
    known_or_mem_append value.globals_resolve (Entry.globalsAll_resolveAll es) h

theorem Binding.globalsAll_resolveAll {scopes : Scopes} {bound : List String} :
    (bs : List Binding) → n ∈ Binding.globalsAll (Binding.resolveAll isGlobal scopes bound bs) →
    isGlobal n = true ∨ n ∈ Binding.globalsAll bs
  | [], h => nomatch h
  | ⟨_, value⟩ :: bs, h =>
    known_or_mem_append value.globals_resolve (Binding.globalsAll_resolveAll bs) h

theorem Param.globalsAll_resolveAll {scopes : Scopes} : (ps : List Param) →
    n ∈ Param.globalsAll (Param.resolveAll isGlobal scopes ps) →
    isGlobal n = true ∨ n ∈ Param.globalsAll ps
  | [], h => nomatch h
  | ⟨_, guard⟩ :: ps, h =>
    known_or_mem_append (Expr.globalsOption_resolveOption guard) (Param.globalsAll_resolveAll ps) h

theorem Clause.globals_resolve {scopes : Scopes} :
    (c : Clause) → n ∈ (c.resolve isGlobal scopes).globals → isGlobal n = true ∨ n ∈ c.globals
  | ⟨params, body⟩, h =>
    known_or_mem_append (Param.globalsAll_resolveAll params) body.globals_resolve h

theorem Clause.globalsAll_resolveAll {scopes : Scopes} : (cs : List Clause) →
    n ∈ Clause.globalsAll (Clause.resolveAll isGlobal scopes cs) →
    isGlobal n = true ∨ n ∈ Clause.globalsAll cs
  | [], h => nomatch h
  | c :: cs, h => known_or_mem_append c.globals_resolve (Clause.globalsAll_resolveAll cs) h

end

end

end Clausal
