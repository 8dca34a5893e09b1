import Clausal.Expr.Resolve

/-!
# Scoped expressions

An expression is scoped in some scopes if every slot it refers to is one of them: the scope so
many levels up has a name in that place. Resolving finds only such slots, so it keeps an
expression scoped; and what it left unresolved it leaves unresolved again.

* `Scopes.locate_in_range`: the index and depth of a name are inside the scopes.
* `Expr.Scoped.resolve`: a resolved expression is scoped.
* `Expr.resolve_resolve`: resolving again changes nothing.
-/

namespace Clausal

namespace Scopes

/-- The scope `depth` levels up has a slot of this index. -/
def InRange (scopes : Scopes) (index depth : Nat) : Prop :=
  ∃ names, scopes[depth]? = some names ∧ index < names.length

theorem lastIndex?_lt {name : String} {names : List String} {index : Nat}
    (h : lastIndex? name names = some index) : index < names.length := by
  induction names generalizing index with
  | nil => cases h
  | cons n ns ih =>
    rw [lastIndex?] at h
    rw [List.length_cons]
    split at h
    · next i hi =>
      cases h
      have := ih hi
      omega
    · split at h
      · cases h
        omega
      · cases h

/-- `locateFrom` counts levels from where it starts. -/
theorem locateFrom_in_range {name : String} {scopes : Scopes} {start index depth : Nat}
    (h : locateFrom name start scopes = some (index, depth)) :
    start ≤ depth ∧ scopes.InRange index (depth - start) := by
  induction scopes generalizing start with
  | nil => cases h
  | cons names scopes ih =>
    rw [locateFrom] at h
    split at h
    · next i hi =>
      cases h
      refine ⟨Nat.le_refl _, names, ?_, lastIndex?_lt hi⟩
      rw [Nat.sub_self]
      rfl
    · obtain ⟨hle, found, hfound, hlt⟩ := ih h
      refine ⟨by omega, found, ?_, hlt⟩
      rw [show depth - start = (depth - (start + 1)) + 1 by omega, List.getElem?_cons_succ]
      exact hfound

theorem locate_in_range {name : String} {scopes : Scopes} {index depth : Nat}
    (h : scopes.locate name = some (index, depth)) : scopes.InRange index depth := by
  rw [locate] at h
  split at h
  · cases h
  · exact (locateFrom_in_range h).2

end Scopes

mutual

/-- Every slot that an expression refers to is one of the scopes around it. -/
def Expr.Scoped (scopes : Scopes) : Expr → Prop
  | .literal _ => True
  | .symbol _ (.slot index depth) => scopes.InRange index depth
  | .symbol _ .global | .symbol _ .unresolved => True
  | .binary _ left right => left.Scoped scopes ∧ right.Scoped scopes
  | .unary _ operand => operand.Scoped scopes
  | .call callee args => callee.Scoped scopes ∧ Expr.AllScoped scopes args
  | .list items => Expr.AllScoped scopes items
  | .map entries => Entry.AllScoped scopes entries
  | .comprehension name source filter map =>
    source.Scoped scopes ∧ Expr.OptionScoped ([name] :: scopes) filter ∧
      Expr.OptionScoped ([name] :: scopes) map
  | .withBlock bindings body =>
    Binding.AllScoped scopes [] bindings ∧ body.Scoped (Binding.scope [] bindings :: scopes)
  | .lambda clauses => Clause.AllScoped scopes clauses

/-- Some expressions are all scoped. -/
def Expr.AllScoped (scopes : Scopes) : List Expr → Prop
  | [] => True
  | e :: es => e.Scoped scopes ∧ Expr.AllScoped scopes es

/-- An expression is scoped if it is there. -/
def Expr.OptionScoped (scopes : Scopes) : Option Expr → Prop
  | none => True
  | some e => e.Scoped scopes

/-- The values of some entries are all scoped. -/
def Entry.AllScoped (scopes : Scopes) : List Entry → Prop
  | [] => True
  | ⟨_, value⟩ :: es => value.Scoped scopes ∧ Entry.AllScoped scopes es

/-- The values of bindings are scoped, each among the names `bound` before it. -/
def Binding.AllScoped (scopes : Scopes) (bound : List String) : List Binding → Prop
  | [] => True
  | ⟨target, value⟩ :: bs =>
    value.Scoped (bound :: scopes) ∧ Binding.AllScoped scopes (bound ++ target.names) bs

/-- The guards of some parameters are all scoped. -/
def Param.AllScoped (scopes : Scopes) : List Param → Prop
  | [] => True
  | ⟨_, guard⟩ :: ps => Expr.OptionScoped scopes guard ∧ Param.AllScoped scopes ps

/-- The guards and the body of a clause are scoped among its parameters. -/
def Clause.Scoped (scopes : Scopes) : Clause → Prop
  | ⟨params, body⟩ =>
    Param.AllScoped (Clause.scope params :: scopes) params ∧
      body.Scoped (Clause.scope params :: scopes)

/-- Some clauses are all scoped. -/
def Clause.AllScoped (scopes : Scopes) : List Clause → Prop
  | [] => True
  | c :: cs => c.Scoped scopes ∧ Clause.AllScoped scopes cs

end

/-! ## Names survive resolving -/

section

variable (isGlobal : String → Bool)

theorem Clause.scope_resolveAll (scopes : Scopes) (params : List Param) :
    Clause.scope (Param.resolveAll isGlobal scopes params) = Clause.scope params := by
  induction params with
  | nil => rw [Param.resolveAll]
  | cons p ps ih =>
    obtain ⟨name, guard⟩ := p
    simp only [Clause.scope, Param.resolveAll, List.map_cons] at ih ⊢
    rw [ih]

theorem Binding.scope_resolveAll (scopes : Scopes) (bound inner : List String)
    (bindings : List Binding) :
    Binding.scope bound (Binding.resolveAll isGlobal scopes inner bindings) =
      Binding.scope bound bindings := by
  induction bindings generalizing bound inner with
  | nil => rw [Binding.resolveAll]
  | cons b bs ih =>
    obtain ⟨target, value⟩ := b
    simp only [Binding.resolveAll, Binding.scope]
    exact ih _ _

/-! ## A resolved expression is scoped -/

mutual

theorem Expr.Scoped.resolve {scopes : Scopes} :
    ∀ e : Expr, e.Scoped scopes → (e.resolve isGlobal scopes).Scoped scopes
  | .literal _, _ => trivial
  | .symbol _ (.slot ..), h => h
  | .symbol _ .global, _ => trivial
  | .symbol name .unresolved, _ => by
    rw [Expr.resolve, Resolution.of]
    split
    · next index depth hfound => exact Scopes.locate_in_range hfound
    · split <;> trivial
  | .binary _ left right, h => ⟨Expr.Scoped.resolve left h.1, Expr.Scoped.resolve right h.2⟩
  | .unary _ operand, h => Expr.Scoped.resolve operand h
  | .call callee args, h => ⟨Expr.Scoped.resolve callee h.1, Expr.AllScoped.resolve args h.2⟩
  | .list items, h => Expr.AllScoped.resolve items h
  | .map entries, h => Entry.AllScoped.resolve entries h
  | .comprehension _ source filter map, h =>
    ⟨Expr.Scoped.resolve source h.1, Expr.OptionScoped.resolve filter h.2.1,
      Expr.OptionScoped.resolve map h.2.2⟩
  | .withBlock bindings body, h => by
    refine ⟨Binding.AllScoped.resolve bindings h.1, ?_⟩
    rw [Binding.scope_resolveAll]
    exact Expr.Scoped.resolve body h.2
  | .lambda clauses, h => Clause.AllScoped.resolve clauses h

theorem Expr.AllScoped.resolve {scopes : Scopes} :
    ∀ es : List Expr, Expr.AllScoped scopes es →
      Expr.AllScoped scopes (Expr.resolveAll isGlobal scopes es)
  | [], _ => trivial
  | e :: es, h => ⟨Expr.Scoped.resolve e h.1, Expr.AllScoped.resolve es h.2⟩

theorem Expr.OptionScoped.resolve {scopes : Scopes} :
    ∀ e : Option Expr, Expr.OptionScoped scopes e →
      Expr.OptionScoped scopes (Expr.resolveOption isGlobal scopes e)
  | none, _ => trivial
  | some e, h => Expr.Scoped.resolve e h

theorem Entry.AllScoped.resolve {scopes : Scopes} :
    ∀ es : List Entry, Entry.AllScoped scopes es →
      Entry.AllScoped scopes (Entry.resolveAll isGlobal scopes es)
  | [], _ => trivial
  | ⟨_, value⟩ :: es, h => ⟨Expr.Scoped.resolve value h.1, Entry.AllScoped.resolve es h.2⟩

theorem Binding.AllScoped.resolve {scopes : Scopes} {bound : List String} :
    ∀ bs : List Binding, Binding.AllScoped scopes bound bs →
      Binding.AllScoped scopes bound (Binding.resolveAll isGlobal scopes bound bs)
  | [], _ => trivial
  | ⟨_, value⟩ :: bs, h => ⟨Expr.Scoped.resolve value h.1, Binding.AllScoped.resolve bs h.2⟩

theorem Param.AllScoped.resolve {scopes : Scopes} :
    ∀ ps : List Param, Param.AllScoped scopes ps →
      Param.AllScoped scopes (Param.resolveAll isGlobal scopes ps)
  | [], _ => trivial
  | ⟨_, guard⟩ :: ps, h => ⟨Expr.OptionScoped.resolve guard h.1, Param.AllScoped.resolve ps h.2⟩

theorem Clause.Scoped.resolve {scopes : Scopes} :
    ∀ c : Clause, c.Scoped scopes → (c.resolve isGlobal scopes).Scoped scopes
  | ⟨params, body⟩, h => by
    rw [Clause.resolve, Clause.Scoped, Clause.scope_resolveAll]
    exact ⟨Param.AllScoped.resolve params h.1, Expr.Scoped.resolve body h.2⟩

theorem Clause.AllScoped.resolve {scopes : Scopes} :
    ∀ cs : List Clause, Clause.AllScoped scopes cs →
      Clause.AllScoped scopes (Clause.resolveAll isGlobal scopes cs)
  | [], _ => trivial
  | c :: cs, h => ⟨Clause.Scoped.resolve c h.1, Clause.AllScoped.resolve cs h.2⟩

end

/-! ## Resolving again -/

mutual

theorem Expr.resolve_resolve (scopes : Scopes) :
    ∀ e : Expr, (e.resolve isGlobal scopes).resolve isGlobal scopes = e.resolve isGlobal scopes
  | .literal _ => by simp only [Expr.resolve]
  | .symbol _ (.slot ..) => by simp only [Expr.resolve]
  | .symbol _ .global => by simp only [Expr.resolve]
  | .symbol name .unresolved => by
    cases h : Resolution.of isGlobal scopes name <;> simp only [Expr.resolve, h]
  | .binary _ left right => by
    simp only [Expr.resolve, Expr.resolve_resolve scopes left, Expr.resolve_resolve scopes right]
  | .unary _ operand => by simp only [Expr.resolve, Expr.resolve_resolve scopes operand]
  | .call callee args => by
    simp only [Expr.resolve, Expr.resolve_resolve scopes callee,
      Expr.resolveAll_resolveAll scopes args]
  | .list items => by simp only [Expr.resolve, Expr.resolveAll_resolveAll scopes items]
  | .map entries => by simp only [Expr.resolve, Entry.resolveAll_resolveAll scopes entries]
  | .comprehension name source filter map => by
    simp only [Expr.resolve, Expr.resolve_resolve scopes source,
      Expr.resolveOption_resolveOption ([name] :: scopes) filter,
      Expr.resolveOption_resolveOption ([name] :: scopes) map]
  | .withBlock bindings body => by
    simp only [Expr.resolve, Binding.scope_resolveAll,
      Binding.resolveAll_resolveAll scopes [] bindings,
      Expr.resolve_resolve (Binding.scope [] bindings :: scopes) body]
  | .lambda clauses => by simp only [Expr.resolve, Clause.resolveAll_resolveAll scopes clauses]

theorem Expr.resolveAll_resolveAll (scopes : Scopes) :
    ∀ es : List Expr, Expr.resolveAll isGlobal scopes (Expr.resolveAll isGlobal scopes es) =
      Expr.resolveAll isGlobal scopes es
  | [] => by simp only [Expr.resolveAll]
  | e :: es => by
    simp only [Expr.resolveAll, Expr.resolve_resolve scopes e, Expr.resolveAll_resolveAll scopes es]

theorem Expr.resolveOption_resolveOption (scopes : Scopes) :
    ∀ e : Option Expr,
      Expr.resolveOption isGlobal scopes (Expr.resolveOption isGlobal scopes e) =
        Expr.resolveOption isGlobal scopes e
  | none => by simp only [Expr.resolveOption]
  | some e => by simp only [Expr.resolveOption, Expr.resolve_resolve scopes e]

theorem Entry.resolveAll_resolveAll (scopes : Scopes) :
    ∀ es : List Entry, Entry.resolveAll isGlobal scopes (Entry.resolveAll isGlobal scopes es) =
      Entry.resolveAll isGlobal scopes es
  | [] => by simp only [Entry.resolveAll]
  | ⟨_, value⟩ :: es => by
    simp only [Entry.resolveAll, Expr.resolve_resolve scopes value,
      Entry.resolveAll_resolveAll scopes es]

theorem Binding.resolveAll_resolveAll (scopes : Scopes) (bound : List String) :
    ∀ bs : List Binding,
      Binding.resolveAll isGlobal scopes bound (Binding.resolveAll isGlobal scopes bound bs) =
        Binding.resolveAll isGlobal scopes bound bs
  | [] => by simp only [Binding.resolveAll]
  | ⟨target, value⟩ :: bs => by
    simp only [Binding.resolveAll, Expr.resolve_resolve (bound :: scopes) value,
      Binding.resolveAll_resolveAll scopes (bound ++ target.names) bs]

theorem Param.resolveAll_resolveAll (scopes : Scopes) :
    ∀ ps : List Param, Param.resolveAll isGlobal scopes (Param.resolveAll isGlobal scopes ps) =
      Param.resolveAll isGlobal scopes ps
  | [] => by simp only [Param.resolveAll]
  | ⟨_, guard⟩ :: ps => by
    simp only [Param.resolveAll, Expr.resolveOption_resolveOption scopes guard,
      Param.resolveAll_resolveAll scopes ps]

theorem Clause.resolve_resolve (scopes : Scopes) :
    ∀ c : Clause, (c.resolve isGlobal scopes).resolve isGlobal scopes = c.resolve isGlobal scopes
  | ⟨params, body⟩ => by
    simp only [Clause.resolve, Clause.scope_resolveAll,
      Param.resolveAll_resolveAll (Clause.scope params :: scopes) params,
      Expr.resolve_resolve (Clause.scope params :: scopes) body]

theorem Clause.resolveAll_resolveAll (scopes : Scopes) :
    ∀ cs : List Clause, Clause.resolveAll isGlobal scopes (Clause.resolveAll isGlobal scopes cs) =
      Clause.resolveAll isGlobal scopes cs
  | [] => by simp only [Clause.resolveAll]
  | c :: cs => by
    simp only [Clause.resolveAll, Clause.resolve_resolve scopes c,
      Clause.resolveAll_resolveAll scopes cs]

end

end

/-! ## Clauses one by one -/

theorem Clause.resolveAll_eq_map (isGlobal : String → Bool) (scopes : Scopes) (cs : List Clause) :
    Clause.resolveAll isGlobal scopes cs = cs.map (·.resolve isGlobal scopes) := by
  induction cs with
  | nil => rw [Clause.resolveAll, List.map_nil]
  | cons c cs ih => rw [Clause.resolveAll, List.map_cons, ih]

theorem Clause.AllScoped.of_mem {scopes : Scopes} {cs : List Clause}
    (h : Clause.AllScoped scopes cs) {c : Clause} (hc : c ∈ cs) : c.Scoped scopes := by
  induction cs with
  | nil => cases hc
  | cons d ds ih =>
    cases hc with
    | head => exact h.1
    | tail _ hc => exact ih h.2 hc

theorem Param.AllScoped.guards {scopes : Scopes} {ps : List Param}
    (h : Param.AllScoped scopes ps) : Expr.AllScoped scopes (ps.filterMap (·.guard)) := by
  induction ps with
  | nil => trivial
  | cons p ps ih =>
    obtain ⟨name, guard⟩ := p
    cases guard with
    | none => exact ih h.2
    | some g => exact ⟨h.1, ih h.2⟩

theorem Clause.Scoped.guards {scopes : Scopes} {c : Clause} (h : c.Scoped scopes) :
    Expr.AllScoped (Clause.scope c.params :: scopes) c.guards := by
  obtain ⟨params, body⟩ := c
  exact Param.AllScoped.guards h.1

theorem Clause.Scoped.body {scopes : Scopes} {c : Clause} (h : c.Scoped scopes) :
    c.body.Scoped (Clause.scope c.params :: scopes) := by
  obtain ⟨params, body⟩ := c
  exact h.2

theorem Param.filterMap_guard_resolveAll (isGlobal : String → Bool) (scopes : Scopes)
    (ps : List Param) :
    (Param.resolveAll isGlobal scopes ps).filterMap (·.guard) =
      Expr.resolveAll isGlobal scopes (ps.filterMap (·.guard)) := by
  induction ps with
  | nil => simp only [Param.resolveAll, List.filterMap_nil, Expr.resolveAll]
  | cons p ps ih =>
    obtain ⟨name, guard⟩ := p
    cases guard with
    | none => exact ih
    | some g => exact congrArg (g.resolve isGlobal scopes :: ·) ih

end Clausal
