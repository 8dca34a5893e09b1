import Clausal.Expr.Resolve
import Clausal.Proofs.Labelled
import Clausal.Proofs.Recast
import Clausal.Proofs.Steps
import Clausal.Proofs.Written

/-!
# Parsing builds proper trees

Evaluating and resolving take a tree as it is. They rely on what the parsers see to, each in its
own place, and what `Loose.Expr.Proper` puts together: the names among the parameters of a clause
differ; a parameter is referred to by its number in one place only, as an operand of the operator at
the root of a guard or of the body of its own clause; a map literal has as many keys as values; a
target with the mark for the rest of a list has a last name; all other symbols have names that can
be written as names. This is said of loose trees, in which it could be otherwise.

* `Phrase.proper_expr`: the tree of a phrase is proper, however the forms that stand for lambdas and
  guards are nested in one another.
* `Expr.proper_resolve`: resolving keeps a tree proper.
* `Parse.parsing_builds_proper_trees`: so every tree is proper that is read from a source, from
  wherever in it, also after complaints.
-/

namespace Clausal

/-- A name as a source can have it: not empty and no reserved word. -/
def IsName (s : String) : Prop := s ≠ "" ∧ Keyword.ofText? s = none

theorem Identifier.isName (n : Identifier) : IsName n.text := by
  refine ⟨fun hempty => ?_, n.free⟩
  obtain ⟨c, cs, hchars, -⟩ := n.leading
  rw [hempty] at hchars
  cases hchars

namespace Loose

/-- The expression refers by number to one of the first `count` parameters. -/
def Expr.IsParameter (count : Nat) (e : Expr) : Prop := ∃ index < count, e = .parameter index

/-- All names are names, and where the last takes the rest of a list there is a last one. -/
def Target.Proper : Target → Prop
  | .name n => IsName n
  | .items names variadic => (∀ n ∈ names, IsName n) ∧ (variadic = true → names ≠ [])

section

variable (known : Resolution → Prop)

mutual

/-- What parsing sees to, in an expression whose operator at the root, if it has one, may have the
first `count` parameters as operands. What symbols stand for is `known`. -/
def Expr.Proper : Nat → Expr → Prop
  | _, .literal _ => True
  | _, .symbol name resolution => IsName name ∧ known resolution
  | count, .binary _ left right =>
    (left.IsParameter count ∨ left.Proper 0) ∧ (right.IsParameter count ∨ right.Proper 0)
  | _, .unary _ operand => operand.Proper 0
  | _, .call callee args => callee.Proper 0 ∧ Expr.AllProper args
  | _, .list items => Expr.AllProper items
  | _, .map keys values => keys.length = values.length ∧ Expr.AllProper values
  | _, .comprehension name source filter map =>
    IsName name ∧ source.Proper 0 ∧ Expr.OptionProper 0 filter ∧ Expr.OptionProper 0 map
  | _, .withBlock bindings body => Binding.AllProper bindings ∧ body.Proper 0
  | _, .lambda clauses => Clause.AllProper clauses

/-- All of some expressions are proper. -/
def Expr.AllProper : List Expr → Prop
  | [] => True
  | e :: es => e.Proper 0 ∧ Expr.AllProper es

/-- The expression is proper, if there is one. -/
def Expr.OptionProper : Nat → Option Expr → Prop
  | _, none => True
  | count, some e => e.Proper count

/-- The targets and values of all bindings are proper. -/
def Binding.AllProper : List Binding → Prop
  | [] => True
  | ⟨target, value⟩ :: bs => target.Proper ∧ value.Proper 0 ∧ Binding.AllProper bs

/-- The names and guards of some of the `count` parameters of a clause are proper. -/
def Param.AllProper : Nat → List Param → Prop
  | _, [] => True
  | count, ⟨name, guard⟩ :: ps =>
    (∀ n ∈ name, IsName n) ∧ Expr.OptionProper count guard ∧ Param.AllProper count ps

/-- No two parameters have the same name, and guards and body refer to no others by number. -/
def Clause.Proper : Clause → Prop
  | ⟨params, body⟩ =>
    (params.filterMap (·.name)).Nodup ∧ Param.AllProper params.length params ∧
      body.Proper params.length

/-- All clauses of a lambda are proper. -/
def Clause.AllProper : List Clause → Prop
  | [] => True
  | c :: cs => c.Proper ∧ Clause.AllProper cs

end

end

/-- A proper target takes values from every value, or complains about it. -/
theorem Target.Proper.isSome_values? {t : Target} (h : t.Proper) (v : Value) (id : Nat) :
    (t.values? v id).isSome = true := by
  cases t with
  | name n => rfl
  | items names variadic =>
    cases v with
    | list xs =>
      have hfixed : (fixed? names variadic).isSome = true := by
        cases variadic with
        | false => rfl
        | true =>
          obtain ⟨n, more, rfl⟩ := List.exists_cons_of_ne_nil (h.2 rfl)
          rfl
      rw [values?, Option.isSome_map, hfixed]
    | void | number | bool | text | function | map => rfl

end Loose

/-! ## Phrases -/

theorem Phrase.Target.proper_target (t : Phrase.Target) : t.target.loose.Proper := by
  cases t with
  | name n => exact n.isName
  | items front rest =>
    refine ⟨fun s hs => ?_, fun hrest => ?_⟩
    · rcases List.mem_append.mp hs with hs | hs
      · obtain ⟨n, -, rfl⟩ := List.mem_map.mp hs
        exact n.isName
      · obtain ⟨n, -, rfl⟩ := Option.map_eq_some_iff.mp (Option.mem_toList.mp hs)
        exact n.isName
    · obtain ⟨s, hs⟩ := Option.isSome_iff_exists.mp hrest
      simp [hs]

mutual

/-- The tree of a phrase is proper, and its own operator needs no parameters as operands. -/
theorem Phrase.proper_expr (count : Nat) :
    (p : Phrase) → p.expr.loose.Proper (· = .unresolved) count
  | .void | .number _ | .bool _ | .text _ => trivial
  | .name n => ⟨n.isName, rfl⟩
  | .binary _ l r => ⟨.inr (l.proper_expr 0), .inr (r.proper_expr 0)⟩
  | .unary _ e => e.proper_expr 0
  | .call f args => ⟨f.proper_expr 0, Phrase.proper_exprs args⟩
  | .list items => Phrase.proper_exprs items
  | .map es => ⟨Entry.length_keys _, Phrase.Entry.proper_entries es⟩
  | .comprehension n source f m =>
    ⟨n.isName, source.proper_expr 0, Phrase.proper_expr? 0 f, Phrase.proper_expr? 0 m⟩
  | .withBlock bs body => ⟨Phrase.Binding.proper_bindings bs, body.proper_expr 0⟩
  | .lambda cs => Phrase.Clause.proper_clauses cs
  | .operator _ =>
    ⟨⟨.nil, ⟨nofun, trivial, nofun, trivial, trivial⟩, .inl ⟨0, by decide, rfl⟩,
      .inl ⟨1, by decide, rfl⟩⟩, trivial⟩
  | .operatorOn _ e =>
    ⟨⟨.nil, ⟨nofun, trivial, trivial⟩, .inl ⟨0, by decide, rfl⟩, .inr (e.proper_expr 0)⟩, trivial⟩

theorem Phrase.proper_exprs : (ps : List Phrase) →
    Loose.Expr.AllProper (· = .unresolved) (Expr.looseAll (Phrase.exprs ps))
  | [] => trivial
  | p :: ps => ⟨p.proper_expr 0, Phrase.proper_exprs ps⟩

theorem Phrase.proper_expr? (count : Nat) :
    (p : Option Phrase) →
      Loose.Expr.OptionProper (· = .unresolved) count (Expr.looseOption (Phrase.expr? p))
  | none => trivial
  | some p => p.proper_expr count

theorem Phrase.Entry.proper_entries :
    (es : List Phrase.Entry) →
      Loose.Expr.AllProper (· = .unresolved) (Entry.looseValues (Phrase.Entry.entries es))
  | [] => trivial
  | ⟨_, value⟩ :: es => ⟨value.proper_expr 0, Phrase.Entry.proper_entries es⟩

theorem Phrase.Binding.proper_bindings :
    (bs : List Phrase.Binding) →
      Loose.Binding.AllProper (· = .unresolved) (Binding.looseAll (Phrase.Binding.bindings bs))
  | [] => trivial
  | ⟨target, value⟩ :: bs =>
    ⟨target.proper_target, value.proper_expr 0, Phrase.Binding.proper_bindings bs⟩

theorem Phrase.Clause.proper_clauses :
    (cs : List Phrase.Clause) →
      Loose.Clause.AllProper (· = .unresolved) (Clause.looseAll (Phrase.Clause.clauses cs))
  | [] => trivial
  | c :: cs => ⟨c.proper_clause, Phrase.Clause.proper_clauses cs⟩

theorem Phrase.Clause.proper_clause :
    (c : Phrase.Clause) → c.clause.loose.Proper (· = .unresolved)
  | .mk params body => by
    refine ⟨?_, params.proper_params ?_, body.proper_expr _⟩
    · rw [Param.names_looseAll]
      exact params.names_fresh.1
    · simp only [Param.length_looseAll, Nat.zero_add, Nat.le_refl]

/-- The names of the parameters behind others are not theirs, and no two are the same. -/
theorem Phrase.Params.names_fresh {taken : List String} {index : Nat} :
    (ps : Phrase.Params taken) → ((ps.params index).filterMap (·.name)).Nodup ∧
      ∀ s ∈ (ps.params index).filterMap (·.name), s ∉ taken
  | .done => ⟨.nil, List.forall_mem_nil _⟩
  | .name n fresh guard ps => by
    obtain ⟨hnodup, hfresh⟩ := ps.names_fresh
    simp only [Phrase.Params.params, List.filterMap_cons]
    refine ⟨List.nodup_cons.mpr ⟨fun hmem => hfresh _ hmem List.mem_cons_self, hnodup⟩, ?_⟩
    refine List.forall_mem_cons.mpr ⟨fresh, fun s hs hmem => hfresh s hs ?_⟩
    exact List.mem_cons_of_mem _ hmem
  | .pattern p ps => by
    rw [Phrase.Params.params, List.filterMap_cons_none rfl]
    exact ps.names_fresh

/-- A pattern is a guard on the parameter of its own number, and this is one of the clause. -/
theorem Phrase.Params.proper_params {taken : List String} {index count : Nat} :
    (ps : Phrase.Params taken) → index + (ps.params index).length ≤ count →
    Loose.Param.AllProper (· = .unresolved) count (Param.looseAll (ps.params index))
  | .done, _ => trivial
  | .name n _ guard ps, hcount => by
    rw [Phrase.Params.params, List.length_cons] at hcount
    refine ⟨fun s hs => ?_, Phrase.proper_expr? count guard, ps.proper_params (by omega)⟩
    obtain rfl := Option.mem_some_iff.mp hs
    exact n.isName
  | .pattern p ps, hcount => by
    rw [Phrase.Params.params, List.length_cons] at hcount
    refine ⟨nofun, ⟨.inl ⟨index, by omega, rfl⟩, .inr (p.proper_expr 0)⟩, ?_⟩
    exact ps.proper_params (by omega)

end

/-! ## Resolving -/

section

variable {known : Resolution → Prop} (isGlobal : String → Bool)

theorem Param.names_resolveAll (scopes : Scopes) (ps : List Param) :
    (Param.resolveAll isGlobal scopes ps).map (·.name) = ps.map (·.name) := by
  induction ps with
  | nil => rfl
  | cons p ps ih =>
    obtain ⟨name, guard⟩ := p
    rw [Param.resolveAll, List.map_cons, List.map_cons, ih]

variable {isGlobal}

theorem Expr.isParameter_resolve {scopes : Scopes} {count : Nat} (e : Expr)
    (h : e.loose.IsParameter count) : (e.resolve isGlobal scopes).loose.IsParameter count := by
  obtain ⟨index, hindex, he⟩ := h
  refine ⟨index, hindex, ?_⟩
  cases e with
  | symbol name resolution =>
    cases he
    rfl
  | literal | binary | unary | call | list | map | comprehension | withBlock | lambda => cases he

mutual

/-- Resolving keeps a tree proper: it changes neither names nor references by number. -/
theorem Expr.proper_resolve {scopes : Scopes} {count : Nat} : (e : Expr) →
    e.loose.Proper known count → (e.resolve isGlobal scopes).loose.Proper (fun _ => True) count
  | .literal _, _ => trivial
  | .symbol _ .unresolved, h => ⟨h.1, trivial⟩
  | .symbol _ (.slot ..), h => ⟨h.1, trivial⟩
  | .symbol _ .global, h => ⟨h.1, trivial⟩
  | .binary _ left right, h =>
    ⟨h.1.imp left.isParameter_resolve left.proper_resolve,
      h.2.imp right.isParameter_resolve right.proper_resolve⟩
  | .unary _ operand, h => operand.proper_resolve h
  | .call callee args, h => ⟨callee.proper_resolve h.1, Expr.allProper_resolveAll args h.2⟩
  | .list items, h => Expr.allProper_resolveAll items h
  | .map entries, h =>
    ⟨Entry.length_keys _, Entry.allProper_resolveAll entries h.2⟩
  | .comprehension _ source filter map, h =>
    ⟨h.1, source.proper_resolve h.2.1, Expr.optionProper_resolveOption filter h.2.2.1,
      Expr.optionProper_resolveOption map h.2.2.2⟩
  | .withBlock bindings body, h =>
    ⟨Binding.allProper_resolveAll bindings h.1, body.proper_resolve h.2⟩
  | .lambda clauses, h => Clause.allProper_resolveAll clauses h

theorem Expr.allProper_resolveAll {scopes : Scopes} : (es : List Expr) →
    Loose.Expr.AllProper known (Expr.looseAll es) →
    Loose.Expr.AllProper (fun _ => True) (Expr.looseAll (Expr.resolveAll isGlobal scopes es))
  | [], _ => trivial
  | e :: es, h => ⟨e.proper_resolve h.1, Expr.allProper_resolveAll es h.2⟩

theorem Expr.optionProper_resolveOption {scopes : Scopes} {count : Nat} : (e : Option Expr) →
    Loose.Expr.OptionProper known count (Expr.looseOption e) →
    Loose.Expr.OptionProper (fun _ => True) count
      (Expr.looseOption (Expr.resolveOption isGlobal scopes e))
  | none, _ => trivial
  | some e, h => e.proper_resolve h

theorem Entry.allProper_resolveAll {scopes : Scopes} : (es : List Entry) →
    Loose.Expr.AllProper known (Entry.looseValues es) →
    Loose.Expr.AllProper (fun _ => True) (Entry.looseValues (Entry.resolveAll isGlobal scopes es))
  | [], _ => trivial
  | ⟨_, value⟩ :: es, h => ⟨value.proper_resolve h.1, Entry.allProper_resolveAll es h.2⟩

theorem Binding.allProper_resolveAll {scopes : Scopes} {bound : List String} :
    (bs : List Binding) → Loose.Binding.AllProper known (Binding.looseAll bs) →
    Loose.Binding.AllProper (fun _ => True)
      (Binding.looseAll (Binding.resolveAll isGlobal scopes bound bs))
  | [], _ => trivial
  | ⟨_, value⟩ :: bs, h =>
    ⟨h.1, value.proper_resolve h.2.1, Binding.allProper_resolveAll bs h.2.2⟩

theorem Param.allProper_resolveAll {scopes : Scopes} {count : Nat} : (ps : List Param) →
    Loose.Param.AllProper known count (Param.looseAll ps) →
    Loose.Param.AllProper (fun _ => True) count
      (Param.looseAll (Param.resolveAll isGlobal scopes ps))
  | [], _ => trivial
  | ⟨_, guard⟩ :: ps, h =>
    ⟨h.1, Expr.optionProper_resolveOption guard h.2.1, Param.allProper_resolveAll ps h.2.2⟩

theorem Clause.proper_resolve {scopes : Scopes} : (c : Clause) → c.loose.Proper known →
    (c.resolve isGlobal scopes).loose.Proper fun _ => True
  | ⟨params, body⟩, h => by
    have hnames := Param.names_resolveAll isGlobal (Clause.scope params :: scopes) params
    have hlength := congrArg List.length hnames
    rw [List.length_map, List.length_map] at hlength
    obtain ⟨hnodup, hparams, hbody⟩ := h
    rw [Param.names_looseAll] at hnodup
    rw [Param.length_looseAll] at hparams hbody
    refine ⟨?_, ?_, ?_⟩
    · have hsame := congrArg (List.filterMap id) hnames
      simp only [List.filterMap_map, Function.id_comp] at hsame
      rw [Param.names_looseAll, hsame]
      exact hnodup
    · rw [Param.length_looseAll, hlength]
      exact Param.allProper_resolveAll params hparams
    · rw [Param.length_looseAll, hlength]
      exact body.proper_resolve hbody

theorem Clause.allProper_resolveAll {scopes : Scopes} : (cs : List Clause) →
    Loose.Clause.AllProper known (Clause.looseAll cs) →
    Loose.Clause.AllProper (fun _ => True)
      (Clause.looseAll (Clause.resolveAll isGlobal scopes cs))
  | [], _ => trivial
  | c :: cs, h => ⟨c.proper_resolve h.1, Clause.allProper_resolveAll cs h.2⟩

end

end

/-! ## Parsing -/

/-- Wherever a lexer has come to, it stands on a token that can be written. A malformed one leaves
it on the token before. -/
theorem Lexer.ComesTo.genuine {first last : Lexer} (h : first.ComesTo last)
    (hfirst : first.current.kind.Genuine) : last.current.kind.Genuine := by
  refine h.keeps (P := fun lexer => lexer.current.kind.Genuine) (fun a b hab _ => ?_)
    (fun a e b hab ha => ?_) hfirst
  · rw [Lexer.advance] at hab
    split at hab
    · next hscan =>
      cases hab
      exact scan_genuine hscan
    · cases hab
  · rw [Lexer.advance] at hab
    split at hab
    · cases hab
    · cases hab
      exact ha

namespace Parse

variable {α : Type} {P : α → Prop} {x : Parse α}

/-- From this lexer on, which is one of the source that starts at `start`, the parser comes to a
lexer of that source, with a complaint or in a value with this property. -/
def Builds (start : Lexer) (P : α → Prop) (x : Parse α) (lexer : Lexer) : Prop :=
  match x lexer with
  | .ok a stop => start.ComesTo stop ∧ P a
  | .fail _ stop => start.ComesTo stop
  | .exhausted => False

theorem builds_of {start lexer : Lexer} (hstart : start.current.kind.Genuine)
    (hlexer : start.ComesTo lexer) (hfinds : x.Finds P) (hwithin : Within x x)
    (hends : x lexer ≠ .exhausted) : Builds start P x lexer := by
  have hforward := hwithin lexer
  unfold Builds
  split
  · next a stop hrun =>
    rw [hrun] at hforward
    exact ⟨hlexer.trans hforward.1, (hfinds lexer a stop (hlexer.genuine hstart) hrun).2⟩
  · next e stop hrun =>
    rw [hrun] at hforward
    exact hlexer.trans hforward.1
  · next hrun => exact hends hrun

/-- What holds of what the one parser builds holds of what the other makes of it. -/
theorem Builds.recast {β : Type} {f : α → β} {Q : β → Prop} {y : Parse β} {start lexer : Lexer}
    (h : Builds start P x lexer) (hxy : Recasts f x y) (hpq : ∀ a, P a → Q (f a)) :
    Builds start Q y lexer := by
  unfold Builds at h ⊢
  rw [hxy, map_eq_pure_bind]
  cases hx : x lexer with
  | ok a stop =>
    rw [hx] at h
    rw [Run.bind_ok hx]
    exact ⟨h.1, hpq a h.2⟩
  | fail e stop =>
    rw [hx] at h
    rw [Run.bind_fail hx]
    exact h
  | exhausted =>
    rw [hx] at h
    exact h.elim

end Parse

/-- Proper as it was read, and proper after resolving, in whatever program and scopes. -/
def Expr.ProperThroughout (e : Expr) : Prop :=
  e.loose.Proper (· = .unresolved) 0 ∧
    ∀ isGlobal scopes, (e.resolve isGlobal scopes).loose.Proper (fun _ => True) 0

/-- Proper as it was read, and proper after resolving, in whatever program and scopes. -/
def Clause.ProperThroughout (c : Clause) : Prop :=
  c.loose.Proper (· = .unresolved) ∧
    ∀ isGlobal scopes, (c.resolve isGlobal scopes).loose.Proper fun _ => True

theorem Expr.Written.proper {e : Expr} (h : e.Written) : e.ProperThroughout := by
  obtain ⟨p, rfl⟩ := h
  have hproper := p.proper_expr 0
  exact ⟨hproper, fun _ _ => p.expr.proper_resolve hproper⟩

theorem Clause.Written.proper {c : Clause} (h : c.Written) : c.ProperThroughout := by
  obtain ⟨q, rfl⟩ := h
  have hproper := q.proper_clause
  exact ⟨hproper, fun _ _ => q.clause.proper_resolve hproper⟩

/-- All that a statement declares has a name and a proper clause. -/
def Statement.Proper : Statement → Prop
  | .declarations group => ∀ d ∈ group, IsName d.name ∧ d.clause.ProperThroughout
  | .use _ _ => True

/-- All that a statement declares has a name and a proper clause. -/
def Loose.Statement.Proper : Loose.Statement → Prop
  | .declarations group => ∀ d ∈ group, IsName d.name ∧ d.clause.Proper (· = .unresolved)
  | .use _ _ => True

theorem Statement.Proper.loose {s : Statement} (h : s.Proper) : s.loose.Proper := by
  cases s with
  | declarations group =>
    intro l hl
    obtain ⟨d, hd, rfl⟩ := List.mem_map.mp hl
    exact ⟨(h d hd).1, (h d hd).2.1⟩
  | use path position => trivial

namespace Parse

variable {start lexer : Lexer}

theorem expression_builds (hstart : start.current.kind.Genuine) (hlexer : start.ComesTo lexer) :
    Builds start Expr.ProperThroughout expression lexer :=
  builds_of hstart hlexer (expression_finds.mono fun _ he => he.proper) expression_within
    (expression_halts lexer).ne_exhausted

theorem wholeExpression_builds (hstart : start.current.kind.Genuine)
    (hlexer : start.ComesTo lexer) :
    Builds start Expr.ProperThroughout wholeExpression lexer :=
  builds_of hstart hlexer (wholeExpression_finds.mono fun _ he => he.proper)
    wholeExpression_within (wholeExpression_halts lexer).ne_exhausted

theorem statement_builds (isNative : String → Bool) (hstart : start.current.kind.Genuine)
    (hlexer : start.ComesTo lexer) :
    Builds start (fun found => ∀ s ∈ found, s.Proper) (statement isNative) lexer := by
  refine builds_of hstart hlexer ((statement_finds isNative).mono fun found hfound s hs => ?_)
    (statement_within isNative) (statement_ne_exhausted isNative lexer)
  cases s with
  | declarations group =>
    intro d hd
    obtain ⟨⟨n, hname⟩, hclause⟩ := hfound group hs d hd
    exact ⟨hname ▸ n.isName, hclause.proper⟩
  | use path position => trivial

/-- Parsing builds only proper trees. Let `start` be where the lexer of a source starts, and `lexer`
where going on leads it to, past tokens and past faults. Reading an expression, a whole expression
or a statement from there ends at such a lexer again, also with a complaint, and every tree that is
read is proper: read as a loose tree, in which nothing else makes keys and values agree or gives a
target the name that its mark asks for, and read as an expression, before and after resolving. Both
are one reading. As targets are proper, taking a list apart never lacks the name it leaves out. -/
theorem parsing_builds_proper_trees {source : String} {file : Option String}
    (hstart : Lexer.ofSource source file = .ok start) (hlexer : start.ComesTo lexer) :
    Builds start (Loose.Expr.Proper (· = .unresolved) 0) Loose.expression lexer ∧
    Builds start (Loose.Expr.Proper (· = .unresolved) 0) Loose.wholeExpression lexer ∧
    (∀ isNative : String → Bool,
      Builds start (fun found => ∀ s ∈ found, s.Proper) (Loose.statement isNative) lexer) ∧
    Loose.expression = Expr.loose <$> expression ∧
    Loose.wholeExpression = Expr.loose <$> wholeExpression ∧
    (∀ isNative : String → Bool,
      Loose.statement isNative = Option.map Statement.loose <$> statement isNative) ∧
    Builds start Expr.ProperThroughout expression lexer ∧
    Builds start Expr.ProperThroughout wholeExpression lexer ∧
    (∀ isNative : String → Bool,
      Builds start (fun found => ∀ s ∈ found, s.Proper) (statement isNative) lexer) ∧
    (∀ t : Loose.Target, t.Proper → ∀ v id, (t.values? v id).isSome = true) ∧
    ∀ (t : Target) v id, t.loose.values? v id = some (t.values v id) := by
  have hgenuine := Lexer.ofSource_genuine hstart
  have hexpression := expression_builds hgenuine hlexer
  have hwhole := wholeExpression_builds hgenuine hlexer
  have hstatement (isNative : String → Bool) := statement_builds isNative hgenuine hlexer
  refine ⟨hexpression.recast Loose.expression_recasts fun e he => he.1,
    hwhole.recast Loose.wholeExpression_recasts fun e he => he.1, fun isNative => ?_,
    Loose.expression_recasts, Loose.wholeExpression_recasts, Loose.statement_recasts,
    hexpression, hwhole, hstatement, fun t ht => ht.isSome_values?, Target.values?_loose⟩
  refine (hstatement isNative).recast (Loose.statement_recasts isNative) fun found hfound l hl => ?_
  obtain ⟨s, hs, rfl⟩ := Option.map_eq_some_iff.mp hl
  exact (hfound s hs).loose

/-- How many parameters the clauses of a statement have. -/
def arities : Statement → List Nat
  | .declarations group => group.map (·.clause.params.length)
  | .use .. => []

/-- After a declaration that breaks off, one with patterns, a rest, a map literal and lambdas of all
three kinds inside of one another. -/
theorem parsing_builds_proper_trees_afterFault :
    let source := "let f(x, y let g(x, [1], y > 1) = " ++
      "with ([a, r..] = x) = map(@(`+) = `-, r) -> @\x7blet (2) = \x7bk: &+ a, k: y\x7d\x7d"
    ∃ start mid e group stop, Lexer.ofSource source none = .ok start ∧
      statement (fun _ => false) start = .fail e mid ∧
      statement (fun _ => false) mid = .ok (some (.declarations group)) stop ∧
      Loose.statement (fun _ => false) mid =
        .ok (some (.declarations (group.map Declaration.loose))) stop ∧
      start.ComesTo stop ∧ group.map (·.clause.params.length) = [3] ∧
      ∀ d ∈ group, d.clause.ProperThroughout := by
  intro source
  have hreads : ((Lexer.ofSource source none).toOption.any fun start =>
      (statement (fun _ => false) start).error?.isSome &&
      (statement (fun _ => false) start).state?.any fun mid =>
        (statement (fun _ => false) mid).passes fun found _ =>
          found.any fun s => arities s == [3]) = true := by decide +kernel
  cases hstart : Lexer.ofSource source none with
  | error e =>
    rw [hstart] at hreads
    cases hreads
  | ok start =>
    rw [hstart, Except.toOption, Option.any_some, Bool.and_eq_true] at hreads
    obtain ⟨hfails, hgoes⟩ := hreads
    cases hfault : statement (fun _ => false) start with
    | ok | exhausted =>
      rw [hfault] at hfails
      cases hfails
    | fail e mid =>
      rw [hfault, Outcome.state?, Option.any_some] at hgoes
      obtain ⟨found, stop, hread, hfound⟩ := Outcome.exists_of_passes hgoes
      obtain ⟨s, rfl, harities⟩ := (Option.any_eq_true _ _).mp hfound
      have hmid := statement_within (fun _ => false) start
      rw [hfault] at hmid
      obtain ⟨-, -, -, -, -, hsame, -, -, hbuilds, -⟩ := parsing_builds_proper_trees hstart hmid.1
      have hstatement := hbuilds fun _ => false
      rw [Builds, hread] at hstatement
      obtain ⟨hstop, hproper⟩ := hstatement
      cases s with
      | declarations group =>
        have hgroup := hproper _ rfl
        have hloose : Loose.statement (fun _ => false) mid =
            .ok (some (.declarations (group.map Declaration.loose))) stop := by
          rw [hsame, map_eq_pure_bind, Run.bind_ok hread]
          rfl
        exact ⟨start, mid, e, group, stop, rfl, hfault, hread, hloose, hstop,
          beq_iff_eq.mp harities, fun d hd => (hgroup d hd).2⟩
      | use path position => cases harities

end Parse

end Clausal
