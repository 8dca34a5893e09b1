import Clausal.Proofs.Parsed
import Clausal.Proofs.Table
import Clausal.Session

/-!
# Registering functions while they are read

A group of declarations is first read as a whole and then takes effect. Here is the other way to do
it, in which a statement is read into the table itself: a name gets its function as soon as it has
been read, a group that turns out to be faulty cuts the table back to the length it had, and the
clauses are added at the end, each to the function its declaration found (`Registering.statement`).

Both are the same (`Registering.statement_eq`). In particular cutting back restores the table, and
no clause is ever refused by a built-in function. So loading a text may be understood as reading
its statements into the table of the session (`Session.statements_registering`).
-/

namespace Clausal

/-! ## The names that a group declares -/

namespace Parse

open Run (Yields)

variable (isNative : String → Bool)

theorem declaration_name : (declaration isNative).Yields fun d => isNative d.name = false := by
  rw [declaration]
  refine .after fun _ => .after fun start => .after fun s => ?_
  split
  · exact .bind (P := fun _ => False) (.fail _) fun _ h => h.elim
  · next hnative => exact .after fun c => .ret (by simpa using hnative)

theorem declarations_names (steps : Nat) :
    (declarations isNative steps).Yields fun group => ∀ d ∈ group, isNative d.name = false := by
  induction steps with
  | zero => exact .exhaust
  | succ steps ih =>
    rw [declarations]
    refine .after fun more => ?_
    split
    · refine (declaration_name isNative).bind fun first hfirst => ih.bind fun rest hrest => ?_
      exact .ret (List.forall_mem_cons.mpr ⟨hfirst, hrest⟩)
    · exact .ret (List.forall_mem_nil _)

/-- No group that is read declares a built-in function. -/
theorem statement_names : (statement isNative).Yields fun found =>
    ∀ group, found = some (.declarations group) → ∀ d ∈ group, isNative d.name = false := by
  rw [statement]
  refine .after fun kind => ?_
  split
  · refine .ret ?_
    rintro group ⟨⟩
  · refine useStatement_yields.bind fun s hs => .ret fun group h => ?_
    exact absurd (Option.some.inj h) (hs group)
  · refine .after fun steps => (declarations_names isNative steps).bind fun group hgroup => ?_
    refine .ret fun group' h => ?_
    cases h
    exact hgroup
  · exact unexpected_yields _

end Parse

/-! ## Reading into the table -/

/-- A text being read and the table it is read into. -/
structure Reader where
  lexer : Lexer
  env : Environment

/-- A step of reading into the table. -/
abbrev Registering := Run Error Reader

namespace Registering

variable {α β γ : Type}

/-- What a statement did: declared so many clauses, or named a file. -/
inductive Found where
  | declarations (count : Nat)
  | use (path : String) (position : Position)

/-- What is found of a statement that has been read. -/
def Found.ofStatement : Statement → Found
  | .declarations group => .declarations group.length
  | .use path position => .use path position

/-- A parser that leaves the table alone. -/
def lift (x : Parse α) : Registering α := fun r =>
  match x r.lexer with
  | .ok a stop => .ok a { r with lexer := stop }
  | .fail e stop => .fail e { r with lexer := stop }
  | .exhausted => .exhausted

/-- The slot of the declared function of this name, which is made if there is none. -/
def findOrCreate (position : Position) (name : String) : Registering Nat := fun r =>
  match r.env.find? name with
  | some f =>
    if f.isNative then .fail (.found position (.nativeDeclared name)) r
    else .ok (r.env.slotOf name) r
  | none =>
    .ok r.env.definitions.length { r with env := ⟨r.env.definitions ++ [.declared name []]⟩ }

/-- `let name(parameters) = body`, as the slot of the function and the clause. -/
def declaration : Registering (Nat × Clause) := do
  lift (Parse.expectWord .letWord)
  let start ← lift Parse.position
  let s ← lift Parse.name
  let slot ← findOrCreate start s
  let c ← lift Parse.wholeClause
  return (slot, c)

/-- Declarations as long as there are any. -/
def declarations : Nat → Registering (List (Nat × Clause))
  | 0 => Run.exhaust
  | steps + 1 => do
    if ← lift (Parse.seesWord .letWord) then
      let first ← declaration
      let rest ← declarations steps
      return first :: rest
    return []

/-- Add a clause to the function in a slot, which must be a declared one. -/
def addOverload (slot : Nat) (c : Clause) : Registering Unit := fun r =>
  match r.env.definitions[slot]? with
  | some (.declared ..) => .ok () { r with env := ⟨r.env.definitions.modify slot (.append [c])⟩ }
  | other => .fail { cause := .nativeExtended ((other.map (·.name)).getD "") } r

/-- Add clauses, one after the other. -/
def addOverloads : List (Nat × Clause) → Registering Unit
  | [] => pure ()
  | (slot, c) :: rest => do
    addOverload slot c
    addOverloads rest

/-- A group of declarations, and the number of its clauses. Functions first named by a group that
fails are forgotten. -/
def group : Registering Nat := fun r =>
  let mark := r.env.definitions.length
  match declarations (Parse.stepsFor r.lexer) r with
  | .ok found stop =>
    (do
      addOverloads (found.map fun (slot, c) => (slot, c.resolve stop.env.contains []))
      return found.length : Registering Nat) stop
  | .fail e stop => .fail e { stop with env := stop.env.truncate mark }
  | .exhausted => .exhausted

/-- The next statement, or nothing at the end of the source. -/
def statement : Registering (Option Found) := do
  match ← lift Parse.kind with
  | .eof => return none
  | .keyword .useWord => return some (.ofStatement (← lift Parse.useStatement))
  | .keyword .letWord => return some (.declarations (← group))
  | _ => lift (Parse.unexpected .statement)

/-! ## Both ways side by side -/

/-- A reading into the table `env` ends as a parser does, and where. Values are related by `R`,
which also says what has become of the table; if both fail, the table has only got longer. -/
def EndsAs (env : Environment) (R : α → β → Environment → Prop) (y : Outcome Error Reader β) :
    Outcome Error Lexer α → Prop
  | .ok a stop => ∃ b env', y = .ok b ⟨stop, env'⟩ ∧ R a b env'
  | .fail e stop => ∃ env', y = .fail e ⟨stop, env'⟩ ∧ env.definitions <+: env'.definitions
  | .exhausted => y = .exhausted

/-- The same as seen from an earlier table. -/
theorem EndsAs.earlier {env env' : Environment} {R : α → β → Environment → Prop}
    {y : Outcome Error Reader β} {x : Outcome Error Lexer α} (h : EndsAs env' R y x)
    (hlonger : env.definitions <+: env'.definitions) : EndsAs env R y x := by
  cases x with
  | ok a stop => exact h
  | fail e stop =>
    obtain ⟨env'', hfail, hlonger'⟩ := h
    exact ⟨env'', hfail, hlonger.trans hlonger'⟩
  | exhausted => exact h

/-- Reading into the table `env` follows a parser, wherever both start. -/
def Follows (env : Environment) (x : Parse α) (y : Registering β)
    (R : α → β → Environment → Prop) : Prop :=
  ∀ lexer, EndsAs env R (y ⟨lexer, env⟩) (x lexer)

namespace Follows

variable {env : Environment} {x : Parse α} {y : Registering β}
  {R : α → β → Environment → Prop}

theorem ret {a : α} {b : β} (h : R a b env) : Follows env (pure a) (pure b) R :=
  fun _ => ⟨b, env, rfl, h⟩

theorem exhaust : Follows env (Run.exhaust : Parse α) (Run.exhaust : Registering β) R :=
  fun _ => rfl

theorem lift (x : Parse γ) {f : γ → Parse α} {g : γ → Registering β}
    (h : ∀ c, Follows env (f c) (g c) R) : Follows env (x >>= f) (lift x >>= g) R := by
  intro lexer
  cases hx : x lexer with
  | ok c stop =>
    have hlift : Registering.lift x ⟨lexer, env⟩ = .ok c ⟨stop, env⟩ := by
      simp only [Registering.lift, hx]
    rw [Run.bind_ok hx, Run.bind_ok hlift]
    exact h c stop
  | fail e stop =>
    have hlift : Registering.lift x ⟨lexer, env⟩ = .fail e ⟨stop, env⟩ := by
      simp only [Registering.lift, hx]
    rw [Run.bind_fail hx, Run.bind_fail hlift]
    exact ⟨env, rfl, List.prefix_refl _⟩
  | exhausted =>
    have hlift : Registering.lift x ⟨lexer, env⟩ = .exhausted := by
      simp only [Registering.lift, hx]
    rw [Run.bind_exhausted hx, Run.bind_exhausted hlift]
    rfl

theorem bind {f : α → Parse γ} {δ : Type} {g : β → Registering δ}
    {S : γ → δ → Environment → Prop} (hx : Follows env x y R)
    (hf : ∀ a b env', R a b env' →
      env.definitions <+: env'.definitions ∧ Follows env' (f a) (g b) S) :
    Follows env (x >>= f) (y >>= g) S := by
  intro lexer
  have hlexer := hx lexer
  cases hs : x lexer with
  | ok a stop =>
    rw [hs] at hlexer
    obtain ⟨b, env', hb, hR⟩ := hlexer
    obtain ⟨hlonger, hfollows⟩ := hf a b env' hR
    rw [Run.bind_ok hs, Run.bind_ok hb]
    exact (hfollows stop).earlier hlonger
  | fail e stop =>
    rw [hs] at hlexer
    obtain ⟨env', hb, hlonger⟩ := hlexer
    rw [Run.bind_fail hs, Run.bind_fail hb]
    exact ⟨env', rfl, hlonger⟩
  | exhausted =>
    rw [hs] at hlexer
    rw [Run.bind_exhausted hs, Run.bind_exhausted hlexer]
    rfl

/-- A step that only changes the table, which the parser does not take. -/
theorem step {env' : Environment} {z : Registering γ} {c : γ} {g : γ → Registering β}
    (hz : ∀ lexer, z ⟨lexer, env⟩ = .ok c ⟨lexer, env'⟩)
    (hlonger : env.definitions <+: env'.definitions) (hg : Follows env' x (g c) R) :
    Follows env x (z >>= g) R := by
  intro lexer
  rw [Run.bind_ok (hz lexer)]
  exact (hg lexer).earlier hlonger

end Follows

open Environment

variable (env : Environment)

theorem prefix_declare (name : String) : env.definitions <+: (env.declare name).definitions := by
  cases h : env.contains name with
  | true => simp only [declare_of_contains h, List.prefix_refl]
  | false => simp only [declare_of_not_contains h, List.prefix_append]

theorem findOrCreate_eq (position : Position) (name : String) (lexer : Lexer) :
    findOrCreate position name ⟨lexer, env⟩ =
      if env.isNative name then .fail (.found position (.nativeDeclared name)) ⟨lexer, env⟩
      else .ok ((env.declare name).slotOf name) ⟨lexer, env.declare name⟩ := by
  rw [findOrCreate, Environment.isNative]
  cases h : env.find? name with
  | some f =>
    have hname : env.contains name = true := by rw [contains, h]; rfl
    simp only [declare_of_contains hname, Option.any_some]
  | none =>
    have hname : env.contains name = false := by rw [contains, h]; rfl
    rw [slotOf_declare hname, declare, hname]
    rfl

theorem declaration_follows :
    Follows env (Parse.declaration env.isNative) declaration fun d found env' =>
      env' = env.declare d.name ∧ found = (env'.slotOf d.name, d.clause) := by
  refine .lift _ fun _ => .lift _ fun start => .lift _ fun s => ?_
  cases hnative : env.isNative s with
  | true =>
    intro lexer
    refine ⟨env, ?_, List.prefix_refl _⟩
    have hfail := findOrCreate_eq env start s lexer
    rw [hnative] at hfail
    exact Run.bind_fail hfail
  | false =>
    have hfound (lexer : Lexer) : findOrCreate start s ⟨lexer, env⟩ =
        .ok ((env.declare s).slotOf s) ⟨lexer, env.declare s⟩ := by
      rw [findOrCreate_eq, hnative]
      rfl
    exact .step hfound (prefix_declare env s)
      (.lift Parse.wholeClause fun c => .ret ⟨rfl, rfl⟩)

theorem prefix_declareAll (group : List Declaration) :
    env.definitions <+: (env.declareAll group).definitions := by
  obtain ⟨fresh, -, -, htable⟩ := env.exists_declareAll group
  exact ⟨_, htable.symm⟩

theorem declarations_follow (steps : Nat) :
    Follows env (Parse.declarations env.isNative steps) (declarations steps)
      fun group found env' => env' = env.declareAll group ∧
        found = group.map fun d => (env'.slotOf d.name, d.clause) := by
  induction steps generalizing env with
  | zero => exact .exhaust
  | succ steps ih =>
    rw [Parse.declarations, declarations]
    refine .lift _ fun more => ?_
    split
    · refine (declaration_follows env).bind fun d found env' h => ?_
      obtain ⟨rfl, rfl⟩ := h
      refine ⟨prefix_declare env d.name, ?_⟩
      have hrest := ih (env.declare d.name)
      rw [isNative_declare] at hrest
      refine hrest.bind fun group rest env' h => ?_
      obtain ⟨rfl, rfl⟩ := h
      refine ⟨prefix_declareAll _ group, .ret ⟨rfl, ?_⟩⟩
      -- the slot of the first name is the same once the other names are known
      obtain ⟨fresh, -, -, htable⟩ := (env.declare d.name).exists_declareAll group
      have hname : (env.declare d.name).contains d.name = true :=
        contains_iff_mem.mpr (mem_names_declare.mpr (.inr rfl))
      rw [List.map_cons, slotOf_append htable hname]
    · exact .ret ⟨rfl, rfl⟩

theorem addOverload_eq {env : Environment} {name : String} (c : Clause)
    (hname : env.contains name = true) (hnative : env.isNative name = false) (lexer : Lexer) :
    addOverload (env.slotOf name) c ⟨lexer, env⟩ = .ok () ⟨lexer, env.addClause name c⟩ := by
  obtain ⟨cs, hcs⟩ := exists_declared hname hnative
  simp only [addOverload, hcs, ← addClause_definitions]

theorem addOverloads_eq {group : List Declaration} (clause : Declaration → Clause)
    {env : Environment}
    (hgroup : ∀ d ∈ group, env.contains d.name = true ∧ env.isNative d.name = false)
    (lexer : Lexer) :
    addOverloads (group.map fun d => (env.slotOf d.name, clause d)) ⟨lexer, env⟩ =
      .ok () ⟨lexer, group.foldl (fun env d => env.addClause d.name (clause d)) env⟩ := by
  induction group generalizing env with
  | nil => rfl
  | cons e group ih =>
    obtain ⟨he, hgroup⟩ := List.forall_mem_cons.mp hgroup
    have hnames := names_addClause env e.name (clause e)
    have hgroup' : ∀ d ∈ group, (env.addClause e.name (clause e)).contains d.name = true ∧
        (env.addClause e.name (clause e)).isNative d.name = false := by
      rwa [isNative_addClause, contains_congr hnames]
    have ih := ih hgroup'
    rw [slotOf_congr hnames] at ih
    rw [List.map_cons, addOverloads, Run.bind_ok (addOverload_eq _ he.1 he.2 lexer), ih]
    rfl

/-- A group leaves the table as it takes effect, or as it was. -/
theorem group_eq (lexer : Lexer) :
    group ⟨lexer, env⟩ = match Parse.declarations env.isNative (Parse.stepsFor lexer) lexer with
      | .ok found stop => .ok found.length ⟨stop, env.commit found⟩
      | .fail e stop => .fail e ⟨stop, env⟩
      | .exhausted => .exhausted := by
  have hfollows := declarations_follow env (Parse.stepsFor lexer) lexer
  have hnames := Parse.declarations_names env.isNative (Parse.stepsFor lexer) lexer
  unfold group
  cases hs : Parse.declarations env.isNative (Parse.stepsFor lexer) lexer with
  | ok found stop =>
    rw [hs] at hfollows
    obtain ⟨read, env', hread, rfl, rfl⟩ := hfollows
    have hknown : ∀ d ∈ found, (env.declareAll found).contains d.name = true ∧
        (env.declareAll found).isNative d.name = false := fun d hd =>
      ⟨contains_declareAll hd, by rw [isNative_declareAll]; exact hnames found stop hs d hd⟩
    have hadd := addOverloads_eq (fun d => d.clause.resolve (env.declareAll found).contains [])
      hknown stop
    simp only [hread, List.map_map]
    refine (Run.bind_ok hadd).trans ?_
    rw [List.length_map]
    rfl
  | fail e stop =>
    rw [hs] at hfollows
    obtain ⟨env', hread, hlonger⟩ := hfollows
    have hrestore : env'.truncate env.definitions.length = env :=
      congrArg Environment.mk (List.prefix_iff_eq_take.mp hlonger).symm
    simp only [hread, hrestore]
  | exhausted =>
    rw [hs] at hfollows
    have hread : declarations (Parse.stepsFor lexer) ⟨lexer, env⟩ = .exhausted := hfollows
    simp only [hread]

/-- Let a statement that has been read take effect on a table. -/
def settle (env : Environment) :
    Outcome Error Lexer (Option Statement) → Outcome Error Reader (Option Found)
  | .ok none stop => .ok none ⟨stop, env⟩
  | .ok (some (.declarations group)) stop =>
    .ok (some (.declarations group.length)) ⟨stop, env.commit group⟩
  | .ok (some (.use path position)) stop => .ok (some (.use path position)) ⟨stop, env⟩
  | .fail e stop => .fail e ⟨stop, env⟩
  | .exhausted => .exhausted

theorem useStatement_eq (lexer : Lexer) :
    (do return some (Found.ofStatement (← lift Parse.useStatement)) : Registering (Option Found))
        ⟨lexer, env⟩ =
      settle env ((do return some (← Parse.useStatement) : Parse (Option Statement)) lexer) := by
  cases hs : Parse.useStatement lexer with
  | ok found stop =>
    have hlift : lift Parse.useStatement ⟨lexer, env⟩ = .ok found ⟨stop, env⟩ := by
      simp only [lift, hs]
    rw [Run.bind_ok hs, Run.bind_ok hlift]
    cases found with
    | declarations group => exact absurd rfl (Parse.useStatement_yields lexer _ stop hs group)
    | use path position => rfl
  | fail e stop =>
    have hlift : lift Parse.useStatement ⟨lexer, env⟩ = .fail e ⟨stop, env⟩ := by
      simp only [lift, hs]
    rw [Run.bind_fail hs, Run.bind_fail hlift]
    rfl
  | exhausted =>
    have hlift : lift Parse.useStatement ⟨lexer, env⟩ = .exhausted := by
      simp only [lift, hs]
    rw [Run.bind_exhausted hs, Run.bind_exhausted hlift]
    rfl

theorem groupStatement_eq (lexer : Lexer) :
    (do return some (Found.declarations (← group)) : Registering (Option Found)) ⟨lexer, env⟩ =
      settle env ((do
        let group ← Parse.declarations env.isNative (Parse.stepsFor lexer)
        return some (.declarations group) : Parse (Option Statement)) lexer) := by
  have hgroup := group_eq env lexer
  cases hs : Parse.declarations env.isNative (Parse.stepsFor lexer) lexer with
  | ok found stop =>
    rw [hs] at hgroup
    rw [Run.bind_ok hs, Run.bind_ok hgroup]
    rfl
  | fail e stop =>
    rw [hs] at hgroup
    rw [Run.bind_fail hs, Run.bind_fail hgroup]
    rfl
  | exhausted =>
    rw [hs] at hgroup
    rw [Run.bind_exhausted hs, Run.bind_exhausted hgroup]
    rfl

/-- Reading a statement into the table is reading it and letting it take effect. -/
theorem statement_eq (lexer : Lexer) :
    statement ⟨lexer, env⟩ = settle env (Parse.statement env.isNative lexer) := by
  have hkind : lift Parse.kind ⟨lexer, env⟩ = .ok lexer.current.kind ⟨lexer, env⟩ := rfl
  have hkind' : Parse.kind lexer = .ok lexer.current.kind lexer := rfl
  rw [statement, Run.bind_ok hkind, Parse.statement, Run.bind_ok hkind']
  cases lexer.current.kind with
  | keyword w =>
    cases w with
    | useWord => exact useStatement_eq env lexer
    | letWord => exact groupStatement_eq env lexer
    | _ => rfl
  | _ => rfl

end Registering

/-- Loading reads the statements of a text into the table of the session. -/
theorem Session.statements_registering (load : String → Step Unit) (base : String) (steps : Nat)
    (lexer : Lexer) (s : Session) :
    statements load base (steps + 1) lexer s =
      match Registering.statement ⟨lexer, s.env⟩ with
      | .ok none stop => .ok () { s with env := stop.env }
      | .ok (some (.declarations _)) stop =>
        statements load base steps stop.lexer { s with env := stop.env }
      | .ok (some (.use path position)) stop =>
        match load (Path.join base path) { s with env := stop.env } with
        | .ok _ s => statements load base steps stop.lexer s
        | .fail e s => .fail (e.locate position) s
        | .exhausted => .exhausted
      | .fail e stop => .fail e { s with env := stop.env }
      | .exhausted => .exhausted := by
  rw [Registering.statement_eq, statements]
  cases Parse.statement s.env.isNative lexer with
  | ok found stop =>
    cases found with
    | none => rfl
    | some found => cases found <;> rfl
  | fail e stop => rfl
  | exhausted => rfl

/-- A statement is all or nothing. Reading it into the table ends as reading alone does. If it
fails, it never fails at adding a clause, and the table is what it was. If it declares clauses, the
table has grown by exactly these. At the end of the source and for a `use` it is what it was. -/
theorem Registering.statement_all_or_nothing (env : Environment) (lexer : Lexer) :
    match statement ⟨lexer, env⟩ with
    | .fail e stop => stop.env = env ∧ Parse.statement env.isNative lexer = .fail e stop.lexer
    | .ok (some (.declarations count)) stop => ∃ group,
        Parse.statement env.isNative lexer = .ok (some (.declarations group)) stop.lexer ∧
        group.length = count ∧ stop.env = env.commit group ∧ env.Grows group stop.env
    | .ok none stop =>
      stop.env = env ∧ Parse.statement env.isNative lexer = .ok none stop.lexer
    | .ok (some (.use path position)) stop => stop.env = env ∧
        Parse.statement env.isNative lexer = .ok (some (.use path position)) stop.lexer
    | .exhausted => Parse.statement env.isNative lexer = .exhausted := by
  rw [statement_eq]
  cases hs : Parse.statement env.isNative lexer with
  | ok found stop =>
    cases found with
    | none => exact ⟨rfl, rfl⟩
    | some found =>
      cases found with
      | declarations group =>
        have hnames := Parse.statement_names env.isNative lexer _ stop hs group rfl
        exact ⟨group, rfl, rfl, rfl, Environment.grows_commit hnames⟩
      | use path position => exact ⟨rfl, rfl⟩
  | fail e stop => exact ⟨rfl, rfl⟩
  | exhausted => rfl

end Clausal
