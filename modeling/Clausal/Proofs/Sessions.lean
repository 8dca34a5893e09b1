import Clausal.Proofs.Parsed
import Clausal.Proofs.Simulation
import Clausal.Session

/-!
# Sessions by name

A session holds resolved trees only. Beside it stands a labelled program and a labelled store that
went through the same: the groups of declarations as they were read, and the stores that the
evaluation by name left behind (`Labelled.Reachable`). Whatever is done to a session, there is
always such a pair whose resolved form is what the session holds (`Session.Reachable.represented`).

* `Labelled.Program.resolve_commit`: a group takes effect alike on both sides.
* `Labelled.Reachable.inScope`: the clauses of a labelled program and all lambdas stay in scope.
* `Session.Keeps`: one lemma for each operation of a session.
-/

namespace Clausal

/-! ## Groups of declarations -/

namespace Labelled.Program

theorem resolve_declare (p : Program) (name : String) :
    (p.declare name).resolve = p.resolve.declare name := by
  rw [declare, Environment.declare, contains_resolve]
  split
  · rfl
  · simp only [resolve, List.map_append]
    rfl

theorem resolve_addRule (p : Program) (name : String) (r : Rule) :
    (p.addRule name r).resolve = p.resolve.addClause name r.resolve := by
  have hin (ds : List Definition) :
      (addRuleIn name r ds).map Definition.resolve =
        Environment.addClauseIn name r.resolve (ds.map Definition.resolve) := by
    induction ds with
    | nil => rfl
    | cons d ds ih =>
      have hname : d.resolve.name = d.name := by cases d <;> rfl
      rw [addRuleIn.eq_def, List.map_cons, Environment.addClauseIn.eq_def]
      simp only [hname]
      split
      · cases d with
        | native fn => rfl
        | declared n rs =>
          simp only [List.map_cons, Definition.resolve, List.map_append, List.map_nil]
      · rw [List.map_cons, ih]
  exact congrArg Environment.mk (hin p.definitions)

theorem resolve_commit (p : Program) (group : List Declaration) :
    (p.commit group).resolve = p.resolve.commit group := by
  have hdeclare : group.foldl (fun env d => env.declare d.name) p.resolve =
      (group.foldl (fun p d => p.declare d.name) p).resolve :=
    List.foldl_hom resolve fun p d => (p.resolve_declare d.name).symm
  simp only [commit, Environment.commit]
  rw [hdeclare, contains_resolve]
  exact (List.foldl_hom resolve fun p d => (p.resolve_addRule d.name ⟨d.clause, _, _⟩).symm).symm

/-! ## Scopes -/

theorem Scoped.declare {p : Program} (h : p.Scoped) (name : String) : (p.declare name).Scoped := by
  rw [Program.declare]
  split
  · exact h
  · intro d hd r hr
    rcases List.mem_append.mp hd with hd | hd
    · exact h d hd r hr
    · cases List.mem_singleton.mp hd
      cases hr

theorem Scoped.addRule {p : Program} (h : p.Scoped) (name : String) {r : Rule}
    (hr : r.label.scopes = [] ∧ r.clause.Scoped []) : (p.addRule name r).Scoped := by
  obtain ⟨definitions⟩ := p
  have hin : Program.Scoped ⟨addRuleIn name r definitions⟩ := by
    induction definitions with
    | nil => exact h
    | cons d ds ih =>
      have hd : ∀ q ∈ d.rules, q.label.scopes = [] ∧ q.clause.Scoped [] := h d List.mem_cons_self
      have hds : Program.Scoped ⟨ds⟩ := fun d hd => h d (List.mem_cons_of_mem _ hd)
      rw [addRuleIn.eq_def]
      dsimp only
      split
      · cases d with
        | native fn => exact h
        | declared n rs =>
          refine List.forall_mem_cons.mpr ⟨fun q hq => ?_, hds⟩
          rcases List.mem_append.mp hq with hq | hq
          · exact hd q hq
          · cases List.mem_singleton.mp hq
            exact hr
      · exact List.forall_mem_cons.mpr ⟨hd, ih hds⟩
  exact hin

theorem Scoped.commit {p : Program} (h : p.Scoped) {group : List Declaration}
    (hgroup : ∀ d ∈ group, d.clause.Closed) : (p.commit group).Scoped := by
  refine List.foldlRecOn group _ ?_ fun q hq d hd => hq.addRule d.name ⟨rfl, hgroup d hd []⟩
  exact List.foldlRecOn group _ h fun q hq d _ => hq.declare d.name

end Labelled.Program

/-! ## States of the evaluation by name -/

namespace Labelled

/-- The programs and stores that come about when groups of declarations are read and expressions
and calls are evaluated by name. -/
inductive Reachable : Program → Store Capture → Prop
  /-- Nothing but the built-in functions, or not even these. -/
  | bare : Reachable ⟨[]⟩ {}
  | natives : Reachable ⟨Native.all.map .native⟩ {}
  /-- A group of declarations, as it was read, takes effect. -/
  | commit {p S group lexer lexer'} (h : Reachable p S)
      (hread : Parse.statement p.resolve.isNative lexer =
        .ok (some (.declarations group)) lexer') : Reachable (p.commit group) S
  /-- An expression, as it was parsed, is evaluated. -/
  | evaluate {p S T source file e depth} (h : Reachable p S)
      (hparse : Session.parseExpr source file = .ok (some e))
      (hrun : (Checked.evaluateIn p depth e S).state? = some T) : Reachable p T
  /-- A function is called. -/
  | call {p S T f args depth} (h : Reachable p S)
      (hrun : (Checked.invoke p depth f args S).state? = some T) : Reachable p T
  /-- An identity is handed out, as for a list made outside. -/
  | fresh {p S} (h : Reachable p S) : Reachable p S.fresh.2
  /-- The printed text is taken. -/
  | takePrinted {p S} (h : Reachable p S) : Reachable p { S with printed := "" }

end Labelled

/-- An expression that spans a text is read from its first token. -/
theorem Session.exists_of_parseExpr {source : String} {file : Option String} {e : Expr}
    (h : Session.parseExpr source file = .ok (some e)) :
    ∃ lexer stop, Lexer.ofSource source file = .ok lexer ∧
      Parse.wholeExpression lexer = .ok e stop := by
  simp only [Session.parseExpr, Bind.bind, Except.bind] at h
  cases hlexer : Lexer.ofSource source file with
  | error err =>
    rw [hlexer] at h
    cases h
  | ok lexer =>
    simp only [hlexer] at h
    cases hparse : Parse.wholeExpression lexer with
    | ok found stop =>
      simp only [hparse] at h
      cases h
      exact ⟨lexer, stop, rfl, hparse⟩
    | fail err stop =>
      simp only [hparse] at h
      cases h
    | exhausted =>
      simp only [hparse] at h
      cases h

theorem Session.closed_of_parseExpr {source : String} {file : Option String} {e : Expr}
    (h : Session.parseExpr source file = .ok (some e)) : e.Closed := by
  obtain ⟨lexer, stop, -, hparse⟩ := Session.exists_of_parseExpr h
  exact Parse.wholeExpression_yields lexer e stop hparse

theorem Store.resolve_empty : Store.resolve {} = {} := by
  simp only [Store.resolve, Array.map_empty]

theorem Store.allFit_empty : Store.AllFit {} := fun c hc => absurd hc (Array.not_mem_empty c)

theorem Labelled.Reachable.inScope {p : Labelled.Program} {S : Store Capture}
    (h : Labelled.Reachable p S) : p.Scoped ∧ S.AllFit := by
  induction h with
  | bare => exact ⟨(fun d hd => nomatch hd), Store.allFit_empty⟩
  | natives =>
    refine ⟨fun d hd r hr => ?_, Store.allFit_empty⟩
    obtain ⟨fn, -, rfl⟩ := List.mem_map.mp hd
    cases hr
  | commit _ hread ih =>
    have hgroup := Parse.statement_yields _ _ _ _ hread _ rfl
    exact ⟨ih.1.commit hgroup, ih.2⟩
  | @evaluate p S T source file e depth _ hparse hrun ih =>
    have he : e.Closed := Session.closed_of_parseExpr hparse
    exact ⟨ih.1, (Checked.evaluateIn_agrees ih.1 ih.2 (he []) depth).allFit hrun⟩
  | @call p S T f args depth _ hrun ih =>
    exact ⟨ih.1, (Checked.invoke_agrees ih.1 depth f args S ih.2).allFit hrun⟩
  | fresh _ ih => exact ⟨ih.1, ih.2.mono (.of_frames_eq rfl) rfl⟩
  | takePrinted _ ih => exact ⟨ih.1, ih.2.mono (.of_frames_eq rfl) rfl⟩

/-! ## Sessions -/

namespace Session

/-- The sessions that come about by what can be done to one from outside: loading texts and files,
evaluating expressions and calling functions with any arguments. A step that fails counts too. -/
inductive Reachable : Session → Prop
  | bare : Reachable .bare
  | new : Reachable .new
  | loadText {s t fs source} (hs : Reachable s)
      (h : (Session.loadText fs source s).state? = some t) : Reachable t
  | loadFile {s t fs path} (hs : Reachable s)
      (h : (Session.loadFile fs path s).state? = some t) : Reachable t
  | evalText {s t source} (hs : Reachable s)
      (h : (Session.evalText source s).state? = some t) : Reachable t
  | call {s t name args} (hs : Reachable s)
      (h : (Session.call name args s).state? = some t) : Reachable t
  | runMain {s t args} (hs : Reachable s)
      (h : (Session.runMain args s).state? = some t) : Reachable t
  /-- An identity is handed out, as for a list made outside. -/
  | fresh {s} (hs : Reachable s) : Reachable { s with store := s.store.fresh.2 }
  | flush {s} (hs : Reachable s) : Reachable s.flush.2
  | dump {s painter} (hs : Reachable s) : Reachable (s.dump painter).2
  | takePrinted {s} (hs : Reachable s) : Reachable s.takePrinted.2

/-- A labelled program and store that went through the same are, once resolved, what the session
holds. -/
def Represented (s : Session) : Prop :=
  ∃ p S, Labelled.Reachable p S ∧ p.resolve = s.env ∧ S.resolve = s.store

theorem Represented.of_eq {s t : Session} (h : s.Represented) (henv : t.env = s.env)
    (hstore : t.store = s.store) : t.Represented := by
  obtain ⟨p, S, hreach, hp, hS⟩ := h
  exact ⟨p, S, hreach, hp.trans henv.symm, hS.trans hstore.symm⟩

theorem Represented.commit {s : Session} (h : s.Represented) {group : List Declaration}
    {lexer lexer' : Lexer}
    (hread : Parse.statement s.env.isNative lexer = .ok (some (.declarations group)) lexer') :
    Represented { s with env := s.env.commit group } := by
  obtain ⟨p, S, hreach, hp, hS⟩ := h
  rw [← hp] at hread
  exact ⟨p.commit group, S, hreach.commit hread, by rw [p.resolve_commit, hp], hS⟩

/-! ## What each operation keeps -/

section Keeps

variable {α β : Type}

/-- A step goes from represented sessions to represented sessions only. -/
def Keeps (step : Step α) : Prop :=
  ∀ s t, s.Represented → (step s).state? = some t → t.Represented

theorem Keeps.bind {x : Step α} {f : α → Step β} (hx : Keeps x) (hf : ∀ a, Keeps (f a)) :
    Keeps (x >>= f) := by
  intro s u hs h
  cases hstep : x s with
  | ok a t =>
    rw [Run.bind_ok hstep] at h
    exact hf a t u (hx s t hs (by rw [hstep]; rfl)) h
  | fail e t =>
    rw [Run.bind_fail hstep] at h
    exact hx s u hs (by rw [hstep]; exact h)
  | exhausted =>
    rw [Run.bind_exhausted hstep] at h
    cases h

theorem Keeps.ret (a : α) : Keeps (pure a) := by
  intro s t hs h
  cases h
  exact hs

theorem Keeps.fail (e : Error) : Keeps (Run.fail e : Step α) := by
  intro s t hs h
  cases h
  exact hs

theorem Keeps.read (f : Session → α) : Keeps (Run.read f) := by
  intro s t hs h
  cases h
  exact hs

theorem Keeps.recorded {x : Step α} (hx : Keeps x) : Keeps (recorded x) := by
  intro s t hs h
  rw [Session.recorded] at h
  cases hstep : x s with
  | ok a u =>
    rw [hstep] at h
    exact hx s t hs (by rw [hstep]; exact h)
  | fail e u =>
    rw [hstep] at h
    cases h
    exact (hx s u hs (by rw [hstep]; rfl)).of_eq rfl rfl
  | exhausted =>
    rw [hstep] at h
    cases h

theorem statements_keeps {load : String → Step Unit} (hload : ∀ path, Keeps (load path))
    (base : String) (steps : Nat) (lexer : Lexer) : Keeps (statements load base steps lexer) := by
  induction steps generalizing lexer with
  | zero =>
    intro s t hs h
    cases h
  | succ steps ih =>
    intro s t hs h
    rw [statements] at h
    split at h
    · cases h
      exact hs
    · next group lexer' hread => exact ih lexer' _ t (hs.commit hread) h
    · next path position lexer' hread =>
      cases hstep : load (Path.join base path) s with
      | ok u s' =>
        simp only [hstep] at h
        exact ih lexer' s' t (hload _ s s' hs (by rw [hstep]; rfl)) h
      | fail e s' =>
        simp only [hstep] at h
        cases h
        exact hload _ s t hs (by rw [hstep]; rfl)
      | exhausted =>
        simp only [hstep] at h
        cases h
    · cases h
      exact hs
    · cases h

theorem loadSource_keeps {load : String → Step Unit} (hload : ∀ path, Keeps (load path))
    (base : String) (file : Option String) (source : String) :
    Keeps (loadSource load base file source) := by
  intro s t hs h
  have hs' : (s.remember file source).Represented := hs.of_eq rfl rfl
  simp only [loadSource] at h
  split at h
  · next lexer _ => exact statements_keeps hload base _ lexer _ t hs' h
  · cases h
    exact hs'

theorem includeFile_keeps (fs : FileSystem) (depth : Nat) (path : String) :
    Keeps (includeFile fs depth path) := by
  induction depth generalizing path with
  | zero =>
    intro s t hs h
    cases h
  | succ depth ih =>
    intro s t hs h
    rw [includeFile] at h
    split at h
    · cases h
      exact hs
    · next found _ =>
      split at h
      · cases h
        exact hs
      · have hs' : Represented { s with included := found.path :: s.included } := hs.of_eq rfl rfl
        dsimp only at h
        split at h
        · cases h
          exact hs'
        · exact loadSource_keeps ih _ _ _ _ t hs' h

theorem loadText_keeps (fs : FileSystem) (source : String) : Keeps (loadText fs source) :=
  (loadSource_keeps (includeFile_keeps fs _) _ _ _).recorded

theorem loadFile_keeps (fs : FileSystem) (path : String) : Keeps (loadFile fs path) :=
  (includeFile_keeps fs _ path).recorded

theorem state?_evaluating {run : Environment → Eval α} {s t : Session}
    (h : (evaluating run s).state? = some t) :
    ∃ store, (run s.env s.store).state? = some store ∧ t = { s with store := store } := by
  simp only [evaluating] at h
  cases hrun : run s.env s.store with
  | ok a store =>
    rw [hrun] at h
    cases h
    exact ⟨store, rfl, rfl⟩
  | fail cause store =>
    rw [hrun] at h
    cases h
    exact ⟨store, rfl, rfl⟩
  | exhausted =>
    rw [hrun] at h
    cases h

/-- The value of a text, end by end. -/
theorem evalText_eq (source : String) (s : Session) :
    evalText source s =
      match parseExpr source none with
      | .error e => .fail e { s.remember none source with latch := s.latch.arm e }
      | .ok none => .exhausted
      | .ok (some e) =>
        match s.env.evaluate (s.env.resolve [] e) s.store with
        | .ok v store => .ok v { s.remember none source with store := store }
        | .fail cause store =>
          .fail { cause } { s.remember none source with store, latch := s.latch.arm { cause } }
        | .exhausted => .exhausted := by
  simp only [evalText, recorded, Bind.bind, Run.bind, Run.modify, parsed]
  cases parseExpr source none with
  | error e => rfl
  | ok found =>
    cases found with
    | none => rfl
    | some e =>
      simp only [evaluating, remember]
      cases s.env.evaluate (s.env.resolve [] e) s.store <;> rfl

/-- A call, end by end. -/
theorem call_eq (name : String) (args : List Value) (s : Session) :
    call name args s =
      match s.env.find? name with
      | none => .fail { cause := .noFunction name }
          { s with latch := s.latch.arm { cause := .noFunction name } }
      | some f =>
        match s.env.invoke f args s.store with
        | .ok v store => .ok v { s with store }
        | .fail cause store => .fail { cause } { s with store, latch := s.latch.arm { cause } }
        | .exhausted => .exhausted := by
  simp only [call, recorded, Bind.bind, Run.bind, Run.read]
  cases s.env.find? name with
  | none => rfl
  | some f =>
    simp only [evaluating]
    cases s.env.invoke f args s.store <;> rfl

theorem invoke_keeps (f : Function) (args : List Value) : Keeps (evaluating (·.invoke f args)) := by
  intro s t hs h
  obtain ⟨p, S, hreach, hp, hS⟩ := hs
  obtain ⟨store, hstore, rfl⟩ := state?_evaluating h
  rw [← hp, ← hS] at hstore
  have hagrees := Checked.invoke_agrees hreach.inScope.1 callDepth f args S hreach.inScope.2
  obtain ⟨T, hrun, hT⟩ := hagrees.exists_state hstore
  exact ⟨p, T, hreach.call hrun, hp, hT⟩

theorem fresh_keeps : Keeps (evaluating fun _ => Eval.fresh) := by
  intro s t hs h
  obtain ⟨p, S, hreach, hp, hS⟩ := hs
  obtain ⟨store, hstore, rfl⟩ := state?_evaluating h
  cases hstore
  exact ⟨p, S.fresh.2, hreach.fresh, hp, by rw [← hS]; rfl⟩

theorem evaluateParsed_keeps (source : String) (file : Option String) :
    Keeps (parsed source file >>= fun e => evaluating (·.evaluate e)) := by
  intro s t hs h
  cases hparse : parseExpr source file with
  | error err =>
    have hparsed : parsed source file s = .fail err s := by rw [parsed, hparse]
    rw [Run.bind_fail hparsed] at h
    cases h
    exact hs
  | ok found =>
    cases found with
    | none =>
      have hparsed : parsed source file s = .exhausted := by rw [parsed, hparse]
      rw [Run.bind_exhausted hparsed] at h
      cases h
    | some e =>
      have hparsed : parsed source file s = .ok (s.env.resolve [] e) s := by rw [parsed, hparse]
      rw [Run.bind_ok hparsed] at h
      obtain ⟨p, S, hreach, hp, hS⟩ := hs
      obtain ⟨store, hstore, rfl⟩ := state?_evaluating h
      rw [← hp, ← hS] at hstore
      have hagrees := Checked.evaluateIn_agrees hreach.inScope.1 hreach.inScope.2
        (closed_of_parseExpr hparse []) callDepth
      obtain ⟨T, hrun, hT⟩ := hagrees.exists_state hstore
      exact ⟨p, T, hreach.evaluate hparse hrun, hp, hT⟩

theorem evalText_keeps (source : String) : Keeps (evalText source) := by
  refine Keeps.recorded (Keeps.bind ?_ fun _ => evaluateParsed_keeps source none)
  intro s t hs h
  cases h
  exact hs.of_eq rfl rfl

theorem call_keeps (name : String) (args : List Value) : Keeps (call name args) := by
  refine Keeps.recorded (Keeps.bind (.read _) fun found => ?_)
  cases found with
  | none => exact .fail _
  | some f => exact invoke_keeps f args

theorem runMain_keeps (args : List String) : Keeps (runMain args) := by
  refine Keeps.bind (.read _) fun found => ?_
  cases found with
  | none => exact .ret _
  | some clauses =>
    dsimp only
    split
    · exact (call_keeps "main" []).bind fun _ => .ret _
    · exact fresh_keeps.bind fun id => (call_keeps "main" _).bind fun _ => .ret _

end Keeps

theorem Reachable.represented {s : Session} (h : s.Reachable) : s.Represented := by
  induction h with
  | bare => exact ⟨_, _, .bare, rfl, Store.resolve_empty⟩
  | new => exact ⟨_, _, .natives, rfl, Store.resolve_empty⟩
  | loadText _ h ih => exact loadText_keeps _ _ _ _ ih h
  | loadFile _ h ih => exact loadFile_keeps _ _ _ _ ih h
  | evalText _ h ih => exact evalText_keeps _ _ _ ih h
  | call _ h ih => exact call_keeps _ _ _ _ ih h
  | runMain _ h ih => exact runMain_keeps _ _ _ ih h
  | fresh _ ih =>
    obtain ⟨p, S, hreach, hp, hS⟩ := ih
    exact ⟨p, S.fresh.2, hreach.fresh, hp, by rw [← hS]; rfl⟩
  | flush _ ih => exact ih.of_eq rfl rfl
  | @dump s painter _ ih =>
    rw [Session.dump]
    split
    · exact ih
    · exact ih.of_eq rfl rfl
  | takePrinted _ ih =>
    obtain ⟨p, S, hreach, hp, hS⟩ := ih
    exact ⟨p, _, hreach.takePrinted, hp, by rw [Session.takePrinted, ← hS]; rfl⟩

end Session

end Clausal
