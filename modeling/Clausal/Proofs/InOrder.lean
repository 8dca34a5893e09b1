import Clausal.Proofs.Growth
import Clausal.Proofs.Steady

/-!
# Sessions in order

Sessions that come about by loading, evaluating and calling (`Session.Built`) have a sound table and
an orderly store at any time (`Session.Built.inOrder`), and every value that they hand out is made
of functions they have (`Session.Built.knows_evalText`, `Session.Built.knows_call`). What goes into
a session from outside are texts, and arguments whose functions the session has (`Session.Knows`).

The texts are any, or only such in which no lambda is written in a value that a `with` block binds;
which of the two is what `tidy` says.
-/

namespace Clausal

/-! ## Tables -/

theorem Clause.exists_of_mem_globalsAll {cs : List Clause} {n : String}
    (h : n ∈ Clause.globalsAll cs) : ∃ c ∈ cs, n ∈ c.globals := by
  induction cs with
  | nil => cases h
  | cons c cs ih =>
    rcases List.mem_append.mp h with h | h
    · exact ⟨c, List.mem_cons_self, h⟩
    · obtain ⟨d, hd, hn⟩ := ih h
      exact ⟨d, List.mem_cons_of_mem _ hd, hn⟩

theorem Clause.tameAll_append (cs ds : List Clause) :
    Clause.tameAll (cs ++ ds) = (Clause.tameAll cs && Clause.tameAll ds) := by
  induction cs with
  | nil => rfl
  | cons c cs ih => rw [List.cons_append, Clause.tameAll, Clause.tameAll, ih, Bool.and_assoc]

namespace Environment

variable {env env' : Environment}

/-- No clause has a lambda in a value that a `with` block binds. -/
def Tame (env : Environment) : Prop := ∀ slot, Clause.tameAll (env.clausesAt slot) = true

theorem Extends.length_le (h : env.Extends env') :
    env.definitions.length ≤ env'.definitions.length := by
  refine Nat.le_of_not_lt fun hlt => ?_
  obtain ⟨more, hmore⟩ := h _ _ (List.getElem?_eq_getElem hlt)
  obtain ⟨hlt', -⟩ := List.getElem?_eq_some_iff.mp hmore
  omega

theorem Extends.contains (h : env.Extends env') {n : String} (hn : env.contains n = true) :
    env'.contains n = true := by
  rw [contains_iff_mem] at hn ⊢
  exact h.mem_names hn

/-- The clauses of a function stand in front of those it gets later. -/
theorem Extends.exists_clausesAt (h : env.Extends env') (slot : Nat) :
    ∃ more, env'.clausesAt slot = env.clausesAt slot ++ more := by
  cases hd : env.definitions[slot]? with
  | none => exact ⟨env'.clausesAt slot, by simp [clausesAt, hd]⟩
  | some d =>
    obtain ⟨more, hmore⟩ := h slot d hd
    cases d with
    | native fn => exact ⟨[], by simp [clausesAt, hd, hmore, Definition.append]⟩
    | declared n cs =>
      exact ⟨more, by simp [clausesAt, hd, hmore, Definition.append, Definition.clauses?]⟩

theorem Extends.tame (h : env.Extends env') (htame : env'.Tame) : env.Tame := by
  intro slot
  obtain ⟨more, hmore⟩ := h.exists_clausesAt slot
  have hall := htame slot
  rw [hmore, Clause.tameAll_append, Bool.and_eq_true] at hall
  exact hall.1

/-- What the clauses of a sound table refer to is there. -/
theorem Sound.known_clausesAt (h : env.Sound) {slot : Nat} {n : String}
    (hn : n ∈ Clause.globalsAll (env.clausesAt slot)) : env.contains n = true := by
  obtain ⟨c, hc, hn⟩ := Clause.exists_of_mem_globalsAll hn
  rw [clausesAt] at hc
  cases hd : env.definitions[slot]? with
  | none => simp [hd] at hc
  | some d =>
    rw [hd] at hc
    cases d with
    | native fn => cases hc
    | declared name cs => exact h.known name cs (List.mem_of_getElem? hd) c hc n hn

end Environment

/-! ## Stores -/

namespace Setting

variable {R R' : Setting} {filling : List Nat} {s : Store Closure}

/-- What is in order for a table is in order for a table with more functions. -/
theorem Orderly.grow (h : R.Orderly filling s)
    (hlength : R.env.definitions.length ≤ R'.env.definitions.length)
    (hnames : ∀ n, R.env.contains n = true → R'.env.contains n = true)
    (htidy : R'.tidy → R.tidy) : R'.Orderly filling s := by
  have hknown {n : Nat} {v : Value} (hv : R.Known n v) : R'.Known n v :=
    Value.Only.mono hv fun _ hf => hf.mono hlength (Nat.le_refl n)
  refine ⟨fun f hf v hv => hknown (h.known f hf v hv), h.rooted, h.captured, fun c hc => ?_, ?_, ?_⟩
  · have hallowed := h.allowed c hc
    exact ⟨fun n hn => hnames n (hallowed.known n hn), fun ht => hallowed.tame (htidy ht)⟩
  · intro ht id c hc up f hup hf v hv
    exact hknown (h.ordered (htidy ht) id c hc up f hup hf v hv)
  · exact fun ht => h.hidden (htidy ht)

theorem orderly_empty : R.Orderly [] {} := by
  constructor
  · exact fun f hf => absurd hf (Array.not_mem_empty f)
  · intro i p f hf
    cases hf
  · exact fun c hc => absurd hc (Array.not_mem_empty c)
  · exact fun c hc => absurd hc (Array.not_mem_empty c)
  · intro _ id c hc
    cases hc
  · exact fun _ => List.forall_mem_nil _

end Setting

/-! ## Sessions -/

namespace Session

theorem written_of_parseExpr {source : String} {file : Option String} {e : Expr}
    (h : parseExpr source file = .ok (some e)) : e.Written := by
  obtain ⟨lexer, stop, hlexer, hparse⟩ := exists_of_parseExpr h
  exact (Parse.wholeExpression_finds lexer e stop (Lexer.ofSource_genuine hlexer) hparse).2

/-- All functions in a value are functions of the session or lambdas made in it. -/
def Knows (s : Session) (v : Value) : Prop :=
  v.Only (Function.There s.env s.store.closures.size)

/-- Evaluations in a session, and in it once its table has become `later`. -/
def setting (tidy : Prop) (s : Session) (later : Environment) : Setting := ⟨s.env, later, tidy⟩

/-- The table is sound, and the store is in order. -/
structure InOrder (tidy : Prop) (s : Session) : Prop where
  sound : s.env.Sound
  orderly : (s.setting tidy s.env).Orderly [] s.store

/-- The sessions that come about by loading texts and files, by evaluating expressions, and by
calling functions with arguments that the session knows. A step that fails counts too. With `tidy`,
no lambda is written in a value that a `with` block of an expression binds. -/
inductive Built (tidy : Prop) : Session → Prop
  | new : Built tidy .new
  | bare : Built tidy .bare
  | loadText {s t fs source} (hs : Built tidy s)
      (h : (Session.loadText fs source s).state? = some t) : Built tidy t
  | loadFile {s t fs path} (hs : Built tidy s)
      (h : (Session.loadFile fs path s).state? = some t) : Built tidy t
  | evalText {s t source} (hs : Built tidy s)
      (htame : tidy → ∀ e u, parsed source none s = .ok e u → e.tame false = true)
      (h : (Session.evalText source s).state? = some t) : Built tidy t
  | call {s t name args} (hs : Built tidy s) (hargs : ∀ v ∈ args, s.Knows v)
      (h : (Session.call name args s).state? = some t) : Built tidy t
  | runMain {s t args} (hs : Built tidy s)
      (h : (Session.runMain args s).state? = some t) : Built tidy t
  /-- An identity is handed out, as for a list made outside. -/
  | fresh {s} (hs : Built tidy s) : Built tidy { s with store := s.store.fresh.2 }
  | flush {s} (hs : Built tidy s) : Built tidy s.flush.2
  | dump {s painter} (hs : Built tidy s) : Built tidy (s.dump painter).2
  | takePrinted {s} (hs : Built tidy s) : Built tidy s.takePrinted.2

/-! ## What operations do to the store -/

variable {α : Type} {tidy : Prop} {s t : Session}

theorem loads_store : Loads fun s t => t.store = s.store where
  refl _ := rfl
  trans h h' := h'.trans h
  remember _ _ _ := rfl
  mark _ _ := rfl
  latch _ _ := rfl
  commit _ _ _ _ _ _ := rfl

theorem store_loadText {fs : FileSystem} {source : String}
    (h : (loadText fs source s).state? = some t) : t.store = s.store :=
  loads_store.recorded (loads_store.loadSource (loads_store.includeFile _ _) _ _ _) s t h

theorem store_loadFile {fs : FileSystem} {path : String}
    (h : (loadFile fs path s).state? = some t) : t.store = s.store :=
  loads_store.recorded (loads_store.includeFile _ _ _) s t h

theorem state?_recorded {x : Step α} (h : (recorded x s).state? = some t) :
    ∃ u latch, (x s).state? = some u ∧ t = { u with latch := latch } := by
  rw [recorded] at h
  cases hx : x s with
  | ok a u =>
    rw [hx] at h
    cases h
    exact ⟨t, t.latch, rfl, rfl⟩
  | fail e u =>
    rw [hx] at h
    cases h
    exact ⟨u, _, rfl, rfl⟩
  | exhausted =>
    rw [hx] at h
    cases h

theorem state?_evalText {source : String} (h : (evalText source s).state? = some t) :
    t.env = s.env ∧ (t.store = s.store ∨ ∃ e u, parsed source none s = .ok e u ∧
      (s.env.evaluate e s.store).state? = some t.store) := by
  obtain ⟨u, latch, hu, rfl⟩ := state?_recorded h
  obtain ⟨_, hfail⟩ | ⟨_, s', hs', hu⟩ := Run.state?_bind hu
  · cases hfail
  cases hs'
  obtain ⟨err, hfail⟩ | ⟨e, s', hs', hu⟩ := Run.state?_bind hu
  · unfold parsed at hfail
    split at hfail <;> cases hfail
    exact ⟨rfl, .inl rfl⟩
  · obtain ⟨store, hstore, rfl⟩ := state?_evaluating hu
    cases hparse : parseExpr source none with
    | error err =>
      rw [parsed, hparse] at hs'
      cases hs'
    | ok found =>
      rw [parsed, hparse] at hs'
      cases found with
      | none => cases hs'
      | some e₀ =>
        cases hs'
        exact ⟨rfl, .inr ⟨s.env.resolve [] e₀, s, by rw [parsed, hparse], hstore⟩⟩

theorem state?_call {name : String} {args : List Value}
    (h : (call name args s).state? = some t) :
    t.env = s.env ∧ (t.store = s.store ∨ ∃ f, s.env.find? name = some f ∧
      (s.env.invoke f args s.store).state? = some t.store) := by
  obtain ⟨u, latch, hu, rfl⟩ := state?_recorded h
  obtain ⟨_, hfail⟩ | ⟨found, s', hs', hu⟩ := Run.state?_bind hu
  · cases hfail
  cases hs'
  dsimp only at hu
  cases hfound : s.env.find? name with
  | none =>
    rw [hfound] at hu
    cases hu
    exact ⟨rfl, .inl rfl⟩
  | some f =>
    rw [hfound] at hu
    obtain ⟨store, hstore, rfl⟩ := state?_evaluating hu
    exact ⟨rfl, .inr ⟨f, rfl, hstore⟩⟩

/-- A run that goes on with what leaves the session alone ends where it ends. -/
theorem state?_bind_ret {β : Type} {x : Step α} {f : α → β}
    (h : ((x >>= fun a => pure (f a)) s).state? = some t) : (x s).state? = some t := by
  obtain ⟨e, hfail⟩ | ⟨a, u, ha, hu⟩ := Run.state?_bind h
  · rw [hfail]
    rfl
  · cases hu
    rw [ha]
    rfl

/-- `main` is called without arguments, or with a list that is made for it. -/
theorem state?_runMain {args : List String} (h : (runMain args s).state? = some t) :
    t = s ∨ (call "main" [] s).state? = some t ∨ ∃ id,
      (call "main" [.list (.ofList id (args.map .text))]
        { s with store := s.store.fresh.2 }).state? = some t := by
  obtain ⟨_, hfail⟩ | ⟨found, s', hs', h⟩ := Run.state?_bind h
  · cases hfail
  cases hs'
  dsimp only at h
  cases hfound : (s.env.find? "main").map s.env.clauses? with
  | none =>
    rw [hfound] at h
    cases h
    exact .inl rfl
  | some clauses =>
    rw [hfound] at h
    dsimp only at h
    split at h
    · exact .inr (.inl (state?_bind_ret h))
    · obtain ⟨_, hfail⟩ | ⟨id, s', hs', h⟩ := Run.state?_bind h
      · cases hfail
      · cases hs'
        exact .inr (.inr ⟨_, state?_bind_ret h⟩)

theorem globals_of_parsed {source : String} {file : Option String} {e : Expr}
    (h : parsed source file s = .ok e t) : ∀ n ∈ e.globals, s.env.contains n = true := by
  intro n hn
  unfold parsed at h
  split at h <;> cases h
  next e₀ hparse =>
  rcases Expr.globals_resolve e₀ hn with hknown | hmem
  · exact hknown
  · obtain ⟨p, rfl⟩ := written_of_parseExpr hparse
    rw [p.globals_expr] at hmem
    cases hmem

/-! ## What operations keep -/

theorem InOrder.of_eq (h : s.InOrder tidy) (henv : t.env = s.env)
    (hframes : t.store.frames = s.store.frames)
    (hclosures : t.store.closures = s.store.closures) : t.InOrder tidy := by
  refine ⟨henv ▸ h.sound, ?_⟩
  rw [setting, henv]
  exact (Setting.Later.of_eq h.orderly hframes hclosures).orderly

theorem InOrder.commits (h : s.InOrder tidy) (henv : s.env.Commits t.env)
    (hstore : t.store = s.store) : t.InOrder tidy := by
  refine ⟨henv.sound h.sound, ?_⟩
  rw [hstore]
  exact h.orderly.grow henv.extends.length_le (fun _ hn => henv.extends.contains hn) id

/-- A later table makes no difference if it has all functions as they were. -/
theorem InOrder.stable (h : s.InOrder tidy) (htame : tidy → s.env.Tame) {later : Environment}
    (hfind : ∀ n, s.env.contains n = true → later.find? n = s.env.find? n)
    (hclauses : ∀ slot < s.env.definitions.length,
      later.clausesAt slot = s.env.clausesAt slot) : (s.setting tidy later).Stable where
  find? := hfind
  clausesAt := hclauses
  allowed slot := ⟨fun _ hn => h.sound.known_clausesAt hn, fun ht => htame ht slot⟩

theorem InOrder.stable_self (h : s.InOrder tidy) (htame : tidy → s.env.Tame) :
    (s.setting tidy s.env).Stable :=
  h.stable htame (fun _ _ => rfl) fun _ _ => rfl

theorem InOrder.evaluate (h : s.InOrder tidy) (htame : tidy → s.env.Tame) {source : String}
    {e : Expr} {u : Session} (hparsed : parsed source none s = .ok e u)
    (he : tidy → e.tame false = true) :
    (s.setting tidy s.env).Stays [] s.store (s.env.evaluate e) (s.env.evaluate e)
      (s.setting tidy s.env).Known :=
  (h.stable_self htame).evaluateIn_stays h.orderly callDepth ⟨globals_of_parsed hparsed, he⟩

theorem InOrder.invoke (h : s.InOrder tidy) (htame : tidy → s.env.Tame) {name : String}
    {f : Function} {args : List Value} (hf : s.env.find? name = some f)
    (hargs : ∀ v ∈ args, s.Knows v) :
    (s.setting tidy s.env).Stays [] s.store (s.env.invoke f args) (s.env.invoke f args)
      (s.setting tidy s.env).Known :=
  (h.stable_self htame).invoke_stays callDepth f args [] s.store h.orderly
    (Setting.there_of_find? hf) hargs

theorem InOrder.call (h : s.InOrder tidy) (htame : tidy → s.env.Tame) {name : String}
    {args : List Value} (hargs : ∀ v ∈ args, s.Knows v)
    (hrun : (Session.call name args s).state? = some t) : t.InOrder tidy := by
  obtain ⟨henv, hstore | ⟨f, hf, hstore⟩⟩ := state?_call hrun
  · exact h.of_eq henv (by rw [hstore]) (by rw [hstore])
  · refine ⟨henv ▸ h.sound, ?_⟩
    rw [setting, henv]
    exact ((h.invoke htame hf hargs).later hstore).orderly

theorem InOrder.evalText (h : s.InOrder tidy) (htame : tidy → s.env.Tame) {source : String}
    (he : tidy → ∀ e u, parsed source none s = .ok e u → e.tame false = true)
    (hrun : (Session.evalText source s).state? = some t) : t.InOrder tidy := by
  obtain ⟨henv, hstore | ⟨e, u, hparsed, hstore⟩⟩ := state?_evalText hrun
  · exact h.of_eq henv (by rw [hstore]) (by rw [hstore])
  · refine ⟨henv ▸ h.sound, ?_⟩
    rw [setting, henv]
    exact ((h.evaluate htame hparsed fun ht => he ht e u hparsed).later hstore).orderly

theorem InOrder.runMain (h : s.InOrder tidy) (htame : tidy → s.env.Tame) {args : List String}
    (hrun : (Session.runMain args s).state? = some t) : t.InOrder tidy := by
  obtain rfl | hcall | ⟨id, hcall⟩ := state?_runMain hrun
  · exact h
  · exact h.call htame (List.forall_mem_nil _) hcall
  · have hfresh : InOrder tidy { s with store := s.store.fresh.2 } := h.of_eq rfl rfl rfl
    refine hfresh.call htame (List.forall_mem_singleton.mpr ?_) hcall
    -- a list of strings holds no functions
    refine Setting.known_list (R := s.setting tidy s.env) (fun v hv => ?_) id
    obtain ⟨text, -, rfl⟩ := List.mem_map.mp hv
    exact Setting.known_scalar rfl

theorem env_runMain {args : List String} (h : (Session.runMain args s).state? = some t) :
    t.env = s.env := by
  obtain rfl | hcall | ⟨id, hcall⟩ := state?_runMain h
  · rfl
  · exact (state?_call hcall).1
  · exact (state?_call hcall).1

/-- A session that has been built has a sound table and an orderly store. -/
theorem Built.inOrder (h : s.Built tidy) (htame : tidy → s.env.Tame) : s.InOrder tidy := by
  induction h with
  | new => exact ⟨Environment.sound_natives, Setting.orderly_empty⟩
  | bare => exact ⟨Environment.sound_empty, Setting.orderly_empty⟩
  | @loadText s t fs source _ hrun ih =>
    have hcommits : s.env.Commits t.env := Leads.commits (.step .refl (.loadText hrun))
    exact (ih fun ht => hcommits.extends.tame (htame ht)).commits hcommits (store_loadText hrun)
  | @loadFile s t fs path _ hrun ih =>
    have hcommits : s.env.Commits t.env := Leads.commits (.step .refl (.loadFile hrun))
    exact (ih fun ht => hcommits.extends.tame (htame ht)).commits hcommits (store_loadFile hrun)
  | @evalText s t source _ he hrun ih =>
    have henv := (state?_evalText hrun).1
    rw [henv] at htame
    exact (ih htame).evalText htame he hrun
  | @call s t name args _ hargs hrun ih =>
    have henv := (state?_call hrun).1
    rw [henv] at htame
    exact (ih htame).call htame hargs hrun
  | @runMain s t args _ hrun ih =>
    rw [env_runMain hrun] at htame
    exact (ih htame).runMain htame hrun
  | fresh _ ih => exact (ih htame).of_eq rfl rfl rfl
  | flush _ ih => exact (ih htame).of_eq rfl rfl rfl
  | @dump s painter _ ih =>
    rw [Session.dump] at htame ⊢
    split at htame
    · exact ih htame
    · exact (ih htame).of_eq rfl rfl rfl
  | takePrinted _ ih => exact (ih htame).of_eq rfl rfl rfl

/-! ## Values that are handed out -/

theorem ok_of_recorded {x : Step α} {a : α} (h : recorded x s = .ok a t) : x s = .ok a t := by
  rw [recorded] at h
  split at h
  · next hx => rw [hx, h]
  · cases h
  · cases h

theorem ok_of_evaluating {run : Environment → Eval α} {a : α}
    (h : evaluating run s = .ok a t) :
    run s.env s.store = .ok a t.store ∧ t.env = s.env := by
  simp only [evaluating] at h
  split at h
  · next hrun =>
    cases h
    exact ⟨hrun, rfl⟩
  · cases h
  · cases h

theorem session_of_parsed {source : String} {file : Option String} {e : Expr}
    (h : parsed source file s = .ok e t) : t = s := by
  unfold parsed at h
  split at h <;> cases h
  rfl

/-- The functions in the value of an expression are there. -/
theorem Built.knows_evalText (h : s.Built False) {source : String} {v : Value}
    (hrun : Session.evalText source s = .ok v t) : t.Knows v := by
  obtain ⟨_, s', hs', hrun⟩ := Run.bind_eq_ok_iff.mp (ok_of_recorded hrun)
  cases hs'
  have horder : InOrder False (s.remember none source) :=
    (h.inOrder False.elim).of_eq rfl rfl rfl
  obtain ⟨e, u, hparsed, hrun⟩ := Run.bind_eq_ok_iff.mp hrun
  rw [session_of_parsed hparsed] at hrun
  obtain ⟨hvalue, henv⟩ := ok_of_evaluating hrun
  have hknown := (horder.evaluate False.elim hparsed False.elim).result hvalue
  rw [Knows, henv]
  exact hknown

/-- The functions in the value of a call are there. -/
theorem Built.knows_call (h : s.Built False) {name : String} {args : List Value} {v : Value}
    (hargs : ∀ x ∈ args, s.Knows x) (hrun : Session.call name args s = .ok v t) : t.Knows v := by
  obtain ⟨found, s', hs', hrun⟩ := Run.bind_eq_ok_iff.mp (ok_of_recorded hrun)
  cases hs'
  dsimp only at hrun
  cases hf : s.env.find? name with
  | none =>
    rw [hf] at hrun
    cases hrun
  | some f =>
    rw [hf] at hrun
    obtain ⟨hvalue, henv⟩ := ok_of_evaluating hrun
    have hknown := ((h.inOrder False.elim).invoke False.elim hf hargs).result hvalue
    rw [Knows, henv]
    exact hknown

end Session

end Clausal
