import Clausal.Proofs.Expansion
import Clausal.Proofs.Registration

/-!
# Loading carries out the expansion

Loading goes from text to text with nothing that gets smaller but the files without a mark: a file
is marked before its text is looked at, so inside of it there is one file less to load. On a file
system with finitely many files this is enough for every call to come to an end, whatever uses what
(`Session.includeFile_carriesOut`), and what it has done then is what the expansion says
(`Session.CarriesOut`): the same files are read in the same order, the same groups take effect in
the same order, and it succeeds if there is no fault.

`Session.loading_reads_each_file_once` says it for any number of calls: no file is read twice, and
the clauses of each function are those of the expansion, in its order.
-/

namespace Clausal

/-- How a run ended, if it did: the state reached, and whether it succeeded. -/
def Outcome.ended {ε σ α : Type} : Outcome ε σ α → Option (σ × Bool)
  | .ok _ s => some (s, true)
  | .fail _ s => some (s, false)
  | .exhausted => none

theorem Environment.isNative_foldl_commit (env : Environment) (groups : List (List Declaration)) :
    (groups.foldl commit env).isNative = env.isNative := by
  induction groups generalizing env with
  | nil => rfl
  | cons group rest ih => rw [List.foldl_cons, ih, isNative_commit]

namespace Session

/-- The texts of files that were read, the latest first. -/
def fileTexts (s : Session) : List (Option String × String) := s.sources.filter (·.1.isSome)

/-- What an expansion makes of the session `s` is `t`. -/
structure Becomes (s : Session) (x : Expansion) (t : Session) : Prop where
  included : t.included = x.seen
  env : t.env = x.groups.foldl Environment.commit s.env
  fileTexts : t.fileTexts =
    (x.opened.map fun file => (some file.path, file.text)).reverse ++ s.fileTexts
  /-- No group is refused by a built-in function. -/
  declared : ∀ group ∈ x.groups, ∀ d ∈ group, s.env.isNative d.name = false

namespace Becomes

variable {s t u : Session} {x y : Expansion}

theorem isNative (h : s.Becomes x t) : t.env.isNative = s.env.isNative := by
  rw [h.env, Environment.isNative_foldl_commit]

theorem nothing (s : Session) (complete : Bool) :
    s.Becomes ⟨[], [], s.included, complete⟩ s :=
  ⟨rfl, rfl, rfl, List.forall_mem_nil _⟩

theorem group {group : List Declaration}
    (hgroup : ∀ d ∈ group, s.env.isNative d.name = false)
    (h : Becomes { s with env := s.env.commit group } x t) :
    s.Becomes { x with groups := group :: x.groups } t where
  included := h.included
  env := h.env
  fileTexts := h.fileTexts
  declared := by
    have hrest := h.declared
    dsimp only at hrest
    rw [Environment.isNative_commit] at hrest
    exact List.forall_mem_cons.mpr ⟨hgroup, hrest⟩

theorem andThen (hx : s.Becomes x t) (hy : t.Becomes y u) : s.Becomes (x.andThen y) u where
  included := hy.included
  env := by rw [hy.env, hx.env, Expansion.andThen, List.foldl_append]
  fileTexts := by
    rw [hy.fileTexts, hx.fileTexts, Expansion.andThen, List.map_append, List.reverse_append,
      List.append_assoc]
  declared := by
    have hrest := hy.declared
    rw [hx.isNative] at hrest
    exact List.forall_mem_append.mpr ⟨hx.declared, hrest⟩

end Becomes

/-- From the session `s` a step comes to an end, and it has then done what the expansion of the item
says. -/
def CarriesOut (fs : FileSystem) (item : Item) (step : Step Unit) (s : Session) : Prop :=
  ∃ x t, Expands fs s.env.isNative item s.included x ∧ (step s).ended = some (t, x.complete) ∧
    s.Becomes x t

/-- How many of the files have no mark. -/
def unmarked (files : Finset String) (s : Session) : Nat := (files \ s.included.toFinset).card

variable {fs : FileSystem} {files : Finset String} {s t : Session}

theorem unmarked_le (h : s.included ⊆ t.included) : t.unmarked files ≤ s.unmarked files := by
  refine Finset.card_le_card (Finset.sdiff_subset_sdiff (Finset.Subset.refl _) fun path hpath => ?_)
  rw [List.mem_toFinset] at hpath ⊢
  exact h hpath

theorem unmarked_mark {path : String} (hpath : path ∈ files) (hnew : path ∉ s.included) :
    unmarked files { s with included := path :: s.included } < s.unmarked files := by
  rw [unmarked, List.toFinset_cons, Finset.sdiff_insert]
  refine Finset.card_erase_lt_of_mem ?_
  rw [Finset.mem_sdiff, List.mem_toFinset]
  exact ⟨hpath, hnew⟩

/-! ## Steps -/

namespace CarriesOut

variable {item : Item} {step next : Step Unit} {base path : String} {position : Position}
  {rest : List Statement} {complete : Bool}

theorem of_eq (h : CarriesOut fs item step s) {step' : Step Unit} (heq : step' s = step s) :
    CarriesOut fs item step' s := by
  obtain ⟨x, t, hx, hended, hbecomes⟩ := h
  exact ⟨x, t, hx, by rw [heq, hended], hbecomes⟩

theorem done (h : (step s).ended = some (s, complete)) :
    CarriesOut fs (.text base ⟨[], complete⟩) step s :=
  ⟨_, s, .done, h, .nothing s complete⟩

theorem group {group : List Declaration} (hgroup : ∀ d ∈ group, s.env.isNative d.name = false)
    (h : CarriesOut fs (.text base ⟨rest, complete⟩) step { s with env := s.env.commit group }) :
    CarriesOut fs (.text base ⟨.declarations group :: rest, complete⟩)
      (fun s => step { s with env := s.env.commit group }) s := by
  obtain ⟨x, t, hx, hended, hbecomes⟩ := h
  dsimp only at hx
  rw [Environment.isNative_commit] at hx
  exact ⟨_, t, hx.group, hended, hbecomes.group hgroup⟩

/-- The statements behind a `use` are carried out from where it ends, and only if it succeeds. -/
theorem use (h : CarriesOut fs (.file (Path.join base path)) step s)
    (hnext : ∀ t, s.included ⊆ t.included → t.env.isNative = s.env.isNative →
      CarriesOut fs (.text base ⟨rest, complete⟩) next t) :
    CarriesOut fs (.text base ⟨.use path position :: rest, complete⟩)
      (fun s => match step s with
        | .ok _ s => next s
        | .fail e s => .fail (e.locate position) s
        | .exhausted => .exhausted) s := by
  obtain ⟨x, t, hx, hended, hbecomes⟩ := h
  cases hrun : step s with
  | exhausted =>
    rw [hrun] at hended
    cases hended
  | fail e t' =>
    rw [hrun] at hended
    obtain ⟨rfl, hcomplete⟩ := Prod.mk.inj (Option.some.inj hended)
    refine ⟨x, t', hx.fault hcomplete.symm, ?_, hbecomes⟩
    simp only [hrun, Outcome.ended, hcomplete]
  | ok _ t' =>
    rw [hrun] at hended
    obtain ⟨rfl, hcomplete⟩ := Prod.mk.inj (Option.some.inj hended)
    have hkept : s.included ⊆ t'.included := hbecomes.included ▸ hx.once.kept
    obtain ⟨y, u, hy, hended', hbecomes'⟩ := hnext t' hkept hbecomes.isNative
    rw [hbecomes.isNative, hbecomes.included] at hy
    refine ⟨x.andThen y, u, hx.use hcomplete.symm hy, ?_, hbecomes.andThen hbecomes'⟩
    simp only [hrun, hended', Expansion.andThen, ← hcomplete, Bool.true_and]

/-- What is recorded of a failure is no part of what is loaded. -/
theorem recorded (h : CarriesOut fs item step s) : CarriesOut fs item (recorded step) s := by
  obtain ⟨x, t, hx, hended, hbecomes⟩ := h
  cases hrun : step s with
  | exhausted =>
    rw [hrun] at hended
    cases hended
  | ok _ t' => exact ⟨x, t, hx, by rw [Session.recorded, hrun, ← hended, hrun], hbecomes⟩
  | fail e t' =>
    rw [hrun] at hended
    obtain ⟨rfl, hcomplete⟩ := Prod.mk.inj (Option.some.inj hended)
    refine ⟨x, { t' with latch := t'.latch.arm e }, hx, ?_, ?_⟩
    · simp only [Session.recorded, hrun, Outcome.ended, hcomplete]
    · exact ⟨hbecomes.included, hbecomes.env, hbecomes.fileTexts, hbecomes.declared⟩

end CarriesOut

/-! ## Texts and files -/

section Texts

variable {load : String → Step Unit} {depth : Nat}
  (hload : ∀ path u, u.unmarked files < depth → CarriesOut fs (.file path) (load path) u)

include hload

/-- Statements are carried out one after the other, if what they use can be loaded as long as fewer
than `depth` files have no mark. -/
theorem statements_carriesOut (base : String) {steps : Nat} {lexer : Lexer}
    (hs : s.unmarked files < depth) (hsteps : lexer.left < steps) :
    CarriesOut fs (.text base (.ofLexer s.env.isNative lexer))
      (statements load base steps lexer) s := by
  induction steps generalizing lexer s with
  | zero => omega
  | succ steps ih =>
    cases hread : Parse.statement s.env.isNative lexer with
    | exhausted => exact absurd hread (Parse.statement_ne_exhausted _ lexer)
    | fail e stop =>
      rw [Script.ofLexer_fault hread]
      exact .done (by rw [statements, hread]; rfl)
    | ok found stop =>
      cases found with
      | none =>
        rw [Script.ofLexer_end hread]
        exact .done (by rw [statements, hread]; rfl)
      | some first =>
        have hstop : stop.left < steps := by
          have hless := Parse.statement_less hread
          omega
        rw [Script.ofLexer_cons hread]
        cases first with
        | declarations group =>
          have hgroup := Parse.statement_names _ _ _ _ hread group rfl
          have hrest := ih (s := { s with env := s.env.commit group }) hs hstop
          dsimp only at hrest
          rw [Environment.isNative_commit] at hrest
          exact (hrest.group hgroup).of_eq (by rw [statements, hread])
        | use path position =>
          have hrest (t : Session) (hkept : s.included ⊆ t.included)
              (hnative : t.env.isNative = s.env.isNative) :
              CarriesOut fs (.text base (.ofLexer s.env.isNative stop))
                (statements load base steps stop) t := by
            rw [← hnative]
            exact ih ((unmarked_le hkept).trans_lt hs) hstop
          refine (CarriesOut.use (hload _ s hs) hrest).of_eq ?_
          cases hrun : load (Path.join base path) s <;> simp only [statements, hread, hrun]

/-- A text is kept before it is looked at. -/
theorem loadSource_carriesOut (base : String) (file : Option String) (source : String)
    (hs : s.unmarked files < depth) :
    ∃ x t, Expands fs s.env.isNative (.text base (.ofSource s.env.isNative source file))
        s.included x ∧
      (loadSource load base file source s).ended = some (t, x.complete) ∧
      (s.remember file source).Becomes x t := by
  rw [Script.ofSource, loadSource]
  cases Lexer.ofSource source file with
  | error e => exact ⟨_, s.remember file source, .done, rfl, .nothing _ false⟩
  | ok lexer =>
    have hsteps := Parse.left_le_stepsFor lexer
    exact statements_carriesOut hload base (s := s.remember file source) hs
      (by omega : lexer.left < Parse.stepsFor lexer)

end Texts

theorem fileTexts_remember_some (s : Session) (path source : String) :
    (s.remember (some path) source).fileTexts = (some path, source) :: s.fileTexts := rfl

theorem fileTexts_remember_none (s : Session) (source : String) :
    (s.remember none source).fileTexts = s.fileTexts := by
  simp [remember, fileTexts]

/-- Every file inside a file has one file less without a mark, so the depth is never used up. -/
theorem includeFile_carriesOut (hfiles : fs.Within files) (depth : Nat) (path : String)
    (s : Session) (hs : s.unmarked files < depth) :
    CarriesOut fs (.file path) (includeFile fs depth path) s := by
  induction depth generalizing path s with
  | zero => omega
  | succ depth ih =>
    unfold CarriesOut
    rw [includeFile]
    cases hfound : fs.lookup path with
    | error reason => exact ⟨_, s, .missing hfound, rfl, .nothing s false⟩
    | ok found =>
      by_cases hseen : found.path ∈ s.included
      · have hcontains : s.included.contains found.path = true := List.contains_iff_mem.mpr hseen
        simp only [hcontains, if_true]
        exact ⟨_, s, .again hfound hseen, rfl, .nothing s true⟩
      · have hcontains : s.included.contains found.path = false := by simpa using hseen
        simp only [hcontains]
        cases htext : found.text with
        | error reason =>
          exact ⟨_, _, .unreadable hfound hseen htext, rfl, rfl, rfl, rfl, List.forall_mem_nil _⟩
        | ok source =>
          have hless := unmarked_mark (hfiles path found source hfound htext) hseen
          obtain ⟨x, t, hx, hended, hbecomes⟩ := loadSource_carriesOut ih
            (s := { s with included := found.path :: s.included }) (Path.parent found.path)
            (some path) source (by omega)
          refine ⟨_, t, .first hfound hseen htext hx, hended, ?_⟩
          refine ⟨hbecomes.included, hbecomes.env, ?_, hbecomes.declared⟩
          rw [hbecomes.fileTexts, fileTexts_remember_some, List.map_cons, List.reverse_cons,
            List.append_assoc]
          rfl

end Session

/-! ## Any number of calls -/

/-- Make a call. -/
def Load.run (fs : FileSystem) : Load → Session.Step Unit
  | .file path => Session.loadFile fs path
  | .text source => Session.loadText fs source

theorem Load.run_carriesOut {fs : FileSystem} (hfs : fs.Finite) (load : Load) (s : Session) :
    s.CarriesOut fs (load.item s.env.isNative) (load.run fs) := by
  obtain ⟨files, hcount, hfiles⟩ := hfs
  have hinclude := Session.includeFile_carriesOut hfiles (Session.includeDepth fs)
  have hs : s.unmarked files < Session.includeDepth fs :=
    Nat.lt_succ_of_le ((Finset.card_le_card Finset.sdiff_subset).trans hcount)
  cases load with
  | file path => exact (hinclude path s hs).recorded
  | text source =>
    refine Session.CarriesOut.recorded ?_
    obtain ⟨x, t, hx, hended, hbecomes⟩ := Session.loadSource_carriesOut hinclude "." none source hs
    refine ⟨x, t, hx, hended, hbecomes.included, hbecomes.env, ?_, hbecomes.declared⟩
    rw [hbecomes.fileTexts, Session.fileTexts_remember_none]

namespace Session

/-- Make calls one after the other, each from where the one before it ended, be it in success or
not. This gives the session in the end and whether all succeeded, and nothing if one of the calls
does not come to an end. -/
def loadAll (fs : FileSystem) : List Load → Session → Option (Session × Bool)
  | [], s => some (s, true)
  | load :: rest, s => do
    let (s, ok) ← (load.run fs s).ended
    let (s, others) ← loadAll fs rest s
    return (s, ok && others)

theorem loadAll_carriesOut {fs : FileSystem} (hfs : fs.Finite) (loads : List Load) (s : Session) :
    ∃ x t, ExpandsAll fs s.env.isNative loads s.included x ∧
      loadAll fs loads s = some (t, x.complete) ∧ s.Becomes x t := by
  induction loads generalizing s with
  | nil => exact ⟨_, s, .nil, rfl, .nothing s true⟩
  | cons load rest ih =>
    obtain ⟨x, t, hx, hended, hbecomes⟩ := load.run_carriesOut hfs s
    obtain ⟨y, u, hy, hrest, hbecomes'⟩ := ih t
    rw [hbecomes.isNative, hbecomes.included] at hy
    refine ⟨x.andThen y, u, .cons hx hy, ?_, hbecomes.andThen hbecomes'⟩
    rw [loadAll, hended]
    simp only [Option.bind_eq_bind, Option.bind_some, hrest, Option.pure_def, Expansion.andThen]

/-- Loading on any file system with finitely many files. Whatever uses what, and in whatever
spellings, every call comes to an end, and the calls together do what one expansion says: all
succeed if and only if it has no fault, the texts of files that the session takes in to parse are
those of the expansion, no two of them of one file and none of a file loaded before, and every name
has the clauses it had and behind them those that the expansion gives under it. -/
theorem loading_reads_each_file_once {fs : FileSystem} (hfs : fs.Finite) (loads : List Load)
    (s : Session) :
    ∃ x t, (∀ y, ExpandsAll fs s.env.isNative loads s.included y ↔ y = x) ∧
      loadAll fs loads s = some (t, x.complete) ∧
      t.fileTexts = (x.opened.map fun file => (some file.path, file.text)).reverse ++ s.fileTexts ∧
      (∀ file ∈ x.opened, fs.lookup file.path = .ok ⟨file.canonical, .file (.ok file.text)⟩ ∧
        file.canonical ∉ s.included) ∧
      (x.opened.map (·.canonical)).Nodup ∧
      ∀ name, t.env.clausesOf name =
        s.env.clausesOf name ++ Environment.clausesGiven name s.env.contains x.groups := by
  obtain ⟨x, t, hx, hrun, hbecomes⟩ := loadAll_carriesOut hfs loads s
  refine ⟨x, t, fun y => ⟨fun hy => hy.unique hx, fun hy => hy ▸ hx⟩, hrun, hbecomes.fileTexts,
    fun file hfile => ⟨hx.once.found file hfile, (hx.once.marked file hfile).1⟩, hx.once.distinct,
    fun name => ?_⟩
  rw [hbecomes.env, Environment.clausesOf_foldl_commit hbecomes.declared]

/-- Two files that use each other and one of them itself, and a third that uses one of them. -/
def circle : FileSystem := .ofFiles "/" [
  ("a.xy", .ok "let f() = 0 use \"lib/../b.xy\" let f(x, y) = 2"),
  ("b.xy", .ok "use \"./a.xy\" let f(x) = f() use \"b.xy\""),
  ("lib/c.xy", .ok "use \"../b.xy\"")]

/-- Calls that meet each of the files again. -/
def roundTrips : List Load :=
  [.file "a.xy", .text "use \"lib/c.xy\" let f(x, y, z) = x", .file "lib/../b.xy",
    .file "./lib/c.xy"]

/-- Three texts are read, and the clauses are in the order of the expansion. -/
theorem loading_reads_each_file_once_circle :
    ∃ x t, ExpandsAll circle Session.new.env.isNative roundTrips [] x ∧
      loadAll circle roundTrips .new = some (t, true) ∧ x.opened.length = 3 ∧
      (x.opened.map (·.canonical)).Nodup ∧
      t.env.clausesOf "f" = Environment.clausesGiven "f" Session.new.env.contains x.groups ∧
      (t.env.clausesOf "f").map (·.params.length) = [0, 1, 2, 3] := by
  have hcomputed : (loadAll circle roundTrips .new).any (fun (t, ok) => ok &&
      t.fileTexts.length == 3 &&
      (t.env.clausesOf "f").map (·.params.length) == [0, 1, 2, 3]) = true := by decide +kernel
  have hnew : Session.new.env.clausesOf "f" = [] :=
    Environment.clausesOf_of_not_contains (by decide)
  have hfinite : circle.Finite := FileSystem.finite_ofFiles _ _
  obtain ⟨x, t, hx, hrun, htexts, -, hnodup, hclauses⟩ :=
    loading_reads_each_file_once hfinite roundTrips .new
  rw [hrun] at hcomputed
  simp only [Option.any_some, Bool.and_eq_true, beq_iff_eq] at hcomputed
  obtain ⟨⟨hcomplete, hlength⟩, hparams⟩ := hcomputed
  have hopened : x.opened.length = 3 := by
    rw [htexts] at hlength
    simpa [fileTexts, Session.new] using hlength
  refine ⟨x, t, (hx x).mpr rfl, by rw [hrun, hcomplete], hopened, hnodup, ?_, hparams⟩
  rw [hclauses, hnew, List.nil_append]

end Session

end Clausal
