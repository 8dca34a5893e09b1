import Clausal.Proofs.Expansion
import Clausal.Proofs.Globals
import Clausal.Proofs.Labelled
import Clausal.Proofs.Linking
import Clausal.Proofs.Seam
import Clausal.Proofs.Table
import Clausal.Session

/-!
# Loading in pieces

Two texts of declarations, loaded one after the other, make the same table of functions as the two
texts in one, with a line break between them.

* `Declares`: a text holds these declarations and nothing else. Two such texts in one hold the
  declarations of both (`Declares.append`), and loading such a text lets its declarations take
  effect as one group (`Session.loadText_eq`).
* `Environment.given_commit_append`: a group that takes effect together with a second one gives the
  clauses it gives alone, with the names of the second linked.
* `Session.pieces_agree_with_whole`: the result.
-/

namespace Clausal

/-! ## Texts of declarations -/

namespace Parse

variable {isNative : String → Bool} {lexer stop : Lexer} {steps : Nat} {group : List Declaration}

theorem declarations_of_not_let (h : lexer.current.kind.isKeyword .letWord = false) (steps : Nat) :
    declarations isNative (steps + 1) lexer = .ok [] lexer := by
  rw [declarations_succ, if_neg (by rw [h]; decide)]

/-- A call is no declaration. -/
example : (Lexer.ofSource "f(2)" none).toOption.map (fun lexer =>
    (declarations (fun _ => false) 1 lexer).passes fun group _ => group.isEmpty) = some true := by
  decide +kernel

/-- Declarations are read until there is no more. -/
theorem declarations_stop (h : declarations isNative steps lexer = .ok group stop) :
    stop.current.kind.isKeyword .letWord = false := by
  induction steps generalizing lexer group with
  | zero => cases h
  | succ steps ih =>
    cases hlet : lexer.current.kind.isKeyword .letWord with
    | false =>
      rw [declarations_of_not_let hlet] at h
      cases h
      exact hlet
    | true =>
      rw [declarations_succ, if_pos hlet] at h
      obtain ⟨d, mid, -, hrest⟩ := Run.bind_eq_ok_iff.mp h
      obtain ⟨ds, last, hds, hlast⟩ := Run.bind_eq_ok_iff.mp hrest
      cases hlast
      exact ih hds

theorem eq_keyword_of_isKeyword {k : Token.Kind} {w : Keyword} (h : k.isKeyword w = true) :
    k = .keyword w := by
  cases k with
  | keyword w' =>
    obtain rfl : w = w' := by simpa [Token.Kind.isKeyword] using h
    rfl
  | _ => cases h

/-- If nothing but declarations is read, there is one at the start, or nothing at all. -/
theorem declarations_first (h : declarations isNative steps lexer = .ok group stop)
    (hstop : stop.current.kind = .eof) :
    lexer.current.kind = .eof ∧ group = [] ∨ lexer.current.kind = .keyword .letWord := by
  cases steps with
  | zero => cases h
  | succ steps =>
    cases hlet : lexer.current.kind.isKeyword .letWord with
    | true => exact .inr (eq_keyword_of_isKeyword hlet)
    | false =>
      rw [declarations_of_not_let hlet] at h
      cases h
      exact .inl ⟨hstop, rfl⟩

/-- From the same token and with the same characters left, the same declarations are read. -/
theorem declarations_alike {other : Lexer}
    (h : declarations isNative steps lexer = .ok group stop) (hstop : stop.current.kind = .eof)
    (hkind : other.current.kind = lexer.current.kind)
    (hrest : other.cursor.rest = lexer.cursor.rest) (steps' : Nat) :
    declarations isNative steps' other = .exhausted ∨
      ∃ stop', declarations isNative steps' other = .ok group stop' ∧
        stop'.current.kind = .eof := by
  -- at the end of a text nothing more is read
  have hend {last : Lexer} (hlast : last.current.kind = .eof) (n : Nat) :
      declarations isNative n last = .exhausted ∨
        declarations isNative n last = .ok [] last := by
    cases n with
    | zero => exact .inl rfl
    | succ n => exact .inr (declarations_of_not_let (by rw [hlast]; rfl) n)
  rcases declarations_first h hstop with ⟨heof, rfl⟩ | hlet
  · have hother := hkind.trans heof
    exact (hend hother steps').imp_right fun hrun => ⟨other, hrun, hother⟩
  · have hjoins : Seam.nothing.Joins lexer other :=
      .inside (by rw [hlet]; rfl) hkind (by rw [hrest]; exact (List.append_nil _).symm)
    obtain hout | ⟨rest, stop', hstop', heq⟩ := declarations_mirror hjoins h steps'
    · exact .inl hout
    have hlast : stop'.current.kind = .eof := (hstop'.crossed hstop).1
    rw [heq]
    rcases hend hlast rest with hout | hnone
    · exact .inl (Run.bind_exhausted hout)
    · rw [Run.bind_ok hnone, List.append_nil]
      exact .inr ⟨stop', rfl, hlast⟩

theorem declarations_ne_exhausted (isNative : String → Bool) (h : lexer.left < steps) :
    declarations isNative steps lexer ≠ .exhausted := by
  intro hrun
  have hhalts := declarations_halt isNative h
  rw [Halts, hrun] at hhalts
  exact hhalts

end Parse

/-- The text holds these declarations and nothing else. -/
def Declares (isNative : String → Bool) (text : String) (group : List Declaration) : Prop :=
  ∃ lexer steps stop, Lexer.ofSource text none = .ok lexer ∧
    Parse.declarations isNative steps lexer = .ok group stop ∧ stop.current.kind = .eof

/-- The declarations of a text that holds nothing else. -/
def declarations? (isNative : String → Bool) (text : String) : Option (List Declaration) :=
  match Lexer.ofSource text none with
  | .error _ => none
  | .ok lexer =>
    match Parse.declarations isNative (Parse.stepsFor lexer) lexer with
    | .ok group stop => if stop.current.kind.isEof then some group else none
    | .fail .. | .exhausted => none

theorem declares_of_declarations? {isNative : String → Bool} {text : String}
    {group : List Declaration} (h : declarations? isNative text = some group) :
    Declares isNative text group := by
  unfold declarations? at h
  split at h
  · cases h
  next lexer hlexer =>
  split at h
  · next found stop hrun =>
    split at h
    · next heof =>
      cases h
      refine ⟨lexer, _, stop, hlexer, hrun, ?_⟩
      cases hkind : stop.current.kind <;> rw [hkind] at heof <;> first | rfl | cases heof
    · cases h
  · cases h
  · cases h

section

variable {isNative : String → Bool} {a b : String} {before after : List Declaration}

/-- Two texts in one hold the declarations of both. -/
theorem Declares.append (ha : Declares isNative a before) (hb : Declares isNative b after) :
    Declares isNative (a ++ "\n" ++ b) (before ++ after) := by
  obtain ⟨first, steps, stop, hfirst, hbefore, hstop⟩ := ha
  obtain ⟨second, steps', stop', hsecond, hafter, hstop'⟩ := hb
  let seam := Seam.line hsecond ((Parse.declarations_first hafter hstop').imp_left (·.1))
  rw [Lexer.ofSource] at hfirst
  split at hfirst
  case h_2 => cases hfirst
  next token cursor hscan =>
  cases hfirst
  obtain ⟨token', cursor', hscan', hjoins⟩ := Seam.Joins.of_scan seam hscan none {}
  have hwhole : Lexer.ofSource (a ++ "\n" ++ b) none = .ok ⟨cursor', none, token'⟩ := by
    have hchars : (a ++ "\n" ++ b).toList = a.toList ++ seam.tail := by
      simp [seam, Seam.line]
    rw [Lexer.ofSource, Cursor.ofSource, hchars, hscan']
  generalize (⟨cursor', none, token'⟩ : Lexer) = whole at hwhole hjoins
  have hruns := Parse.declarations_ne_exhausted isNative (Nat.lt_succ_self whole.left)
  obtain hout | ⟨rest, middle, hmiddle, heq⟩ :=
    Parse.declarations_mirror hjoins hbefore (whole.left + 1)
  · exact absurd hout hruns
  obtain ⟨hkind, hrest⟩ := hmiddle.crossed hstop
  rw [heq] at hruns
  obtain hout | ⟨last, hlast, hend⟩ := Parse.declarations_alike hafter hstop' hkind hrest rest
  · exact absurd (Run.bind_exhausted hout) hruns
  · rw [Run.bind_ok hlast] at heq
    exact ⟨whole, _, last, hwhole, heq, hend⟩

end

/-! ## Loading texts of declarations -/

/-- Every statement is a group of declarations. -/
def Script.OnlyDeclares (script : Script) : Prop :=
  ∀ s ∈ script.statements, ∃ group, s = .declarations group

namespace Parse

variable {isNative : String → Bool} {lexer stop : Lexer}

/-- What a statement can be. -/
theorem statement_cases {found : Option Statement}
    (h : statement isNative lexer = .ok found stop) :
    lexer.current.kind = .eof ∧ found = none ∧ stop = lexer ∨
    (∃ path position, found = some (.use path position)) ∨
    lexer.current.kind = .keyword .letWord ∧ ∃ group, found = some (.declarations group) ∧
      declarations isNative (stepsFor lexer) lexer = .ok group stop := by
  obtain ⟨k, mid, hk, hrun⟩ := Run.bind_eq_ok_iff.mp h
  obtain ⟨hkind, rfl⟩ : lexer.current.kind = k ∧ lexer = mid := by
    cases hk
    exact ⟨rfl, rfl⟩
  split at hrun
  · cases hrun
    exact .inl ⟨hkind, rfl, rfl⟩
  · obtain ⟨use, last, huse, hlast⟩ := Run.bind_eq_ok_iff.mp hrun
    cases hlast
    obtain ⟨start, _, hstart, huse⟩ := Run.bind_eq_ok_iff.mp huse
    obtain ⟨_, _, -, huse⟩ := Run.bind_eq_ok_iff.mp huse
    obtain ⟨operand, _, -, huse⟩ := Run.bind_eq_ok_iff.mp huse
    obtain ⟨_, _, -, huse⟩ := Run.bind_eq_ok_iff.mp huse
    split at huse
    · cases huse
      exact .inr (.inl ⟨_, _, rfl⟩)
    · cases huse
  · obtain ⟨steps, _, hsteps, hrun⟩ := Run.bind_eq_ok_iff.mp hrun
    cases hsteps
    obtain ⟨group, last, hgroup, hlast⟩ := Run.bind_eq_ok_iff.mp hrun
    cases hlast
    exact .inr (.inr ⟨hkind, group, rfl, hgroup⟩)
  · cases hrun

theorem statement_of_let {group : List Declaration} (hlet : lexer.current.kind = .keyword .letWord)
    (h : declarations isNative (stepsFor lexer) lexer = .ok group stop) :
    statement isNative lexer = .ok (some (.declarations group)) stop := by
  have hkind : kind lexer = .ok (.keyword .letWord) lexer := congrArg (Outcome.ok · lexer) hlet
  rw [statement, Run.bind_ok hkind]
  simp only [Bind.bind, Run.bind, Run.read, h]
  rfl

/-- Declarations and nothing else are one statement, or none. -/
theorem statement_of_declarations {steps : Nat} {group : List Declaration}
    (h : declarations isNative steps lexer = .ok group stop) (hstop : stop.current.kind = .eof) :
    lexer.current.kind = .eof ∧ group = [] ∨
      ∃ stop', statement isNative lexer = .ok (some (.declarations group)) stop' ∧
        stop'.current.kind = .eof := by
  refine (declarations_first h hstop).imp_right fun hlet => ?_
  obtain hout | ⟨stop', hrun, hend⟩ := declarations_alike h hstop rfl rfl (stepsFor lexer)
  · have hsteps := left_le_stepsFor lexer
    exact absurd hout (declarations_ne_exhausted isNative (by omega))
  · exact ⟨stop', statement_of_let hlet hrun, hend⟩

end Parse

/-- What a text of declarations is as a script: one group, or nothing. -/
theorem Declares.statements_eq {isNative : String → Bool} {text : String}
    {group : List Declaration} (h : Declares isNative text group) :
    (Script.ofSource isNative text none).statements = [] ∧ group = [] ∨
      (Script.ofSource isNative text none).statements = [.declarations group] := by
  obtain ⟨lexer, steps, stop, hlexer, hrun, hstop⟩ := h
  have hend {last : Lexer} (hlast : last.current.kind = .eof) :
      Script.ofLexer isNative last = ⟨[], true⟩ :=
    Script.ofLexer_end (Parse.statement_of_eof isNative hlast)
  simp only [Script.ofSource, hlexer]
  rcases Parse.statement_of_declarations hrun hstop with ⟨hlast, rfl⟩ | ⟨stop', hfound, hlast⟩
  · rw [hend hlast]
    exact .inl ⟨rfl, rfl⟩
  · rw [Script.ofLexer_cons hfound, hend hlast]
    exact .inr rfl

theorem Declares.only {isNative : String → Bool} {text : String} {group : List Declaration}
    (h : Declares isNative text group) : (Script.ofSource isNative text none).OnlyDeclares := by
  intro st hst
  rcases h.statements_eq with ⟨hnone, -⟩ | hone
  · rw [hnone] at hst
    cases hst
  · rw [hone] at hst
    exact ⟨group, List.mem_singleton.mp hst⟩

namespace Session

variable {isNative : String → Bool} {load : String → Step Unit} {base : String} {lexer : Lexer}
  {s t : Session}

theorem statements_of_eof (h : lexer.current.kind = .eof) (steps : Nat) :
    statements load base (steps + 1) lexer s = .ok () s := by
  rw [statements, Parse.statement_of_eof _ h]

/-- One step through statements that are all declarations. -/
theorem statements_cases {steps : Nat} (hnative : s.env.isNative = isNative)
    (honly : (Script.ofLexer isNative lexer).OnlyDeclares)
    (h : statements load base steps lexer s = .ok () t) :
    lexer.current.kind = .eof ∧ t = s ∨
    lexer.current.kind = .keyword .letWord ∧ ∃ steps' group stop,
      Parse.declarations isNative (Parse.stepsFor lexer) lexer = .ok group stop ∧
      (Script.ofLexer isNative stop).OnlyDeclares ∧
      statements load base steps' stop { s with env := s.env.commit group } = .ok () t := by
  cases steps with
  | zero => cases h
  | succ steps =>
    rw [statements, hnative] at h
    cases hfound : Parse.statement isNative lexer with
    | fail e stop =>
      rw [hfound] at h
      cases h
    | exhausted =>
      rw [hfound] at h
      cases h
    | ok found stop =>
      rw [hfound] at h
      obtain ⟨hend, rfl, rfl⟩ | ⟨path, position, rfl⟩ | ⟨hlet, group, rfl, hgroup⟩ :=
        Parse.statement_cases hfound
      · cases h
        exact .inl ⟨hend, rfl⟩
      · rw [Script.ofLexer_cons hfound] at honly
        obtain ⟨group, hgroup⟩ := honly _ List.mem_cons_self
        cases hgroup
      · rw [Script.ofLexer_cons hfound] at honly
        exact .inr ⟨hlet, steps, group, stop, hgroup,
          fun st hst => honly st (List.mem_cons_of_mem _ hst), h⟩

/-- What is loaded of a text whose statements are all declarations: one group. -/
theorem exists_declares {fs : FileSystem} {text : String}
    (honly : (Script.ofSource s.env.isNative text none).OnlyDeclares)
    (h : loadText fs text s = .ok () t) :
    ∃ group, Declares s.env.isNative text group ∧ t.env = s.env.commit group ∧
      t.store = s.store := by
  rw [loadText, recorded] at h
  split at h
  · next _ _ hload =>
    cases h
    rw [loadSource] at hload
    rw [Script.ofSource] at honly
    split at hload
    · next lexer hlexer =>
      rw [hlexer] at honly
      obtain ⟨hend, rfl⟩ | ⟨-, steps, group, stop, hgroup, honly', hrest⟩ :=
        statements_cases (s := s.remember none text) rfl honly hload
      · refine ⟨[], ⟨lexer, 1, lexer, hlexer, ?_, hend⟩, rfl, rfl⟩
        exact Parse.declarations_of_not_let (by rw [hend]; rfl) 0
      · -- no declaration stands where declarations have just been read
        obtain ⟨hend, rfl⟩ | ⟨hlet, -⟩ :=
          statements_cases (s.env.isNative_commit group) honly' hrest
        · exact ⟨group, ⟨lexer, _, stop, hlexer, hgroup, hend⟩, rfl, rfl⟩
        · have hstop := Parse.declarations_stop hgroup
          rw [hlet] at hstop
          cases hstop
    · cases hload
  · cases h
  · cases h

/-- A text of declarations can be loaded, and all of them take effect as one group. -/
theorem loadText_eq {fs : FileSystem} {text : String} {group : List Declaration}
    (h : Declares s.env.isNative text group) :
    loadText fs text s = .ok () { s.remember none text with env := s.env.commit group } := by
  obtain ⟨lexer, steps, stop, hlexer, hrun, hstop⟩ := h
  obtain ⟨n, hn⟩ : ∃ n, Parse.stepsFor lexer = n + 1 + 1 :=
    ⟨Parse.stepsFor lexer - 2, by unfold Parse.stepsFor; omega⟩
  have hstatements : statements (includeFile fs (includeDepth fs)) "." (Parse.stepsFor lexer) lexer
      (s.remember none text) =
        .ok () { s.remember none text with env := s.env.commit group } := by
    rw [hn]
    rcases Parse.statement_of_declarations hrun hstop with ⟨hend, rfl⟩ | ⟨stop', hfound, hend⟩
    · exact statements_of_eof hend _
    · rw [statements]
      have hnative : (s.remember none text).env.isNative = s.env.isNative := rfl
      rw [hnative, hfound]
      exact statements_of_eof hend _
  rw [loadText, recorded, loadSource, hlexer]
  simp only [hstatements]

end Session

/-! ## The table -/

/-- The entry without clauses. -/
def Definition.bare : Definition → Definition
  | .native fn => .native fn
  | .declared n _ => .declared n []

namespace Environment

/-- The table without clauses: names and built-in functions in their order. -/
def outline (env : Environment) : List Definition := env.definitions.map (·.bare)

/-- Whether the function in a slot takes clauses. -/
def takes (env : Environment) (slot : Nat) : Bool := env.outline[slot]?.any (!·.isNative)

variable {env env' : Environment}

theorem names_of_outline (h : env'.outline = env.outline) : env'.names = env.names := by
  have hnames (env : Environment) : env.names = env.outline.map (·.name) := by
    rw [names, outline, List.map_map]
    refine List.map_congr_left fun d _ => ?_
    cases d <;> rfl
  rw [hnames env', hnames env, h]

theorem functions_of_outline (h : env'.outline = env.outline) : env'.functions = env.functions := by
  have hfunctions (env : Environment) :
      env.functions = env.outline.zipIdx.map fun p => p.1.function p.2 := by
    rw [functions, outline, List.zipIdx_map, List.map_map]
    refine List.map_congr_left fun d _ => ?_
    obtain ⟨d, slot⟩ := d
    cases d <;> rfl
  rw [hfunctions env', hfunctions env, h]

theorem outline_declare (env : Environment) (name : String) :
    (env.declare name).outline =
      if env.contains name then env.outline else env.outline ++ [.declared name []] := by
  cases h : env.contains name with
  | true => rw [declare_of_contains h, if_pos rfl]
  | false =>
    rw [outline, declare_of_not_contains h, List.map_append]
    rfl

theorem outline_declareAll (h : env'.outline = env.outline) (group : List Declaration) :
    (env'.declareAll group).outline = (env.declareAll group).outline := by
  induction group generalizing env env' with
  | nil => exact h
  | cons d group ih =>
    rw [declareAll_cons, declareAll_cons]
    refine ih ?_
    rw [outline_declare, outline_declare, contains_congr (names_of_outline h), h]

theorem outline_commit (env : Environment) (group : List Declaration) :
    (env.commit group).outline = (env.declareAll group).outline := by
  apply List.ext_getElem?
  intro slot
  rw [outline, commit_definitions, outline, List.getElem?_map, List.getElem?_mapIdx,
    List.getElem?_map]
  cases (env.declareAll group).definitions[slot]? with
  | none => rfl
  | some d => cases d <;> rfl

/-- The functions are the same whether two groups take effect one after the other or as one. -/
theorem outline_commit_append (env : Environment) (before after : List Declaration) :
    (env.commit (before ++ after)).outline = ((env.commit before).commit after).outline := by
  have happend : env.declareAll (before ++ after) = (env.declareAll before).declareAll after :=
    List.foldl_append
  rw [outline_commit, outline_commit, happend]
  exact (outline_declareAll (env.outline_commit before) after).symm

/-- A function has no clauses before it is given any. -/
theorem clausesAt_declareAll (env : Environment) (group : List Declaration) (slot : Nat) :
    (env.declareAll group).clausesAt slot = env.clausesAt slot := by
  obtain ⟨fresh, -, -, htable⟩ := env.exists_declareAll group
  rw [clausesAt, clausesAt, htable]
  by_cases hslot : slot < env.definitions.length
  · rw [List.getElem?_append_left hslot]
  · rw [List.getElem?_append_right (by omega), List.getElem?_eq_none (by omega : _ ≤ slot),
      List.getElem?_map]
    cases fresh[slot - env.definitions.length]? <;> rfl

theorem clausesAt_commit (env : Environment) (group : List Declaration) (slot : Nat) :
    (env.commit group).clausesAt slot = env.clausesAt slot ++
      if (env.commit group).takes slot then (env.commit group).given group slot else [] := by
  rw [← env.clausesAt_declareAll group, takes, outline_commit, outline, clausesAt, clausesAt,
    env.commit_definitions group, List.getElem?_mapIdx, List.getElem?_map]
  cases (env.declareAll group).definitions[slot]? with
  | none => rfl
  | some d => cases d <;> simp [Definition.append, Definition.clauses?, Definition.bare,
      Definition.isNative]

/-- A slot that is taken stays what it is. -/
theorem takes_commit {group : List Declaration} {slot : Nat} (h : slot < env.definitions.length) :
    (env.commit group).takes slot = env.takes slot := by
  obtain ⟨fresh, -, -, htable⟩ := env.exists_declareAll group
  rw [takes, takes, outline_commit, outline, outline, htable, List.map_append,
    List.getElem?_append_left (by rwa [List.length_map])]

/-- There are no clauses for slots behind the table. -/
theorem given_eq_nil {group : List Declaration} {slot : Nat}
    (h : (env.commit group).definitions.length ≤ slot) :
    (env.commit group).given group slot = [] := by
  rw [given, List.map_eq_nil_iff, List.filter_eq_nil_iff]
  intro d hd hslot
  have hcontains : (env.commit group).contains d.name = true := by
    rw [contains_congr (env.names_commit group)]
    exact contains_declareAll hd
  have hlt := contains_iff_slotOf.mp hcontains
  rw [beq_iff_eq] at hslot
  omega

variable (env) (before after : List Declaration) (slot : Nat)

/-- The names that only the second of two groups makes known. -/
def linked : String → Bool :=
  newlyKnown (env.commit before).contains ((env.commit before).commit after).contains

/-- A group that takes effect together with a second one gives the clauses that it gives alone, with
the names of the second linked. -/
theorem given_commit_append :
    (env.commit (before ++ after)).given (before ++ after) slot =
      ((env.commit before).given before slot).map (Clause.link (env.linked before after)) ++
        ((env.commit before).commit after).given after slot := by
  have hnames := names_of_outline (env.outline_commit_append before after)
  simp only [given, slotOf_congr hnames, contains_congr hnames, List.filter_append,
    List.map_append, List.map_map]
  congr 1
  have hslot : ∀ d ∈ before, ((env.commit before).commit after).slotOf d.name =
      (env.commit before).slotOf d.name := by
    intro d hd
    obtain ⟨fresh, -, -, htable⟩ := (env.commit before).exists_declareAll after
    rw [slotOf_congr (names_commit _ _)]
    refine slotOf_append htable ?_
    rw [contains_congr (env.names_commit before)]
    exact contains_declareAll hd
  rw [List.filter_congr fun d hd => by rw [hslot d hd]]
  refine List.map_congr_left fun d _ => ?_
  refine Clause.resolve_eq_link (fun n hn => ?_) [] d.clause
  rw [contains_commit]
  exact Bool.or_eq_true_iff.mpr (.inl hn)

/-- The clauses of each function, whether two groups take effect one after the other or as one. -/
theorem clausesAt_commit_append :
    ∃ given more, (env.commit before).clausesAt slot = env.clausesAt slot ++ given ∧
      ((env.commit before).commit after).clausesAt slot =
        (env.commit before).clausesAt slot ++ more ∧
      (env.commit (before ++ after)).clausesAt slot =
        env.clausesAt slot ++ given.map (Clause.link (env.linked before after)) ++ more := by
  refine ⟨_, _, env.clausesAt_commit before slot, (env.commit before).clausesAt_commit after slot,
    ?_⟩
  rw [clausesAt_commit, given_commit_append, takes, outline_commit_append, ← takes,
    List.append_assoc]
  congr 1
  by_cases hslot : slot < (env.commit before).definitions.length
  · rw [takes_commit hslot]
    cases (env.commit before).takes slot <;> simp
  · rw [given_eq_nil (by omega), List.map_nil, List.nil_append, ite_self, List.map_nil,
      List.nil_append]

end Environment

/-! ## Both together -/

namespace Session

/-- Loading in pieces agrees with loading at once. If two texts of declarations can be loaded one
after the other, then so can the two in one, with a line break between them. The functions are the
same then, in the same order, and so are the clauses of each, except that in those of the first text
the unresolved symbols of names that the second text has made known stand for functions. -/
theorem pieces_agree_with_whole {fs : FileSystem} {a b : String} {s t u : Session}
    (ha : (Script.ofSource s.env.isNative a none).OnlyDeclares)
    (hb : (Script.ofSource t.env.isNative b none).OnlyDeclares)
    (hfirst : loadText fs a s = .ok () t) (hsecond : loadText fs b t = .ok () u) :
    ∃ v, loadText fs (a ++ "\n" ++ b) s = .ok () v ∧ v.env.functions = u.env.functions ∧
      ∀ slot, ∃ given more,
        t.env.clausesAt slot = s.env.clausesAt slot ++ given ∧
        u.env.clausesAt slot = t.env.clausesAt slot ++ more ∧
        v.env.clausesAt slot = s.env.clausesAt slot ++
          given.map (Clause.link (newlyKnown t.env.contains u.env.contains)) ++ more := by
  obtain ⟨before, hbefore, ht, -⟩ := exists_declares ha hfirst
  obtain ⟨after, hafter, hu, -⟩ := exists_declares hb hsecond
  rw [ht, s.env.isNative_commit before] at hafter
  refine ⟨_, loadText_eq (hbefore.append hafter), ?_⟩
  rw [hu, ht]
  exact ⟨Environment.functions_of_outline (s.env.outline_commit_append before after),
    s.env.clausesAt_commit_append before after⟩

/-- A call of a function that only the second text declares, in front of a comment that the line
break closes. -/
theorem pieces_agree_with_whole_call :
    ∃ t u v, loadText (.ofFiles "/" []) "let f(x) = g(x) ; not yet" .new = .ok () t ∧
      loadText (.ofFiles "/" []) "let g(x) = x" t = .ok () u ∧
      loadText (.ofFiles "/" []) "let f(x) = g(x) ; not yet\nlet g(x) = x" .new = .ok () v ∧
      v.env.functions = u.env.functions ∧
      (u.env.clausesOf "f").map (·.globals) = [[]] ∧
      (v.env.clausesOf "f").map (·.globals) = [["g"]] := by
  have hdeclares (text : String) (h : (declarations? Session.new.env.isNative text).isSome = true) :
      ∃ group, Declares Session.new.env.isNative text group := by
    obtain ⟨group, hgroup⟩ := Option.isSome_iff_exists.mp h
    exact ⟨group, declares_of_declarations? hgroup⟩
  obtain ⟨before, hbefore⟩ := hdeclares "let f(x) = g(x) ; not yet" (by decide +kernel)
  obtain ⟨after, hafter⟩ := hdeclares "let g(x) = x" (by decide +kernel)
  obtain ⟨t, ht, henv⟩ : ∃ t, loadText (.ofFiles "/" []) "let f(x) = g(x) ; not yet" .new =
      .ok () t ∧ t.env = Session.new.env.commit before := ⟨_, loadText_eq hbefore, rfl⟩
  have hnative : t.env.isNative = Session.new.env.isNative := by
    rw [henv, Environment.isNative_commit]
  rw [← hnative] at hafter
  obtain ⟨u, hu⟩ : ∃ u, loadText (.ofFiles "/" []) "let g(x) = x" t = .ok () u :=
    ⟨_, loadText_eq hafter⟩
  obtain ⟨v, hv, hfunctions, -⟩ := pieces_agree_with_whole hbefore.only hafter.only ht hu
  have hpieces : ((loadText (.ofFiles "/" []) "let f(x) = g(x) ; not yet" .new).passes fun _ t =>
      (loadText (.ofFiles "/" []) "let g(x) = x" t).passes fun _ u =>
        (u.env.clausesOf "f").map (·.globals) == [[]]) = true := by decide +kernel
  have hwhole : ((loadText (.ofFiles "/" []) "let f(x) = g(x) ; not yet\nlet g(x) = x" .new).passes
      fun _ v => (v.env.clausesOf "f").map (·.globals) == [["g"]]) = true := by decide +kernel
  have hv' : loadText (.ofFiles "/" []) "let f(x) = g(x) ; not yet\nlet g(x) = x" .new = .ok () v :=
    hv
  simp only [ht, hu, Outcome.passes, beq_iff_eq] at hpieces
  simp only [hv', Outcome.passes, beq_iff_eq] at hwhole
  exact ⟨t, u, v, ht, hu, hv', hfunctions, hpieces, hwhole⟩

end Session

end Clausal
