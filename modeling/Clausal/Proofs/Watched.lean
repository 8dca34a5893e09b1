import Clausal.Proofs.Complaint
import Clausal.Proofs.Expansion
import Clausal.Proofs.Table
import Clausal.Session

/-!
# Loading, watched

Loading as it is, with one thing more: it knows the texts that are being loaded, each inside the
one after it in the list, and an error comes with those that were being loaded when it arose
(`Mishap`). Leaving that out gives back loading (`Session.loadText_eq_watched`,
`Session.loadFile_eq_watched`).

* `Error.ArisesIn`: what an error is like that arises while a text is being loaded and no text
  inside it. It is a complaint about that text, or it says that a file cannot be had, and then it is
  located at the `use` in that text which names the file.
* `Session.Gains`: what loading files does to the texts that a session keeps. It only adds texts of
  files, so a text that the session quotes stays the one it quotes (`Session.Gains.quotes`).
* `Watched.includeFile_includes`: a file that is not loaded either cannot be had itself, or the
  error arises in the innermost of the texts that were being loaded, and the session quotes it.
-/

namespace Clausal

/-! ## Texts and files -/

/-- What stands under a path cannot be had, and this is why. -/
def FileSystem.Refuses (fs : FileSystem) (path : String) (cause : Cause) : Prop :=
  match fs.lookup path with
  | .error reason => cause = .cannotOpen path reason
  | .ok found => ∃ reason, found.text = .error reason ∧ cause = .cannotRead path reason

theorem FileSystem.Refuses.kind {fs : FileSystem} {path : String} {cause : Cause}
    (h : fs.Refuses path cause) : cause.kind = .runtime := by
  unfold Refuses at h
  split at h
  · rw [h]
    rfl
  · obtain ⟨reason, -, rfl⟩ := h
    rfl

theorem FileSystem.read_eq_ok {fs : FileSystem} {path text : String} {found : Found}
    (hfound : fs.lookup path = .ok found) (htext : found.text = .ok text) :
    fs.read path = .ok text := by
  rw [FileSystem.read, hfound]
  exact htext

/-- What can be read is not refused. -/
theorem FileSystem.Refuses.not_read {fs : FileSystem} {path text : String} {cause : Cause}
    (h : fs.Refuses path cause) : fs.read path ≠ .ok text := by
  unfold Refuses at h
  intro hread
  rw [FileSystem.read] at hread
  split at h
  · next hfound =>
    rw [hfound] at hread
    cases hread
  · next hfound =>
    obtain ⟨reason, htext, -⟩ := h
    rw [hfound] at hread
    cases htext.symm.trans hread

namespace Source

/-- The text is that of the file under its name. -/
def IsFile (fs : FileSystem) (o : Source) : Prop :=
  ∃ path, o.name = some path ∧ fs.read path = .ok o.text

/-- Where the files are found that a text uses: from the working directory, or from the directory
of the file that the text is in. -/
def StandsIn (fs : FileSystem) (base : String) (o : Source) : Prop :=
  match o.name with
  | none => base = "."
  | some path =>
    ∃ found, fs.lookup path = .ok found ∧ found.text = .ok o.text ∧ base = Path.parent found.path

end Source

/-- The error arose while the text was being loaded and no text inside it: it is a complaint about
the text, or a file that the text uses cannot be had. In both cases it is at a place of the text. -/
def Error.ArisesIn (e : Error) (fs : FileSystem) (isNative : String → Bool) (o : Source) : Prop :=
  ∃ p, e.position = some p ∧ p.file = o.name ∧ p.In o ∧
    (e.kind = .lexical ∨ e.kind = .grammar ∨
      e.kind = .runtime ∧ ∃ base path, o.StandsIn fs base ∧
        .use path p ∈ (Script.ofSource isNative o.text o.name).statements ∧
        fs.Refuses (Path.join base path) e.cause)

theorem Error.In.arisesIn {e : Error} {o : Source} (h : e.In o) (fs : FileSystem)
    (isNative : String → Bool) : e.ArisesIn fs isNative o := by
  obtain ⟨p, hp, hin⟩ := h.position
  exact ⟨p, hp, hin.file, hin, h.kind.imp_right .inl⟩

/-- An error that has a position keeps it. -/
theorem Error.ArisesIn.locate {e : Error} {fs : FileSystem} {isNative : String → Bool} {o : Source}
    (h : e.ArisesIn fs isNative o) (p : Position) : e.locate p = e := by
  obtain ⟨q, hq, -⟩ := h
  obtain ⟨cause, position⟩ := e
  obtain rfl : position = some q := hq
  rfl

/-! ## The texts that a session keeps -/

namespace Session

/-- The text that the session quotes under this name is this one. -/
def Quotes (s : Session) (o : Source) : Prop := s.sources.lookup o.name = some o.text

theorem quotes_remember (s : Session) (o : Source) : (s.remember o.name o.text).Quotes o := by
  unfold Quotes Session.remember
  exact List.lookup_cons_self

/-- All that loading files does to the kept texts is to add texts of files. No built-in function is
gained or lost, and no error becomes pending on the way. -/
structure Gains (fs : FileSystem) (s t : Session) : Prop where
  natives : t.env.isNative = s.env.isNative
  latch : t.latch = s.latch
  sources : ∃ new, t.sources = new ++ s.sources ∧
    ∀ file ∈ new, (Source.mk file.1 file.2).IsFile fs

namespace Gains

variable {fs : FileSystem} {s t u : Session}

theorem refl (s : Session) : Gains fs s s := ⟨rfl, rfl, [], rfl, List.forall_mem_nil _⟩

theorem trans (h : Gains fs s t) (h' : Gains fs t u) : Gains fs s u := by
  obtain ⟨new, heq, hnew⟩ := h.sources
  obtain ⟨newer, heq', hnewer⟩ := h'.sources
  refine ⟨h'.natives.trans h.natives, h'.latch.trans h.latch, newer ++ new, ?_, ?_⟩
  · rw [heq', heq, List.append_assoc]
  · exact fun file hfile => (List.mem_append.mp hfile).elim (hnewer file) (hnew file)

theorem mark (s : Session) (path : String) :
    Gains fs s { s with included := path :: s.included } :=
  ⟨rfl, rfl, [], rfl, List.forall_mem_nil _⟩

theorem store (s : Session) (store : Store Closure) : Gains fs s { s with store } :=
  ⟨rfl, rfl, [], rfl, List.forall_mem_nil _⟩

theorem commit (s : Session) (group : List Declaration) :
    Gains fs s { s with env := s.env.commit group } :=
  ⟨s.env.isNative_commit group, rfl, [], rfl, List.forall_mem_nil _⟩

theorem remember (s : Session) {path text : String} (h : fs.read path = .ok text) :
    Gains fs s (s.remember (some path) text) := by
  refine ⟨rfl, rfl, [(some path, text)], rfl, ?_⟩
  rintro file hfile
  obtain rfl := List.mem_singleton.mp hfile
  exact ⟨path, rfl, h⟩

/-- A text is still quoted after texts of other names, or of its own file, were added. -/
theorem quotes {o : Source} (h : Gains fs s t) (ho : o.name = none ∨ o.IsFile fs)
    (hs : s.Quotes o) : t.Quotes o := by
  obtain ⟨new, heq, hnew⟩ := h.sources
  rw [Quotes, heq]
  clear heq
  induction new with
  | nil => exact hs
  | cons file new ih =>
    obtain ⟨hfile, hnew⟩ := List.forall_mem_cons.mp hnew
    rw [List.cons_append, List.lookup_cons]
    split
    · next hname =>
      -- both texts are what the file of that name holds
      obtain ⟨path, hpath, hread⟩ := hfile
      replace hpath : o.name = some path := (eq_of_beq hname).trans hpath
      rcases ho with hnone | ⟨path', hpath', hread'⟩
      · rw [hnone] at hpath
        cases hpath
      · obtain rfl := Option.some.inj (hpath.symm.trans hpath')
        exact congrArg some (Except.ok.inj (hread.symm.trans hread'))
    · exact ih hnew

end Gains

end Session

/-! ## Loading with the texts that are being loaded -/

/-- An error, and the texts that were being loaded when it arose, the innermost first. -/
structure Mishap where
  error : Error
  loading : List Source

namespace Watched

open Session (includeDepth)

/-- A step of a session that fails with a mishap. -/
abbrev Step := Run Mishap Session

/-- `Session.statements` inside the texts `loading`. -/
def statements (load : String → Step Unit) (base : String) (loading : List Source) :
    Nat → Lexer → Step Unit
  | 0, _, _ => .exhausted
  | steps + 1, lexer, s =>
    match Parse.statement s.env.isNative lexer with
    | .ok none _ => .ok () s
    | .ok (some (.declarations group)) lexer =>
      statements load base loading steps lexer { s with env := s.env.commit group }
    | .ok (some (.use path position)) lexer =>
      match load (Path.join base path) s with
      | .ok _ s => statements load base loading steps lexer s
      | .fail m s => .fail { m with error := m.error.locate position } s
      | .exhausted => .exhausted
    | .fail e _ => .fail ⟨e, loading⟩ s
    | .exhausted => .exhausted

/-- `Session.loadSource` inside the texts `outer`. -/
def loadSource (load : List Source → String → Step Unit) (base : String) (outer : List Source)
    (o : Source) : Step Unit := fun s =>
  let s := s.remember o.name o.text
  match Lexer.ofSource o.text o.name with
  | .ok lexer => statements (load (o :: outer)) base (o :: outer) (Parse.stepsFor lexer) lexer s
  | .error e => .fail ⟨e, o :: outer⟩ s

/-- `Session.includeFile` inside the texts `loading`. -/
def includeFile (fs : FileSystem) : Nat → List Source → String → Step Unit
  | 0, _, _, _ => .exhausted
  | depth + 1, loading, path, s =>
    match fs.lookup path with
    | .error reason => .fail ⟨{ cause := .cannotOpen path reason }, loading⟩ s
    | .ok found =>
      if s.included.contains found.path then .ok () s
      else
        let s := { s with included := found.path :: s.included }
        match found.text with
        | .error reason => .fail ⟨{ cause := .cannotRead path reason }, loading⟩ s
        | .ok text =>
          loadSource (includeFile fs depth) (Path.parent found.path) loading ⟨some path, text⟩ s

/-- Load a file and everything it uses. -/
def loadFile (fs : FileSystem) (path : String) : Step Unit :=
  includeFile fs (includeDepth fs) [] path

/-- Load a text that is in no file. -/
def loadText (fs : FileSystem) (text : String) : Step Unit :=
  loadSource (includeFile fs (includeDepth fs)) "." [] ⟨none, text⟩

/-! ## Leaving out what is watched -/

theorem mapError_statements {load : String → Step Unit} {load' : String → Session.Step Unit}
    (hload : ∀ path, (load path).mapError Mishap.error = load' path) (base : String)
    (loading : List Source) (steps : Nat) (lexer : Lexer) :
    (statements load base loading steps lexer).mapError Mishap.error =
      Session.statements load' base steps lexer := by
  funext s
  induction steps generalizing lexer s with
  | zero => rfl
  | succ steps ih =>
    rw [Run.mapError, statements, Session.statements]
    cases Parse.statement s.env.isNative lexer with
    | ok found stop =>
      match found with
      | none => rfl
      | some (.declarations group) => exact ih stop _
      | some (.use path position) =>
        dsimp only
        rw [← hload, Run.mapError]
        cases load (Path.join base path) s with
        | ok _ t => exact ih stop t
        | fail m t => rfl
        | exhausted => rfl
    | fail e stop => rfl
    | exhausted => rfl

theorem mapError_loadSource {load : List Source → String → Step Unit}
    {load' : String → Session.Step Unit}
    (hload : ∀ loading path, (load loading path).mapError Mishap.error = load' path)
    (base : String) (outer : List Source) (o : Source) :
    (loadSource load base outer o).mapError Mishap.error =
      Session.loadSource load' base o.name o.text := by
  funext s
  rw [Run.mapError, loadSource, Session.loadSource]
  cases Lexer.ofSource o.text o.name with
  | ok lexer => exact congrFun (mapError_statements (hload _) base _ _ lexer) _
  | error e => rfl

theorem mapError_includeFile (fs : FileSystem) (depth : Nat) (loading : List Source)
    (path : String) :
    (includeFile fs depth loading path).mapError Mishap.error =
      Session.includeFile fs depth path := by
  induction depth generalizing loading path with
  | zero => rfl
  | succ depth ih =>
    funext s
    rw [Run.mapError, includeFile, Session.includeFile]
    cases fs.lookup path with
    | error reason => rfl
    | ok found =>
      dsimp only
      by_cases hseen : s.included.contains found.path = true
      · rw [if_pos hseen, if_pos hseen]
      · rw [if_neg hseen, if_neg hseen]
        cases found.text with
        | error reason => rfl
        | ok text => exact congrFun (mapError_loadSource ih _ loading ⟨some path, text⟩) _

end Watched

namespace Session

theorem loadText_eq_watched (fs : FileSystem) (text : String) :
    loadText fs text = recorded ((Watched.loadText fs text).mapError Mishap.error) := by
  rw [loadText, Watched.loadText, Watched.mapError_loadSource (Watched.mapError_includeFile fs _)]

theorem loadFile_eq_watched (fs : FileSystem) (path : String) :
    loadFile fs path = recorded ((Watched.loadFile fs path).mapError Mishap.error) := by
  rw [loadFile, Watched.loadFile, Watched.mapError_includeFile]

end Session

/-! ## Where a mishap arises -/

namespace Mishap

variable (m : Mishap) (fs : FileSystem)

/-- The file itself cannot be had, which shows before a text of it is being loaded. -/
structure Refused (path : String) (loading : List Source) : Prop where
  loading : m.loading = loading
  position : m.error.position = none
  cause : fs.Refuses path m.error.cause

/-- The mishap arose in the text `o`, inside the texts `loading`: `o` is the innermost of the texts
that were being loaded, the error arises in it, and the session `t` quotes it. -/
structure ArisesIn (isNative : String → Bool) (loading : List Source) (t : Session) (o : Source) :
    Prop where
  innermost : m.loading.head? = some o
  nested : ∃ inner, m.loading = inner ++ loading ∧ ∀ file ∈ inner, file.IsFile fs
  error : m.error.ArisesIn fs isNative o
  quoted : t.Quotes o

variable {m fs}

theorem ArisesIn.position {isNative : String → Bool} {loading : List Source} {t : Session}
    {o : Source} (h : m.ArisesIn fs isNative loading t o) :
    ∃ p, m.error.position = some p ∧ p.file = o.name := by
  obtain ⟨p, hp, hfile, -⟩ := h.error
  exact ⟨p, hp, hfile⟩

/-- What arises inside a file arises inside all that the file is inside of. -/
theorem ArisesIn.outside {isNative : String → Bool} {file : Source} {loading : List Source}
    {t : Session} {o : Source} (h : m.ArisesIn fs isNative (file :: loading) t o)
    (hfile : file.IsFile fs) : m.ArisesIn fs isNative loading t o := by
  obtain ⟨inner, hloading, hinner⟩ := h.nested
  refine ⟨h.innermost, ⟨inner ++ [file], ?_, ?_⟩, h.error, h.quoted⟩
  · rw [hloading, List.append_assoc]
    rfl
  · intro other hother
    rcases List.mem_append.mp hother with hother | hother
    · exact hinner other hother
    · obtain rfl := List.mem_singleton.mp hother
      exact hfile

/-- The innermost text is the one that was being loaded already, or the text of a file. -/
theorem ArisesIn.head_or_isFile {isNative : String → Bool} {loading : List Source} {t : Session}
    {o : Source} (h : m.ArisesIn fs isNative loading t o) :
    loading.head? = some o ∨ o.IsFile fs := by
  obtain ⟨inner, hloading, hinner⟩ := h.nested
  have hhead := h.innermost
  rw [hloading] at hhead
  cases inner with
  | nil => exact .inl hhead
  | cons file inner =>
    obtain rfl := Option.some.inj hhead
    exact .inr (hinner file List.mem_cons_self)

end Mishap

namespace Watched

variable {fs : FileSystem} {isNative : String → Bool} {s t : Session} {outer : List Source}
  {o : Source} {base : String}

/-- Loading only adds texts of files, and if it fails, then in this way. -/
def Ends (fs : FileSystem) (s : Session) (P : Mishap → Session → Prop) :
    Outcome Mishap Session Unit → Prop
  | .ok _ t => s.Gains fs t
  | .fail m t => s.Gains fs t ∧ P m t
  | .exhausted => True

theorem Ends.after {P : Mishap → Session → Prop} {r : Outcome Mishap Session Unit}
    (h : s.Gains fs t) (hr : Ends fs t P r) : Ends fs s P r := by
  cases r with
  | ok _ u => exact h.trans hr
  | fail m u => exact ⟨h.trans hr.1, hr.2⟩
  | exhausted => trivial

theorem Ends.imp {P Q : Mishap → Session → Prop} {r : Outcome Mishap Session Unit}
    (hr : Ends fs s P r) (h : ∀ m t, P m t → Q m t) : Ends fs s Q r := by
  cases r with
  | ok _ t => exact hr
  | fail m t => exact ⟨hr.1, h m t hr.2⟩
  | exhausted => trivial

/-- A file is not loaded: it cannot be had itself, or the mishap arises in its text or inside it. -/
def FileFails (fs : FileSystem) (isNative : String → Bool) (loading : List Source) (path : String)
    (m : Mishap) (t : Session) : Prop :=
  m.Refused fs path loading ∨
    ∃ text o, fs.read path = .ok text ∧ m.ArisesIn fs isNative (⟨some path, text⟩ :: loading) t o

/-- Files are loaded from inside the texts `loading`. -/
def Includes (fs : FileSystem) (isNative : String → Bool) (loading : List Source)
    (load : String → Step Unit) : Prop :=
  ∀ (path : String) (s : Session), s.env.isNative = isNative →
    Ends fs s (FileFails fs isNative loading path) (load path s)

/-- A file that a text uses is not loaded: if it cannot be had itself, the `use` is the place. -/
theorem arisesIn_locate {m : Mishap} {path : String} {p : Position}
    (hbase : o.StandsIn fs base) (hp : p.In o)
    (huse : .use path p ∈ (Script.ofSource isNative o.text o.name).statements) (ht : t.Quotes o)
    (h : FileFails fs isNative (o :: outer) (Path.join base path) m t) :
    ∃ o', Mishap.ArisesIn { m with error := m.error.locate p } fs isNative (o :: outer) t o' := by
  rcases h with h | ⟨text, o', hread, h⟩
  · refine ⟨o, by rw [h.loading]; rfl, ⟨[], h.loading, List.forall_mem_nil _⟩, ?_, ht⟩
    refine ⟨p, by rw [Error.locate, h.position]; rfl, hp.file, hp, ?_⟩
    exact .inr (.inr ⟨h.cause.kind, base, path, hbase, huse, h.cause⟩)
  · have hout := h.outside ⟨_, rfl, hread⟩
    exact ⟨o', hout.innermost, hout.nested, by rw [h.error.locate p]; exact h.error, h.quoted⟩

theorem statements_ends {load : String → Step Unit} (hload : Includes fs isNative (o :: outer) load)
    (hbase : o.StandsIn fs base) (ho : o.name = none ∨ o.IsFile fs) (steps : Nat) {lexer : Lexer}
    (hlexer : lexer.In o) (hnative : s.env.isNative = isNative) (hs : s.Quotes o)
    (hscript : (Script.ofLexer isNative lexer).statements ⊆
      (Script.ofSource isNative o.text o.name).statements) :
    Ends fs s (fun m t => ∃ o', m.ArisesIn fs isNative (o :: outer) t o')
      (statements load base (o :: outer) steps lexer s) := by
  -- the lexer stays in the text, and what it has still to give is part of the script of the text
  induction steps generalizing lexer s with
  | zero => trivial
  | succ steps ih =>
    rw [statements, hnative]
    have hstays := Parse.statement_staysIn isNative lexer hlexer
    cases hread : Parse.statement isNative lexer with
    | ok found stop =>
      rw [hread] at hstays
      match found with
      | none => exact .refl s
      | some (.declarations group) =>
        rw [Script.ofLexer_cons hread] at hscript
        have hgains : s.Gains fs { s with env := s.env.commit group } := .commit s group
        exact .after hgains (ih hstays (hgains.natives.trans hnative) (hgains.quotes ho hs)
          (List.cons_subset.mp hscript).2)
      | some (.use path p) =>
        rw [Script.ofLexer_cons hread] at hscript
        obtain ⟨huse, hrest⟩ := List.cons_subset.mp hscript
        obtain rfl := Parse.position_of_use hread
        have hended := hload (Path.join base path) s hnative
        dsimp only
        cases hrun : load (Path.join base path) s with
        | ok _ t =>
          rw [hrun] at hended
          exact .after hended (ih hstays (hended.natives.trans hnative) (hended.quotes ho hs)
            hrest)
        | fail m t =>
          rw [hrun] at hended
          obtain ⟨hgains, hm⟩ := hended
          exact ⟨hgains, arisesIn_locate hbase hlexer.current.isIn huse (hgains.quotes ho hs) hm⟩
        | exhausted => trivial
    | fail e stop =>
      rw [hread] at hstays
      refine ⟨.refl s, o, rfl, ⟨[], rfl, List.forall_mem_nil _⟩, ?_, hs⟩
      exact Error.In.arisesIn hstays.isIn fs isNative
    | exhausted => trivial

/-- Loading a text fails in the text itself or in one inside it. -/
theorem loadSource_ends {load : List Source → String → Step Unit}
    (hload : ∀ loading, Includes fs isNative loading (load loading)) (hbase : o.StandsIn fs base)
    (ho : o.name = none ∨ o.IsFile fs) (hnative : s.env.isNative = isNative)
    (outer : List Source) :
    Ends fs (s.remember o.name o.text) (fun m t => ∃ o', m.ArisesIn fs isNative (o :: outer) t o')
      (loadSource load base outer o s) := by
  have hquotes := s.quotes_remember o
  rw [loadSource]
  cases hlexer : Lexer.ofSource o.text o.name with
  | ok lexer =>
    refine statements_ends (hload _) hbase ho _ (Lexer.ofSource_in hlexer) hnative hquotes ?_
    rw [Script.ofSource, hlexer]
    exact List.Subset.refl _
  | error e =>
    refine ⟨.refl _, o, rfl, ⟨[], rfl, List.forall_mem_nil _⟩, ?_, hquotes⟩
    exact Error.In.arisesIn (Lexer.error_marks hlexer).isIn fs isNative

theorem includeFile_includes (fs : FileSystem) (isNative : String → Bool) (depth : Nat)
    (loading : List Source) : Includes fs isNative loading (includeFile fs depth loading) := by
  induction depth generalizing loading with
  | zero => exact fun path s hnative => trivial
  | succ depth ih =>
    intro path s hnative
    rw [includeFile]
    cases hfound : fs.lookup path with
    | error reason =>
      refine ⟨.refl s, .inl ⟨rfl, rfl, ?_⟩⟩
      rw [FileSystem.Refuses, hfound]
    | ok found =>
      dsimp only
      split
      · exact .refl s
      · cases htext : found.text with
        | error reason =>
          refine ⟨.mark s found.path, .inl ⟨rfl, rfl, ?_⟩⟩
          rw [FileSystem.Refuses, hfound]
          exact ⟨reason, htext, rfl⟩
        | ok text =>
          have hread : fs.read path = .ok text := FileSystem.read_eq_ok hfound htext
          have hfile : Source.IsFile fs ⟨some path, text⟩ := ⟨path, rfl, hread⟩
          have hbase : Source.StandsIn fs (Path.parent found.path) ⟨some path, text⟩ :=
            ⟨found, hfound, htext, rfl⟩
          refine .after ((Session.Gains.mark s found.path).trans (.remember _ hread)) ?_
          have hended := loadSource_ends (s := { s with included := found.path :: s.included })
            ih hbase (.inr hfile) hnative loading
          exact hended.imp fun m t ⟨o, hm⟩ => .inr ⟨text, o, hread, hm⟩

end Watched

end Clausal
