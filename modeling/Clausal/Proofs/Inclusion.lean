import Clausal.Proofs.Course

/-!
# Files that failed to load

A file is marked as loaded when its loading begins, and nothing ever takes the mark away
(`Session.tracks_included`). That keeps files that use each other from being loaded for ever, but
it holds also of a file whose loading fails: from then on it is passed over without an error
(`Session.includeFile_of_included`), and what it has not declared by then it never declares. Only a
path under which nothing is found stays an error (`Session.includeFile_not_found`).
-/

namespace Clausal

namespace Session

/-! ## Marks -/

/-- No mark is ever taken away. -/
theorem tracks_included : Tracks fun s t => s.included ⊆ t.included where
  refl s := List.Subset.refl s.included
  trans := List.Subset.trans
  remember s _ _ := List.Subset.refl s.included
  mark s path := List.subset_cons_self path s.included
  store s _ := List.Subset.refl s.included
  latch s _ := List.Subset.refl s.included
  commit s _ _ _ _ _ := List.Subset.refl s.included

variable {fs : FileSystem} {path : String} {found : Found} {s t : Session}

/-- A file that is marked is passed over. -/
theorem includeFile_of_included (hfound : fs.lookup path = .ok found)
    (hs : found.path ∈ s.included) (depth : Nat) :
    includeFile fs (depth + 1) path s = .ok () s := by
  rw [includeFile, hfound]
  exact if_pos (List.contains_iff_mem.mpr hs)

theorem includeFile_not_found {reason : FileError} (h : fs.lookup path = .error reason)
    (depth : Nat) (s : Session) :
    includeFile fs (depth + 1) path s = .fail { cause := .cannotOpen path reason } s := by
  rw [includeFile, h]

/-- However loading a file ends, the file is marked. -/
theorem mem_included_of_includeFile (hfound : fs.lookup path = .ok found) {depth : Nat}
    (h : (includeFile fs depth path s).state? = some t) : found.path ∈ t.included := by
  cases depth with
  | zero => cases h
  | succ depth =>
    rw [includeFile, hfound] at h
    dsimp only at h
    split at h
    · next hmarked =>
      cases h
      exact List.contains_iff_mem.mp hmarked
    · split at h
      · cases h
        exact List.mem_cons_self
      · have hload := tracks_included.loadSource (tracks_included.includeFile fs depth)
          (Path.parent found.path) (some path) _ _ t h
        exact hload List.mem_cons_self

theorem mem_included_of_loadFile_fail (hfound : fs.lookup path = .ok found) {e : Error}
    (h : loadFile fs path s = .fail e t) : found.path ∈ t.included := by
  rw [loadFile, recorded] at h
  cases hload : includeFile fs (includeDepth fs) path s with
  | ok a u =>
    rw [hload] at h
    cases h
  | fail e' u =>
    rw [hload] at h
    cases h
    have hu : found.path ∈ u.included := mem_included_of_includeFile hfound (by rw [hload]; rfl)
    exact hu
  | exhausted =>
    rw [hload] at h
    cases h

/-! ## A text that uses a file -/

/-- The text of a single `use`. -/
def useText (name : String) : String :=
  String.ofList (Lexeme.layout [.keyword .useWord, .text name])

theorem statement_use (isNative : String → Bool) {lexer : Lexer} {name : String}
    (h : lexer.Shows [.keyword .useWord, .text name]) :
    ∃ position stop, Parse.statement isNative lexer = .ok (some (.use name position)) stop ∧
      stop.current.kind = .eof := by
  obtain ⟨hword, mid, hmid, hname, stop, hstop, hend⟩ := h
  have hkind : Parse.kind lexer = .ok (.keyword .useWord) lexer :=
    congrArg (Outcome.ok · lexer) hword
  have hsees : Parse.seesWord .useWord lexer = .ok true lexer :=
    congrArg (fun k : Token.Kind => Outcome.ok (k.isKeyword .useWord) lexer) hword
  have hexpect : Parse.expectWord .useWord lexer = .ok () mid := (Run.bind_ok hsees).trans hmid
  have hoperand : Parse.kind mid = .ok (.text name) mid := congrArg (Outcome.ok · mid) hname
  have huse : Parse.useStatement lexer = .ok (.use name lexer.current.position) stop := by
    refine (Run.bind_ok (x := Parse.position) rfl).trans ?_
    rw [Run.bind_ok hexpect, Run.bind_ok hoperand, Run.bind_ok (x := Parse.advance) hstop]
    rfl
  refine ⟨lexer.current.position, stop, ?_, hend⟩
  rw [Parse.statement, Run.bind_ok hkind]
  exact Run.bind_ok huse

/-- A text that uses a file that is marked loads nothing. -/
theorem loadText_useText {name : String} (hfound : fs.lookup (Path.join "." name) = .ok found)
    (hs : found.path ∈ s.included) :
    loadText fs (useText name) s = .ok () (s.remember none (useText name)) := by
  obtain ⟨lexer, hlexer, hshows, -⟩ := Lexeme.exists_shows (.keyword .useWord) [.text name] none
  have hlexer : Lexer.ofSource (useText name) none = .ok lexer := hlexer
  obtain ⟨s', hs'⟩ : ∃ s', s' = s.remember none (useText name) := ⟨_, rfl⟩
  obtain ⟨position, stop, huse, hend⟩ := statement_use s'.env.isNative hshows
  have hnone : Parse.statement s'.env.isNative stop = .ok none stop := by
    have hkind : Parse.kind stop = .ok .eof stop := congrArg (Outcome.ok · stop) hend
    rw [Parse.statement, Run.bind_ok hkind]
    rfl
  have hinclude : includeFile fs (includeDepth fs) (Path.join "." name) s' = .ok () s' :=
    includeFile_of_included hfound (by rw [hs']; exact hs) fs.fileCount
  -- the `use` and the end of the text take one step each
  have hsteps : Parse.stepsFor lexer = 4 * lexer.cursor.rest.length + 6 + 1 + 1 := by
    rw [Parse.stepsFor]
    omega
  have hstatements : statements (includeFile fs (includeDepth fs)) "." (Parse.stepsFor lexer)
      lexer s' = .ok () s' := by
    rw [hsteps]
    simp only [statements, huse, hinclude, hnone]
  simp only [loadText, recorded, loadSource, hlexer, ← hs', hstatements]

/-- What becomes of a file whose loading failed. If nothing was found under its path, loading it
fails the same way ever after. Otherwise the file is passed over ever after, by loading it again and
by texts that use it under any spelling: they succeed, and the session stays as it is. -/
theorem failed_load_is_passed_over {e : Error} (h : loadFile fs path s = .fail e t) :
    (∃ reason, fs.lookup path = .error reason ∧ t = { s with latch := s.latch.arm e } ∧
      ∀ u, loadFile fs path u = .fail e { u with latch := u.latch.arm e }) ∨
    ∃ found, fs.lookup path = .ok found ∧ ∀ u, t.Leads u →
      loadFile fs path u = .ok () u ∧
      ∀ name other, fs.lookup (Path.join "." name) = .ok other → other.path = found.path →
        loadText fs (useText name) u = .ok () (u.remember none (useText name)) := by
  cases hlookup : fs.lookup path with
  | error reason =>
    have hfail (u : Session) : loadFile fs path u = .fail { cause := .cannotOpen path reason }
        { u with latch := u.latch.arm { cause := .cannotOpen path reason } } := by
      rw [loadFile, recorded, includeDepth, includeFile_not_found hlookup]
    rw [hfail] at h
    cases h
    exact .inl ⟨reason, rfl, rfl, hfail⟩
  | ok found =>
    have hmarked := mem_included_of_loadFile_fail hlookup h
    refine .inr ⟨found, rfl, fun u hu => ⟨?_, fun name other hother hsame => ?_⟩⟩
    · have hu' := hu.tracks tracks_included hmarked
      rw [loadFile, recorded, includeDepth, includeFile_of_included hlookup hu']
    · rw [← hsame] at hmarked
      exact loadText_useText hother (hu.tracks tracks_included hmarked)

/-- A single file below the root, which breaks off in its second declaration. -/
def cutOff : FileSystem where
  directory := "/"
  find path :=
    if path = "/bad.xy" ∨ path = "/./bad.xy" then
      .ok ⟨"/bad.xy", .file (.ok "let f(x) = x let g(")⟩
    else .error .notFound
  fileCount := 1

/-- The second time the file is loaded without an error, and without its first declaration. -/
theorem failed_load_is_passed_over_cutOff :
    ∃ e t, loadFile cutOff "bad.xy" .new = .fail e t ∧ loadFile cutOff "bad.xy" t = .ok () t ∧
      loadText cutOff (useText "bad.xy") t = .ok () (t.remember none (useText "bad.xy")) ∧
      t.env.contains "f" = false := by
  have hrun : (match loadFile cutOff "bad.xy" .new with
      | .fail _ t => !t.env.contains "f"
      | _ => false) = true := by decide +kernel
  have hlookup : (match cutOff.lookup "bad.xy", cutOff.lookup (Path.join "." "bad.xy") with
      | .ok found, .ok other => other.path == found.path
      | _, _ => false) = true := by decide +kernel
  cases hload : loadFile cutOff "bad.xy" .new with
  | ok a t =>
    rw [hload] at hrun
    cases hrun
  | exhausted =>
    rw [hload] at hrun
    cases hrun
  | fail e t =>
    rw [hload] at hrun
    rcases failed_load_is_passed_over hload with ⟨reason, hmissing, -⟩ | ⟨found, hfound, hlater⟩
    · rw [hmissing] at hlookup
      cases hlookup
    · obtain ⟨hagain, huse⟩ := hlater t .refl
      cases hother : cutOff.lookup (Path.join "." "bad.xy") with
      | error reason =>
        rw [hfound, hother] at hlookup
        cases hlookup
      | ok other =>
        rw [hfound, hother] at hlookup
        exact ⟨e, t, rfl, hagain, huse "bad.xy" other hother (by simpa using hlookup),
          by simpa using hrun⟩

/-- It is not so that a file that had not been loaded, and failed to load, fails to load again. -/
theorem failed_load_can_succeed_later :
    ¬ ∀ (fs : FileSystem) (path : String) (s t : Session) (e : Error),
      (∀ found, fs.lookup path = .ok found → found.path ∉ s.included) →
      loadFile fs path s = .fail e t → ∃ e' u, loadFile fs path t = .fail e' u := by
  intro hclaim
  have hrun : (match loadFile cutOff "bad.xy" .new with
      | .fail _ t => match loadFile cutOff "bad.xy" t with
        | .ok _ _ => true
        | _ => false
      | _ => false) = true := by decide +kernel
  cases hload : loadFile cutOff "bad.xy" .new with
  | ok a t =>
    rw [hload] at hrun
    cases hrun
  | exhausted =>
    rw [hload] at hrun
    cases hrun
  | fail e t =>
    rw [hload] at hrun
    have hnew (found : Found) (_ : cutOff.lookup "bad.xy" = .ok found) :
        found.path ∉ Session.new.included := List.not_mem_nil
    obtain ⟨e', u, hagain⟩ := hclaim cutOff "bad.xy" .new t e hnew hload
    simp only [hagain] at hrun
    cases hrun

end Session

end Clausal
