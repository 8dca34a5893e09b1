import Clausal.Proofs.Causes
import Clausal.Proofs.Sessions
import Clausal.Proofs.Watched

/-!
# Where errors come from

An error has a position exactly when it comes from a text.

* Loading fails in a text that was being loaded, the innermost one, and at a place of it
  (`Session.loadText_failed`, `Session.loadFile_failed`). Only the file that `loadFile` is asked for
  is in no text, so that it cannot be had is an error without a position.
* Evaluating a text fails before the evaluation, with a complaint about the text, or in it
  (`Session.evalText_failed`); so does a call, which has no text (`Session.call_failed`). What fails
  in an evaluation has no position and is of one of the dynamic kinds.
-/

namespace Clausal

namespace Session

variable {α : Type} {fs : FileSystem} {s t : Session} {e : Error}

/-! ## Loading -/

theorem watched_eq_ok {x : Watched.Step α} {a : α}
    (h : recorded (x.mapError Mishap.error) s = .ok a t) : x s = .ok a t := by
  rw [recorded, Run.mapError] at h
  cases hx : x s <;> rw [hx] at h <;> cases h
  rfl

/-- The error that becomes pending is that of the mishap. -/
theorem watched_eq_fail {x : Watched.Step α}
    (h : recorded (x.mapError Mishap.error) s = .fail e t) :
    ∃ m u, x s = .fail m u ∧ m.error = e ∧ t = { u with latch := u.latch.arm e } := by
  rw [recorded, Run.mapError] at h
  cases hx : x s <;> rw [hx] at h <;> cases h
  exact ⟨_, _, rfl, rfl, rfl⟩

theorem watchedText_ends (fs : FileSystem) (text : String) (s : Session) :
    Watched.Ends fs (s.remember none text)
      (fun m t => ∃ o, m.ArisesIn fs s.env.isNative [⟨none, text⟩] t o)
      (Watched.loadText fs text s) :=
  Watched.loadSource_ends (o := ⟨none, text⟩) (Watched.includeFile_includes fs _ _) rfl (.inl rfl)
    rfl []

theorem gains_of_loadText {text : String} (h : loadText fs text s = .ok () t) :
    (s.remember none text).Gains fs t := by
  have hended := watchedText_ends fs text s
  rw [loadText_eq_watched] at h
  rwa [watched_eq_ok h] at hended

/-- A text is not loaded: the error arises in it or in a text inside it. -/
theorem loadText_failed {text : String} (h : loadText fs text s = .fail e t) :
    ∃ m u o, Watched.loadText fs text s = .fail m u ∧ m.error = e ∧
      t = { u with latch := u.latch.arm e } ∧ (s.remember none text).Gains fs u ∧
      m.ArisesIn fs s.env.isNative [⟨none, text⟩] u o := by
  have hended := watchedText_ends fs text s
  rw [loadText_eq_watched] at h
  obtain ⟨m, u, hrun, herror, ht⟩ := watched_eq_fail h
  rw [hrun] at hended
  obtain ⟨hgains, o, hm⟩ := hended
  exact ⟨m, u, o, hrun, herror, ht, hgains, hm⟩

theorem watchedFile_ends (fs : FileSystem) (path : String) (s : Session) :
    Watched.Ends fs s (Watched.FileFails fs s.env.isNative [] path) (Watched.loadFile fs path s) :=
  Watched.includeFile_includes fs _ _ [] path s rfl

theorem gains_of_loadFile {path : String} (h : loadFile fs path s = .ok () t) : s.Gains fs t := by
  have hended := watchedFile_ends fs path s
  rw [loadFile_eq_watched] at h
  rwa [watched_eq_ok h] at hended

/-- A file is not loaded: it cannot be had, or the error arises in its text or in one inside it. -/
theorem loadFile_failed {path : String} (h : loadFile fs path s = .fail e t) :
    ∃ m u, Watched.loadFile fs path s = .fail m u ∧ m.error = e ∧
      t = { u with latch := u.latch.arm e } ∧ s.Gains fs u ∧
      Watched.FileFails fs s.env.isNative [] path m u := by
  have hended := watchedFile_ends fs path s
  rw [loadFile_eq_watched] at h
  obtain ⟨m, u, hrun, herror, ht⟩ := watched_eq_fail h
  rw [hrun] at hended
  exact ⟨m, u, hrun, herror, ht, hended.1, hended.2⟩

/-! ## Evaluating -/

theorem error_of_parseExpr {source : String} {file : Option String}
    (h : parseExpr source file = .error e) : e.In ⟨file, source⟩ := by
  simp only [parseExpr, Bind.bind, Except.bind] at h
  cases hlexer : Lexer.ofSource source file with
  | error err =>
    rw [hlexer] at h
    cases h
    exact (Lexer.error_marks hlexer).isIn
  | ok lexer =>
    have hstays := Parse.wholeExpression_staysIn lexer (Lexer.ofSource_in hlexer)
    simp only [hlexer] at h
    cases hparse : Parse.wholeExpression lexer with
    | ok found stop =>
      simp only [hparse] at h
      cases h
    | fail err stop =>
      simp only [hparse] at h
      cases h
      rw [hparse] at hstays
      exact hstays.isIn
    | exhausted =>
      simp only [hparse] at h
      cases h

/-- A text has no value: it is complained about, or its expression fails. -/
theorem evalText_failed {source : String} (h : evalText source s = .fail e t) :
    (parseExpr source none = .error e ∧
      t = { s.remember none source with latch := s.latch.arm e }) ∨
    ∃ expr store, parseExpr source none = .ok (some expr) ∧
      s.env.evaluate (s.env.resolve [] expr) s.store = .fail e.cause store ∧ e.position = none ∧
      t = { s.remember none source with store, latch := s.latch.arm e } := by
  rw [evalText_eq] at h
  split at h
  · next hparse =>
    cases h
    exact .inl ⟨hparse, rfl⟩
  · cases h
  · next expr hparse =>
    split at h
    · cases h
    · next cause store heval =>
      cases h
      exact .inr ⟨expr, store, hparse, heval, rfl, rfl⟩
    · cases h

/-- A call fails: there is no such function, or the evaluation fails. -/
theorem call_failed {name : String} {args : List Value} (h : call name args s = .fail e t) :
    e.position = none ∧ e.cause.Dynamic ∧
      ∃ store, t = { s with store, latch := s.latch.arm e } := by
  rw [call_eq] at h
  split at h
  · cases h
    exact ⟨rfl, .resolution rfl, s.store, rfl⟩
  · next f _ =>
    split at h
    · cases h
    · next cause store hinvoke =>
      cases h
      exact ⟨rfl, s.env.invoke_raises f args s.store _ _ hinvoke, store, rfl⟩
    · cases h

/-! ## Positions -/

/-- Errors have a position exactly when they come from a text. When a text is not loaded, the error
is at a place of the innermost of the texts that were being loaded, whatever uses what; so it is
when a file is not loaded, unless the file itself cannot be had. When a text is not evaluated, the
error is at a place of the text and comes before the evaluation, or it comes from the evaluation and
has none; when a call fails, it has none. Which texts were being loaded is what watched loading
says, and that does what loading does. -/
theorem errors_are_placed_in_their_text (fs : FileSystem) (s : Session) :
    (∀ text, loadText fs text = recorded ((Watched.loadText fs text).mapError Mishap.error)) ∧
    (∀ path, loadFile fs path = recorded ((Watched.loadFile fs path).mapError Mishap.error)) ∧
    (∀ text e t, loadText fs text s = .fail e t →
      ∃ m u o, Watched.loadText fs text s = .fail m u ∧ m.error = e ∧
        m.loading.head? = some o ∧ m.loading.getLast? = some ⟨none, text⟩ ∧
        e.ArisesIn fs s.env.isNative o) ∧
    (∀ path e t, loadFile fs path s = .fail e t →
      match fs.read path with
      | .error _ => e.position = none ∧ e.kind = .runtime ∧ fs.Refuses path e.cause
      | .ok text => ∃ m u o, Watched.loadFile fs path s = .fail m u ∧ m.error = e ∧
        m.loading.head? = some o ∧ m.loading.getLast? = some ⟨some path, text⟩ ∧
        e.ArisesIn fs s.env.isNative o) ∧
    (∀ source e t, evalText source s = .fail e t →
      (parseExpr source none = .error e ∧ t.store = s.store ∧ e.In ⟨none, source⟩) ∨
      (∃ expr, parseExpr source none = .ok (some expr) ∧
        s.env.evaluate (s.env.resolve [] expr) s.store = .fail e.cause t.store ∧
        e.position = none ∧ e.cause.Dynamic)) ∧
    (∀ name args e t, call name args s = .fail e t → e.position = none ∧ e.cause.Dynamic) := by
  refine ⟨loadText_eq_watched fs, loadFile_eq_watched fs, fun text e t h => ?_,
    fun path e t h => ?_, fun source e t h => ?_, fun name args e t h => ?_⟩
  · obtain ⟨m, u, o, hrun, rfl, -, -, hm⟩ := loadText_failed h
    obtain ⟨inner, hloading, -⟩ := hm.nested
    exact ⟨m, u, o, hrun, rfl, hm.innermost, by rw [hloading, List.getLast?_concat], hm.error⟩
  · obtain ⟨m, u, hrun, rfl, -, -, hm⟩ := loadFile_failed h
    rcases hm with hm | ⟨text, o, hread, hm⟩
    · cases hread : fs.read path with
      | error reason => exact ⟨hm.position, hm.cause.kind, hm.cause⟩
      | ok text => exact absurd hread hm.cause.not_read
    · obtain ⟨inner, hloading, -⟩ := hm.nested
      rw [hread]
      exact ⟨m, u, o, hrun, rfl, hm.innermost, by rw [hloading, List.getLast?_concat], hm.error⟩
  · rcases evalText_failed h with ⟨hparse, rfl⟩ | ⟨expr, store, hparse, heval, hposition, rfl⟩
    · exact .inl ⟨hparse, rfl, error_of_parseExpr hparse⟩
    · exact .inr ⟨expr, hparse, heval, hposition, s.env.evaluate_raises _ _ _ _ heval⟩
  · obtain ⟨hposition, hdynamic, -⟩ := call_failed h
    exact ⟨hposition, hdynamic⟩

/-- A file with a fault two files further in, and one that uses a file that is not there. -/
def muddle : FileSystem := .ofFiles "/" [
  ("a.xy", .ok "let f(x) = x\nuse \"lib/b.xy\""),
  ("lib/b.xy", .ok "use \"./c.xy\""),
  ("lib/c.xy", .ok "let g(x) =\n  08"),
  ("lib/d.xy", .ok "let h(x) = x\n  use \"gone.xy\"")]

theorem exists_error_at {x : Step α} {p : Position}
    (h : (x s).error?.bind (·.position) = some p) :
    ∃ e t, x s = .fail e t ∧ e.position = some p := by
  obtain ⟨e, he, hp⟩ := Option.bind_eq_some_iff.mp h
  obtain ⟨t, ht⟩ := Outcome.error?_eq_some.mp he
  exact ⟨e, t, ht, hp⟩

/-- The fault is placed in the innermost file and the missing file at its `use`; the same file asked
for by a call has no place, and a division by zero has none. -/
theorem errors_are_placed_in_their_text_muddle :
    (∃ e t o, loadText muddle "use \"a.xy\"" .new = .fail e t ∧
      e.position = some ⟨some "/lib/./c.xy", 2, 4⟩ ∧ o.name = some "/lib/./c.xy" ∧
      e.ArisesIn muddle Session.new.env.isNative o) ∧
    (∃ e t o, loadFile muddle "lib/d.xy" .new = .fail e t ∧
      e.position = some ⟨some "lib/d.xy", 2, 3⟩ ∧ o.name = some "lib/d.xy" ∧
      e.ArisesIn muddle Session.new.env.isNative o) ∧
    (∃ e t, loadFile muddle "lib/gone.xy" .new = .fail e t ∧ e.position = none) ∧
    (∃ e t, evalText "1 / 0" .new = .fail e t ∧ e.position = none ∧ e.cause.Dynamic) := by
  obtain ⟨-, -, htext, hfile, heval, -⟩ := errors_are_placed_in_their_text muddle .new
  refine ⟨?_, ?_, ?_, ?_⟩
  · obtain ⟨e, t, hrun, hp⟩ := exists_error_at (x := loadText muddle "use \"a.xy\"") (s := .new)
      (p := ⟨some "/lib/./c.xy", 2, 4⟩) (by decide +kernel)
    obtain ⟨m, u, o, -, -, -, -, harises⟩ := htext _ e t hrun
    obtain ⟨q, hq, hname, -⟩ := id harises
    obtain rfl := Option.some.inj (hp.symm.trans hq)
    exact ⟨e, t, o, hrun, hp, hname.symm, harises⟩
  · obtain ⟨e, t, hrun, hp⟩ := exists_error_at (x := loadFile muddle "lib/d.xy") (s := .new)
      (p := ⟨some "lib/d.xy", 2, 3⟩) (by decide +kernel)
    have hplaced := hfile _ e t hrun
    split at hplaced
    · cases hplaced.1.symm.trans hp
    · obtain ⟨m, u, o, -, -, -, -, harises⟩ := hplaced
      obtain ⟨q, hq, hname, -⟩ := id harises
      obtain rfl := Option.some.inj (hp.symm.trans hq)
      exact ⟨e, t, o, hrun, hp, hname.symm, harises⟩
  · have hfails : (loadFile muddle "lib/gone.xy" .new).error?.isSome = true := by decide +kernel
    obtain ⟨e, he⟩ := Option.isSome_iff_exists.mp hfails
    obtain ⟨t, hrun⟩ := Outcome.error?_eq_some.mp he
    have hgone : (muddle.read "lib/gone.xy").isOk = false := by decide +kernel
    have hplaced := hfile _ e t hrun
    split at hplaced
    · exact ⟨e, t, hrun, hplaced.1⟩
    · next hread =>
      rw [hread] at hgone
      cases hgone
  · have hfails : (evalText "1 / 0" .new).error?.isSome = true := by decide +kernel
    have hparsed : (parseExpr "1 / 0" none).isOk = true := by decide +kernel
    obtain ⟨e, he⟩ := Option.isSome_iff_exists.mp hfails
    obtain ⟨t, hrun⟩ := Outcome.error?_eq_some.mp he
    rcases heval _ e t hrun with ⟨hparse, -, -⟩ | ⟨_, -, -, hposition, hdynamic⟩
    · rw [hparse] at hparsed
      cases hparsed
    · exact ⟨e, t, hrun, hposition, hdynamic⟩

end Session

end Clausal
