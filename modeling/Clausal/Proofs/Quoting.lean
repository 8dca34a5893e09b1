import Clausal.Proofs.Origin

/-!
# What a diagnostic quotes

The pending error is the first of several operations on a session, and the text that its diagnostic
quotes is looked up when it is shown. The two agree for texts of files, which are all kept; of texts
in no file only the latest is kept.

* `Operation.step_eq_fail`: an operation that fails leaves a session that quotes the text it fails
  in, its culprit; without a culprit the error has no position.
* `Session.exists_first_failure`: the pending error is that of the first operation that failed.
* `Session.dump_quotes_file_or_latest_text`: an error in a file is shown with the text of the file,
  whatever follows; one in a text that is in no file is shown with the latest such text.
* `Session.dump_quotes_another_text`: that may be another text than the culprit.
-/

namespace Clausal

/-- A run that reached a state ended in a value or in an error. -/
theorem Outcome.ok_or_fail {ε σ α : Type} {o : Outcome ε σ α} {s : σ} (h : o.state? = some s) :
    (∃ a, o = .ok a s) ∨ ∃ e, o = .fail e s := by
  cases o with
  | ok a t =>
    cases h
    exact .inl ⟨a, rfl⟩
  | fail e t =>
    cases h
    exact .inr ⟨e, rfl⟩
  | exhausted => cases h

/-! ## Operations that can fail -/

/-- An operation on a session that can fail. -/
inductive Operation where
  | loadText (text : String)
  | loadFile (path : String)
  | evalText (source : String)
  | call (name : String) (args : List Value)

namespace Operation

/-- Carry out an operation; its value is left out. -/
def step (fs : FileSystem) : Operation → Session.Step Unit
  | .loadText text => Session.loadText fs text
  | .loadFile path => Session.loadFile fs path
  | .evalText source => do
    let _ ← Session.evalText source
    return
  | .call name args => do
    let _ ← Session.call name args
    return

/-- The text in no file that an operation is given, if it is given one. -/
def text? : Operation → Option String
  | .loadText text | .evalText text => some text
  | .loadFile _ | .call .. => none

/-- The session as an operation starts its work on it: the given text is kept. -/
def begun (op : Operation) (s : Session) : Session :=
  match op.text? with
  | some text => s.remember none text
  | none => s

/-- The innermost of the texts that were being loaded when a mishap arose. -/
def innermost : Outcome Mishap Session Unit → Option Source
  | .fail m _ => m.loading.head?
  | .ok .. | .exhausted => none

/-- The text in which an operation fails, if it fails in one: the innermost of those being loaded,
or the one to be evaluated if there is a complaint about it. -/
def culprit (fs : FileSystem) (s : Session) : Operation → Option Source
  | .loadText text => innermost (Watched.loadText fs text s)
  | .loadFile path => innermost (Watched.loadFile fs path s)
  | .evalText source =>
    match Session.parseExpr source none with
    | .error _ => some ⟨none, source⟩
    | .ok _ => none
  | .call .. => none

/-- The error is at a place of the culprit, which the session quotes and which is the given text or
that of a file; without a culprit the error has no position. -/
def Blames (op : Operation) (fs : FileSystem) (s : Session) (e : Error) (t : Session) : Prop :=
  match op.culprit fs s with
  | none => e.position = none
  | some o => (∃ p, e.position = some p ∧ p.file = o.name) ∧ t.Quotes o ∧
    (o.name = none ∧ op.text? = some o.text ∨ o.IsFile fs)

variable {op : Operation} {fs : FileSystem} {s t : Session} {e : Error}

theorem step_eq_ok (h : op.step fs s = .ok () t) : (op.begun s).Gains fs t := by
  cases op with
  | loadText text => exact Session.gains_of_loadText h
  | loadFile path => exact Session.gains_of_loadFile h
  | evalText source =>
    obtain ⟨v, u, h, hu⟩ := Run.bind_eq_ok_iff.mp h
    cases hu
    rw [Session.evalText_eq] at h
    split at h
    · cases h
    · cases h
    · split at h <;> cases h
      exact .store _ _
  | call name args =>
    obtain ⟨v, u, h, hu⟩ := Run.bind_eq_ok_iff.mp h
    cases hu
    rw [Session.call_eq] at h
    split at h
    · cases h
    · split at h <;> cases h
      exact .store _ _

theorem fail_of_discard {α : Type} {x : Session.Step α}
    (h : (do let _ ← x; return : Session.Step Unit) s = .fail e t) : x s = .fail e t := by
  cases hx : x s with
  | ok a u =>
    rw [Run.bind_ok hx] at h
    cases h
  | fail e' u =>
    rw [Run.bind_fail hx] at h
    cases h
    rfl
  | exhausted =>
    rw [Run.bind_exhausted hx] at h
    cases h

/-- An operation that fails makes its error pending unless there is one, and the session quotes the
text in which it failed. -/
theorem step_eq_fail (h : op.step fs s = .fail e t) :
    ∃ u, (op.begun s).Gains fs u ∧ t = { u with latch := u.latch.arm e } ∧ op.Blames fs s e u := by
  cases op with
  | loadText text =>
    obtain ⟨m, u, o, hrun, rfl, rfl, hgains, hm⟩ := Session.loadText_failed h
    refine ⟨u, hgains, rfl, ?_⟩
    have hculprit : culprit fs s (.loadText text) = some o := by
      rw [culprit, hrun]
      exact hm.innermost
    rw [Blames, hculprit]
    refine ⟨hm.position, hm.quoted, hm.head_or_isFile.imp_left fun hhead => ?_⟩
    obtain rfl := Option.some.inj hhead
    exact ⟨rfl, rfl⟩
  | loadFile path =>
    obtain ⟨m, u, hrun, rfl, rfl, hgains, hm⟩ := Session.loadFile_failed h
    refine ⟨u, hgains, rfl, ?_⟩
    have hculprit : culprit fs s (.loadFile path) = m.loading.head? := by rw [culprit, hrun]; rfl
    rw [Blames, hculprit]
    rcases hm with hm | ⟨text, o, hread, hm⟩
    · rw [hm.loading]
      exact hm.position
    · rw [hm.innermost]
      have hout := hm.outside ⟨path, rfl, hread⟩
      exact ⟨hm.position, hm.quoted, .inr (hout.head_or_isFile.resolve_left nofun)⟩
  | evalText source =>
    rcases Session.evalText_failed (fail_of_discard h) with
      ⟨hparse, rfl⟩ | ⟨expr, store, hparse, -, hposition, rfl⟩
    · refine ⟨s.remember none source, .refl _, rfl, ?_⟩
      rw [Blames, culprit, hparse]
      obtain ⟨p, hp, hin⟩ := (Session.error_of_parseExpr hparse).position
      exact ⟨⟨p, hp, hin.file⟩, s.quotes_remember ⟨none, source⟩, .inl ⟨rfl, rfl⟩⟩
    · refine ⟨_, .store (s.remember none source) store, rfl, ?_⟩
      rw [Blames, culprit, hparse]
      exact hposition
  | call name args =>
    obtain ⟨hposition, -, store, rfl⟩ := Session.call_failed (fail_of_discard h)
    exact ⟨_, .store s store, rfl, hposition⟩

/-- However an operation ends, it adds texts of files to those it starts its work with. -/
theorem exists_gains (h : (op.step fs s).state? = some t) :
    ∃ u, (op.begun s).Gains fs u ∧ t.sources = u.sources := by
  rcases Outcome.ok_or_fail h with ⟨_, hstep⟩ | ⟨e, hstep⟩
  · exact ⟨t, step_eq_ok hstep, rfl⟩
  · obtain ⟨u, hgains, rfl, -⟩ := step_eq_fail hstep
    exact ⟨u, hgains, rfl⟩

theorem latch_begun (op : Operation) (s : Session) : (op.begun s).latch = s.latch := by
  unfold begun
  split <;> rfl

/-! ## The pending error -/

theorem latch_of_ok (h : op.step fs s = .ok () t) : t.latch = s.latch :=
  (step_eq_ok h).latch.trans (op.latch_begun s)

theorem latch_of_fail (h : op.step fs s = .fail e t) : t.latch = s.latch.arm e := by
  obtain ⟨u, hgains, rfl, -⟩ := step_eq_fail h
  rw [hgains.latch, op.latch_begun s]

/-- A pending error stays the pending one. -/
theorem pending_of_state? (h : (op.step fs s).state? = some t) (hs : s.latch.pending = some e) :
    t.latch.pending = some e := by
  rcases Outcome.ok_or_fail h with ⟨_, hstep⟩ | ⟨e', hstep⟩
  · rw [latch_of_ok hstep, hs]
  · rw [latch_of_fail hstep, Latch.arm, hs]
    rfl

/-! ## The kept texts -/

theorem lookup_none_begun (op : Operation) (s : Session) :
    (op.begun s).sources.lookup none = op.text?.or (s.sources.lookup none) := by
  unfold begun
  split
  · next text htext =>
    rw [htext]
    exact List.lookup_cons_self
  · next htext => rw [htext, Option.none_or]

/-- Of the texts without a name only the given one is kept, and all those with a name are. -/
theorem quotes_begun {o : Source} (ho : o.IsFile fs) (hs : s.Quotes o) : (op.begun s).Quotes o := by
  obtain ⟨path, hpath, -⟩ := ho
  have hnamed (sources : List (Option String × String)) :
      (sources.filter (·.1.isSome)).lookup (some path) = sources.lookup (some path) := by
    induction sources with
    | nil => rfl
    | cons entry sources ih =>
      obtain ⟨name, text⟩ := entry
      cases name with
      | none => exact ih
      | some name =>
        rw [List.filter_cons_of_pos (by rfl), List.lookup_cons, List.lookup_cons, ih]
  unfold begun
  split
  · rw [Session.Quotes, hpath] at hs ⊢
    exact (hnamed s.sources).trans hs
  · exact hs

end Operation

namespace Session

variable {fs : FileSystem} {s t u : Session} {e : Error} {op : Operation} {ops : List Operation}
  {o : Source}

theorem Gains.lookup_none (h : s.Gains fs t) :
    t.sources.lookup none = s.sources.lookup none := by
  obtain ⟨new, heq, hnew⟩ := h.sources
  rw [heq]
  clear heq
  induction new with
  | nil => rfl
  | cons file new ih =>
    obtain ⟨⟨path, hpath, -⟩, hrest⟩ := List.forall_mem_cons.mp hnew
    obtain ⟨name, text⟩ := file
    obtain rfl : name = some path := hpath
    exact ih hrest

/-! ## Several operations -/

/-- Carry out operations one after the other, whether they succeed or fail. -/
def runAll (fs : FileSystem) : List Operation → Session → Option Session
  | [], s => some s
  | op :: ops, s => (op.step fs s).state?.bind (runAll fs ops)

theorem runAll_cons :
    runAll fs (op :: ops) s = some t ↔
      ∃ u, (op.step fs s).state? = some u ∧ runAll fs ops u = some t :=
  Option.bind_eq_some_iff

theorem pending_of_runAll (h : runAll fs ops s = some t) (hs : s.latch.pending = some e) :
    t.latch.pending = some e := by
  induction ops generalizing s with
  | nil =>
    cases h
    exact hs
  | cons op ops ih =>
    obtain ⟨u, hu, h⟩ := runAll_cons.mp h
    exact ih h (op.pending_of_state? hu hs)

/-- The pending error is that of the first operation that failed. -/
theorem exists_first_failure (h : runAll fs ops s = some t) (hs : s.latch.pending = none)
    (ht : t.latch.pending = some e) :
    ∃ before op after u v, ops = before ++ op :: after ∧ runAll fs before s = some u ∧
      u.latch.pending = none ∧ op.step fs u = .fail e v ∧ runAll fs after v = some t := by
  induction ops generalizing s with
  | nil =>
    cases h
    rw [hs] at ht
    cases ht
  | cons op ops ih =>
    obtain ⟨v, hv, h⟩ := runAll_cons.mp h
    rcases Outcome.ok_or_fail hv with ⟨_, hstep⟩ | ⟨e', hstep⟩
    · have hpending : v.latch.pending = none := by rw [op.latch_of_ok hstep, hs]
      obtain ⟨before, op', after, u, w, rfl, hu, hrest⟩ := ih h hpending
      exact ⟨op :: before, op', after, u, w, rfl, runAll_cons.mpr ⟨v, hv, hu⟩, hrest⟩
    · have hpending : v.latch.pending = some e' := by
        rw [op.latch_of_fail hstep, Latch.arm, hs]
        rfl
      obtain rfl := Option.some.inj ((pending_of_runAll h hpending).symm.trans ht)
      exact ⟨[], op, ops, s, v, rfl, rfl, hs, hstep, h⟩

/-- A text of a file stays the one that is quoted under its name. -/
theorem quotes_of_runAll (h : runAll fs ops s = some t) (ho : o.IsFile fs) (hs : s.Quotes o) :
    t.Quotes o := by
  induction ops generalizing s with
  | nil =>
    cases h
    exact hs
  | cons op ops ih =>
    obtain ⟨v, hv, h⟩ := runAll_cons.mp h
    obtain ⟨u, hgains, hsources⟩ := op.exists_gains hv
    have hquotes : u.Quotes o := hgains.quotes (.inr ho) (op.quotes_begun ho hs)
    refine ih h ?_
    rwa [Quotes, hsources]

/-- Of the texts in no file the latest is quoted. -/
theorem lookup_none_of_runAll (h : runAll fs ops s = some t) :
    t.sources.lookup none =
      (ops.filterMap Operation.text?).getLast?.or (s.sources.lookup none) := by
  induction ops generalizing s with
  | nil =>
    cases h
    rfl
  | cons op ops ih =>
    obtain ⟨v, hv, h⟩ := runAll_cons.mp h
    obtain ⟨u, hgains, hsources⟩ := op.exists_gains hv
    have hv : v.sources.lookup none = op.text?.or (s.sources.lookup none) := by
      rw [hsources, hgains.lookup_none, op.lookup_none_begun]
    rw [ih h, hv, List.filterMap_cons]
    cases op.text? with
    | none => rw [Option.none_or]
    | some text =>
      rw [List.getLast?_cons]
      cases (ops.filterMap Operation.text?).getLast? <;> rfl

theorem sourceOf_eq {p : Position} {name : Option String} (hp : e.position = some p)
    (hname : p.file = name) : t.sourceOf e = t.sources.lookup name := by
  rw [sourceOf, hp, ← hname]
  rfl

/-- Whatever operations follow the first that fails, its error is the one that is shown, and the
text that is quoted with it is looked up in the end. If the operation failed in a file, that is the
text of the file. If it failed in the text that it was given, that is the latest text that an
operation was given: its own unless another was given one later. If it failed in no text, nothing is
quoted. -/
theorem dump_quotes_file_or_latest_text (hs : s.latch.pending = none)
    (hrun : runAll fs ops s = some t) (ht : t.latch.pending = some e) (painter : Painter) :
    (t.dump painter).1 = Diagnostic.render painter e (t.sourceOf e) ∧
    ∃ before op after u v, ops = before ++ op :: after ∧ runAll fs before s = some u ∧
      u.latch.pending = none ∧ op.step fs u = .fail e v ∧ runAll fs after v = some t ∧
      match op.culprit fs u with
      | none => e.position = none
      | some ⟨some path, text⟩ => fs.read path = .ok text ∧ t.sourceOf e = some text
      | some ⟨none, text⟩ => op.text? = some text ∧
        t.sourceOf e = some ((after.filterMap Operation.text?).getLast?.getD text) := by
  refine ⟨by rw [dump, ht], ?_⟩
  obtain ⟨before, op, after, u, v, hops, hu, hnone, hstep, hafter⟩ :=
    exists_first_failure hrun hs ht
  refine ⟨before, op, after, u, v, hops, hu, hnone, hstep, hafter, ?_⟩
  obtain ⟨w, -, rfl, hblames⟩ := op.step_eq_fail hstep
  unfold Operation.Blames at hblames
  split
  · next hculprit => rwa [hculprit] at hblames
  · next path text hculprit =>
    rw [hculprit] at hblames
    obtain ⟨⟨p, hp, hfile⟩, hquotes, ⟨hname, -⟩ | hread⟩ := hblames
    · cases hname
    · -- texts of files are all kept, so the one that is found is that of the failure
      have hlast := quotes_of_runAll hafter hread hquotes
      obtain ⟨path', hpath, hread⟩ := hread
      cases hpath
      exact ⟨hread, (sourceOf_eq hp hfile).trans hlast⟩
  · next text hculprit =>
    rw [hculprit] at hblames
    obtain ⟨⟨p, hp, hfile⟩, hquotes, ⟨-, htext⟩ | ⟨path, hpath, -⟩⟩ := hblames
    · refine ⟨htext, ?_⟩
      -- the culprit was kept when the operation failed, but only until the next text is given
      have hown : w.sources.lookup none = some text := hquotes
      rw [sourceOf_eq hp hfile, lookup_none_of_runAll hafter, hown]
      exact Option.or_some
    · cases hpath

/-- A load that fails two files further in, between an evaluation before it and a load and an
evaluation after it that fail as well. -/
def stumbles : List Operation :=
  [.evalText "2", .loadFile "a.xy", .loadText "use \"lib/d.xy\"", .evalText "1 +"]

/-- The first fault is shown, with the text of the file it is in. -/
theorem dump_quotes_file_or_latest_text_stumbles :
    ∃ t e, runAll muddle stumbles .new = some t ∧ t.latch.pending = some e ∧
      (t.dump .plain).1 = Diagnostic.render .plain e (some "let g(x) =\n  08") ∧
      ∃ before op after u v, stumbles = before ++ op :: after ∧ runAll muddle before .new = some u ∧
        op.step muddle u = .fail e v ∧ runAll muddle after v = some t := by
  have hcomputed : (runAll muddle stumbles .new).any (fun t => t.latch.pending.any fun e =>
      t.sourceOf e == some "let g(x) =\n  08") = true := by decide +kernel
  obtain ⟨t, hrun, hpending⟩ := (Option.any_eq_true _ _).mp hcomputed
  obtain ⟨e, he, hsource⟩ := (Option.any_eq_true _ _).mp hpending
  obtain ⟨hdump, before, op, after, u, v, hops, hu, -, hstep, hafter, -⟩ :=
    dump_quotes_file_or_latest_text rfl hrun he .plain
  rw [eq_of_beq hsource] at hdump
  exact ⟨t, e, hrun, he, hdump, before, op, after, u, v, hops, hu, hstep, hafter⟩

/-- A text breaks off, and after it a sum is evaluated. The error that is shown is that of the text,
and the line that is quoted is no line of the text: it is the sum. -/
theorem dump_quotes_another_text :
    ∃ e t u, (Operation.loadText "let g(").step muddle .new = .fail e t ∧
      (Operation.loadText "let g(").culprit muddle .new = some ⟨none, "let g("⟩ ∧
      (Operation.evalText "1 + 1").step muddle t = .ok () u ∧ u.latch.pending = some e ∧
      (u.dump .plain).1 = "Syntax error: Expected expression, got end of input\n" ++
        "  --> input:1:7\n" ++
        "   |\n" ++
        "   1 | 1 + 1\n" ++
        "   |              ^\n" ++
        "   |\n" ∧
      "1 + 1" ∉ Text.lines "let g(" := by
  have hfails : ((Operation.loadText "let g(").step muddle .new).error?.isSome = true := by
    decide +kernel
  obtain ⟨e, he⟩ := Option.isSome_iff_exists.mp hfails
  obtain ⟨t, ht⟩ := Outcome.error?_eq_some.mp he
  have hcomputed : ((Operation.loadText "let g(").step muddle .new).state?.any (fun t =>
      ((Operation.evalText "1 + 1").step muddle t).passes fun _ u =>
        (u.dump .plain).1 == "Syntax error: Expected expression, got end of input\n" ++
        "  --> input:1:7\n" ++
        "   |\n" ++
        "   1 | 1 + 1\n" ++
        "   |              ^\n" ++
        "   |\n") = true := by decide +kernel
  rw [ht, Outcome.state?, Option.any_some] at hcomputed
  obtain ⟨_, u, hu, hdump⟩ := Outcome.exists_of_passes hcomputed
  have hpending : t.latch.pending = some e := by
    rw [Operation.latch_of_fail ht]
    rfl
  simp only [beq_iff_eq] at hdump
  refine ⟨e, t, u, ht, by decide +kernel, hu, ?_, hdump, by decide +kernel⟩
  rw [Operation.latch_of_ok hu, hpending]

end Session

end Clausal
