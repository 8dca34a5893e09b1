import Clausal.Proofs.Sessions

/-!
# Resolving keeps meaning, and finds slots that are there

Main results, for every session that can be reached by loading, evaluating and calling:

* `resolution_keeps_meaning`: evaluating what resolving made of a text, by index and depth, ends
  as evaluating the text by name does: in the same value, or in the same error, with the same
  frames and printed text, or in neither.
* `slots_stay_in_range`: no evaluation reads or writes a slot that is not there, and every lambda
  has captured at least the frames and slots that its clauses were resolved for.

For the second the checks are made on the resolved trees themselves: a labelled program or store
is settled when its clauses are replaced by what they are resolved to, under labels that stay.
-/

namespace Clausal

/-! ## Settling -/

/-- The clause resolved, under the same label. -/
def Rule.settle (r : Rule) : Rule := ⟨r.resolve, r.label⟩

/-- The clauses resolved, under the same label. -/
def Capture.settle (c : Capture) : Capture :=
  ⟨Clause.resolveAll c.label.known c.label.scopes c.clauses, c.frame, c.label⟩

/-- A lambda without its label. -/
def Capture.forget (c : Capture) : Closure := ⟨c.clauses, c.frame⟩

namespace Labelled

/-- An entry with its clauses settled. -/
def Definition.settle : Definition → Definition
  | .native fn => .native fn
  | .declared name rules => .declared name (rules.map Rule.settle)

/-- An entry without the labels of its clauses. -/
def Definition.forget : Definition → Clausal.Definition
  | .native fn => .native fn
  | .declared name rules => .declared name (rules.map (·.clause))

/-- A program with all its clauses settled. -/
def Program.settle (p : Program) : Program := ⟨p.definitions.map Definition.settle⟩

/-- A program without its labels. -/
def Program.forget (p : Program) : Environment := ⟨p.definitions.map Definition.forget⟩

end Labelled

namespace Store

/-- A store with all its lambdas settled. -/
def settle (s : Store Capture) : Store Capture :=
  { s with closures := s.closures.map Capture.settle }

/-- A store without its labels. -/
def forget (s : Store Capture) : Store Closure where
  frames := s.frames
  closures := s.closures.map Capture.forget
  nextId := s.nextId
  printed := s.printed

theorem forget_settle (s : Store Capture) : s.settle.forget = s.resolve := by
  simp only [forget, settle, resolve, Array.map_map]
  rfl

theorem resolve_settle (s : Store Capture) : s.settle.resolve = s.resolve := by
  have hcapture (c : Capture) : c.settle.resolve = c.resolve := by
    simp only [Capture.settle, Capture.resolve, Clause.resolveAll_resolveAll]
  simp only [settle, resolve, Array.map_map]
  congr 2
  funext c
  exact hcapture c

theorem AllFit.settle {s : Store Capture} (h : s.AllFit) : s.settle.AllFit := by
  intro d hd
  obtain ⟨c, hc, rfl⟩ := Array.mem_map.mp hd
  have hgrows : s.Grows s.settle := .of_frames_eq rfl
  exact ⟨fits_mono hgrows (h c hc).frames, Clause.AllScoped.resolve _ _ (h c hc).inScope⟩

end Store

namespace Labelled.Program

theorem forget_settle (p : Program) : p.settle.forget = p.resolve := by
  have hdefinition (d : Definition) : d.settle.forget = d.resolve := by
    cases d with
    | native fn => rfl
    | declared name rules =>
      simp only [Definition.settle, Definition.forget, Definition.resolve, List.map_map]
      rfl
  simp only [settle, forget, resolve, List.map_map]
  congr 2
  funext d
  exact hdefinition d

theorem resolve_settle (p : Program) : p.settle.resolve = p.resolve := by
  have hrule (r : Rule) : r.settle.resolve = r.resolve := by
    simp only [Rule.settle, Rule.resolve, Clause.resolve_resolve]
  have hdefinition (d : Definition) : d.settle.resolve = d.resolve := by
    cases d with
    | native fn => rfl
    | declared name rules =>
      simp only [Definition.settle, Definition.resolve, List.map_map]
      congr 2
      funext r
      exact hrule r
  simp only [settle, resolve, List.map_map]
  congr 2
  funext d
  exact hdefinition d

theorem Scoped.settle {p : Program} (h : p.Scoped) : p.settle.Scoped := by
  intro d hd r hr
  obtain ⟨d, hmem, rfl⟩ := List.mem_map.mp hd
  cases d with
  | native fn => cases hr
  | declared name rules =>
    obtain ⟨q, hq, rfl⟩ := List.mem_map.mp hr
    obtain ⟨hscopes, hclause⟩ := h _ hmem q hq
    refine ⟨hscopes, ?_⟩
    simp only [Rule.settle, Rule.resolve, hscopes]
    exact Clause.Scoped.resolve _ _ hclause

end Labelled.Program

/-! ## The main results -/

/-- A checked evaluation misses no slot and ends as `o` does, and afterwards every lambda still
has the frames and slots for the names that its clauses were resolved under. -/
structure Outcome.InRange {α : Type} (checked : Outcome Stop (Store Capture) α)
    (o : Outcome Cause (Store Closure) α) : Prop where
  same : checked.resolve? = some o
  frames : ∀ s, checked.state? = some s → ∀ c ∈ s.closures,
    s.fits c.label.scopes (some c.frame) = true

theorem Agrees.inRange {α : Type} {x : Checked α} {y : Eval α} {s : Store Capture}
    (h : Agrees x y s) : (x s).InRange (y s.resolve) :=
  ⟨h.resolve?_eq, fun _ ht c hc => (h.allFit ht c hc).frames⟩

/-- The trees of a session, as they were read and evaluated by name, mean what the resolved ones
mean by index and depth. The outcomes are the same to the last frame and printed line; only the
clauses inside lambdas differ, by being resolved. -/
theorem resolution_keeps_meaning {s : Session} (hs : s.Reachable) :
    ∃ p S, Labelled.Reachable p S ∧ p.resolve = s.env ∧ S.resolve = s.store ∧
      (∀ source file e, Session.parseExpr source file = .ok (some e) → ∀ depth,
        (Checked.evaluateIn p depth e S).resolve? =
          some (s.env.evaluateIn depth (s.env.resolve [] e) s.store)) ∧
      ∀ f args depth,
        (Checked.invoke p depth f args S).resolve? =
          some (Function.invoke s.env depth f args s.store) := by
  obtain ⟨p, S, hreach, hp, hS⟩ := hs.represented
  obtain ⟨hscoped, hfit⟩ := hreach.inScope
  refine ⟨p, S, hreach, hp, hS, fun source file e hparse depth => ?_, fun f args depth => ?_⟩
  · have he : e.Closed := Session.closed_of_parseExpr hparse
    have hagrees := Checked.evaluateIn_agrees hscoped hfit (he []) depth
    rw [hagrees.resolve?_eq, hp, hS]
  · have hagrees := Checked.invoke_agrees hscoped depth f args S hfit
    rw [hagrees.resolve?_eq, hp, hS]

/-- A lambda that reads a parameter of the function around it. -/
theorem resolution_keeps_meaning_pick :
    ∃ s e p S v t,
      (Session.loadText (.ofFiles "/" []) "let pick(x) = @(y) = x" .new).state? = some s ∧
      Session.parseExpr "pick(true)(false)" none = .ok (some e) ∧
      Labelled.Reachable p S ∧ p.resolve = s.env ∧ S.resolve = s.store ∧
      (Checked.evaluateIn p 5 e S).resolve? = some (.ok v t) ∧ v.truthy = true := by
  have hrun : (Session.loadText (.ofFiles "/" []) "let pick(x) = @(y) = x" .new).state?.any
      (fun s => (Session.parseExpr "pick(true)(false)" none).toOption.join.any fun e =>
        (s.env.evaluateIn 5 (s.env.resolve [] e) s.store).value?.any Value.truthy) = true := by
    decide +kernel
  obtain ⟨s, hload, hparsed⟩ := (Option.any_eq_true _ _).mp hrun
  obtain ⟨e, hfound, hevaluated⟩ := (Option.any_eq_true _ _).mp hparsed
  obtain ⟨v, hvalue, htruthy⟩ := (Option.any_eq_true _ _).mp hevaluated
  have hparse : Session.parseExpr "pick(true)(false)" none = .ok (some e) := by
    cases hresult : Session.parseExpr "pick(true)(false)" none with
    | error err =>
      rw [hresult] at hfound
      cases hfound
    | ok found =>
      rw [hresult] at hfound
      exact congrArg Except.ok hfound
  obtain ⟨p, S, hreach, hp, hS, hmeaning, -⟩ := resolution_keeps_meaning (.loadText .new hload)
  obtain ⟨t, heval⟩ := Outcome.value?_eq_some.mp hvalue
  refine ⟨s, e, p, S, v, t, hload, hparse, hreach, hp, hS, ?_, htruthy⟩
  rw [hmeaning _ _ e hparse 5, heval]

/-- Every read and write of a slot finds it, in every evaluation of a parsed text and every call
with any arguments, at any depth. The checks run over the session's own resolved trees: without
their labels these are its functions and its lambdas. Every lambda has captured frames with room
for the names it was resolved under, and a clause of the program was resolved under none. -/
theorem slots_stay_in_range {s : Session} (hs : s.Reachable) :
    ∃ p S, Labelled.Reachable p S ∧ p.settle.forget = s.env ∧ S.settle.forget = s.store ∧
      (∀ d ∈ p.definitions, ∀ r ∈ d.rules, r.label.scopes = []) ∧
      (∀ c ∈ S.closures, s.store.fits c.label.scopes (some c.frame) = true) ∧
      (∀ source file e, Session.parseExpr source file = .ok (some e) → ∀ depth,
        (Checked.evaluateIn p.settle depth (s.env.resolve [] e) S.settle).InRange
          (s.env.evaluateIn depth (s.env.resolve [] e) s.store)) ∧
      ∀ f args depth,
        (Checked.invoke p.settle depth f args S.settle).InRange
          (Function.invoke s.env depth f args s.store) := by
  obtain ⟨p, S, hreach, hp, hS⟩ := hs.represented
  obtain ⟨hscoped, hfit⟩ := hreach.inScope
  have hp' : p.settle.resolve = s.env := p.resolve_settle.trans hp
  have hS' : S.settle.resolve = s.store := S.resolve_settle.trans hS
  refine ⟨p, S, hreach, p.forget_settle.trans hp, S.forget_settle.trans hS,
    fun d hd r hr => (hscoped d hd r hr).1, fun c hc => ?_, fun source file e hparse depth => ?_,
    fun f args depth => ?_⟩
  · rw [← hS, Store.fits_resolve]
    exact (hfit c hc).frames
  · have he : e.Closed := Session.closed_of_parseExpr hparse
    have hagain : s.env.resolve [] (s.env.resolve [] e) = s.env.resolve [] e :=
      Expr.resolve_resolve _ _ e
    have hscope : (s.env.resolve [] e).Scoped [] := Expr.Scoped.resolve _ e (he [])
    have hrange := (Checked.evaluateIn_agrees hscoped.settle hfit.settle hscope depth).inRange
    rw [hp', hS', hagain] at hrange
    exact hrange
  · have hrange := (Checked.invoke_agrees hscoped.settle depth f args S.settle hfit.settle).inRange
    rw [hp', hS'] at hrange
    exact hrange

/-- The lambda that `pick` gives has captured the frame of `x`, and reads it when it is called. -/
theorem slots_stay_in_range_pick :
    ∃ s t p S c,
      (Session.loadText (.ofFiles "/" []) "let pick(x) = @(y) = x" .new).state? = some s ∧
      (Session.evalText "pick(true)" s).state? = some t ∧
      Labelled.Reachable p S ∧ p.settle.forget = t.env ∧ S.settle.forget = t.store ∧
      S.closures[0]? = some c ∧ t.store.fits c.label.scopes (some c.frame) = true ∧
      (Checked.invoke p.settle 5 (.lambda 0) [.bool false] S.settle).InRange
        (Function.invoke t.env 5 (.lambda 0) [.bool false] t.store) := by
  have hrun : (Session.loadText (.ofFiles "/" []) "let pick(x) = @(y) = x" .new).state?.any
      (fun s => (Session.evalText "pick(true)" s).state?.any fun t =>
        t.store.closures.size == 1) = true := by decide +kernel
  obtain ⟨s, hload, hrest⟩ := (Option.any_eq_true _ _).mp hrun
  obtain ⟨t, heval, hsize⟩ := (Option.any_eq_true _ _).mp hrest
  obtain ⟨p, S, hreach, hp, hS, -, hframes, -, hcalls⟩ :=
    slots_stay_in_range (.evalText (.loadText .new hload) heval)
  have hcaptures : S.closures.size = 1 := by
    rw [← hS] at hsize
    simpa [Store.forget, Store.settle] using hsize
  obtain ⟨c, hc⟩ : ∃ c, S.closures[0]? = some c := ⟨_, Array.getElem?_eq_getElem (by omega)⟩
  exact ⟨s, t, p, S, c, hload, heval, hreach, hp, hS, hc, hframes c (Array.mem_of_getElem? hc),
    hcalls _ _ _⟩

end Clausal
