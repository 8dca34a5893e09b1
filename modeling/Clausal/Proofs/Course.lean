import Clausal.Proofs.Sessions
import Clausal.Proofs.Written

/-!
# The course of a session

`Session.Moves s t`: one operation on the session `s` leads to `t`, be it that it succeeded or that
it failed; `Session.Leads s t`: any number of operations do.

All that operations do to a session is made of five things: a group of declarations that was read
takes effect, a text is kept, a file is marked as loaded, the store changes, and the pending error
does. A relation that holds across each of these, and from one session to itself and over several
(`Session.Tracks`), holds between a session and every later one (`Session.Leads.tracks`). Loading
leaves the store alone, so for it less is needed (`Session.Loads`).
-/

namespace Clausal

namespace Session

variable {α β : Type}

/-- One operation leads from a session to another, whether it succeeds or fails. -/
inductive Moves (s : Session) : Session → Prop
  | loadText {t fs source} (h : (Session.loadText fs source s).state? = some t) : Moves s t
  | loadFile {t fs path} (h : (Session.loadFile fs path s).state? = some t) : Moves s t
  | evalText {t source} (h : (Session.evalText source s).state? = some t) : Moves s t
  | call {t name args} (h : (Session.call name args s).state? = some t) : Moves s t
  | runMain {t args} (h : (Session.runMain args s).state? = some t) : Moves s t
  /-- An identity is handed out, as for a list made outside. -/
  | fresh : Moves s { s with store := s.store.fresh.2 }
  | flush : Moves s s.flush.2
  | dump {painter} : Moves s (s.dump painter).2
  | takePrinted : Moves s s.takePrinted.2

/-- Any number of operations lead from a session to another. -/
inductive Leads (s : Session) : Session → Prop
  | refl : Leads s s
  | step {t u : Session} (h : Leads s t) (hmove : t.Moves u) : Leads s u

/-- A relation between a session and what becomes of it holds across all that loading may do. -/
structure Loads (R : Session → Session → Prop) : Prop where
  refl : ∀ s, R s s
  trans : ∀ {s t u}, R s t → R t u → R s u
  remember : ∀ s file source, R s (s.remember file source)
  mark : ∀ s path, R s { s with included := path :: s.included }
  latch : ∀ s latch, R s { s with latch := latch }
  commit : ∀ s lexer group stop, lexer.current.kind.Genuine →
    Parse.statement s.env.isNative lexer = .ok (some (.declarations group)) stop →
    R s { s with env := s.env.commit group }

/-- It holds across all that an operation may do. -/
structure Tracks (R : Session → Session → Prop) : Prop extends Loads R where
  store : ∀ s store, R s { s with store := store }

/-- A step goes from a session only to related ones. -/
def Respects (R : Session → Session → Prop) (step : Step α) : Prop :=
  ∀ s t : Session, (step s).state? = some t → R s t

namespace Loads

variable {R : Session → Session → Prop}

/-! ## Steps -/

theorem bind (hR : Loads R) {x : Step α} {f : α → Step β} (hx : Respects R x)
    (hf : ∀ a, Respects R (f a)) : Respects R (x >>= f) := by
  intro s u h
  cases hstep : x s with
  | ok a t =>
    rw [Run.bind_ok hstep] at h
    exact hR.trans (hx s t (by rw [hstep]; rfl)) (hf a t u h)
  | fail e t =>
    rw [Run.bind_fail hstep] at h
    exact hx s u (by rw [hstep]; exact h)
  | exhausted =>
    rw [Run.bind_exhausted hstep] at h
    cases h

theorem ret (hR : Loads R) (a : α) : Respects R (pure a : Step α) := by
  intro s t h
  cases h
  exact hR.refl s

theorem fail (hR : Loads R) (e : Error) : Respects R (Run.fail e : Step α) := by
  intro s t h
  cases h
  exact hR.refl s

theorem read (hR : Loads R) (f : Session → α) : Respects R (Run.read f : Step α) := by
  intro s t h
  cases h
  exact hR.refl s

theorem recorded (hR : Loads R) {x : Step α} (hx : Respects R x) :
    Respects R (recorded x) := by
  intro s t h
  rw [Session.recorded] at h
  cases hstep : x s with
  | ok a u =>
    rw [hstep] at h
    exact hx s t (by rw [hstep]; exact h)
  | fail e u =>
    rw [hstep] at h
    cases h
    exact hR.trans (hx s u (by rw [hstep]; rfl)) (hR.latch u _)
  | exhausted =>
    rw [hstep] at h
    cases h

/-! ## Loading -/

theorem statements (hR : Loads R) {load : String → Step Unit}
    (hload : ∀ path, Respects R (load path)) (base : String) (steps : Nat) {lexer : Lexer}
    (hlexer : lexer.current.kind.Genuine) : Respects R (statements load base steps lexer) := by
  induction steps generalizing lexer with
  | zero =>
    intro s t h
    cases h
  | succ steps ih =>
    intro s t h
    have hfinds := Parse.statement_finds s.env.isNative lexer
    rw [Session.statements] at h
    split at h
    · cases h
      exact hR.refl s
    · next group stop hread =>
      have hstop := (hfinds _ _ hlexer hread).1
      exact hR.trans (hR.commit s lexer group stop hlexer hread) (ih hstop _ t h)
    · next path position stop hread =>
      have hstop := (hfinds _ _ hlexer hread).1
      cases hstep : load (Path.join base path) s with
      | ok u s' =>
        simp only [hstep] at h
        exact hR.trans (hload _ s s' (by rw [hstep]; rfl)) (ih hstop s' t h)
      | fail e s' =>
        simp only [hstep] at h
        cases h
        exact hload _ s t (by rw [hstep]; rfl)
      | exhausted =>
        simp only [hstep] at h
        cases h
    · cases h
      exact hR.refl s
    · cases h

theorem loadSource (hR : Loads R) {load : String → Step Unit}
    (hload : ∀ path, Respects R (load path)) (base : String) (file : Option String)
    (source : String) : Respects R (loadSource load base file source) := by
  intro s t h
  have hremember := hR.remember s file source
  simp only [Session.loadSource] at h
  split at h
  · next lexer hlexer =>
    have hgenuine := Lexer.ofSource_genuine hlexer
    exact hR.trans hremember (hR.statements hload base _ hgenuine _ t h)
  · cases h
    exact hremember

theorem includeFile (hR : Loads R) (fs : FileSystem) (depth : Nat) (path : String) :
    Respects R (includeFile fs depth path) := by
  induction depth generalizing path with
  | zero =>
    intro s t h
    cases h
  | succ depth ih =>
    intro s t h
    rw [Session.includeFile] at h
    split at h
    · cases h
      exact hR.refl s
    · next found _ =>
      have hmark := hR.mark s found.path
      split at h
      · cases h
        exact hR.refl s
      · dsimp only at h
        split at h
        · cases h
          exact hmark
        · exact hR.trans hmark (hR.loadSource ih _ _ _ _ t h)

end Loads

namespace Tracks

variable {R : Session → Session → Prop}

/-! ## Evaluating -/

theorem evaluating (hR : Tracks R) (run : Environment → Eval α) :
    Respects R (evaluating run) := by
  intro s t h
  obtain ⟨store, -, rfl⟩ := state?_evaluating h
  exact hR.store s store

theorem evalText (hR : Tracks R) (source : String) : Respects R (evalText source) := by
  refine hR.recorded (hR.bind ?_ fun _ => hR.bind ?_ fun e => hR.evaluating _)
  · intro s t h
    cases h
    exact hR.remember s none source
  · intro s t h
    unfold parsed at h
    split at h
    · cases h
      exact hR.refl s
    · cases h
    · cases h
      exact hR.refl s

theorem call (hR : Tracks R) (name : String) (args : List Value) : Respects R (call name args) := by
  refine hR.recorded (hR.bind (hR.read _) fun found => ?_)
  cases found with
  | none => exact hR.fail _
  | some f => exact hR.evaluating _

theorem runMain (hR : Tracks R) (args : List String) : Respects R (runMain args) := by
  refine hR.bind (hR.read _) fun found => ?_
  cases found with
  | none => exact hR.ret _
  | some clauses =>
    dsimp only
    split
    · exact hR.bind (hR.call "main" []) fun _ => hR.ret _
    · exact hR.bind (hR.evaluating _) fun id => hR.bind (hR.call "main" _) fun _ => hR.ret _

end Tracks

/-! ## Whole sessions -/

variable {R : Session → Session → Prop} {s t : Session}

theorem Moves.tracks (h : s.Moves t) (hR : Tracks R) : R s t := by
  cases h with
  | loadText h => exact hR.recorded (hR.loadSource (hR.includeFile _ _) _ _ _) s t h
  | loadFile h => exact hR.recorded (hR.includeFile _ _ _) s t h
  | evalText h => exact hR.evalText _ s t h
  | call h => exact hR.call _ _ s t h
  | runMain h => exact hR.runMain _ s t h
  | fresh | takePrinted => exact hR.store s _
  | flush => exact hR.latch s _
  | dump =>
    rw [Session.dump]
    split
    · exact hR.refl s
    · exact hR.latch s _

theorem Leads.tracks (h : s.Leads t) (hR : Tracks R) : R s t := by
  induction h with
  | refl => exact hR.refl s
  | step _ hmove ih => exact hR.trans ih (hmove.tracks hR)

end Session

end Clausal
