import Clausal.Proofs.Quoting
import Clausal.Repl

/-!
# The loop at its prompts

At every prompt no error is pending, so what a failing input shows is its own error, and the text
quoted with it is the input or the file in which the error arose.

* `Repl.operation?`: what a line asks of the session, if it completes an input that asks something.
* `Repl.step_of_ok`, `Repl.step_of_fail`, `Repl.step_of_command`: what one line does to the loop.
* `Repl.after`: the loop at the prompt after several lines; `Repl.lines_append`: these are the
  prompts of the loop.
* `Repl.diagnostics_belong_to_their_input`: the invariant of all prompts, and what follows for the
  next line.
-/

namespace Clausal

namespace Output

theorem append_assoc (a b c : Output) : a ++ b ++ c = a ++ (b ++ c) :=
  congrArg₂ Output.mk (String.append_assoc ..) (String.append_assoc ..)

theorem empty_append (a : Output) : ({} : Output) ++ a = a :=
  congrArg₂ Output.mk String.empty_append String.empty_append

end Output

namespace Repl

/-- The operation on the session that an input asks for. A command asks for none. -/
def Input.operation? : Input → Option Operation
  | .declare source => some (.loadText source)
  | .evaluate source => some (.evalText source)
  | .nothing | .quit | .help | .clear | .functions | .unknown _ => none

/-- What a line asks of the session: nothing if it is to be continued. -/
def operation? (terminal : Terminal) (r : Repl) (line : String) : Option Operation :=
  if (typed terminal line).endsWith "\\" then none
  else (Input.ofText (Text.trim (r.buffer ++ typed terminal line))).operation?

/-- Whether a line completes an input that succeeds. -/
def succeeds (terminal : Terminal) (fs : FileSystem) (r : Repl) (line : String) : Bool :=
  (r.operation? terminal line).any fun op => (op.step fs r.session).passes fun _ _ => true

variable {terminal : Terminal} {fs : FileSystem} {r next : Repl} {line : String} {op : Operation}
  {t : Session} {e : Error}

/-! ## One line -/

/-- A line that asks nothing of the session leaves it alone or starts a new one. -/
theorem step_of_command (h : r.operation? terminal line = none)
    (hstep : (r.step terminal fs line).1 = some next) :
    next.number = r.number ∧ (next.session = r.session ∨ next.session = .new) := by
  unfold operation? at h
  unfold step at hstep
  dsimp only at hstep
  split at h
  · next hcontinued =>
    rw [if_pos hcontinued] at hstep
    cases hstep
    exact ⟨rfl, .inl rfl⟩
  · next hcontinued =>
    rw [if_neg hcontinued] at hstep
    cases hinput : Input.ofText (Text.trim (r.buffer ++ typed terminal line)) with
    | declare source | evaluate source =>
      rw [hinput] at h
      cases h
    | quit =>
      rw [hinput] at hstep
      cases hstep
    | clear =>
      rw [hinput] at hstep
      cases hstep
      exact ⟨rfl, .inr rfl⟩
    | nothing | help | functions | unknown =>
      rw [hinput] at hstep
      cases hstep
      exact ⟨rfl, .inl rfl⟩

/-- A line that asks something of the session is an attempt at it. -/
theorem exists_attempt (fs : FileSystem) (h : r.operation? terminal line = some op) :
    ∃ (α : Type) (x : Session.Step α) (reply : α → String),
      op.step fs = (do let _ ← x; return) ∧
      r.step terminal fs line =
        match r.attempt terminal x reply with
        | some (next, output) => (some next, output)
        | none => (none, {}) := by
  unfold operation? at h
  unfold step
  dsimp only
  split at h
  · cases h
  · next hcontinued =>
    rw [if_neg hcontinued]
    cases hinput : Input.ofText (Text.trim (r.buffer ++ typed terminal line)) with
    | declare source =>
      rw [hinput] at h
      cases h
      refine ⟨Unit, Session.loadText fs source, fun _ => _, ?_, rfl⟩
      rw [Operation.step, bind_pure_unit]
    | evaluate source =>
      rw [hinput] at h
      cases h
      exact ⟨Value, Session.evalText source, answer terminal, rfl, rfl⟩
    | nothing | quit | help | clear | functions | unknown =>
      rw [hinput] at h
      cases h

theorem step_of_ok (h : r.operation? terminal line = some op)
    (hrun : op.step fs r.session = .ok () t) :
    ∃ out, r.step terminal fs line =
      (some { session := t.takePrinted.2, number := r.number + 1 }, { out }) := by
  obtain ⟨α, x, reply, hop, hstep⟩ := exists_attempt fs h
  rw [hop] at hrun
  obtain ⟨a, u, hx, hu⟩ := Run.bind_eq_ok_iff.mp hrun
  cases hu
  rw [hstep, attempt, hx]
  exact ⟨_, rfl⟩

/-- An input that fails counts for nothing, and the pending error is shown. -/
theorem step_of_fail (h : r.operation? terminal line = some op)
    (hrun : op.step fs r.session = .fail e t) :
    r.step terminal fs line =
      (some { session := (t.takePrinted.2.dump terminal.toPainter).2, number := r.number },
        { out := t.takePrinted.1, err := (t.takePrinted.2.dump terminal.toPainter).1 }) := by
  obtain ⟨α, x, reply, hop, hstep⟩ := exists_attempt fs h
  rw [hop] at hrun
  rw [hstep, attempt, Operation.fail_of_discard hrun]

theorem step_of_exhausted (h : r.operation? terminal line = some op)
    (hrun : op.step fs r.session = .exhausted) : r.step terminal fs line = (none, {}) := by
  obtain ⟨α, x, reply, hop, hstep⟩ := exists_attempt fs h
  rw [hop] at hrun
  cases hx : x r.session with
  | ok a u =>
    rw [Run.bind_ok hx] at hrun
    cases hrun
  | fail e u =>
    rw [Run.bind_fail hx] at hrun
    cases hrun
  | exhausted => rw [hstep, attempt, hx]

/-- A pending error that is the only one is the one that is shown, and then none is pending. -/
theorem dump_of_fail (painter : Painter) (hr : r.session.latch.pending = none)
    (hrun : op.step fs r.session = .fail e t) :
    (t.takePrinted.2.dump painter).1 = Diagnostic.render painter e (t.sourceOf e) ∧
      (t.takePrinted.2.dump painter).2.latch.pending = none := by
  have hpending : t.takePrinted.2.latch.pending = some e := by
    change t.latch.pending = some e
    rw [Operation.latch_of_fail hrun, Latch.arm, hr]
    rfl
  rw [Session.dump, hpending]
  exact ⟨rfl, rfl⟩

/-- No error is pending at the next prompt, and the number has grown by one if an input
succeeded. -/
theorem step_quiet (hr : r.session.latch.pending = none)
    (hstep : (r.step terminal fs line).1 = some next) :
    next.session.latch.pending = none ∧
      next.number = r.number + if r.succeeds terminal fs line then 1 else 0 := by
  cases hop : r.operation? terminal line with
  | none =>
    obtain ⟨hnumber, hsession⟩ := step_of_command hop hstep
    rw [succeeds, hop]
    refine ⟨?_, hnumber⟩
    rcases hsession with hsession | hsession
    · rw [hsession, hr]
    · rw [hsession]
      rfl
  | some op =>
    rw [succeeds, hop, Option.any_some]
    cases hrun : op.step fs r.session with
    | ok _ t =>
      obtain ⟨out, heq⟩ := step_of_ok hop hrun
      rw [heq] at hstep
      cases hstep
      refine ⟨?_, rfl⟩
      change t.latch.pending = none
      rw [Operation.latch_of_ok hrun, hr]
    | fail e t =>
      rw [step_of_fail hop hrun] at hstep
      cases hstep
      exact ⟨(dump_of_fail _ hr hrun).2, rfl⟩
    | exhausted =>
      rw [step_of_exhausted hop hrun] at hstep
      cases hstep

/-! ## Several lines -/

/-- The loop at the prompt after these lines, unless one of them ends it. Files may change from one
line to the next, so each line comes with the files it finds. -/
def after (terminal : Terminal) : List (FileSystem × String) → Repl → Option Repl
  | [], r => some r
  | (fs, line) :: rest, r => (r.step terminal fs line).1.bind (after terminal rest)

/-- How many inputs among these lines succeed. -/
def successes (terminal : Terminal) : List (FileSystem × String) → Repl → Nat
  | [], _ => 0
  | (fs, line) :: rest, r =>
    (if r.succeeds terminal fs line then 1 else 0) +
      ((r.step terminal fs line).1.map (successes terminal rest)).getD 0

theorem after_quiet {fed : List (FileSystem × String)} (hr : r.session.latch.pending = none)
    (hafter : after terminal fed r = some next) :
    next.session.latch.pending = none ∧ next.number = r.number + successes terminal fed r := by
  induction fed generalizing r with
  | nil =>
    cases hafter
    exact ⟨hr, rfl⟩
  | cons pair rest ih =>
    obtain ⟨fs, line⟩ := pair
    obtain ⟨r', hstep, hafter⟩ := Option.bind_eq_some_iff.mp hafter
    obtain ⟨hr', hnumber⟩ := step_quiet hr hstep
    obtain ⟨hnext, hcount⟩ := ih hr' hafter
    refine ⟨hnext, ?_⟩
    rw [hcount, hnumber, successes, hstep, Option.map_some, Option.getD_some, Nat.add_assoc]

theorem lines_cons {output : Output} {rest : List String}
    (h : r.step terminal fs line = (some next, output)) :
    r.lines terminal fs (line :: rest) =
      { out := r.prompt terminal } ++ output ++ next.lines terminal fs rest := by
  -- the definition as a whole: one equation for each case takes long to derive
  rw [lines.eq_def]
  dsimp only
  rw [h]

/-- What the loop shows for some lines and those behind them: after the former it is at its prompt
for the latter. -/
theorem lines_append {before : List String}
    (h : after terminal (before.map (fs, ·)) r = some next) :
    ∃ shown, ∀ rest,
      r.lines terminal fs (before ++ rest) = shown ++ next.lines terminal fs rest := by
  induction before generalizing r with
  | nil =>
    cases h
    exact ⟨{}, fun rest => (Output.empty_append _).symm⟩
  | cons line before ih =>
    obtain ⟨r', hstep, h⟩ := Option.bind_eq_some_iff.mp h
    obtain ⟨shown, hshown⟩ := ih h
    cases hread : r.step terminal fs line with
    | mk found output =>
      rw [hread] at hstep
      obtain rfl : found = some r' := hstep
      refine ⟨{ out := r.prompt terminal } ++ output ++ shown, fun rest => ?_⟩
      calc r.lines terminal fs (line :: (before ++ rest))
          = { out := r.prompt terminal } ++ output ++ r'.lines terminal fs (before ++ rest) :=
            lines_cons hread
        _ = { out := r.prompt terminal } ++ output ++ (shown ++ next.lines terminal fs rest) := by
            rw [hshown]
        _ = { out := r.prompt terminal } ++ output ++ shown ++ next.lines terminal fs rest :=
            (Output.append_assoc ..).symm

/-! ## Diagnostics -/

/-- What a line asks of the session is about the text of the whole input. -/
theorem text?_of_operation? (h : r.operation? terminal line = some op) :
    op.text? = some (Text.trim (r.buffer ++ typed terminal line)) := by
  unfold operation? at h
  split at h
  · cases h
  · generalize Text.trim (r.buffer ++ typed terminal line) = input at h ⊢
    unfold Input.ofText at h
    split at h
    · cases h
    · split at h
      · split at h <;> cases h
      · split at h <;> cases h <;> rfl

/-- The loop on any terminal, started with a session in which no error is pending and fed with any
lines: continued ones, commands, declarations and expressions, with failures anywhere among them. At
every prompt that it comes to, no error is pending, and the number is one more than the inputs that
succeeded. If the next line completes an input that fails, then what is shown is the error of this
input, and the text it is quoted from is that of the input or of the file in which the error
arose. -/
theorem diagnostics_belong_to_their_input {s : Session} {fed : List (FileSystem × String)}
    (hs : s.latch.pending = none) (hr : after terminal fed { session := s } = some r) :
    r.session.latch.pending = none ∧
    r.number = 1 + successes terminal fed { session := s } ∧
    (∀ fs before, fed = before.map (fs, ·) → ∃ shown, ∀ rest,
      ({ session := s } : Repl).lines terminal fs (before ++ rest) =
        shown ++ r.lines terminal fs rest) ∧
    ∀ fs line op e t, r.operation? terminal line = some op → op.step fs r.session = .fail e t →
      ∃ quoted, (r.step terminal fs line).2 =
          { out := t.store.printed, err := Diagnostic.render terminal.toPainter e quoted } ∧
        match op.culprit fs r.session with
        | none => e.position = none
        | some o => quoted = some o.text ∧ (∃ p, e.position = some p ∧ p.file = o.name) ∧
          (o = ⟨none, Text.trim (r.buffer ++ typed terminal line)⟩ ∨ o.IsFile fs) := by
  obtain ⟨hquiet, hnumber⟩ := after_quiet hs hr
  refine ⟨hquiet, hnumber, ?_, ?_⟩
  · rintro fs before rfl
    exact lines_append hr
  intro fs line op e t hop hrun
  refine ⟨t.sourceOf e, ?_, ?_⟩
  · rw [step_of_fail hop hrun, (dump_of_fail _ hquiet hrun).1]
    rfl
  · obtain ⟨u, -, rfl, hblames⟩ := op.step_eq_fail hrun
    have htext := text?_of_operation? hop
    unfold Operation.Blames at hblames
    split
    · next hculprit => rwa [hculprit] at hblames
    · next o hculprit =>
      rw [hculprit] at hblames
      obtain ⟨⟨p, hp, hfile⟩, hquotes, hwhere⟩ := hblames
      refine ⟨(Session.sourceOf_eq hp hfile).trans hquotes, ⟨p, hp, hfile⟩, ?_⟩
      refine hwhere.imp_left fun ⟨hname, hown⟩ => ?_
      obtain ⟨name, text⟩ := o
      obtain rfl : name = none := hname
      rw [Option.some.inj (htext.symm.trans hown)]

/-- A declaration in two lines, a text that breaks off, a new session, a call of what is no longer
there, and a sum. -/
def chat : List (FileSystem × String) :=
  ["let f(x) = \\", "x + 1", "f(", ":clear", "f(1)", "1 + 1"].map (Session.muddle, ·)

/-- Two of these inputs succeed. A `use` after them fails two files further in, and it is the line
of that file which is quoted. -/
theorem diagnostics_belong_to_their_input_chat :
    ∃ r op e t, after .plain chat { session := .new } = some r ∧ r.session.latch.pending = none ∧
      r.number = 3 ∧ r.operation? .plain "use \"a.xy\"" = some op ∧
      op.step Session.muddle r.session = .fail e t ∧
      (r.step .plain Session.muddle "use \"a.xy\"").2 =
        { out := t.store.printed
          err := Diagnostic.render .plain e (some "let g(x) =\n  08") } := by
  have hcomputed : (after .plain chat { session := .new }).any (fun r =>
      successes .plain chat { session := .new } == 2 &&
      (r.operation? .plain "use \"a.xy\"").any fun op =>
        (op.step Session.muddle r.session).error?.isSome &&
        op.culprit Session.muddle r.session ==
          some ⟨some "/lib/./c.xy", "let g(x) =\n  08"⟩) = true := by decide +kernel
  obtain ⟨r, hr, hcomputed⟩ := (Option.any_eq_true _ _).mp hcomputed
  simp only [Bool.and_eq_true, Option.any_eq_true, beq_iff_eq] at hcomputed
  obtain ⟨htwo, op, hop, hfails, hculprit⟩ := hcomputed
  obtain ⟨e, he⟩ := Option.isSome_iff_exists.mp hfails
  obtain ⟨t, ht⟩ := Outcome.error?_eq_some.mp he
  obtain ⟨hquiet, hnumber, -, hshown⟩ := diagnostics_belong_to_their_input rfl hr
  obtain ⟨quoted, hstep, hquoted⟩ := hshown _ _ op e t hop ht
  rw [hculprit] at hquoted
  rw [hquoted.1] at hstep
  exact ⟨r, op, e, t, hr, hquiet, by rw [hnumber, htwo], hop, ht, hstep⟩

end Repl

end Clausal
