import Clausal.Proofs.Depth

/-!
# The choice of a clause

A function is called by the first of its clauses that has as many parameters as there are arguments
and that is not rejected. The guards of a clause are weighed from left to right (`Dispatch.Weighed`)
until one of them is not a success with a truthy value: a falsy value rejects the clause, an error
is the error of the call. If all clauses are passed over (`Dispatch.PassedOver`), there is no
suitable one; otherwise the first that is not decides (`Dispatch.DecidedBy`).

Which guards are evaluated shows in what they print and in their errors, and not at all where they
have neither. So the choice is described once more, by a scheme in which evaluating a guard is a
parameter (`Dispatch.selectBy`). With plain evaluation it is `select`
(`Dispatch.select_eq_selectBy`). With evaluation that notes the place of the guard it gives the same
and a list of the guards that were evaluated (`Dispatch.forget_selectNoted`), and that list is the
one that the descriptions above tell (`Dispatch.selectNoted_of_passedOver`,
`Dispatch.selectNoted_of_decidedBy`).
-/

namespace Clausal

/-! ## Notes -/

section Notes

variable {ε σ ν α β : Type}

/-- Run `x` and make a note of it; what it does to the state stays the same. -/
def Run.noting (note : ν) (x : Run ε σ α) : Run ε (σ × List ν) α := fun (s, notes) =>
  match x s with
  | .ok a t => .ok a (t, notes ++ [note])
  | .fail e t => .fail e (t, notes ++ [note])
  | .exhausted => .exhausted

/-- An outcome without the notes. -/
def Outcome.forget : Outcome ε (σ × ν) α → Outcome ε σ α
  | .ok a (s, _) => .ok a s
  | .fail e (s, _) => .fail e s
  | .exhausted => .exhausted

/-- Without the notes, `x` does what `y` does. -/
def Run.Forgets (x : Run ε (σ × List ν) α) (y : Run ε σ α) : Prop :=
  ∀ s notes, (x (s, notes)).forget = y s

variable {x : Run ε σ α} {s t : σ} {notes : List ν}

theorem Run.noting_ok {a : α} (note : ν) (h : x s = .ok a t) :
    Run.noting note x (s, notes) = .ok a (t, notes ++ [note]) := by
  simp [Run.noting, h]

theorem Run.noting_fail {e : ε} (note : ν) (h : x s = .fail e t) :
    Run.noting note x (s, notes) = .fail e (t, notes ++ [note]) := by
  simp [Run.noting, h]

namespace Run.Forgets

theorem noting (note : ν) (x : Run ε σ α) : Forgets (Run.noting note x) x := by
  intro s notes
  unfold Run.noting
  cases hx : x s <;> simp [hx, Outcome.forget]

theorem ret (a : α) : Forgets (pure a : Run ε (σ × List ν) α) (pure a) :=
  fun _ _ => rfl

theorem bind {x : Run ε (σ × List ν) α} {y : Run ε σ α} {f : α → Run ε (σ × List ν) β}
    {g : α → Run ε σ β} (hx : Forgets x y) (hf : ∀ a, Forgets (f a) (g a)) :
    Forgets (x >>= f) (y >>= g) := by
  intro s notes
  have hrun := hx s notes
  cases h : x (s, notes) with
  | ok a st =>
    obtain ⟨t, notes'⟩ := st
    rw [h] at hrun
    rw [Run.bind_ok h, Run.bind_ok hrun.symm]
    exact hf a t notes'
  | fail e st =>
    rw [h] at hrun
    rw [Run.bind_fail h, Run.bind_fail hrun.symm]
    rfl
  | exhausted =>
    rw [h] at hrun
    rw [Run.bind_exhausted h, Run.bind_exhausted hrun.symm]
    rfl

end Run.Forgets

end Notes

namespace Dispatch

/-- The place of a guard: the number of its clause, and its number among the guards there. -/
structure Site where
  clause : Nat
  guard : Nat
  deriving Repr, DecidableEq

/-! ## The scheme -/

section Scheme

variable {ε σ : Type} (test : Site → Expr → Run ε σ Value)

/-- Whether all guards hold, from the guard of number `guard` of a clause on. -/
def guardsHoldBy (clause : Nat) : Nat → List Expr → Run ε σ Bool
  | _, [] => return true
  | guard, g :: gs => do
    let v ← test ⟨clause, guard⟩ g
    if v.truthy then guardsHoldBy clause (guard + 1) gs else return false

/-- The first clause of `arity` parameters whose guards hold, from the clause of number `clause`
on. -/
def selectBy (arity : Nat) : Nat → List Clause → Run ε σ (Option Clause)
  | _, [] => return none
  | clause, c :: cs => do
    if c.params.length = arity then
      if ← guardsHoldBy test clause 0 c.guards then
        return some c
    selectBy arity (clause + 1) cs

variable {test} {arity : Nat} {c : Clause}

theorem selectBy_other (h : c.params.length ≠ arity) (i : Nat) (cs : List Clause) :
    selectBy test arity i (c :: cs) = selectBy test arity (i + 1) cs := by
  simp [selectBy, h]

theorem selectBy_same (h : c.params.length = arity) (i : Nat) (cs : List Clause) :
    selectBy test arity i (c :: cs) = guardsHoldBy test i 0 c.guards >>= fun held =>
      if held then pure (some c) else selectBy test arity (i + 1) cs := by
  simp [selectBy, h]

theorem guardsHoldBy_forgets {test' : Site → Expr → Run ε (σ × List Site) Value}
    (htest : ∀ site g, (test' site g).Forgets (test site g)) (i j : Nat) (gs : List Expr) :
    (guardsHoldBy test' i j gs).Forgets (guardsHoldBy test i j gs) := by
  induction gs generalizing j with
  | nil => exact .ret _
  | cons g gs ih =>
    refine .bind (htest ⟨i, j⟩ g) fun v => ?_
    by_cases hv : v.truthy = true
    · simpa [hv] using ih (j + 1)
    · simpa [hv] using .ret _

theorem selectBy_forgets {test' : Site → Expr → Run ε (σ × List Site) Value}
    (htest : ∀ site g, (test' site g).Forgets (test site g)) (i : Nat) (cs : List Clause) :
    (selectBy test' arity i cs).Forgets (selectBy test arity i cs) := by
  induction cs generalizing i with
  | nil => exact .ret _
  | cons c cs ih =>
    by_cases h : c.params.length = arity
    · rw [selectBy_same h, selectBy_same h]
      refine .bind (guardsHoldBy_forgets htest i 0 c.guards) fun held => ?_
      cases held with
      | true => exact .ret _
      | false => exact ih (i + 1)
    · rw [selectBy_other h, selectBy_other h]
      exact ih (i + 1)

end Scheme

variable (env : Environment) (invoke : Invoke Cause Closure) (frame : Nat)

theorem guardsHold_eq_guardsHoldBy (i j : Nat) (gs : List Expr) :
    guardsHold env invoke frame gs =
      guardsHoldBy (fun _ g => g.eval env invoke frame) i j gs := by
  induction gs generalizing j with
  | nil => rfl
  | cons g gs ih => simp only [guardsHold, guardsHoldBy, ih (j + 1)]

/-- The choice of a clause is the scheme with plain evaluation. -/
theorem select_eq_selectBy (arity i : Nat) (cs : List Clause) :
    select env invoke frame arity cs =
      selectBy (fun _ g => g.eval env invoke frame) arity i cs := by
  induction cs generalizing i with
  | nil => rfl
  | cons c cs ih =>
    simp only [select, selectBy, ih (i + 1), guardsHold_eq_guardsHoldBy env invoke frame i 0]

/-- The choice of a clause, with the guards that it evaluates, in order. -/
def selectNoted (arity : Nat) (clauses : List Clause) :
    Run Cause (Store Closure × List Site) (Option Clause) :=
  selectBy (fun site g => Run.noting site (g.eval env invoke frame)) arity 0 clauses

theorem forget_selectNoted (arity : Nat) (clauses : List Clause) (s : Store Closure)
    (notes : List Site) :
    (selectNoted env invoke frame arity clauses (s, notes)).forget =
      select env invoke frame arity clauses s := by
  rw [select_eq_selectBy env invoke frame arity 0]
  exact selectBy_forgets (fun site g => .noting site _) 0 clauses s notes

/-! ## Verdicts -/

/-- What the guards of a clause say about it. -/
inductive Verdict where
  | accepted
  | rejected
  | failing (cause : Cause)

/-- What it comes to. -/
def Verdict.outcome {σ : Type} (state : σ) : Verdict → Outcome Cause σ Bool
  | .accepted => .ok true state
  | .rejected => .ok false state
  | .failing cause => .fail cause state

/-- Guards from left to right, from one store to another: accepted if all of them succeed with
truthy values, else decided by the first that does not. So many of them are evaluated. -/
inductive Weighed : List Expr → Store Closure → Verdict → Nat → Store Closure → Prop
  | none {s : Store Closure} : Weighed [] s .accepted 0 s
  | holds {g : Expr} {gs : List Expr} {s t u : Store Closure} {v : Value} {verdict : Verdict}
      {count : Nat} (hg : g.eval env invoke frame s = .ok v t) (hv : v.truthy = true)
      (hrest : Weighed gs t verdict count u) : Weighed (g :: gs) s verdict (count + 1) u
  | falsy {g : Expr} {gs : List Expr} {s t : Store Closure} {v : Value}
      (hg : g.eval env invoke frame s = .ok v t) (hv : v.truthy = false) :
      Weighed (g :: gs) s .rejected 1 t
  | fails {g : Expr} {gs : List Expr} {s t : Store Closure} {cause : Cause}
      (hg : g.eval env invoke frame s = .fail cause t) : Weighed (g :: gs) s (.failing cause) 1 t

/-- The guards of the clause of number `clause` from number `guard` on, `count` of them. -/
def sites (clause guard count : Nat) : List Site := (List.range' guard count).map (Site.mk clause)

/-- Clauses from number `clause` on, from one store to another: those of `arity` parameters are all
rejected, the others are not looked at. These guards are evaluated. -/
inductive PassedOver (arity : Nat) :
    Nat → List Clause → Store Closure → List Site → Store Closure → Prop
  | none {i : Nat} {s : Store Closure} : PassedOver arity i [] s [] s
  | other {i : Nat} {c : Clause} {cs : List Clause} {s t : Store Closure} {evaluated : List Site}
      (hother : c.params.length ≠ arity) (hrest : PassedOver arity (i + 1) cs s evaluated t) :
      PassedOver arity i (c :: cs) s evaluated t
  | rejected {i : Nat} {c : Clause} {cs : List Clause} {s t u : Store Closure} {count : Nat}
      {evaluated : List Site} (hsame : c.params.length = arity)
      (hguards : Weighed env invoke frame c.guards s .rejected count t)
      (hrest : PassedOver arity (i + 1) cs t evaluated u) :
      PassedOver arity i (c :: cs) s (sites i 0 count ++ evaluated) u

/-- The clause `c` is the first of `arity` parameters that is not rejected, with this verdict. Only
guards of the clauses before it and of `c` itself are evaluated. -/
def DecidedBy (arity : Nat) (clauses : List Clause) (s : Store Closure) (c : Clause)
    (verdict : Verdict) (evaluated : List Site) (t : Store Closure) : Prop :=
  ∃ before after passed u count, clauses = before ++ c :: after ∧
    PassedOver env invoke frame arity 0 before s passed u ∧ c.params.length = arity ∧
    Weighed env invoke frame c.guards u verdict count t ∧
    evaluated = passed ++ sites before.length 0 count

variable {env invoke frame} {arity : Nat} {s t u : Store Closure} {notes evaluated : List Site}

/-! ## What a verdict comes to -/

theorem sites_succ (i j count : Nat) : sites i j (count + 1) = ⟨i, j⟩ :: sites i (j + 1) count := by
  simp [sites, List.range'_succ]

/-- Weighing guards notes those that are evaluated and ends in the verdict. -/
theorem guardsHoldBy_of_weighed {gs : List Expr} {verdict : Verdict} {count : Nat}
    (h : Weighed env invoke frame gs s verdict count t) (i j : Nat) (notes : List Site) :
    guardsHoldBy (fun site g => Run.noting site (g.eval env invoke frame)) i j gs (s, notes) =
      verdict.outcome (t, notes ++ sites i j count) := by
  induction h generalizing j notes with
  | none => simp [sites, Verdict.outcome, guardsHoldBy, pure, Run.pure]
  | @holds g gs s t u v verdict count hg hv _ ih =>
    rw [guardsHoldBy, Run.bind_ok (Run.noting_ok (Site.mk i j) hg), if_pos hv, ih, sites_succ]
    simp
  | @falsy g gs s t v hg hv =>
    rw [guardsHoldBy, Run.bind_ok (Run.noting_ok (Site.mk i j) hg), if_neg (by simp [hv])]
    rfl
  | @fails g gs s t cause hg =>
    rw [guardsHoldBy, Run.bind_fail (Run.noting_fail (Site.mk i j) hg)]
    rfl

theorem guardsHold_of_weighed {gs : List Expr} {verdict : Verdict} {count : Nat}
    (h : Weighed env invoke frame gs s verdict count t) :
    guardsHold env invoke frame gs s = verdict.outcome t := by
  have hplain := guardsHoldBy_forgets (fun site g => .noting site (g.eval env invoke frame)) 0 0 gs
    s []
  rw [guardsHoldBy_of_weighed h, ← guardsHold_eq_guardsHoldBy] at hplain
  rw [← hplain]
  cases verdict <;> rfl

/-- Guards have a verdict unless one of them does not come to an end. -/
theorem exists_weighed {gs : List Expr} (h : guardsHold env invoke frame gs s ≠ .exhausted) :
    ∃ verdict count t, Weighed env invoke frame gs s verdict count t := by
  induction gs generalizing s with
  | nil => exact ⟨.accepted, 0, s, .none⟩
  | cons g gs ih =>
    cases hg : g.eval env invoke frame s with
    | ok v t =>
      by_cases hv : v.truthy = true
      · rw [guardsHold, Run.bind_ok hg, if_pos hv] at h
        obtain ⟨verdict, count, u, hrest⟩ := ih h
        exact ⟨verdict, count + 1, u, .holds hg hv hrest⟩
      · exact ⟨.rejected, 1, t, .falsy hg (by simpa using hv)⟩
    | fail cause t => exact ⟨.failing cause, 1, t, .fails hg⟩
    | exhausted => exact absurd (Run.bind_exhausted hg) h

/-! ## What the verdicts come to -/

/-- Clauses that are passed over leave the choice to those behind them. -/
theorem selectBy_of_passedOver {i : Nat} {before : List Clause}
    (h : PassedOver env invoke frame arity i before s evaluated t) (cs : List Clause)
    (notes : List Site) :
    selectBy (fun site g => Run.noting site (g.eval env invoke frame)) arity i (before ++ cs)
        (s, notes) =
      selectBy (fun site g => Run.noting site (g.eval env invoke frame)) arity (i + before.length)
        cs (t, notes ++ evaluated) := by
  induction h generalizing notes with
  | none => simp
  | @other i c before s t evaluated hother _ ih =>
    rw [List.cons_append, selectBy_other hother, ih, List.length_cons, Nat.add_right_comm i 1,
      Nat.add_assoc]
  | @rejected i c before s t u count evaluated hsame hguards _ ih =>
    have hheld := guardsHoldBy_of_weighed hguards i 0 notes
    rw [List.cons_append, selectBy_same hsame, Run.bind_ok hheld, if_neg (by simp), ih,
      List.length_cons, List.append_assoc, Nat.add_right_comm i 1, Nat.add_assoc]

theorem selectNoted_of_passedOver {clauses : List Clause}
    (h : PassedOver env invoke frame arity 0 clauses s evaluated t) :
    selectNoted env invoke frame arity clauses (s, []) = .ok none (t, evaluated) := by
  have hrun := selectBy_of_passedOver h [] []
  rw [List.append_nil] at hrun
  rw [selectNoted, hrun]
  rfl

/-- The outcome of a choice that this clause decides with this verdict. -/
def Verdict.decision {σ : Type} (c : Clause) (state : σ) : Verdict → Outcome Cause σ (Option Clause)
  | .accepted => .ok (some c) state
  | .rejected => .ok none state
  | .failing cause => .fail cause state

theorem selectNoted_of_decidedBy {clauses : List Clause} {c : Clause} {verdict : Verdict}
    (h : DecidedBy env invoke frame arity clauses s c verdict evaluated t)
    (hverdict : verdict ≠ .rejected) :
    selectNoted env invoke frame arity clauses (s, []) = verdict.decision c (t, evaluated) := by
  obtain ⟨before, after, passed, u, count, rfl, hpassed, hsame, hguards, rfl⟩ := h
  have hheld := guardsHoldBy_of_weighed hguards before.length 0 passed
  rw [selectNoted, selectBy_of_passedOver hpassed, Nat.zero_add, List.nil_append,
    selectBy_same hsame]
  cases verdict with
  | accepted =>
    rw [Run.bind_ok hheld]
    rfl
  | rejected => exact absurd rfl hverdict
  | failing cause =>
    rw [Run.bind_fail hheld]
    rfl

/-- A choice that comes to an end passes over all clauses, or there is a first one that it does not
pass over. -/
theorem passedOver_or_exists {i : Nat} {clauses : List Clause}
    (h : select env invoke frame arity clauses s ≠ .exhausted) :
    (∃ evaluated t, PassedOver env invoke frame arity i clauses s evaluated t) ∨
      ∃ before c after passed u verdict count t, clauses = before ++ c :: after ∧
        PassedOver env invoke frame arity i before s passed u ∧ c.params.length = arity ∧
        Weighed env invoke frame c.guards u verdict count t ∧ verdict ≠ .rejected := by
  induction clauses generalizing i s with
  | nil => exact .inl ⟨[], s, .none⟩
  | cons c cs ih =>
    by_cases hsame : c.params.length = arity
    · rw [select, if_pos hsame] at h
      obtain ⟨verdict, count, t, hguards⟩ :=
        exists_weighed fun hnone => h (Run.bind_exhausted hnone)
      cases verdict with
      | accepted =>
        exact .inr ⟨[], c, cs, [], s, _, count, t, rfl, .none, hsame, hguards, by simp⟩
      | failing cause =>
        exact .inr ⟨[], c, cs, [], s, _, count, t, rfl, .none, hsame, hguards, by simp⟩
      | rejected =>
        rw [Run.bind_ok (guardsHold_of_weighed hguards), if_neg (by simp)] at h
        rcases ih h with ⟨evaluated, u, hpassed⟩ |
          ⟨before, d, after, passed, u, verdict, count', t', rfl, hpassed, hrest⟩
        · exact .inl ⟨_, u, .rejected hsame hguards hpassed⟩
        · exact .inr ⟨c :: before, d, after, _, u, verdict, count', t', rfl,
            .rejected hsame hguards hpassed, hrest⟩
    · rw [select, if_neg hsame] at h
      rcases ih h with ⟨evaluated, u, hpassed⟩ |
        ⟨before, d, after, passed, u, verdict, count, t, rfl, hpassed, hrest⟩
      · exact .inl ⟨evaluated, u, .other hsame hpassed⟩
      · exact .inr ⟨c :: before, d, after, passed, u, verdict, count, t, rfl,
          .other hsame hpassed, hrest⟩

theorem ne_exhausted_of_forget {ε σ ν α : Type} {x : Outcome ε (σ × ν) α}
    (h : x ≠ .exhausted) : x.forget ≠ .exhausted := by
  cases x with
  | exhausted => exact absurd rfl h
  | _ => nofun

theorem selectNoted_cases {clauses : List Clause}
    (h : selectNoted env invoke frame arity clauses (s, []) ≠ .exhausted) :
    (∃ evaluated t, PassedOver env invoke frame arity 0 clauses s evaluated t ∧
      selectNoted env invoke frame arity clauses (s, []) = .ok none (t, evaluated)) ∨
    ∃ c verdict evaluated t, verdict ≠ .rejected ∧
      DecidedBy env invoke frame arity clauses s c verdict evaluated t ∧
      selectNoted env invoke frame arity clauses (s, []) = verdict.decision c (t, evaluated) := by
  have hends := ne_exhausted_of_forget h
  rw [forget_selectNoted] at hends
  rcases passedOver_or_exists hends with ⟨evaluated, t, hpassed⟩ |
    ⟨before, c, after, passed, u, verdict, count, t, rfl, hpassed, hsame, hguards, hverdict⟩
  · exact .inl ⟨evaluated, t, hpassed, selectNoted_of_passedOver hpassed⟩
  · have hdecided : DecidedBy env invoke frame arity (before ++ c :: after) s c verdict
        (passed ++ sites before.length 0 count) t :=
      ⟨before, after, passed, u, count, rfl, hpassed, hsame, hguards, rfl⟩
    exact .inr ⟨c, verdict, _, t, hverdict, hdecided, selectNoted_of_decidedBy hdecided hverdict⟩

theorem selectNoted_eq_none_iff {clauses : List Clause} :
    selectNoted env invoke frame arity clauses (s, []) = .ok none (t, evaluated) ↔
      PassedOver env invoke frame arity 0 clauses s evaluated t := by
  refine ⟨fun h => ?_, selectNoted_of_passedOver⟩
  rcases selectNoted_cases (by rw [h]; nofun) with ⟨_, _, hpassed, hrun⟩ |
    ⟨c, verdict, _, _, hverdict, -, hrun⟩
  · rw [h] at hrun
    cases hrun
    exact hpassed
  · rw [h] at hrun
    cases verdict with
    | rejected => exact absurd rfl hverdict
    | _ => cases hrun

theorem selectNoted_eq_some_iff {clauses : List Clause} {c : Clause} :
    selectNoted env invoke frame arity clauses (s, []) = .ok (some c) (t, evaluated) ↔
      DecidedBy env invoke frame arity clauses s c .accepted evaluated t := by
  refine ⟨fun h => ?_, fun h => selectNoted_of_decidedBy h nofun⟩
  rcases selectNoted_cases (by rw [h]; nofun) with ⟨_, _, -, hrun⟩ |
    ⟨d, verdict, _, _, -, hdecided, hrun⟩
  · rw [h] at hrun
    cases hrun
  · rw [h] at hrun
    cases verdict with
    | accepted =>
      cases hrun
      exact hdecided
    | _ => cases hrun

theorem selectNoted_eq_fail_iff {clauses : List Clause} {cause : Cause} :
    selectNoted env invoke frame arity clauses (s, []) = .fail cause (t, evaluated) ↔
      ∃ c, DecidedBy env invoke frame arity clauses s c (.failing cause) evaluated t := by
  refine ⟨fun h => ?_, fun ⟨c, h⟩ => selectNoted_of_decidedBy h nofun⟩
  rcases selectNoted_cases (by rw [h]; nofun) with ⟨_, _, -, hrun⟩ |
    ⟨c, verdict, _, _, -, hdecided, hrun⟩
  · rw [h] at hrun
    cases hrun
  · rw [h] at hrun
    cases verdict with
    | failing cause =>
      cases hrun
      exact ⟨c, hdecided⟩
    | _ => cases hrun

/-! ## Main statement -/

variable (env invoke) in
/-- The clause by which a function is called with a frame of arguments, or the error that there is
no suitable one. -/
def clauseFor (f : Function) (frame arity : Nat) (clauses : List Clause) : Eval Clause := do
  match ← select env invoke frame arity clauses with
  | some c => return c
  | none => Run.fail (.noOverload f.name?)

theorem forget_eq_ok_iff {ε σ ν α : Type} {x : Outcome ε (σ × ν) α} {a : α} {s : σ} :
    x.forget = .ok a s ↔ ∃ note, x = .ok a (s, note) := by
  cases x with
  | ok b st =>
    obtain ⟨u, note⟩ := st
    simp [Outcome.forget]
  | fail e st =>
    obtain ⟨u, note⟩ := st
    simp [Outcome.forget]
  | exhausted => simp [Outcome.forget]

theorem forget_eq_fail_iff {ε σ ν α : Type} {x : Outcome ε (σ × ν) α} {e : ε} {s : σ} :
    x.forget = .fail e s ↔ ∃ note, x = .fail e (s, note) := by
  cases x with
  | ok b st =>
    obtain ⟨u, note⟩ := st
    simp [Outcome.forget]
  | fail e st =>
    obtain ⟨u, note⟩ := st
    simp [Outcome.forget]
  | exhausted => simp [Outcome.forget]

theorem select_eq_none_iff {clauses : List Clause} :
    select env invoke frame arity clauses s = .ok none t ↔
      ∃ evaluated, PassedOver env invoke frame arity 0 clauses s evaluated t := by
  rw [← forget_selectNoted env invoke frame arity clauses s [], forget_eq_ok_iff]
  exact exists_congr fun _ => selectNoted_eq_none_iff

theorem select_eq_some_iff {clauses : List Clause} {c : Clause} :
    select env invoke frame arity clauses s = .ok (some c) t ↔
      ∃ evaluated, DecidedBy env invoke frame arity clauses s c .accepted evaluated t := by
  rw [← forget_selectNoted env invoke frame arity clauses s [], forget_eq_ok_iff]
  exact exists_congr fun _ => selectNoted_eq_some_iff

theorem select_eq_fail_iff {clauses : List Clause} {cause : Cause} :
    select env invoke frame arity clauses s = .fail cause t ↔
      ∃ evaluated c, DecidedBy env invoke frame arity clauses s c (.failing cause) evaluated t := by
  rw [← forget_selectNoted env invoke frame arity clauses s [], forget_eq_fail_iff]
  exact exists_congr fun _ => selectNoted_eq_fail_iff

theorem clauseFor_eq_ok_iff {f : Function} {clauses : List Clause} {c : Clause} :
    clauseFor env invoke f frame arity clauses s = .ok c t ↔
      select env invoke frame arity clauses s = .ok (some c) t := by
  cases h : select env invoke frame arity clauses s with
  | ok chosen u =>
    rw [clauseFor, Run.bind_ok h]
    cases chosen <;> simp [pure, Run.pure, Run.fail]
  | fail cause u => simp [clauseFor, Run.bind_fail h]
  | exhausted => simp [clauseFor, Run.bind_exhausted h]

theorem clauseFor_eq_fail_iff {f : Function} {clauses : List Clause} {cause : Cause} :
    clauseFor env invoke f frame arity clauses s = .fail cause t ↔
      select env invoke frame arity clauses s = .fail cause t ∨
        cause = .noOverload f.name? ∧ select env invoke frame arity clauses s = .ok none t := by
  cases h : select env invoke frame arity clauses s with
  | ok chosen u =>
    rw [clauseFor, Run.bind_ok h]
    cases chosen <;> simp [pure, Run.pure, Run.fail, eq_comm]
  | fail cause u => simp [clauseFor, Run.bind_fail h]
  | exhausted => simp [clauseFor, Run.bind_exhausted h]

/-- Every round of applying a function makes the choice anew. -/
theorem applyOnce_eq (f : Function) (args : List Value) :
    applyOnce env invoke f args = (do
      let (clauses, captured) ← Run.read (f.code env)
      let frame ← Eval.push args.toArray captured
      let c ← clauseFor env invoke f frame args.length clauses
      c.body.evalTail env invoke f frame) := by
  simp only [applyOnce, clauseFor, bind_assoc]
  congr 1
  funext code
  congr 1
  funext frame
  congr 1
  funext chosen
  cases chosen <;> rfl

/-- The choice of a clause for a call is decided by the first clause of the right number of
parameters that is not rejected: it is that clause, or the error of its guard. There is no suitable
clause if and only if all of them are rejected. The guards that are evaluated on the way are those
of the clauses passed over, each up to the falsy one, and those of the deciding clause, up to the
failing one if it fails; so the store, and what is printed in it, is what these leave. All that
holds anew in every round of a call. -/
theorem first_unrejected_clause_decides (env : Environment) (invoke : Invoke Cause Closure)
    (f : Function) (frame arity : Nat) (clauses : List Clause) (s : Store Closure) :
    (∀ c t, clauseFor env invoke f frame arity clauses s = .ok c t ↔
      ∃ evaluated, DecidedBy env invoke frame arity clauses s c .accepted evaluated t) ∧
    (∀ cause t, clauseFor env invoke f frame arity clauses s = .fail cause t ↔
      (∃ evaluated c, DecidedBy env invoke frame arity clauses s c (.failing cause) evaluated t) ∨
        cause = .noOverload f.name? ∧
          ∃ evaluated, PassedOver env invoke frame arity 0 clauses s evaluated t) ∧
    (Cause.noOverload f.name?).kind = .dispatch ∧
    (∀ t, select env invoke frame arity clauses s = .ok none t ↔
      ∃ evaluated, PassedOver env invoke frame arity 0 clauses s evaluated t) ∧
    (∀ c t evaluated, selectNoted env invoke frame arity clauses (s, []) =
        .ok (some c) (t, evaluated) ↔
      DecidedBy env invoke frame arity clauses s c .accepted evaluated t) ∧
    (∀ cause t evaluated, selectNoted env invoke frame arity clauses (s, []) =
        .fail cause (t, evaluated) ↔
      ∃ c, DecidedBy env invoke frame arity clauses s c (.failing cause) evaluated t) ∧
    (∀ t evaluated, selectNoted env invoke frame arity clauses (s, []) = .ok none (t, evaluated) ↔
      PassedOver env invoke frame arity 0 clauses s evaluated t) ∧
    (selectNoted env invoke frame arity clauses (s, [])).forget =
      select env invoke frame arity clauses s ∧
    (∀ rounds args, applyClauses env invoke f (rounds + 1) args = (do
      let (clauses, captured) ← Run.read (f.code env)
      let frame ← Eval.push args.toArray captured
      let c ← clauseFor env invoke f frame args.length clauses
      let flow ← c.body.evalTail env invoke f frame
      flow.resume (applyClauses env invoke f rounds))) := by
  refine ⟨fun c t => ?_, fun cause t => ?_, rfl, fun t => select_eq_none_iff,
    fun c t evaluated => selectNoted_eq_some_iff, fun cause t evaluated => selectNoted_eq_fail_iff,
    fun t evaluated => selectNoted_eq_none_iff,
    forget_selectNoted env invoke frame arity clauses s [], fun rounds args => ?_⟩
  · rw [clauseFor_eq_ok_iff, select_eq_some_iff]
  · rw [clauseFor_eq_fail_iff, select_eq_fail_iff, select_eq_none_iff]
  · rw [applyClauses_succ, applyOnce_eq]
    simp only [bind_assoc]

/-- Four clauses, of which the first has one parameter too few and the third is chosen. The
unresolved names are never looked at. -/
example :
    let known (e : Literal) : Param := ⟨none, some (.literal e)⟩
    let unknown : Param := ⟨none, some (.free "x")⟩
    let body : Expr := .literal .void
    let clauses : List Clause := [⟨[unknown], body⟩, ⟨[known .void, unknown], body⟩,
      ⟨[known (.bool true), known (.text "b")], body⟩, ⟨[unknown, unknown], body⟩]
    (match selectNoted {} (Function.invoke {} 0) 0 2 clauses ({}, []) with
      | .ok (some _) (_, evaluated) => evaluated
      | _ => []) = [⟨1, 0⟩, ⟨2, 0⟩, ⟨2, 1⟩] := by
  decide +kernel

end Dispatch

end Clausal
