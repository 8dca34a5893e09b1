import Clausal.Proofs.Depth

/-!
# Tail calls

`Function.invoke` does not nest a call with which the body of a function ends and that calls the
function itself: the body ends in `Flow.again`, and the arguments go back to the choice of a
clause. `Function.invokePlain` is calling without that: a body is evaluated like any other
expression, so that every call is a call inside a call.

* `Expr.eval_eq_evalTail`: evaluating a body is evaluating it up to its last call and then making
  that call. It is an equation of runs, for any way of calling functions.
* `Function.invoke_below_plain`, `Function.plain_below_invoke`: whatever the one comes to at some
  depth, the other comes to at some depth.
* `tail_calls_keep_meaning`: the two have the same answers, and one has none iff the other has
  none.
-/

namespace Clausal

open Run

variable {env : Environment} {i j : Invoke Cause Closure}

/-- Apply a function by the first clause that accepts the arguments, with its body evaluated like
any other expression. -/
def applyPlain (env : Environment) (invoke : Invoke Cause Closure) (f : Function)
    (args : List Value) : Eval Value := do
  let (clauses, captured) ← Run.read (f.code env)
  let frame ← Eval.push args.toArray captured
  match ← select env invoke frame args.length clauses with
  | some c => c.body.eval env invoke frame
  | none => Run.fail (.noOverload f.name?)

/-- Call a function with at most `depth` calls inside calls, where a call that ends a body is one
of them like any other. -/
def Function.invokePlain (env : Environment) : Nat → Invoke Cause Closure
  | 0, _, _, _ => .exhausted
  | depth + 1, f, args, store =>
    match f with
    | .native fn _ => fn.run (Function.invokePlain env depth) args store
    | .declared .. | .lambda _ => applyPlain env (Function.invokePlain env depth) f args store

/-! ## The end of a body -/

/-- Evaluating a body is evaluating it up to a last call of `current` and then making the call. -/
theorem Expr.eval_eq_evalTail (current : Function) (frame : Nat) (e : Expr) :
    e.eval env i frame = e.evalTail env i current frame >>= Flow.resume (i current) := by
  fun_induction Expr.evalTail env i current frame e with
  | case1 frame callee args =>
    simp only [Expr.eval, bind_assoc]
    congr 1
    funext f
    congr 1
    funext values
    cases f with
    | function g =>
      dsimp only
      split
      · next same => subst same; rfl
      · simp only [Value.call, bind_assoc, pure_bind, Flow.resume, bind_pure]
    | _ => simp only [bind_assoc, pure_bind, Flow.resume, bind_pure]
  | case2 frame left right ih =>
    simp only [Expr.eval, bind_assoc]
    congr 1
    funext a
    split
    · exact ih
    · rfl
  | case3 frame left right ih =>
    simp only [Expr.eval, bind_assoc]
    congr 1
    funext a
    split
    · rfl
    · exact ih
  | case4 frame bindings body ih =>
    simp only [Expr.eval, bind_assoc]
    congr 1
    funext inner
    congr 1
    funext u
    exact ih inner
  | case5 frame e hcall hand hor hwith =>
    simp only [bind_assoc, pure_bind, Flow.resume, bind_pure]

/-- A plain application is one round and then, if the body ends in a call of the function, that
call. -/
theorem applyPlain_eq (f : Function) (args : List Value) :
    applyPlain env i f args = applyOnce env i f args >>= Flow.resume (i f) := by
  simp only [applyPlain, applyOnce, bind_assoc]
  congr 1
  funext code
  congr 1
  funext frame
  congr 1
  funext chosen
  cases chosen with
  | none => rfl
  | some c => exact Expr.eval_eq_evalTail f frame c.body

theorem applyPlain_below (h : Invoke.Below i j) (f : Function) (args : List Value) :
    (applyPlain env i f args).Below (applyPlain env j f args) := by
  rw [applyPlain_eq, applyPlain_eq]
  exact (applyOnce_below h f args).bind (Flow.resume_below (h f))

/-! ## From one way of calling to the other -/

/-- More depth keeps a finished answer of plain calls, too. -/
theorem Function.invokePlain_mono (env : Environment) {m n : Nat} (hmn : m ≤ n) :
    Invoke.Below (Function.invokePlain env m) (Function.invokePlain env n) := by
  induction m generalizing n with
  | zero => exact fun f args => below_of_exhausted fun _ => rfl
  | succ m ih =>
    obtain ⟨n, rfl⟩ : ∃ k, n = k + 1 := ⟨n - 1, by omega⟩
    have h : Invoke.Below (Function.invokePlain env m) (Function.invokePlain env n) :=
      ih (by omega)
    intro f args
    cases f with
    | native fn slot => exact fn.run_below h args
    | declared name slot => exact applyPlain_below h _ args
    | lambda id => exact applyPlain_below h _ args

/-- The rounds of one application become as many plain calls inside each other. -/
theorem applyClauses_below_plain {m : Nat}
    (h : Invoke.Below i (Function.invokePlain env m)) {f : Function} (hf : f.isNative = false)
    (rounds : Nat) (args : List Value) :
    (applyClauses env i f rounds args).Below (Function.invokePlain env (m + rounds) f args) := by
  induction rounds generalizing args with
  | zero => exact below_of_exhausted fun _ => rfl
  | succ rounds ih =>
    have hplain : Function.invokePlain env (m + (rounds + 1)) f args =
        applyPlain env (Function.invokePlain env (m + rounds)) f args := by
      cases f with
      | native => cases hf
      | _ => rfl
    have hmore : Invoke.Below i (Function.invokePlain env (m + rounds)) := fun g vs =>
      (h g vs).trans (Function.invokePlain_mono env (by omega) g vs)
    rw [applyClauses_succ, hplain, applyPlain_eq]
    exact (applyOnce_below hmore f args).bind (Flow.resume_below ih)

/-- What calls with rounds come to at a depth, plain calls come to at some greater depth. -/
theorem Function.invoke_below_plain (env : Environment) (n : Nat) :
    ∃ m, Invoke.Below (Function.invoke env n) (Function.invokePlain env m) := by
  induction n with
  | zero => exact ⟨0, fun f args => below_of_exhausted fun _ => rfl⟩
  | succ n ih =>
    obtain ⟨m, h⟩ := ih
    refine ⟨m + n + 1, fun f args => ?_⟩
    cases f with
    | native fn slot =>
      have hmore : Invoke.Below (Function.invoke env n) (Function.invokePlain env (m + n)) :=
        fun g vs => (h g vs).trans (Function.invokePlain_mono env (by omega) g vs)
      exact fn.run_below hmore args
    | declared name slot =>
      exact (applyClauses_below_plain h rfl n args).trans
        (Function.invokePlain_mono env (by omega) _ args)
    | lambda id =>
      exact (applyClauses_below_plain h rfl n args).trans
        (Function.invokePlain_mono env (by omega) _ args)

/-- What plain calls come to at a depth, calls with rounds come to at one more. -/
theorem Function.plain_below_invoke (env : Environment) (n : Nat) :
    Invoke.Below (Function.invokePlain env n) (Function.invoke env (n + 1)) := by
  induction n with
  | zero => exact fun f args => below_of_exhausted fun _ => rfl
  | succ n ih =>
    -- a plain call inside the body becomes a round: the first one stays, the others move up
    have rounds (f : Function) (hf : f.isNative = false) (args : List Value) :
        (applyPlain env (Function.invokePlain env n) f args).Below
          (applyClauses env (Function.invoke env (n + 1)) f (n + 1) args) := by
      rw [applyPlain_eq, applyClauses_succ]
      refine (applyOnce_below ih f args).bind (Flow.resume_below fun next => ?_)
      refine (ih f next).trans ?_
      have hless : Invoke.Below (Function.invoke env n) (Function.invoke env (n + 1)) :=
        Function.invoke_mono env (by omega)
      cases f with
      | native => cases hf
      | _ => exact applyClauses_below hless _ (Nat.le_refl n) next
    intro f args
    cases f with
    | native fn slot => exact fn.run_below ih args
    | declared name slot => exact rounds _ rfl args
    | lambda id => exact rounds _ rfl args

/-! ## Answers at any depth -/

/-- The run `x n` ends in `o` for some depth `n`. -/
def Answers {ε σ α : Type} (x : Nat → Run ε σ α) (s : σ) (o : Outcome ε σ α) : Prop :=
  o ≠ .exhausted ∧ ∃ n, x n s = o

/-- The run `x n` ends for no depth `n`. -/
def Diverges {ε σ α : Type} (x : Nat → Run ε σ α) (s : σ) : Prop := ∀ n, x n s = .exhausted

theorem Answers.of_below {ε σ α : Type} {x y : Nat → Run ε σ α} {s : σ} {o : Outcome ε σ α}
    (h : ∀ n, ∃ m, (x n).Below (y m)) (ho : Answers x s o) : Answers y s o := by
  obtain ⟨hne, n, hn⟩ := ho
  obtain ⟨m, hm⟩ := h n
  refine ⟨hne, m, ?_⟩
  rw [hm s (by rw [hn]; exact hne), hn]

theorem diverges_iff {ε σ α : Type} {x : Nat → Run ε σ α} {s : σ} :
    Diverges x s ↔ ∀ o, ¬ Answers x s o := by
  constructor
  · rintro hx o ⟨hne, n, hn⟩
    exact hne (by rw [← hn, hx n])
  · intro hx n
    exact Classical.byContradiction fun hne => hx _ ⟨hne, n, rfl⟩

/-- Two families of runs, each of which is below the other at some depth, have the same answers,
and one diverges iff the other does. -/
theorem answers_iff_of_below {ε σ α : Type} {x y : Nat → Run ε σ α}
    (hxy : ∀ n, ∃ m, (x n).Below (y m)) (hyx : ∀ n, ∃ m, (y n).Below (x m)) (s : σ) :
    (∀ o, Answers x s o ↔ Answers y s o) ∧ (Diverges x s ↔ Diverges y s) := by
  have same (o : Outcome ε σ α) : Answers x s o ↔ Answers y s o := ⟨.of_below hxy, .of_below hyx⟩
  refine ⟨same, ?_⟩
  rw [diverges_iff, diverges_iff]
  exact forall_congr' fun o => not_congr (same o)

/-- Calling a function with rounds for the calls of itself that end its bodies, and calling it
without them, come to the same answers: the same value or error in the same store, with the same
text printed; and one comes to none iff the other comes to none. The same holds of evaluating any
expression in any frame with the one or the other way of calling. -/
theorem tail_calls_keep_meaning (env : Environment) (store : Store Closure) :
    (∀ (f : Function) (args : List Value),
      (∀ o, Answers (fun n => Function.invoke env n f args) store o ↔
        Answers (fun n => Function.invokePlain env n f args) store o) ∧
      (Diverges (fun n => Function.invoke env n f args) store ↔
        Diverges (fun n => Function.invokePlain env n f args) store)) ∧
    (∀ (e : Expr) (frame : Nat),
      (∀ o, Answers (fun n => e.eval env (Function.invoke env n) frame) store o ↔
        Answers (fun n => e.eval env (Function.invokePlain env n) frame) store o) ∧
      (Diverges (fun n => e.eval env (Function.invoke env n) frame) store ↔
        Diverges (fun n => e.eval env (Function.invokePlain env n) frame) store)) := by
  have down (n : Nat) : ∃ m, Invoke.Below (Function.invokePlain env n) (Function.invoke env m) :=
    ⟨n + 1, Function.plain_below_invoke env n⟩
  constructor
  · intro f args
    refine answers_iff_of_below (fun n => ?_) (fun n => ?_) store
    · exact (Function.invoke_below_plain env n).imp fun m h => h f args
    · exact (down n).imp fun m h => h f args
  · intro e frame
    refine answers_iff_of_below (fun n => ?_) (fun n => ?_) store
    · exact (Function.invoke_below_plain env n).imp fun m h => e.eval_below h frame
    · exact (down n).imp fun m h => e.eval_below h frame

end Clausal
