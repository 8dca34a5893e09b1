import Clausal.Eval

/-!
# Depth of evaluation

A call is made with a bound on the calls inside it and on its rounds. The bound only decides
whether the call comes to an end: one that does ends in the same way under every larger bound.

* `Run.Below x y`: `y` ends as `x` does wherever `x` ends at all. Sequencing and catching keep it
  (`Below.bind`, `Below.catching`).
* `Expr.eval_below`, `applyClauses_below`, `Native.run_below`: evaluation keeps it, from the way
  functions are called to everything that calls them.
* `Function.invoke_mono`: more depth keeps a finished answer.
-/

namespace Clausal

namespace Run

variable {ε σ α β : Type}

/-- `y` ends as `x` does, in the same state, wherever `x` ends at all. -/
def Below (x y : Run ε σ α) : Prop := ∀ s, x s ≠ .exhausted → y s = x s

theorem Below.refl (x : Run ε σ α) : x.Below x := fun _ _ => rfl

theorem Below.trans {x y z : Run ε σ α} (hxy : x.Below y) (hyz : y.Below z) : x.Below z := by
  intro s hs
  have hy : y s = x s := hxy s hs
  rw [hyz s (hy ▸ hs), hy]

/-- The run without any steps left is below all others. -/
theorem below_of_exhausted {x y : Run ε σ α} (h : ∀ s, x s = .exhausted) : x.Below y :=
  fun s hs => absurd (h s) hs

theorem Below.bind {x y : Run ε σ α} {f g : α → Run ε σ β} (hxy : x.Below y)
    (hfg : ∀ a, (f a).Below (g a)) : (x >>= f).Below (y >>= g) := by
  intro s hs
  cases hx : x s with
  | ok a t =>
    have hy : y s = .ok a t := by rw [hxy s (by simp [hx]), hx]
    rw [bind_ok hx] at hs ⊢
    rw [bind_ok hy]
    exact hfg a t hs
  | fail e t =>
    have hy : y s = .fail e t := by rw [hxy s (by simp [hx]), hx]
    rw [bind_fail hx, bind_fail hy]
  | exhausted => exact absurd (bind_exhausted hx) hs

theorem Below.recover {x y : Run ε σ α} {f g : ε → Run ε σ α} (hxy : x.Below y)
    (hfg : ∀ e, (f e).Below (g e)) : (x.recover f).Below (y.recover g) := by
  intro s hs
  cases hx : x s with
  | ok a t =>
    have hy : y s = .ok a t := by rw [hxy s (by simp [hx]), hx]
    rw [recover_ok hx, recover_ok hy]
  | fail e t =>
    have hy : y s = .fail e t := by rw [hxy s (by simp [hx]), hx]
    rw [recover_fail hx] at hs ⊢
    rw [recover_fail hy]
    exact hfg e t hs
  | exhausted => exact absurd (recover_exhausted hx) hs

end Run

open Run

section Calls

variable {ε κ : Type}

/-- `j` calls every function as `i` does, as far as `i` comes to an end. -/
def Invoke.Below (i j : Invoke ε κ) : Prop := ∀ f args, (i f args).Below (j f args)

variable {i j : Invoke ε κ}

/-! ## Items of a list -/

/-- One round of `collectFrom`, as a sequence of two runs. -/
theorem collectFrom_succ (xs : Sequence Value) (f : Value → Run ε (Store κ) (Option Value))
    (count k : Nat) (kept : List Value) :
    collectFrom xs f (count + 1) k kept = f (Value.item xs k) >>= fun found =>
      collectFrom xs f count (k + 1) (found.toList ++ kept) := by
  funext s
  rw [collectFrom]
  cases hf : f (Value.item xs k) s with
  | ok found t =>
    rw [bind_ok hf]
    cases found <;> rfl
  | fail e t => rw [bind_fail hf]
  | exhausted => rw [bind_exhausted hf]

theorem collectFrom_below {xs : Sequence Value} {f g : Value → Run ε (Store κ) (Option Value)}
    (h : ∀ x, (f x).Below (g x)) (count k : Nat) (kept : List Value) :
    (collectFrom xs f count k kept).Below (collectFrom xs g count k kept) := by
  induction count generalizing k kept with
  | zero => exact .refl _
  | succ count ih =>
    rw [collectFrom_succ, collectFrom_succ]
    exact (h _).bind fun found => ih _ _

theorem collect_below {xs : Sequence Value} {f g : Value → Run ε (Store κ) (Option Value)}
    (h : ∀ x, (f x).Below (g x)) : (collect xs f).Below (collect xs g) :=
  (collectFrom_below h _ _ _).bind fun _ => .refl _

theorem foldValues_below (h : Invoke.Below i j) (f : Function) (acc : Value) (xs : List Value) :
    (foldValues i f acc xs).Below (foldValues j f acc xs) := by
  induction xs generalizing acc with
  | nil => exact .refl _
  | cons x xs ih => exact (h f [acc, x]).bind fun next => ih next

/-! ## Built-in functions -/

variable [Catchable ε]

theorem Value.call_below (h : Invoke.Below i j) (callee : Value) (args : List Value) :
    (callee.call i args).Below (callee.call j args) := by
  cases callee with
  | function f => exact h f args
  | _ => exact .refl _

theorem Eval.catching_below {x y : Run ε (Store κ) Value}
    {f g : Cause → Run ε (Store κ) Value} (hxy : x.Below y) (hfg : ∀ c, (f c).Below (g c)) :
    (Eval.catching x f).Below (Eval.catching y g) := by
  refine hxy.recover fun e => ?_
  cases Catchable.cause? e with
  | some cause => exact hfg cause
  | none => exact .refl _

/-- Most built-in functions call no function; the others call one for each item of a list, or a
second one after the failure of the first. -/
theorem Native.run_below (h : Invoke.Below i j) (fn : Native) (args : List Value) :
    (fn.run i args).Below (fn.run j args) := by
  cases fn with
  | foldl =>
    simp only [Native.run]
    split
    · exact foldValues_below h _ _ _
    · refine (Below.refl _).bind fun _ => ?_
      split
      · exact foldValues_below h _ _ _
      · exact .refl _
  | map =>
    refine (Below.refl _).bind fun _ => ?_
    split
    · exact collect_below fun x => (h _ _).bind fun _ => .refl _
    · exact .refl _
  | filter =>
    refine (Below.refl _).bind fun _ => ?_
    split
    · exact collect_below fun x => (h _ _).bind fun _ => .refl _
    · exact .refl _
  | «catch» =>
    refine (Below.refl _).bind fun _ => ?_
    split
    · exact Eval.catching_below (h _ _) fun cause => h _ _
    · exact .refl _
  | _ => exact .refl _

end Calls

/-! ## Expressions -/

section Expressions

variable {env : Environment} {i j : Invoke Cause Closure}

/-- The operators but the two logical ones evaluate both operands and are then applied. -/
theorem Expr.eval_binary {op : BinaryOp} (hand : op ≠ .and) (hor : op ≠ .or) (frame : Nat)
    (left right : Expr) :
    (Expr.binary op left right).eval env i frame = (do
      let a ← left.eval env i frame
      let b ← right.eval env i frame
      let id ← Eval.fresh
      Run.ofExcept (op.apply id a b)) := by
  cases op <;> first | contradiction | rfl

mutual

theorem Expr.eval_below (h : Invoke.Below i j) (frame : Nat) :
    ∀ e : Expr, (e.eval env i frame).Below (e.eval env j frame)
  | .literal _ => .refl _
  | .symbol _ (.slot ..) => .refl _
  | .symbol _ .global => .refl _
  | .symbol _ .unresolved => .refl _
  | .binary op left right => by
    have hleft := left.eval_below h frame
    have hright := right.eval_below h frame
    by_cases hand : op = .and
    · subst hand
      refine hleft.bind fun a => ?_
      split
      · exact hright
      · exact .refl _
    by_cases hor : op = .or
    · subst hor
      refine hleft.bind fun a => ?_
      split
      · exact .refl _
      · exact hright
    rw [Expr.eval_binary hand hor, Expr.eval_binary hand hor]
    exact hleft.bind fun a => hright.bind fun b => .refl _
  | .unary op operand => (operand.eval_below h frame).bind fun _ => .refl _
  | .call callee args =>
    (callee.eval_below h frame).bind fun f =>
      (Expr.evalAll_below h frame args).bind fun values => f.call_below h values
  | .list items => (Expr.evalAll_below h frame items).bind fun _ => .refl _
  | .map entries => (Entry.evalAll_below h frame .empty entries).bind fun _ => .refl _
  | .comprehension name source filter map => by
    refine (source.eval_below h frame).bind fun v => ?_
    cases v with
    | list xs =>
      refine (Below.refl _).bind fun inner => collect_below fun x => ?_
      refine (Below.refl _).bind fun _ => ?_
      refine (Expr.evalFilter_below h inner filter).bind fun keep => ?_
      split
      · exact (Expr.evalMap_below h inner x map).bind fun _ => .refl _
      · exact .refl _
    | _ => exact .refl _
  | .withBlock bindings body =>
    (Below.refl _).bind fun inner =>
      (Binding.evalAll_below h inner 0 bindings).bind fun _ => body.eval_below h inner
  | .lambda _ => .refl _

theorem Expr.evalAll_below (h : Invoke.Below i j) (frame : Nat) :
    ∀ es : List Expr, (Expr.evalAll env i frame es).Below (Expr.evalAll env j frame es)
  | [] => .refl _
  | e :: es =>
    (e.eval_below h frame).bind fun _ => (Expr.evalAll_below h frame es).bind fun _ => .refl _

theorem Expr.evalFilter_below (h : Invoke.Below i j) (frame : Nat) :
    ∀ e : Option Expr, (Expr.evalFilter env i frame e).Below (Expr.evalFilter env j frame e)
  | none => .refl _
  | some e => (e.eval_below h frame).bind fun _ => .refl _

theorem Expr.evalMap_below (h : Invoke.Below i j) (frame : Nat) (x : Value) :
    ∀ e : Option Expr, (Expr.evalMap env i frame x e).Below (Expr.evalMap env j frame x e)
  | none => .refl _
  | some e => e.eval_below h frame

theorem Entry.evalAll_below (h : Invoke.Below i j) (frame : Nat) (written : Dict Value) :
    ∀ es : List Entry,
      (Entry.evalAll env i frame written es).Below (Entry.evalAll env j frame written es)
  | [] => .refl _
  | ⟨_, value⟩ :: es => (value.eval_below h frame).bind fun _ => Entry.evalAll_below h frame _ es

theorem Binding.evalAll_below (h : Invoke.Below i j) (frame slot : Nat) :
    ∀ bs : List Binding,
      (Binding.evalAll env i frame slot bs).Below (Binding.evalAll env j frame slot bs)
  | [] => .refl _
  | ⟨_, value⟩ :: bs =>
    (value.eval_below h frame).bind fun _ => (Below.refl _).bind fun _ =>
      (Below.refl _).bind fun _ => (Below.refl _).bind fun _ => Binding.evalAll_below h frame _ bs

end

/-! ## Clauses -/

theorem Expr.evalTail_below (h : Invoke.Below i j) (current : Function) (frame : Nat) (e : Expr) :
    (e.evalTail env i current frame).Below (e.evalTail env j current frame) := by
  fun_induction Expr.evalTail env i current frame e with
  | case1 frame callee args =>
    refine (callee.eval_below h frame).bind fun f => ?_
    refine (Expr.evalAll_below h frame args).bind fun values => ?_
    cases f with
    | function g =>
      dsimp only
      split
      · exact .refl _
      · exact (h g values).bind fun _ => .refl _
    | _ => exact (Value.call_below h _ _).bind fun _ => .refl _
  | case2 frame left right ih =>
    refine (left.eval_below h frame).bind fun a => ?_
    split
    · exact ih
    · exact .refl _
  | case3 frame left right ih =>
    refine (left.eval_below h frame).bind fun a => ?_
    split
    · exact .refl _
    · exact ih
  | case4 frame bindings body ih =>
    refine (Below.refl _).bind fun inner => ?_
    exact (Binding.evalAll_below h inner 0 bindings).bind fun _ => ih inner
  | case5 frame e hcall hand hor hwith =>
    rw [Expr.evalTail]
    · exact (e.eval_below h frame).bind fun _ => .refl _
    all_goals assumption

theorem guardsHold_below (h : Invoke.Below i j) (frame : Nat) (gs : List Expr) :
    (guardsHold env i frame gs).Below (guardsHold env j frame gs) := by
  induction gs with
  | nil => exact .refl _
  | cons g gs ih =>
    refine (g.eval_below h frame).bind fun v => ?_
    split
    · exact ih
    · exact .refl _

theorem select_below (h : Invoke.Below i j) (frame arity : Nat) (cs : List Clause) :
    (select env i frame arity cs).Below (select env j frame arity cs) := by
  induction cs with
  | nil => exact .refl _
  | cons c cs ih =>
    simp only [select]
    split
    · refine (guardsHold_below h frame c.guards).bind fun held => ?_
      split
      · exact .refl _
      · exact ih
    · exact ih

/-- One round: a frame for the arguments, the choice of a clause, and the end of its body. -/
def applyOnce (env : Environment) (i : Invoke Cause Closure) (f : Function) (args : List Value) :
    Eval Flow := do
  let (clauses, captured) ← Run.read (f.code env)
  let frame ← Eval.push args.toArray captured
  match ← select env i frame args.length clauses with
  | some c => c.body.evalTail env i f frame
  | none => Run.fail (.noOverload f.name?)

/-- What is left to do after the end of a body. -/
def Flow.resume (again : List Value → Eval Value) : Flow → Eval Value
  | .value v => return v
  | .again args => again args

theorem applyClauses_succ (f : Function) (rounds : Nat) (args : List Value) :
    applyClauses env i f (rounds + 1) args =
      applyOnce env i f args >>= Flow.resume (applyClauses env i f rounds) := by
  funext s
  rw [applyClauses]
  simp only [applyOnce, Bind.bind, Run.bind, Run.read, Eval.push, Run.modifyGet, Store.push]
  cases select env i s.frames.size args.length (f.code env s).1
      { s with frames := s.frames.push ⟨args.toArray, (f.code env s).2⟩ } with
  | ok chosen t =>
    cases chosen with
    | none => rfl
    | some c =>
      dsimp only
      cases c.body.evalTail env i f s.frames.size t with
      | ok flow t => cases flow <;> rfl
      | _ => rfl
  | _ => rfl

theorem applyOnce_below (h : Invoke.Below i j) (f : Function) (args : List Value) :
    (applyOnce env i f args).Below (applyOnce env j f args) := by
  refine (Below.refl _).bind fun code => ?_
  refine (Below.refl _).bind fun frame => ?_
  refine (select_below h frame args.length code.1).bind fun chosen => ?_
  cases chosen with
  | none => exact .refl _
  | some c => exact c.body.evalTail_below h f frame

theorem Flow.resume_below {again again' : List Value → Eval Value}
    (h : ∀ args, (again args).Below (again' args)) (flow : Flow) :
    (flow.resume again).Below (flow.resume again') := by
  cases flow with
  | value v => exact .refl _
  | again args => exact h args

theorem applyClauses_below (h : Invoke.Below i j) (f : Function) {m n : Nat} (hmn : m ≤ n)
    (args : List Value) : (applyClauses env i f m args).Below (applyClauses env j f n args) := by
  induction m generalizing n args with
  | zero => exact below_of_exhausted fun _ => rfl
  | succ m ih =>
    obtain ⟨n, rfl⟩ : ∃ k, n = k + 1 := ⟨n - 1, by omega⟩
    rw [applyClauses_succ, applyClauses_succ]
    exact (applyOnce_below h f args).bind (Flow.resume_below fun next => ih (by omega) next)

end Expressions

/-- More depth keeps a finished answer. -/
theorem Function.invoke_mono (env : Environment) {m n : Nat} (hmn : m ≤ n) :
    Invoke.Below (Function.invoke env m) (Function.invoke env n) := by
  induction m generalizing n with
  | zero => exact fun f args => below_of_exhausted fun _ => rfl
  | succ m ih =>
    obtain ⟨n, rfl⟩ : ∃ k, n = k + 1 := ⟨n - 1, by omega⟩
    have h : Invoke.Below (Function.invoke env m) (Function.invoke env n) := ih (by omega)
    intro f args
    cases f with
    | native fn slot => exact fn.run_below h args
    | declared name slot => exact applyClauses_below h _ (by omega) args
    | lambda id => exact applyClauses_below h _ (by omega) args

end Clausal
