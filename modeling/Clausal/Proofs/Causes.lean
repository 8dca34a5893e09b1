import Clausal.Proofs.Depth

/-!
# What evaluation fails with

Evaluation reads no text any more, so none of its causes is lexical or one of grammar: each is one
of the four kinds that only running a program brings out (`Cause.Dynamic`).

`Run.Raises P x` says that `x` fails with errors that have the property `P` if it fails. It is kept
by sequencing and catching, so each construct needs the causes of its own only; the calls of
functions come last, by induction on the bound for calls inside calls (`Function.invoke_raises`).
-/

namespace Clausal

/-- A cause of one of the kinds that running a program brings out. -/
def Cause.Dynamic (c : Cause) : Prop :=
  c.kind = .resolution ∨ c.kind = .dispatch ∨ c.kind = .type ∨ c.kind = .runtime

namespace Cause.Dynamic

variable {c : Cause}

theorem resolution (h : c.kind = .resolution) : c.Dynamic := .inl h

theorem dispatch (h : c.kind = .dispatch) : c.Dynamic := .inr (.inl h)

theorem type (h : c.kind = .type) : c.Dynamic := .inr (.inr (.inl h))

theorem runtime (h : c.kind = .runtime) : c.Dynamic := .inr (.inr (.inr h))

end Cause.Dynamic

/-! ## What a run raises -/

namespace Run

variable {ε σ α β : Type} {P : ε → Prop} {x : Run ε σ α} {f : α → Run ε σ β}

/-- Every error that a run ends in has the property. -/
def Raises (P : ε → Prop) (x : Run ε σ α) : Prop := ∀ s e t, x s = .fail e t → P e

namespace Raises

theorem bind (hx : x.Raises P) (hf : ∀ a, (f a).Raises P) : (x >>= f).Raises P := by
  intro s e u h
  cases hs : x s with
  | ok a t =>
    rw [bind_ok hs] at h
    exact hf a t e u h
  | fail e' t =>
    rw [bind_fail hs] at h
    obtain ⟨rfl, rfl⟩ := Outcome.fail.inj h
    exact hx s _ _ hs
  | exhausted =>
    rw [bind_exhausted hs] at h
    cases h

theorem ret (a : α) : (Pure.pure a : Run ε σ α).Raises P := by
  intro s e t h
  cases h

theorem read (g : σ → α) : (Run.read g : Run ε σ α).Raises P := by
  intro s e t h
  cases h

theorem modify (g : σ → σ) : (Run.modify g : Run ε σ Unit).Raises P := by
  intro s e t h
  cases h

theorem modifyGet (g : σ → α × σ) : (Run.modifyGet g : Run ε σ α).Raises P := by
  intro s e t h
  cases h

theorem fail {e : ε} (he : P e) : (Run.fail e : Run ε σ α).Raises P := by
  intro s e' t h
  cases h
  exact he

theorem ofExcept {r : Except ε α} (hr : ∀ e, r = .error e → P e) :
    (Run.ofExcept r : Run ε σ α).Raises P := by
  cases r with
  | ok a => exact ret a
  | error e => exact fail (hr e rfl)

theorem of_exhausted (h : ∀ s, x s = .exhausted) : x.Raises P := by
  intro s e t hs
  rw [h s] at hs
  cases hs

theorem recover {g : ε → Run ε σ α} (hg : ∀ e, (g e).Raises P) : (x.recover g).Raises P := by
  intro s e u h
  cases hs : x s with
  | ok a t =>
    rw [recover_ok hs] at h
    cases h
  | fail e' t =>
    rw [recover_fail hs] at h
    exact hg e' t e u h
  | exhausted =>
    rw [recover_exhausted hs] at h
    cases h

end Raises

end Run

open Run

/-! ## Operators, targets and arguments -/

theorem Value.dynamic_of_arithmetic {op : BinaryOp} {x y : Float} {c : Cause}
    (h : (Value.arithmetic op x y).map Value.number = .error c) : c.Dynamic := by
  unfold Value.arithmetic at h
  split at h
  · cases h
  · cases h
  · split at h
    · cases h
      exact .runtime rfl
    · cases h
  · cases h

/-- Operators refuse operands by their types; division refuses zero. -/
theorem BinaryOp.dynamic_of_apply {id : Nat} {op : BinaryOp} {a b : Value} {c : Cause}
    (h : op.apply id a b = .error c) : c.Dynamic := by
  cases op with
  | add | index | range =>
    simp only [BinaryOp.apply] at h
    split at h <;> cases h
    exact .type rfl
  | subtract | multiply | divide | power =>
    simp only [BinaryOp.apply] at h
    split at h
    · exact Value.dynamic_of_arithmetic h
    · cases h
      exact .type rfl
  | less | greater | lessEqual | greaterEqual =>
    simp only [BinaryOp.apply] at h
    split at h <;> cases h
    exact .type rfl
  | equal | notEqual | and | or => cases h

theorem UnaryOp.dynamic_of_apply {op : UnaryOp} {a : Value} {c : Cause}
    (h : op.apply a = .error c) : c.Dynamic := by
  unfold UnaryOp.apply at h
  split at h <;> cases h
  exact .type rfl

theorem Target.dynamic_of_values {target : Target} {v : Value} {id : Nat} {c : Cause}
    (h : target.values v id = .error c) : c.Dynamic := by
  unfold Target.values at h
  split at h
  · cases h
  · split at h <;> cases h
    exact .type rfl

theorem Native.check_raises (fn : Native) (args : List Value) :
    (fn.check args : Eval Unit).Raises Cause.Dynamic := by
  rw [Native.check, Arguments.check]
  split
  · exact .ret _
  · exact .fail (.type rfl)

/-! ## Items of a list -/

/-- A function that is called fails only dynamically. -/
def Invoke.Dynamic (i : Invoke Cause Closure) : Prop :=
  ∀ f args, (i f args).Raises Cause.Dynamic

section

variable {i : Invoke Cause Closure}

theorem Value.call_raises (hi : i.Dynamic) (callee : Value) (args : List Value) :
    (callee.call i args).Raises Cause.Dynamic := by
  cases callee with
  | function f => exact hi f args
  | number n =>
    simp only [Value.call]
    split
    · exact .ret _
    · exact .fail (.type rfl)
  | _ => exact .fail (.runtime rfl)

theorem collectFrom_raises {xs : Sequence Value} {f : Value → Eval (Option Value)}
    (hf : ∀ x, (f x).Raises Cause.Dynamic) (count k : Nat) (kept : List Value) :
    (collectFrom xs f count k kept).Raises Cause.Dynamic := by
  induction count generalizing k kept with
  | zero => exact .ret _
  | succ count ih =>
    rw [collectFrom_succ]
    exact .bind (hf _) fun found => ih _ _

theorem collect_raises {xs : Sequence Value} {f : Value → Eval (Option Value)}
    (hf : ∀ x, (f x).Raises Cause.Dynamic) : (collect xs f).Raises Cause.Dynamic :=
  .bind (collectFrom_raises hf _ _ _) fun _ => .bind (.modifyGet _) fun _ => .ret _

theorem foldValues_raises (hi : i.Dynamic) (f : Function) (acc : Value) (xs : List Value) :
    (foldValues i f acc xs).Raises Cause.Dynamic := by
  induction xs generalizing acc with
  | nil => exact .ret _
  | cons x xs ih => exact .bind (hi f [acc, x]) fun next => ih next

/-! ## Built-in functions -/

theorem Native.numeric_raises (fn : Native) (f : Float → Float) (args : List Value) :
    (fn.numeric f args : Eval Value).Raises Cause.Dynamic := by
  refine .bind (fn.check_raises args) fun _ => ?_
  split <;> exact .ret _

theorem Native.run_raises (hi : i.Dynamic) (fn : Native) (args : List Value) :
    (fn.run i args).Raises Cause.Dynamic := by
  cases fn with
  | sqrt | log | sin | cos | tan | floor => exact Native.numeric_raises _ _ args
  | foldl =>
    simp only [Native.run]
    split
    · exact foldValues_raises hi _ _ _
    · refine .bind (Native.check_raises _ _) fun _ => ?_
      split
      · exact foldValues_raises hi _ _ _
      · exact .ret _
  | map =>
    refine .bind (Native.check_raises _ _) fun _ => ?_
    split
    · exact collect_raises fun x => .bind (hi _ _) fun _ => .ret _
    · exact .ret _
  | filter =>
    refine .bind (Native.check_raises _ _) fun _ => ?_
    split
    · exact collect_raises fun x => .bind (hi _ _) fun _ => .ret _
    · exact .ret _
  | len =>
    simp only [Native.run]
    split
    · exact .ret _
    · exact .ret _
    · exact .ret _
    · exact .bind (Native.check_raises _ _) fun _ => .ret _
  | str =>
    refine .bind (Native.check_raises _ _) fun _ => ?_
    split <;> exact .ret _
  | print => exact .bind (.modify _) fun _ => .ret _
  | die =>
    refine .bind (Native.check_raises _ _) fun _ => ?_
    split
    · exact .fail (.runtime rfl)
    · exact .ret _
  | «catch» =>
    refine .bind (Native.check_raises _ _) fun _ => ?_
    split
    -- what the handler fails with is what comes out
    · exact .recover fun cause => hi _ _
    · exact .ret _

end

/-! ## Expressions -/

section

variable {env : Environment} {i : Invoke Cause Closure}

theorem fillSlots_raises (frame slot : Nat) (vs : List Value) :
    (fillSlots frame slot vs).Raises Cause.Dynamic := by
  induction vs generalizing slot with
  | nil => exact .ret _
  | cons v vs ih => exact .bind (.modify _) fun _ => ih _

mutual

theorem Expr.eval_raises (hi : i.Dynamic) (frame : Nat) :
    ∀ e : Expr, (e.eval env i frame).Raises Cause.Dynamic
  | .literal _ => .ret _
  | .symbol _ (.slot ..) => .read _
  | .symbol _ .global => .ret _
  | .symbol _ .unresolved => .fail (.resolution rfl)
  | .binary op left right => by
    have hleft := left.eval_raises hi frame
    have hright := right.eval_raises hi frame
    by_cases hand : op = .and
    · subst hand
      refine .bind hleft fun a => ?_
      split
      · exact hright
      · exact .ret _
    by_cases hor : op = .or
    · subst hor
      refine .bind hleft fun a => ?_
      split
      · exact .ret _
      · exact hright
    rw [Expr.eval_binary hand hor]
    refine .bind hleft fun a => .bind hright fun b => .bind (.modifyGet _) fun id => ?_
    exact .ofExcept fun _ => BinaryOp.dynamic_of_apply
  | .unary _ operand =>
    .bind (operand.eval_raises hi frame) fun _ => .ofExcept fun _ => UnaryOp.dynamic_of_apply
  | .call callee args =>
    .bind (callee.eval_raises hi frame) fun f =>
      .bind (Expr.evalAll_raises hi frame args) fun values => f.call_raises hi values
  | .list items =>
    .bind (Expr.evalAll_raises hi frame items) fun _ => .bind (.modifyGet _) fun _ => .ret _
  | .map entries =>
    .bind (Entry.evalAll_raises hi frame .empty entries) fun _ =>
      .bind (.modifyGet _) fun _ => .ret _
  | .comprehension name source filter map => by
    refine .bind (source.eval_raises hi frame) fun v => ?_
    cases v with
    | list xs =>
      refine .bind (.modifyGet _) fun inner => collect_raises fun x => ?_
      refine .bind (.modify _) fun _ => ?_
      refine .bind (Expr.evalFilter_raises hi inner filter) fun keep => ?_
      split
      · exact .bind (Expr.evalMap_raises hi inner x map) fun _ => .ret _
      · exact .ret _
    | _ => exact .fail (.type rfl)
  | .withBlock bindings body =>
    .bind (.modifyGet _) fun inner =>
      .bind (Binding.evalAll_raises hi inner 0 bindings) fun _ => body.eval_raises hi inner
  | .lambda _ => by
    rw [Expr.eval]
    exact .modifyGet _

theorem Expr.evalAll_raises (hi : i.Dynamic) (frame : Nat) :
    ∀ es : List Expr, (Expr.evalAll env i frame es).Raises Cause.Dynamic
  | [] => .ret _
  | e :: es =>
    .bind (e.eval_raises hi frame) fun _ => .bind (Expr.evalAll_raises hi frame es) fun _ => .ret _

theorem Expr.evalFilter_raises (hi : i.Dynamic) (frame : Nat) :
    ∀ e : Option Expr, (Expr.evalFilter env i frame e).Raises Cause.Dynamic
  | none => .ret _
  | some e => .bind (e.eval_raises hi frame) fun _ => .ret _

theorem Expr.evalMap_raises (hi : i.Dynamic) (frame : Nat) (x : Value) :
    ∀ e : Option Expr, (Expr.evalMap env i frame x e).Raises Cause.Dynamic
  | none => .ret _
  | some e => e.eval_raises hi frame

theorem Entry.evalAll_raises (hi : i.Dynamic) (frame : Nat) (written : Dict Value) :
    ∀ es : List Entry, (Entry.evalAll env i frame written es).Raises Cause.Dynamic
  | [] => .ret _
  | ⟨_, value⟩ :: es =>
    .bind (value.eval_raises hi frame) fun _ => Entry.evalAll_raises hi frame _ es

theorem Binding.evalAll_raises (hi : i.Dynamic) (frame slot : Nat) :
    ∀ bs : List Binding, (Binding.evalAll env i frame slot bs).Raises Cause.Dynamic
  | [] => .ret _
  | ⟨_, value⟩ :: bs =>
    .bind (value.eval_raises hi frame) fun _ => .bind (.modifyGet _) fun _ =>
      .bind (.ofExcept fun _ => Target.dynamic_of_values) fun vs =>
        .bind (fillSlots_raises frame slot vs) fun _ => Binding.evalAll_raises hi frame _ bs

end

/-! ## Clauses -/

theorem Expr.evalTail_raises (hi : i.Dynamic) (current : Function) (frame : Nat) (e : Expr) :
    (e.evalTail env i current frame).Raises Cause.Dynamic := by
  fun_induction Expr.evalTail env i current frame e with
  | case1 frame callee args =>
    refine .bind (callee.eval_raises hi frame) fun f => ?_
    refine .bind (Expr.evalAll_raises hi frame args) fun values => ?_
    cases f with
    | function g =>
      dsimp only
      split
      · exact .ret _
      · exact .bind (hi g values) fun _ => .ret _
    | _ => exact .bind (Value.call_raises hi _ _) fun _ => .ret _
  | case2 frame left right ih =>
    refine .bind (left.eval_raises hi frame) fun a => ?_
    split
    · exact ih
    · exact .ret _
  | case3 frame left right ih =>
    refine .bind (left.eval_raises hi frame) fun a => ?_
    split
    · exact .ret _
    · exact ih
  | case4 frame bindings body ih =>
    refine .bind (.modifyGet _) fun inner => ?_
    exact .bind (Binding.evalAll_raises hi inner 0 bindings) fun _ => ih inner
  | case5 frame e hcall hand hor hwith =>
    exact .bind (e.eval_raises hi frame) fun _ => .ret _

theorem guardsHold_raises (hi : i.Dynamic) (frame : Nat) (gs : List Expr) :
    (guardsHold env i frame gs).Raises Cause.Dynamic := by
  induction gs with
  | nil => exact .ret _
  | cons g gs ih =>
    refine .bind (g.eval_raises hi frame) fun v => ?_
    split
    · exact ih
    · exact .ret _

theorem select_raises (hi : i.Dynamic) (frame arity : Nat) (cs : List Clause) :
    (select env i frame arity cs).Raises Cause.Dynamic := by
  induction cs with
  | nil => exact .ret _
  | cons c cs ih =>
    simp only [select]
    split
    · refine .bind (guardsHold_raises hi frame c.guards) fun held => ?_
      split
      · exact .ret _
      · exact ih
    · exact ih

theorem applyOnce_raises (hi : i.Dynamic) (f : Function) (args : List Value) :
    (applyOnce env i f args).Raises Cause.Dynamic := by
  refine .bind (.read _) fun code => .bind (.modifyGet _) fun frame => ?_
  refine .bind (select_raises hi frame args.length code.1) fun chosen => ?_
  cases chosen with
  | none => exact .fail (.dispatch rfl)
  | some c => exact c.body.evalTail_raises hi f frame

theorem applyClauses_raises (hi : i.Dynamic) (f : Function) (rounds : Nat) (args : List Value) :
    (applyClauses env i f rounds args).Raises Cause.Dynamic := by
  induction rounds generalizing args with
  | zero => exact .of_exhausted fun _ => rfl
  | succ rounds ih =>
    rw [applyClauses_succ]
    refine .bind (applyOnce_raises hi f args) fun flow => ?_
    cases flow with
    | value v => exact .ret v
    | again args => exact ih args

end

/-! ## Calls -/

variable (env : Environment)

theorem Function.invoke_raises (depth : Nat) : Invoke.Dynamic (Function.invoke env depth) := by
  induction depth with
  | zero => exact fun f args => .of_exhausted fun _ => rfl
  | succ depth ih =>
    intro f args
    cases f with
    | native fn slot => exact fn.run_raises ih args
    | declared name slot => exact applyClauses_raises ih _ depth args
    | lambda id => exact applyClauses_raises ih _ depth args

theorem Environment.invoke_raises (f : Function) (args : List Value) :
    (env.invoke f args).Raises Cause.Dynamic :=
  Function.invoke_raises env callDepth f args

theorem Environment.evaluate_raises (e : Expr) : (env.evaluate e).Raises Cause.Dynamic :=
  .bind (.modifyGet _) fun root => e.eval_raises (Function.invoke_raises env callDepth) root

end Clausal
