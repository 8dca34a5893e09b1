import Clausal.Proofs.Depth
import Clausal.Proofs.Invariant

/-!
# What evaluation keeps

Every evaluation keeps a property of values that the operations on values keep
(`Invariant.Lawful.eval_keeps`), and so does every call (`Invariant.Lawful.invoke_keeps`): if the
arguments and all slots of the store have it, then so do the result and all slots afterwards, also
after an error. All frames that were there before are left as they were. The two constructs that
write to frames write to the one they have added themselves: a `with` block while it is being bound
(`Invariant.Lawful.bindings_keep`), and a comprehension at each item.
-/

namespace Clausal

/-- What a body ends in: a value, or the arguments of a call. -/
def Flow.results : Flow → List Value
  | .value v => [v]
  | .again args => args

namespace Invariant

variable {W : Type} (I : Invariant W)

/-- `i` keeps the property in all calls with arguments that have it. -/
def Calls (i : Invoke Cause Closure) : Prop :=
  ∀ (f : Function) (args : List Value) (n : Nat) (w : W) (s : Store Closure), I.Ready n w s →
    I.values w args → I.Keeps n w s (i f args) I.value

namespace Lawful

variable {I} (hI : I.Lawful) {n : Nat} {w : W} {s : Store Closure}

include hI

/-! ## Calls -/

section Calls

variable {i : Invoke Cause Closure}

theorem call_keeps (hi : I.Calls i) (hs : I.Ready n w s) (callee : Value) {args : List Value}
    (hargs : I.values w args) : I.Keeps n w s (callee.call i args) I.value := by
  cases callee with
  | function f => exact hi f args n w s hs hargs
  | number m =>
    simp only [Value.call]
    split
    · exact hI.ret hs (hI.plain rfl)
    · exact hI.fail hs _
  | _ => exact hI.fail hs _

theorem collectFrom_keeps {xs : Sequence Value} {f : Value → Eval (Option Value)}
    (hs : I.Ready n w s) (hxs : I.value w (.list xs))
    (hf : ∀ x w' t, I.Later n w s w' t → I.value w' x →
      I.Keeps n w' t (f x) fun w'' found => I.values w'' found.toList)
    (count k : Nat) {kept : List Value} (hkept : I.values w kept) :
    I.Keeps n w s (collectFrom xs f count k kept) I.values := by
  induction count generalizing w s k kept with
  | zero => exact ⟨w, hI.later_refl hs, fun v hv => hkept v (List.mem_reverse.mp hv)⟩
  | succ count ih =>
    rw [collectFrom_succ]
    refine hI.bind (hf _ w s (hI.later_refl hs) (hI.item hxs k)) fun found w' t hlater hfound => ?_
    refine ih hlater.ready (hI.value_mono hlater.le hxs) (fun x w'' u h => ?_) _ ?_
    · exact hf x w'' u (hI.later_trans hlater h)
    · exact List.forall_mem_append.mpr ⟨hfound, hI.values_mono hlater.le hkept⟩

theorem collect_keeps {xs : Sequence Value} {f : Value → Eval (Option Value)}
    (hs : I.Ready n w s) (hxs : I.value w (.list xs))
    (hf : ∀ x w' t, I.Later n w s w' t → I.value w' x →
      I.Keeps n w' t (f x) fun w'' found => I.values w'' found.toList) :
    I.Keeps n w s (collect xs f) I.value := by
  refine hI.bind (hI.collectFrom_keeps hs hxs hf _ _ (List.forall_mem_nil _)) ?_
  intro kept w' t hlater hkept
  exact hI.make hlater.ready (hI.list hlater.ready.ids hkept)

theorem foldValues_keeps (hi : I.Calls i) (hs : I.Ready n w s) (f : Function) {acc : Value}
    (hacc : I.value w acc) {xs : List Value} (hxs : I.values w xs) :
    I.Keeps n w s (foldValues i f acc xs) I.value := by
  induction xs generalizing w s acc with
  | nil => exact hI.ret hs hacc
  | cons x xs ih =>
    obtain ⟨hx, hrest⟩ := List.forall_mem_cons.mp hxs
    have hargs : I.values w [acc, x] := by simpa [values] using ⟨hacc, hx⟩
    refine hI.bind (hi f _ n w s hs hargs) fun next w' t hlater hnext => ?_
    exact ih hlater.ready hnext (hI.values_mono hlater.le hrest)

theorem check_keeps (hs : I.Ready n w s) (fn : Native) (args : List Value) :
    I.Keeps n w s (fn.check args) fun _ _ => True := by
  unfold Native.check
  cases Arguments.check fn.name args fn.signature with
  | ok u => exact hI.ret hs trivial
  | error c => exact hI.fail hs c

theorem numeric_keeps (hs : I.Ready n w s) (fn : Native) (f : Float → Float)
    (args : List Value) : I.Keeps n w s (fn.numeric f args) I.value := by
  refine hI.bind (hI.check_keeps hs fn args) fun _ w' t hlater _ => ?_
  split <;> exact hI.ret hlater.ready (hI.plain rfl)

/-- What a built-in function gives is plain, an argument, or what the functions it calls give. -/
theorem run_keeps (hi : I.Calls i) (hs : I.Ready n w s) (fn : Native) {args : List Value}
    (hargs : I.values w args) : I.Keeps n w s (fn.run i args) I.value := by
  cases fn with
  | foldl =>
    unfold Native.run
    dsimp only
    split
    · next f z text =>
      have hchars : I.values w (Value.characters text) := fun v hv => by
        obtain ⟨c, -, rfl⟩ := List.mem_map.mp hv
        exact hI.plain rfl
      exact hI.foldValues_keeps hi hs f (hargs z (by simp)) hchars
    · refine hI.bind (hI.check_keeps hs _ _) fun _ w' t hlater _ => ?_
      split
      · next f z xs _ =>
        have hz := hI.value_mono hlater.le (hargs z (by simp))
        have hxs := hI.value_mono hlater.le (hargs (.list xs) (by simp))
        exact hI.foldValues_keeps hi hlater.ready f hz (hI.items hxs)
      · exact hI.ret hlater.ready (hI.plain rfl)
  | map =>
    refine hI.bind (hI.check_keeps hs _ _) fun _ w' t hlater _ => ?_
    split
    · next f xs =>
      have hxs := hI.value_mono hlater.le (hargs (.list xs) (by simp))
      refine hI.collect_keeps hlater.ready hxs fun x w'' u hlater' hx => ?_
      have hone : I.values w'' [x] := by simpa [values] using hx
      refine hI.bind (hi f _ n w'' u hlater'.ready hone) fun v w₃ u' hlater'' hv => ?_
      exact hI.ret hlater''.ready (by simpa [values] using hv)
    · exact hI.ret hlater.ready (hI.plain rfl)
  | filter =>
    refine hI.bind (hI.check_keeps hs _ _) fun _ w' t hlater _ => ?_
    split
    · next f xs =>
      have hxs := hI.value_mono hlater.le (hargs (.list xs) (by simp))
      refine hI.collect_keeps hlater.ready hxs fun x w'' u hlater' hx => ?_
      have hone : I.values w'' [x] := by simpa [values] using hx
      refine hI.bind (hi f _ n w'' u hlater'.ready hone) fun v w₃ u' hlater'' _ => ?_
      refine hI.ret hlater''.ready ?_
      have hx' := hI.value_mono hlater''.le hx
      split
      · simpa [values] using hx'
      · exact List.forall_mem_nil _
    · exact hI.ret hlater.ready (hI.plain rfl)
  | len =>
    unfold Native.run
    dsimp only
    split
    · exact hI.ret hs (hI.plain rfl)
    · exact hI.ret hs (hI.plain rfl)
    · exact hI.ret hs (hI.plain rfl)
    · exact hI.bind (hI.check_keeps hs _ _) fun _ w' t hlater _ =>
        hI.ret hlater.ready (hI.plain rfl)
  | str =>
    refine hI.bind (hI.check_keeps hs _ _) fun _ w' t hlater _ => ?_
    split <;> exact hI.ret hlater.ready (hI.plain rfl)
  | print =>
    refine hI.bind (hI.print hs _) fun _ w' t hlater _ => hI.ret hlater.ready ?_
    cases hlast : args.getLast? with
    | none => exact hI.plain rfl
    | some v => exact hI.value_mono hlater.le (hargs v (List.mem_of_getLast? hlast))
  | die =>
    refine hI.bind (hI.check_keeps hs _ _) fun _ w' t hlater _ => ?_
    split
    · exact hI.fail hlater.ready _
    · exact hI.ret hlater.ready (hI.plain rfl)
  | «catch» =>
    refine hI.bind (hI.check_keeps hs _ _) fun _ w' t hlater _ => ?_
    split
    · next body handler =>
      refine hI.catching (hi body [] n w' t hlater.ready (List.forall_mem_nil _)) ?_
      intro c w'' u hlater'
      refine hi handler _ n w'' u hlater'.ready ?_
      simpa [values] using hI.plain rfl
    · exact hI.ret hlater.ready (hI.plain rfl)
  | _ => exact hI.numeric_keeps hs _ _ args

end Calls

/-! ## Expressions -/

section Expressions

variable {env : Environment} {i : Invoke Cause Closure}

theorem fillSlots_keeps (hs : I.Ready n w s) {frame : Nat} (hframe : n ≤ frame) (slot : Nat)
    {vs : List Value} (hvs : I.values w vs) :
    I.Keeps n w s (fillSlots frame slot vs) fun _ _ => True := by
  induction vs generalizing w s slot with
  | nil => exact hI.ret hs trivial
  | cons v vs ih =>
    obtain ⟨hv, hrest⟩ := List.forall_mem_cons.mp hvs
    refine hI.bind (hI.write hs hframe slot hv) fun _ w' t hlater _ => ?_
    exact ih hlater.ready _ (hI.values_mono hlater.le hrest)

omit hI in
theorem values_replicate {size : Nat} (hvoid : I.value w .void) :
    ∀ v ∈ Array.replicate size Value.void, I.value w v := by
  intro v hv
  rw [(Array.mem_replicate.mp hv).2]
  exact hvoid

mutual

/-- An evaluation keeps the property and all frames there are. -/
theorem eval_keeps (hi : I.Calls i) {w : W} {s : Store Closure} (hs : I.Ready n w s)
    (frame : Nat) :
    ∀ e : Expr, I.Keeps n w s (e.eval env i frame) I.value
  | .literal l => hI.ret hs (hI.scalar (Value.isScalar_ofLiteral l))
  | .symbol _ (.slot index depth) => ⟨w, hI.later_refl hs, hI.lookup hs frame index depth⟩
  | .symbol name .global => by
    refine hI.ret hs (hI.plain ?_)
    cases env.find? name <;> rfl
  | .symbol _ .unresolved => hI.fail hs _
  | .binary op left right => by
    have hleft := eval_keeps hi hs frame left
    by_cases hand : op = .and
    · subst hand
      refine hI.bind hleft fun a w' t hlater ha => ?_
      split
      · exact eval_keeps hi hlater.ready frame right
      · exact hI.ret hlater.ready ha
    by_cases hor : op = .or
    · subst hor
      refine hI.bind hleft fun a w' t hlater ha => ?_
      split
      · exact hI.ret hlater.ready ha
      · exact eval_keeps hi hlater.ready frame right
    rw [Expr.eval_binary hand hor]
    refine hI.bind hleft fun a w' t hlater ha => ?_
    refine hI.bind (eval_keeps hi hlater.ready frame right) fun b w'' u hlater' hb => ?_
    have ha' := hI.value_mono hlater'.le ha
    cases hop : op.apply u.nextId a b with
    | ok v =>
      refine hI.fresh_bind hlater'.ready (hI.apply hlater'.ready.ids ha' hb hop) ?_
      intro w₃ u' hlater'' hv
      rw [hop]
      exact hI.ret hlater''.ready (hv v (List.mem_singleton_self v))
    | error c =>
      refine hI.fresh_bind hlater'.ready (hI.fresh hlater'.ready.ids) ?_
      intro w₃ u' hlater'' _
      rw [hop]
      exact hI.fail hlater''.ready c
  | .unary op operand =>
    hI.bind (eval_keeps hi hs frame operand) fun _ _ _ hlater _ =>
      hI.ofExcept hlater.ready fun _ hv => hI.unary hv
  | .call callee args =>
    hI.bind (eval_keeps hi hs frame callee) fun f _ _ hlater _ =>
      hI.bind (evalAll_keeps hi hlater.ready frame args) fun _ _ _ hlater' hvalues =>
        hI.call_keeps hi hlater'.ready f hvalues
  | .list items =>
    hI.bind (evalAll_keeps hi hs frame items) fun _ _ _ hlater hvalues =>
      hI.make hlater.ready (hI.list hlater.ready.ids hvalues)
  | .map entries =>
    hI.bind (entries_keep hi hs frame hI.empty entries) fun _ _ _ hlater hdict =>
      hI.make hlater.ready (hI.map hlater.ready.ids hdict)
  | .comprehension _ source filter map => by
    refine hI.bind (eval_keeps hi hs frame source) fun v w' t hlater hv => ?_
    cases v with
    | list xs =>
      have hslots : ∀ v ∈ #[Value.void], I.value w' v := by simpa using hI.plain rfl
      refine hI.push_bind hlater.ready hslots fun inner u hinner hlater' => ?_
      refine hI.collect_keeps hlater'.ready hv fun x w'' u' hlater'' hx => ?_
      refine hI.bind (hI.write hlater''.ready hinner 0 hx) fun _ w₃ u₃ hlater₃ _ => ?_
      refine hI.bind (evalFilter_keeps hi hlater₃.ready inner filter) fun keep w₄ u₄ hlater₄ _ => ?_
      have hx' := hI.value_mono (hI.trans hlater₃.le hlater₄.le) hx
      split
      · refine hI.bind (evalMap_keeps hi hlater₄.ready inner hx' map) fun y w₅ u₅ hlater₅ hy => ?_
        exact hI.ret hlater₅.ready (by simpa [values] using hy)
      · exact hI.ret hlater₄.ready (List.forall_mem_nil _)
    | _ => exact hI.fail hlater.ready _
  | .withBlock bindings body =>
    hI.push_bind hs (values_replicate (hI.plain rfl)) fun inner _ hinner hlater =>
      hI.bind (bindings_keep hi hlater.ready hinner 0 bindings) fun _ _ _ hlater' _ =>
        eval_keeps hi hlater'.ready inner body
  | .lambda clauses => hI.close hs ⟨clauses, frame⟩

theorem evalAll_keeps (hi : I.Calls i) {w : W} {s : Store Closure} (hs : I.Ready n w s)
    (frame : Nat) :
    ∀ es : List Expr, I.Keeps n w s (Expr.evalAll env i frame es) I.values
  | [] => hI.ret hs (List.forall_mem_nil _)
  | e :: es =>
    hI.bind (eval_keeps hi hs frame e) fun _ _ _ hlater hv =>
      hI.bind (evalAll_keeps hi hlater.ready frame es) fun _ _ _ hlater' hvs =>
        hI.ret hlater'.ready (List.forall_mem_cons.mpr ⟨hI.value_mono hlater'.le hv, hvs⟩)

theorem evalFilter_keeps (hi : I.Calls i) {w : W} {s : Store Closure} (hs : I.Ready n w s)
    (frame : Nat) :
    ∀ e : Option Expr, I.Keeps n w s (Expr.evalFilter env i frame e) fun _ _ => True
  | none => hI.ret hs trivial
  | some e => hI.bind (eval_keeps hi hs frame e) fun _ _ _ hlater _ => hI.ret hlater.ready trivial

theorem evalMap_keeps (hi : I.Calls i) {w : W} {s : Store Closure} (hs : I.Ready n w s)
    (frame : Nat) {x : Value} (hx : I.value w x) :
    ∀ e : Option Expr, I.Keeps n w s (Expr.evalMap env i frame x e) I.value
  | none => hI.ret hs hx
  | some e => eval_keeps hi hs frame e

theorem entries_keep (hi : I.Calls i) {w : W} {s : Store Closure} (hs : I.Ready n w s)
    (frame : Nat) {written : Dict Value} (hwritten : I.dict w written) :
    ∀ es : List Entry, I.Keeps n w s (Entry.evalAll env i frame written es) I.dict
  | [] => hI.ret hs hwritten
  | ⟨key, value⟩ :: es =>
    hI.bind (eval_keeps hi hs frame value) fun _ _ _ hlater hv =>
      entries_keep hi hlater.ready frame
        (hI.insert (keyHash key) (hI.dict_mono hlater.le hwritten) hv) es

/-- Bindings fill a frame behind the first `n`. -/
theorem bindings_keep (hi : I.Calls i) {w : W} {s : Store Closure} (hs : I.Ready n w s)
    {frame : Nat} (hframe : n ≤ frame) (slot : Nat) :
    ∀ bs : List Binding, I.Keeps n w s (Binding.evalAll env i frame slot bs) fun _ _ => True
  | [] => hI.ret hs trivial
  | ⟨target, value⟩ :: bs => by
    refine hI.bind (eval_keeps hi hs frame value) fun v w' t hlater hv => ?_
    cases hvalues : target.values v t.nextId with
    | ok vs =>
      refine hI.fresh_bind hlater.ready (hI.target hlater.ready.ids hv hvalues) ?_
      intro w'' u hlater' hvs
      rw [hvalues]
      refine hI.bind (x := pure vs) (hI.ret hlater'.ready hvs) fun vs _ _ hlater'' hvs => ?_
      refine hI.bind (hI.fillSlots_keeps hlater''.ready hframe slot hvs) fun _ _ _ hfilled _ => ?_
      exact bindings_keep hi hfilled.ready hframe _ bs
    | error c =>
      refine hI.fresh_bind hlater.ready (hI.fresh hlater.ready.ids) ?_
      intro w'' u hlater' _
      rw [hvalues]
      exact hI.fail hlater'.ready c

end

/-! ## Functions -/

theorem value_keeps {y : Eval Value} (hy : I.Keeps n w s y I.value) :
    I.Keeps n w s (do return .value (← y)) fun w' flow => I.values w' (Flow.results flow) :=
  hI.bind hy fun v _ _ hlater hv => hI.ret hlater.ready (by simpa [Flow.results, values] using hv)

theorem evalTail_keeps (hi : I.Calls i) (current : Function) (hs : I.Ready n w s) (frame : Nat)
    (e : Expr) : I.Keeps n w s (e.evalTail env i current frame) fun w' flow =>
      I.values w' flow.results := by
  fun_induction Expr.evalTail env i current frame e generalizing w s with
  | case1 frame callee args =>
    refine hI.bind (hI.eval_keeps hi hs frame callee) fun f w' t hlater _ => ?_
    refine hI.bind (hI.evalAll_keeps hi hlater.ready frame args) fun vs w'' u hlater' hvs => ?_
    cases f with
    | function g =>
      dsimp only
      split
      · exact hI.ret hlater'.ready hvs
      · exact hI.value_keeps (hi g vs n w'' u hlater'.ready hvs)
    | _ => exact hI.value_keeps (hI.call_keeps hi hlater'.ready _ hvs)
  | case2 frame left right ih =>
    refine hI.bind (hI.eval_keeps hi hs frame left) fun a w' t hlater ha => ?_
    split
    · exact ih hlater.ready
    · exact hI.ret hlater.ready (by simpa [Flow.results, values] using ha)
  | case3 frame left right ih =>
    refine hI.bind (hI.eval_keeps hi hs frame left) fun a w' t hlater ha => ?_
    split
    · exact hI.ret hlater.ready (by simpa [Flow.results, values] using ha)
    · exact ih hlater.ready
  | case4 frame bindings body ih =>
    refine hI.push_bind hs (values_replicate (hI.plain rfl)) fun inner t hinner hlater => ?_
    refine hI.bind (hI.bindings_keep hi hlater.ready hinner 0 bindings) fun _ w' u hlater' _ => ?_
    exact ih inner hlater'.ready
  | case5 frame e hcall hand hor hwith => exact hI.value_keeps (hI.eval_keeps hi hs frame e)

theorem guardsHold_keeps (hi : I.Calls i) (hs : I.Ready n w s) (frame : Nat) (gs : List Expr) :
    I.Keeps n w s (guardsHold env i frame gs) fun _ _ => True := by
  induction gs generalizing w s with
  | nil => exact hI.ret hs trivial
  | cons g gs ih =>
    refine hI.bind (hI.eval_keeps hi hs frame g) fun v w' t hlater _ => ?_
    split
    · exact ih hlater.ready
    · exact hI.ret hlater.ready trivial

theorem select_keeps (hi : I.Calls i) (hs : I.Ready n w s) (frame arity : Nat)
    (cs : List Clause) : I.Keeps n w s (select env i frame arity cs) fun _ _ => True := by
  induction cs generalizing w s with
  | nil => exact hI.ret hs trivial
  | cons c cs ih =>
    unfold select
    split
    · refine hI.bind (hI.guardsHold_keeps hi hs frame c.guards) fun held w' t hlater _ => ?_
      split
      · exact hI.ret hlater.ready trivial
      · exact ih hlater.ready
    · exact ih hs

theorem applyOnce_keeps (hi : I.Calls i) (hs : I.Ready n w s) (f : Function) {args : List Value}
    (hargs : I.values w args) :
    I.Keeps n w s (applyOnce env i f args) fun w' flow => I.values w' flow.results := by
  refine read_bind ?_
  refine hI.push_bind hs (fun v hv => hargs v (by simpa using hv)) fun frame t _ hlater => ?_
  refine hI.bind (hI.select_keeps hi hlater.ready frame args.length _)
    fun chosen w' u hlater' _ => ?_
  cases chosen with
  | none => exact hI.fail hlater'.ready _
  | some c => exact hI.evalTail_keeps hi f hlater'.ready frame c.body

theorem applyClauses_keeps (hi : I.Calls i) (hs : I.Ready n w s) (f : Function) (rounds : Nat)
    {args : List Value} (hargs : I.values w args) :
    I.Keeps n w s (applyClauses env i f rounds args) I.value := by
  induction rounds generalizing w s args with
  | zero => trivial
  | succ rounds ih =>
    rw [applyClauses_succ]
    refine hI.bind (hI.applyOnce_keeps hi hs f hargs) fun flow w' t hlater hflow => ?_
    cases flow with
    | value v => exact hI.ret hlater.ready (hflow v (List.mem_singleton_self v))
    | again args => exact ih hlater.ready hflow

end Expressions

/-- A call keeps the property and all frames there are. -/
theorem invoke_keeps (env : Environment) (depth : Nat) : I.Calls (Function.invoke env depth) := by
  induction depth with
  | zero => exact fun _ _ _ _ _ _ _ => trivial
  | succ depth ih =>
    intro f args n w s hs hargs
    cases f with
    | native fn slot => exact hI.run_keeps ih hs fn hargs
    | declared name slot => exact hI.applyClauses_keeps ih hs _ depth hargs
    | lambda id => exact hI.applyClauses_keeps ih hs _ depth hargs

end Lawful

end Invariant

end Clausal
