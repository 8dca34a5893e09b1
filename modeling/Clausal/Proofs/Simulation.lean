import Clausal.Proofs.Agreement

/-!
# Evaluation by name and by slot

Evaluating a tree by name, under labels and with checks, does the same as evaluating the resolved
tree by index and depth: construct by construct (`Checked.eval_agrees`), clause by clause
(`Checked.applyOnce_agrees`) and at every depth (`Checked.invoke_agrees`).
-/

namespace Clausal

open Run (bind_ok)

/-! ## Expressions -/

section Expressions

variable {p : Labelled.Program} {i : Invoke Stop Capture} {j : Invoke Cause Closure}

theorem Labelled.Program.findFrom_resolve (name : String) (slot : Nat)
    (ds : List Labelled.Definition) :
    Environment.findFrom name slot (ds.map Labelled.Definition.resolve) =
      Labelled.Program.findFrom name slot ds := by
  induction ds generalizing slot with
  | nil => rfl
  | cons d ds ih =>
    rw [List.map_cons, Environment.findFrom, Labelled.Program.findFrom, ih]
    cases d <;> rfl

theorem Labelled.Program.find?_resolve (p : Labelled.Program) (name : String) :
    p.resolve.find? name = p.find? name := Labelled.Program.findFrom_resolve name 0 p.definitions

theorem Checked.readName?_eq {s : Store Capture} {label : Label} {frame : Nat}
    (hfit : s.fits label.scopes (some frame) = true) (name : String) :
    Checked.readName? label frame name s =
      .ok ((label.scopes.locate name).bind fun found => s.slot? frame found.1 found.2) s := by
  rw [Checked.readName?, if_pos hfit, Scopes.locate]
  split
  · rfl
  · rw [Store.named?_eq hfit]

/-- A symbol that was not resolved before is found by name where resolving finds it by index and
depth. -/
theorem Checked.readName_agrees {s : Store Capture} {label : Label} {frame : Nat} (hs : s.AllFit)
    (hfit : s.fits label.scopes (some frame) = true) (name : String) :
    Agrees (Checked.readName p label frame name)
      ((Expr.symbol name (.of label.known label.scopes name)).eval p.resolve j frame) s := by
  have hname := Checked.readName?_eq hfit name
  rw [Resolution.of]
  cases hlocate : label.scopes.locate name with
  | some found =>
    obtain ⟨index, depth⟩ := found
    obtain ⟨v, hv⟩ := Store.exists_slot hfit (Scopes.locate_in_range hlocate)
    simp only [hlocate, Option.bind_some, hv] at hname
    refine .of_ok (bind_ok hname) ?_ (.refl s) hs
    simp only [Expr.eval, Run.read, Store.lookup, Store.resolve_slot?, hv, Option.getD_some]
  | none =>
    rw [hlocate, Option.bind_none] at hname
    by_cases hknown : label.known name
    · refine .of_ok (a := p.value name) (t := s) ?_ ?_ (.refl s) hs
      · rw [Checked.readName, bind_ok hname]
        simp only [if_pos hknown]
        rfl
      · simp only [if_pos hknown, Expr.eval, Labelled.Program.find?_resolve]
        rfl
    · refine .of_fail (c := .unresolved name) (t := s) ?_ ?_ (.refl s) hs
      · rw [Checked.readName, bind_ok hname]
        simp only [if_neg hknown]
        rfl
      · simp only [if_neg hknown]
        rfl

/-- A store in which a frame with this label can be evaluated in. -/
structure Store.Ready (s : Store Capture) (label : Label) (frame : Nat) : Prop where
  allFit : s.AllFit
  frames : s.fits label.scopes (some frame) = true

theorem Store.Ready.mono {s t : Store Capture} {label : Label} {frame : Nat}
    (h : s.Ready label frame) (hst : s.Grows t) (ht : t.AllFit) : t.Ready label frame :=
  ⟨ht, Store.fits_mono hst h.frames⟩

theorem Checked.eval_binary {op : BinaryOp} (hand : op ≠ .and) (hor : op ≠ .or) (label : Label)
    (frame : Nat) (left right : Expr) :
    Checked.eval p i label frame (.binary op left right) = (do
      let a ← Checked.eval p i label frame left
      let b ← Checked.eval p i label frame right
      let id ← Eval.fresh
      Eval.ofExcept (op.apply id a b)) := by
  cases op <;> first | contradiction | rfl

mutual

theorem Checked.eval_agrees (h : Invoke.Agrees i j) {label : Label} {frame : Nat} :
    ∀ (e : Expr) {s : Store Capture}, s.Ready label frame → e.Scoped label.scopes →
      Agrees (Checked.eval p i label frame e)
        ((e.resolve label.known label.scopes).eval p.resolve j frame) s
  | .literal _, _, hs, _ => .ret hs.allFit _
  | .symbol _ (.slot ..), _, hs, hscope => Checked.readSlot_agrees hs.allFit hs.frames hscope
  | .symbol name .global, s, hs, _ => by
    simp only [Checked.eval, Expr.resolve, Expr.eval, Labelled.Program.find?_resolve]
    exact .ret hs.allFit _
  | .symbol name .unresolved, _, hs, _ => Checked.readName_agrees hs.allFit hs.frames name
  | .binary op left right, s, hs, hscope => by
    have hleft := Checked.eval_agrees h left hs hscope.1
    have hright {t} (hst : s.Grows t) (ht : t.AllFit) :=
      Checked.eval_agrees h right (hs.mono hst ht) hscope.2
    rw [Expr.resolve]
    by_cases hand : op = .and
    · subst hand
      refine hleft.bind fun a t _ hst ht => ?_
      split
      · exact hright hst ht
      · exact .ret ht a
    by_cases hor : op = .or
    · subst hor
      refine hleft.bind fun a t _ hst ht => ?_
      split
      · exact .ret ht a
      · exact hright hst ht
    rw [Checked.eval_binary hand hor, Expr.eval_binary hand hor]
    refine hleft.bind fun a t _ hst ht => (hright hst ht).bind fun b u _ _ hu => ?_
    exact (Agrees.fresh hu).bind fun id w _ _ hw => .ofExcept hw _
  | .unary op operand, _, hs, hscope =>
    (Checked.eval_agrees h operand hs hscope).bind fun _ _ _ _ ht => .ofExcept ht _
  | .call callee args, _, hs, hscope =>
    (Checked.eval_agrees h callee hs hscope.1).bind fun f _ _ hst ht =>
      (Checked.evalAll_agrees h args (hs.mono hst ht) hscope.2).bind fun values _ _ _ hu =>
        f.call_agrees h hu values
  | .list items, _, hs, hscope =>
    (Checked.evalAll_agrees h items hs hscope).bind fun _ _ _ _ ht =>
      (Agrees.fresh ht).bind fun _ _ _ _ hu => .ret hu _
  | .map entries, _, hs, hscope =>
    (Checked.evalEntries_agrees h entries hs hscope).bind fun _ _ _ _ ht =>
      (Agrees.fresh ht).bind fun _ _ _ _ hu => .ret hu _
  | .comprehension name source filter map, s, hs, hscope => by
    refine (Checked.eval_agrees h source hs hscope.1).bind fun v t _ hst ht => ?_
    cases v with
    | list xs =>
      refine .push_bind ht fun inner t' ht' hroom => ?_
      have hroom := hroom label.scopes (hs.mono hst ht).frames
      refine collect_agrees ht' fun x u htu hu => ?_
      refine (Checked.writeSlot_agrees hu ((hroom.mono htu).exists_slot Nat.one_pos) x).bind
        fun _ w _ huw hw => ?_
      have hready : w.Ready (label.enter [name]) inner :=
        ⟨hw, (hroom.mono (htu.trans huw)).fits (Nat.le_refl 1)⟩
      refine (Checked.evalFilter_agrees h filter hready hscope.2.1).bind fun keep y _ hwy hy => ?_
      split
      · refine (Checked.evalMap_agrees h x map (hready.mono hwy hy) hscope.2.2).bind ?_
        exact fun _ _ _ _ hz => .ret hz _
      · exact .ret hy _
    | _ => exact .raise ht _
  | .withBlock bindings body, s, hs, hscope => by
    rw [Expr.resolve, Expr.eval, Checked.eval, Binding.scope_resolveAll]
    refine .push_bind hs.allFit fun inner t ht hroom => ?_
    have hroom := hroom label.scopes hs.frames
    rw [Array.size_replicate] at hroom
    refine (Checked.evalBindings_agrees h [] bindings ht hroom (Nat.le_refl _) hscope.1).bind
      fun _ u _ htu hu => ?_
    exact Checked.eval_agrees h body ⟨hu, (hroom.mono htu).fits (Nat.le_refl _)⟩ hscope.2
  | .lambda _, _, hs, hscope => Checked.capture_agrees hs.allFit hs.frames hscope

theorem Checked.evalAll_agrees (h : Invoke.Agrees i j) {label : Label} {frame : Nat} :
    ∀ (es : List Expr) {s : Store Capture}, s.Ready label frame → Expr.AllScoped label.scopes es →
      Agrees (Checked.evalAll p i label frame es)
        (Expr.evalAll p.resolve j frame (Expr.resolveAll label.known label.scopes es)) s
  | [], _, hs, _ => .ret hs.allFit _
  | e :: es, _, hs, hscope =>
    (Checked.eval_agrees h e hs hscope.1).bind fun _ _ _ hst ht =>
      (Checked.evalAll_agrees h es (hs.mono hst ht) hscope.2).bind fun _ _ _ _ hu => .ret hu _

theorem Checked.evalFilter_agrees (h : Invoke.Agrees i j) {label : Label} {frame : Nat} :
    ∀ (e : Option Expr) {s : Store Capture}, s.Ready label frame →
      Expr.OptionScoped label.scopes e →
      Agrees (Checked.evalFilter p i label frame e)
        (Expr.evalFilter p.resolve j frame (Expr.resolveOption label.known label.scopes e)) s
  | none, _, hs, _ => .ret hs.allFit _
  | some e, _, hs, hscope => (Checked.eval_agrees h e hs hscope).bind fun _ _ _ _ ht => .ret ht _

theorem Checked.evalMap_agrees (h : Invoke.Agrees i j) {label : Label} {frame : Nat} (x : Value) :
    ∀ (e : Option Expr) {s : Store Capture}, s.Ready label frame →
      Expr.OptionScoped label.scopes e →
      Agrees (Checked.evalMap p i label frame x e)
        (Expr.evalMap p.resolve j frame x (Expr.resolveOption label.known label.scopes e)) s
  | none, _, hs, _ => .ret hs.allFit _
  | some e, _, hs, hscope => Checked.eval_agrees h e hs hscope

theorem Checked.evalEntries_agrees (h : Invoke.Agrees i j) {label : Label} {frame : Nat}
    {written : Dict Value} :
    ∀ (es : List Entry) {s : Store Capture}, s.Ready label frame →
      Entry.AllScoped label.scopes es →
      Agrees (Checked.evalEntries p i label frame written es)
        (Entry.evalAll p.resolve j frame written (Entry.resolveAll label.known label.scopes es)) s
  | [], _, hs, _ => .ret hs.allFit _
  | ⟨_, value⟩ :: es, _, hs, hscope =>
    (Checked.eval_agrees h value hs hscope.1).bind fun _ _ _ hst ht =>
      Checked.evalEntries_agrees h es (hs.mono hst ht) hscope.2

/-- The frame has room for all names of the block while it is filled; what the label shows of it
is the names `bound` so far. -/
theorem Checked.evalBindings_agrees (h : Invoke.Agrees i j) {label : Label} {frame size : Nat}
    (bound : List String) :
    ∀ (bs : List Binding) {s : Store Capture}, s.AllFit → s.HasRoom label.scopes frame size →
      (Binding.scope bound bs).length ≤ size → Binding.AllScoped label.scopes bound bs →
      Agrees (Checked.evalBindings p i label bound frame bound.length bs)
        (Binding.evalAll p.resolve j frame bound.length
          (Binding.resolveAll label.known label.scopes bound bs)) s
  | [], _, hs, _, _, _ => .ret hs _
  | ⟨target, value⟩ :: bs, s, hs, hroom, hsize, hscope => by
    have hnext := Binding.length_le_scope (bound ++ target.names) bs
    rw [List.length_append] at hnext
    rw [Binding.scope] at hsize
    dsimp only at hsize
    have hready : s.Ready (label.enter bound) frame := ⟨hs, hroom.fits (by omega)⟩
    refine (Checked.eval_agrees h value hready hscope.1).bind fun v t _ hst ht => ?_
    refine (Agrees.fresh ht).bind fun id u _ htu hu => ?_
    refine (Agrees.ofExcept hu (target.values v id)).bind fun vs w hvs huw hw => ?_
    have hroom := hroom.mono ((hst.trans htu).trans huw)
    have hlength : vs.length = target.names.length := by
      cases hvalues : target.values v id with
      | ok ws =>
        rw [hvalues] at hvs
        cases hvs
        exact Target.length_values hvalues
      | error c =>
        rw [hvalues] at hvs
        cases hvs
    refine (Checked.fillSlots_agrees hw hroom (by omega)).bind fun _ x _ hwx hx => ?_
    have hrest := Checked.evalBindings_agrees h (bound ++ target.names) bs hx
      (hroom.mono hwx) hsize hscope.2
    rw [List.length_append] at hrest
    exact hrest

end

/-! ## The end of a body and the choice of a clause -/

theorem Expr.evalTail_binary {env : Environment} {op : BinaryOp} (hand : op ≠ .and)
    (hor : op ≠ .or) (current : Function) (frame : Nat) (left right : Expr) :
    (Expr.binary op left right).evalTail env j current frame = (do
      let v ← (Expr.binary op left right).eval env j frame
      return .value v) := by
  cases op <;> first | contradiction | rfl

theorem Checked.evalTail_binary {op : BinaryOp} (hand : op ≠ .and) (hor : op ≠ .or)
    (current : Function) (label : Label) (frame : Nat) (left right : Expr) :
    Checked.evalTail p i current label frame (.binary op left right) = (do
      let v ← Checked.eval p i label frame (.binary op left right)
      return .value v) := by
  cases op <;> first | contradiction | rfl

theorem Checked.value_agrees (h : Invoke.Agrees i j) {label : Label} {frame : Nat} (e : Expr)
    {s : Store Capture} (hs : s.Ready label frame) (hscope : e.Scoped label.scopes) :
    Agrees (do let v ← Checked.eval p i label frame e; return Flow.value v)
      (do let v ← (e.resolve label.known label.scopes).eval p.resolve j frame
          return Flow.value v) s :=
  (Checked.eval_agrees h e hs hscope).bind fun _ _ _ _ ht => .ret ht _

theorem Checked.evalTail_agrees (h : Invoke.Agrees i j) (current : Function) {label : Label}
    {frame : Nat} : ∀ (e : Expr) {s : Store Capture}, s.Ready label frame →
      e.Scoped label.scopes →
      Agrees (Checked.evalTail p i current label frame e)
        ((e.resolve label.known label.scopes).evalTail p.resolve j current frame) s
  | .call callee args, s, hs, hscope => by
    refine (Checked.eval_agrees h callee hs hscope.1).bind fun f t _ hst ht => ?_
    refine (Checked.evalAll_agrees h args (hs.mono hst ht) hscope.2).bind fun values u _ _ hu => ?_
    cases f with
    | function g =>
      dsimp only
      split
      · exact .ret hu _
      · exact (h g values u hu).bind fun _ _ _ _ hw => .ret hw _
    | _ => exact (Value.call_agrees h hu _ _).bind fun _ _ _ _ hw => .ret hw _
  | .binary op left right, s, hs, hscope => by
    have hleft := Checked.eval_agrees (p := p) h left hs hscope.1
    have hright {t} (hst : s.Grows t) (ht : t.AllFit) :=
      Checked.evalTail_agrees h current right (hs.mono hst ht) hscope.2
    rw [Expr.resolve]
    by_cases hand : op = .and
    · subst hand
      refine hleft.bind fun a t _ hst ht => ?_
      split
      · exact hright hst ht
      · exact .ret ht _
    by_cases hor : op = .or
    · subst hor
      refine hleft.bind fun a t _ hst ht => ?_
      split
      · exact .ret ht _
      · exact hright hst ht
    rw [Checked.evalTail_binary hand hor, Expr.evalTail_binary hand hor]
    exact Checked.value_agrees h (.binary op left right) hs hscope
  | .withBlock bindings body, s, hs, hscope => by
    rw [Expr.resolve, Expr.evalTail, Checked.evalTail, Binding.scope_resolveAll]
    refine .push_bind hs.allFit fun inner t ht hroom => ?_
    have hroom := hroom label.scopes hs.frames
    rw [Array.size_replicate] at hroom
    refine (Checked.evalBindings_agrees h [] bindings ht hroom (Nat.le_refl _) hscope.1).bind
      fun _ u _ htu hu => ?_
    have hready : u.Ready (label.enter (Binding.scope [] bindings)) inner :=
      ⟨hu, (hroom.mono htu).fits (Nat.le_refl _)⟩
    exact Checked.evalTail_agrees h current body hready hscope.2
  | .literal v, _, hs, hscope => Checked.value_agrees h (.literal v) hs hscope
  | .symbol name (.slot ..), _, hs, hscope =>
    Checked.value_agrees h (.symbol name (.slot ..)) hs hscope
  | .symbol name .global, _, hs, hscope => Checked.value_agrees h (.symbol name .global) hs hscope
  | .symbol name .unresolved, _, hs, hscope =>
    Checked.value_agrees h (.symbol name .unresolved) hs hscope
  | .unary op e, _, hs, hscope => Checked.value_agrees h (.unary op e) hs hscope
  | .list items, _, hs, hscope => Checked.value_agrees h (.list items) hs hscope
  | .map entries, _, hs, hscope => Checked.value_agrees h (.map entries) hs hscope
  | .comprehension name source filter map, _, hs, hscope =>
    Checked.value_agrees h (.comprehension name source filter map) hs hscope
  | .lambda clauses, _, hs, hscope => Checked.value_agrees h (.lambda clauses) hs hscope

theorem Checked.guardsHold_agrees (h : Invoke.Agrees i j) {label : Label} {frame : Nat}
    {s : Store Capture} (hs : s.Ready label frame) (gs : List Expr)
    (hscope : Expr.AllScoped label.scopes gs) :
    Agrees (Checked.guardsHold p i label frame gs)
      (Clausal.guardsHold p.resolve j frame (Expr.resolveAll label.known label.scopes gs)) s := by
  induction gs generalizing s with
  | nil => exact .ret hs.allFit _
  | cons g gs ih =>
    refine (Checked.eval_agrees h g hs hscope.1).bind fun v t _ hst ht => ?_
    split
    · exact ih (hs.mono hst ht) hscope.2
    · exact .ret ht _

end Expressions

/-! ## Clauses and their guards -/

theorem Rule.guards_resolve (r : Rule) :
    r.resolve.guards = Expr.resolveAll r.inside.known r.inside.scopes r.clause.guards := by
  obtain ⟨⟨params, body⟩, label⟩ := r
  exact Param.filterMap_guard_resolveAll _ _ params

theorem Rule.body_resolve (r : Rule) :
    r.resolve.body = r.clause.body.resolve r.inside.known r.inside.scopes := by
  obtain ⟨⟨params, body⟩, label⟩ := r
  rfl

theorem Rule.length_params_resolve (r : Rule) :
    r.resolve.params.length = r.clause.params.length := by
  obtain ⟨⟨params, body⟩, label⟩ := r
  have hscope := Clause.scope_resolveAll label.known (Clause.scope params :: label.scopes) params
  have hlength := congrArg List.length hscope
  simp only [Clause.scope, List.length_map] at hlength
  exact hlength

/-! ## Functions -/

section Functions

variable {p : Labelled.Program} {i : Invoke Stop Capture} {j : Invoke Cause Closure}

/-- Every clause of a program stands outside any frame, and refers to no slots but its own. -/
def Labelled.Program.Scoped (p : Labelled.Program) : Prop :=
  ∀ d ∈ p.definitions, ∀ r ∈ d.rules, r.label.scopes = [] ∧ r.clause.Scoped []

/-- A clause can be applied in frames inside `captured`. -/
structure Rule.Fits (s : Store Capture) (captured : Option Nat) (r : Rule) : Prop where
  frames : s.fits r.label.scopes captured = true
  inScope : r.clause.Scoped r.label.scopes

theorem Labelled.Program.rulesAt_resolve (p : Labelled.Program) (slot : Nat) :
    p.resolve.clausesAt slot = (p.rulesAt slot).map Rule.resolve := by
  rw [Environment.clausesAt, Labelled.Program.rulesAt, Labelled.Program.resolve, List.getElem?_map]
  cases p.definitions[slot]? with
  | none => rfl
  | some d => cases d <;> rfl

theorem Checked.rules_resolve (s : Store Capture) (f : Function) :
    f.code p.resolve s.resolve =
      ((Checked.rules p s f).1.map Rule.resolve, (Checked.rules p s f).2) := by
  cases f with
  | native fn slot => rfl
  | declared name slot => rw [Function.code, Checked.rules, Labelled.Program.rulesAt_resolve]
  | lambda id =>
    simp only [Function.code, Checked.rules, Store.resolve, Array.getElem?_map]
    cases s.closures[id]? with
    | none => rfl
    | some c =>
      simp only [Option.map_some, Capture.resolve, Clause.resolveAll_eq_map, List.map_map]
      rfl

theorem Checked.rules_fit (hp : p.Scoped) {s : Store Capture} (hs : s.AllFit) (f : Function) :
    ∀ r ∈ (Checked.rules p s f).1, r.Fits s (Checked.rules p s f).2 := by
  intro r hr
  cases f with
  | native fn slot => cases hr
  | declared name slot =>
    simp only [Checked.rules, Labelled.Program.rulesAt] at hr
    cases hd : p.definitions[slot]? with
    | none =>
      rw [hd] at hr
      cases hr
    | some d =>
      rw [hd] at hr
      obtain ⟨hnil, hscope⟩ := hp d (List.mem_of_getElem? hd) r hr
      exact ⟨by rw [hnil]; exact Store.fits_nil s _, by rw [hnil]; exact hscope⟩
  | lambda id =>
    simp only [Checked.rules] at hr ⊢
    cases hc : s.closures[id]? with
    | none =>
      rw [hc] at hr
      cases hr
    | some c =>
      simp only [hc, List.mem_map] at hr ⊢
      obtain ⟨clause, hclause, rfl⟩ := hr
      have hfit := hs c (Array.mem_of_getElem? hc)
      exact ⟨hfit.frames, hfit.inScope.of_mem hclause⟩

/-- The choice of a clause, and what is then done with it. Guards are evaluated only for a clause
of the right number of parameters, so they find a slot for each. -/
theorem Checked.select_bind_agrees (h : Invoke.Agrees i j) {β : Type} {k : Option Rule → Checked β}
    {k' : Option Clause → Eval β} {s : Store Capture} {frame arity : Nat} (rs : List Rule)
    (hs : s.AllFit)
    (hrules : ∀ r ∈ rs, s.HasRoom r.label.scopes frame arity ∧ r.clause.Scoped r.label.scopes)
    (hnone : ∀ t, t.AllFit → Agrees (k none) (k' none) t)
    (hsome : ∀ r ∈ rs, ∀ t, t.Ready r.inside frame → Agrees (k (some r)) (k' (some r.resolve)) t) :
    Agrees (Checked.select p i frame arity rs >>= k)
      (Clausal.select p.resolve j frame arity (rs.map Rule.resolve) >>= k') s := by
  induction rs generalizing s with
  | nil => exact hnone s hs
  | cons r rs ih =>
    simp only [Checked.select, Clausal.select, List.map_cons, Rule.length_params_resolve]
    split
    · next hlength =>
      obtain ⟨hroom, hscope⟩ := hrules r List.mem_cons_self
      have hready : s.Ready r.inside frame := ⟨hs, hroom.fits (by simp [Clause.scope, hlength])⟩
      rw [Run.bind_bind, Run.bind_bind, Rule.guards_resolve]
      refine (Checked.guardsHold_agrees h hready _ (hscope.guards)).bind fun held t _ hst ht => ?_
      cases held with
      | true => exact hsome r List.mem_cons_self t (hready.mono hst ht)
      | false =>
        refine ih ht (fun r hr => ?_) (fun r hr => hsome r (List.mem_cons_of_mem _ hr))
        obtain ⟨hroom, hscope⟩ := hrules r (List.mem_cons_of_mem _ hr)
        exact ⟨hroom.mono hst, hscope⟩
    · exact ih hs (fun r hr => hrules r (List.mem_cons_of_mem _ hr))
        (fun r hr => hsome r (List.mem_cons_of_mem _ hr))

theorem Checked.applyOnce_agrees (hp : p.Scoped) (h : Invoke.Agrees i j) {s : Store Capture}
    (hs : s.AllFit) (f : Function) (args : List Value) :
    Agrees (Checked.applyOnce p i f args) (Clausal.applyOnce p.resolve j f args) s := by
  have hfit := Checked.rules_fit hp hs f
  have hcode := Checked.rules_resolve (p := p) s f
  rw [Checked.applyOnce, Clausal.applyOnce]
  refine .read_bind ?_
  rw [hcode]
  generalize Checked.rules p s f = code at hfit ⊢
  obtain ⟨rs, captured⟩ := code
  refine .push_bind hs fun frame t ht hroom => ?_
  rw [List.size_toArray] at hroom
  refine Checked.select_bind_agrees h rs ht ?_ ?_ ?_
  · exact fun r hr => ⟨hroom _ (hfit r hr).frames, (hfit r hr).inScope⟩
  · exact fun u hu => .raise hu _
  · intro r hr u hu
    dsimp only
    rw [Rule.body_resolve]
    exact Checked.evalTail_agrees h f r.clause.body hu (hfit r hr).inScope.body

theorem Checked.applyClauses_agrees (hp : p.Scoped) (h : Invoke.Agrees i j) {s : Store Capture}
    (hs : s.AllFit) (f : Function) (rounds : Nat) (args : List Value) :
    Agrees (Checked.applyClauses p i f rounds args)
      (Clausal.applyClauses p.resolve j f rounds args) s := by
  induction rounds generalizing s args with
  | zero => exact .of_exhausted rfl rfl
  | succ rounds ih =>
    rw [applyClauses_succ, Checked.applyClauses]
    refine (Checked.applyOnce_agrees hp h hs f args).bind fun flow t _ _ ht => ?_
    cases flow with
    | value v => exact .ret ht v
    | again args => exact ih ht args

theorem Checked.invoke_agrees (hp : p.Scoped) (depth : Nat) :
    Invoke.Agrees (Checked.invoke p depth) (Function.invoke p.resolve depth) := by
  induction depth with
  | zero => exact fun f args s _ => .of_exhausted rfl rfl
  | succ depth ih =>
    intro f args s hs
    cases f with
    | native fn slot => exact fn.run_agrees ih hs args
    | declared name slot => exact Checked.applyClauses_agrees hp ih hs _ depth args
    | lambda id => exact Checked.applyClauses_agrees hp ih hs _ depth args

theorem Labelled.Program.contains_resolve (p : Labelled.Program) :
    p.resolve.contains = p.contains := by
  funext name
  rw [Environment.contains, Labelled.Program.contains, Labelled.Program.find?_resolve]

/-- An expression outside any function. -/
theorem Checked.evaluateIn_agrees (hp : p.Scoped) {s : Store Capture} (hs : s.AllFit) {e : Expr}
    (he : e.Scoped []) (depth : Nat) :
    Agrees (Checked.evaluateIn p depth e)
      (p.resolve.evaluateIn depth (p.resolve.resolve [] e)) s := by
  refine .push_bind hs fun root t ht _ => ?_
  rw [Environment.resolve, Labelled.Program.contains_resolve]
  have hready : t.Ready ⟨[], p.contains⟩ root := ⟨ht, Store.fits_nil t _⟩
  exact Checked.eval_agrees (Checked.invoke_agrees hp depth) e hready he

end Functions

end Clausal
