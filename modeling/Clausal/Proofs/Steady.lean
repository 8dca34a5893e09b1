import Clausal.Proofs.Order
import Clausal.Proofs.Table

/-!
# Evaluations in two tables

A later table of functions that has the functions of the first in their places, with the same
clauses (`Setting.Stable`), makes no difference to an evaluation that comes across functions of the
first only: it ends alike in both, and the store it leaves is in order
(`Setting.Stable.eval_stays`, `Setting.Stable.invoke_stays`). There is one lemma for each part of
the evaluator; calls come last, by induction on the number of calls inside calls.
-/

namespace Clausal

namespace Setting

variable (R : Setting)

/-- What the first table has is in the later one as it is in the first. -/
structure Stable : Prop where
  find? : ∀ n, R.env.contains n = true → R.later.find? n = R.env.find? n
  clausesAt : ∀ slot < R.env.definitions.length, R.later.clausesAt slot = R.env.clausesAt slot
  allowed : ∀ slot,
    R.Allows (Clause.globalsAll (R.env.clausesAt slot)) (Clause.tameAll (R.env.clausesAt slot))

/-- Calls of functions that are there with arguments that are known end alike by `i` and `j`. -/
def Calls (i j : Invoke Cause Closure) : Prop :=
  ∀ (f : Function) (args : List Value) (filling : List Nat) (s : Store Closure),
    R.Orderly filling s → f.There R.env s.closures.size → R.AllKnown s.closures.size args →
      R.Stays filling s (i f args) (j f args) R.Known

variable {R} {i j : Invoke Cause Closure} {filling : List Nat} {bound : Bool}
  {s t : Store Closure} {frame n : Nat}

open Invariant (operational_only)

/-! ## Values -/

theorem Known.item {xs : Sequence Value} (h : R.Known n (.list xs)) (k : Nat) :
    R.Known n (Value.item xs k) :=
  operational_only.item (w := ()) h k

theorem Known.items {xs : Sequence Value} (h : R.Known n (.list xs)) : R.AllKnown n xs.items :=
  operational_only.items (w := ()) h

theorem Known.there {f : Function} (h : R.Known n (.function f)) : f.There R.env n :=
  Value.only_function.mp h

theorem known_list {vs : List Value} (h : R.AllKnown n vs) (id : Nat) :
    R.Known n (.list (.ofList id vs)) :=
  (operational_only.list (w := ()) trivial h).only _ (List.mem_singleton_self _)

theorem there_of_find? {name : String} {f : Function} (h : R.env.find? name = some f) :
    f.There R.env n := by
  rw [Environment.find?_eq] at h
  obtain ⟨d, hd, rfl⟩ := Option.map_eq_some_iff.mp h
  obtain ⟨hlt, -⟩ := List.getElem?_eq_some_iff.mp hd
  cases d with
  | native fn => trivial
  | declared name cs => exact hlt

/-! ## Calls -/

section Calls

variable (hi : R.Calls i j)

include hi

theorem call_stays (hs : R.Orderly filling s) {callee : Value}
    (hcallee : R.Known s.closures.size callee) {args : List Value}
    (hargs : R.AllKnown s.closures.size args) :
    R.Stays filling s (callee.call i args) (callee.call j args) R.Known := by
  cases callee with
  | function f => exact hi f args filling s hs hcallee.there hargs
  | number m =>
    simp only [Value.call]
    split
    · exact .ret hs (known_scalar rfl)
    · exact .fail hs _
  | _ => exact .fail hs _

omit hi in
/-- The items are known as long as the list has been; `f` may rely on that. -/
theorem collectFrom_stays {xs : Sequence Value} {f g : Value → Eval (Option Value)}
    (hxs : R.Known s.closures.size (.list xs))
    (hfg : ∀ x t, R.Later filling s t → R.Known s.closures.size x →
      R.Stays filling t (f x) (g x) fun m found => R.AllKnown m found.toList)
    (count k : Nat) {kept : List Value} (hlater : R.Later filling s t)
    (hkept : R.AllKnown t.closures.size kept) :
    R.Stays filling t (collectFrom xs f count k kept) (collectFrom xs g count k kept)
      R.AllKnown := by
  induction count generalizing t k kept with
  | zero => exact ⟨rfl, .refl hlater.orderly, fun v hv => hkept v (List.mem_reverse.mp hv)⟩
  | succ count ih =>
    rw [collectFrom_succ, collectFrom_succ]
    refine .bind (hfg _ t hlater (hxs.item k)) fun found u hlater' hfound => ?_
    refine ih _ (hlater.trans hlater') ?_
    exact List.forall_mem_append.mpr ⟨hfound, hlater'.allKnown hkept⟩

omit hi in
theorem collect_stays {xs : Sequence Value} {f g : Value → Eval (Option Value)}
    (hs : R.Orderly filling s) (hxs : R.Known s.closures.size (.list xs))
    (hfg : ∀ x t, R.Later filling s t → R.Known s.closures.size x →
      R.Stays filling t (f x) (g x) fun m found => R.AllKnown m found.toList) :
    R.Stays filling s (collect xs f) (collect xs g) R.Known := by
  refine .bind (collectFrom_stays hxs hfg _ _ (.refl hs) (List.forall_mem_nil _)) ?_
  intro kept t hlater hkept
  exact .make hlater.orderly (known_list hkept)

theorem foldValues_stays (hs : R.Orderly filling s) {f : Function}
    (hf : f.There R.env s.closures.size) {acc : Value} (hacc : R.Known s.closures.size acc)
    {xs : List Value} (hxs : R.AllKnown s.closures.size xs) :
    R.Stays filling s (foldValues i f acc xs) (foldValues j f acc xs) R.Known := by
  induction xs generalizing s acc with
  | nil => exact .ret hs hacc
  | cons x xs ih =>
    obtain ⟨hx, hrest⟩ := List.forall_mem_cons.mp hxs
    have hargs : R.AllKnown s.closures.size [acc, x] := by simpa [AllKnown] using ⟨hacc, hx⟩
    refine .bind (hi f _ filling s hs hf hargs) fun next t hlater hnext => ?_
    exact ih hlater.orderly (hlater.there hf) hnext (hlater.allKnown hrest)

omit hi in
theorem check_stays (hs : R.Orderly filling s) (fn : Native) (args : List Value) :
    R.Stays filling s (fn.check args) (fn.check args) fun _ _ => True := by
  unfold Native.check
  cases Arguments.check fn.name args fn.signature with
  | ok u => exact .ret hs trivial
  | error c => exact .fail hs c

omit hi in
theorem numeric_stays (hs : R.Orderly filling s) (fn : Native) (f : Float → Float)
    (args : List Value) : R.Stays filling s (fn.numeric f args) (fn.numeric f args) R.Known := by
  refine .bind (check_stays hs fn args) fun _ t hlater _ => ?_
  split <;> exact .ret hlater.orderly (known_scalar rfl)

/-- A built-in function calls only what is among its arguments. -/
theorem run_stays (hs : R.Orderly filling s) (fn : Native) {args : List Value}
    (hargs : R.AllKnown s.closures.size args) :
    R.Stays filling s (fn.run i args) (fn.run j args) R.Known := by
  cases fn with
  | foldl =>
    unfold Native.run
    dsimp only
    split
    · next f z text =>
      have hchars : R.AllKnown s.closures.size (Value.characters text) := fun v hv => by
        obtain ⟨c, -, rfl⟩ := List.mem_map.mp hv
        exact known_scalar rfl
      exact foldValues_stays hi hs (hargs (.function f) (by simp)).there (hargs z (by simp)) hchars
    · refine .bind (check_stays hs _ _) fun _ t hlater _ => ?_
      replace hargs := hlater.allKnown hargs
      split
      · next f z xs _ =>
        exact foldValues_stays hi hlater.orderly (hargs (.function f) (by simp)).there
          (hargs z (by simp)) (hargs (.list xs) (by simp)).items
      · exact .ret hlater.orderly (known_scalar rfl)
  | map =>
    refine .bind (check_stays hs _ _) fun _ t hlater _ => ?_
    replace hargs := hlater.allKnown hargs
    split
    · next f xs =>
      have hf := (hargs (.function f) (by simp)).there
      refine collect_stays hlater.orderly (hargs (.list xs) (by simp)) fun x u hlater' hx => ?_
      have hone := allKnown_singleton.mpr (hlater'.known hx)
      have hf' := hlater'.there hf
      refine .bind (hi f _ filling u hlater'.orderly hf' hone) fun v u' hlater'' hv => ?_
      exact .ret hlater''.orderly (allKnown_singleton.mpr hv)
    · exact .ret hlater.orderly (known_scalar rfl)
  | filter =>
    refine .bind (check_stays hs _ _) fun _ t hlater _ => ?_
    replace hargs := hlater.allKnown hargs
    split
    · next f xs =>
      have hf := (hargs (.function f) (by simp)).there
      refine collect_stays hlater.orderly (hargs (.list xs) (by simp)) fun x u hlater' hx => ?_
      have hone := allKnown_singleton.mpr (hlater'.known hx)
      have hf' := hlater'.there hf
      refine .bind (hi f _ filling u hlater'.orderly hf' hone) fun v u' hlater'' _ => ?_
      refine .ret hlater''.orderly ?_
      split
      · exact hlater''.allKnown hone
      · exact List.forall_mem_nil _
    · exact .ret hlater.orderly (known_scalar rfl)
  | len =>
    unfold Native.run
    dsimp only
    split
    · exact .ret hs (known_scalar rfl)
    · exact .ret hs (known_scalar rfl)
    · exact .ret hs (known_scalar rfl)
    · exact .bind (check_stays hs _ _) fun _ t hlater _ =>
        .ret hlater.orderly (known_scalar rfl)
  | str =>
    refine .bind (check_stays hs _ _) fun _ t hlater _ => ?_
    split <;> exact .ret hlater.orderly (known_scalar rfl)
  | print =>
    refine .bind (.print hs _) fun _ t hlater _ => .ret hlater.orderly ?_
    cases hlast : args.getLast? with
    | none => exact known_scalar rfl
    | some v => exact hlater.known (hargs v (List.mem_of_getLast? hlast))
  | die =>
    refine .bind (check_stays hs _ _) fun _ t hlater _ => ?_
    split
    · exact .fail hlater.orderly _
    · exact .ret hlater.orderly (known_scalar rfl)
  | «catch» =>
    refine .bind (check_stays hs _ _) fun _ t hlater _ => ?_
    replace hargs := hlater.allKnown hargs
    split
    · next body handler =>
      have hbody := (hargs (.function body) (by simp)).there
      have hhandler := (hargs (.function handler) (by simp)).there
      refine .catching (hi body [] filling t hlater.orderly hbody (List.forall_mem_nil _)) ?_
      intro c u hlater'
      refine hi handler _ filling u hlater'.orderly (hlater'.there hhandler) ?_
      exact allKnown_singleton.mpr (known_scalar rfl)
    · exact .ret hlater.orderly (known_scalar rfl)
  | _ => exact numeric_stays hs _ _ args

end Calls

/-! ## Frames -/

/-- A frame that is being filled is seen by no lambda, so anything known may be put into it. -/
theorem fillSlots_stays (hs : R.Orderly filling s) (hframe : frame ∈ filling) (slot : Nat)
    {vs : List Value} (hvs : R.AllKnown s.closures.size vs) :
    R.Stays filling s (fillSlots frame slot vs) (fillSlots frame slot vs) fun _ _ => True := by
  induction vs generalizing s slot with
  | nil => exact .ret hs trivial
  | cons v vs ih =>
    obtain ⟨hv, hrest⟩ := List.forall_mem_cons.mp hvs
    have hseen (htidy : R.tidy) (id : Nat) (c : Closure) (hc : s.closures[id]? = some c)
        (hsees : s.Sees c.frame frame) : R.Known id v :=
      absurd hsees ((hs.hidden htidy frame hframe).2 c (Array.mem_of_getElem? hc))
    refine .bind (.write hs slot hv hseen) fun _ t hlater _ => ?_
    exact ih hlater.orderly _ (hlater.allKnown hrest)

/-- The lambdas that see the frame of a comprehension were made after it, and thus after the items
that are written to it. -/
theorem writeItem_stays (hs : R.Orderly filling s) (hunseen : Unseen s frame)
    (hlater : R.Later filling s t) {x : Value} (hx : R.Known s.closures.size x) :
    R.Stays filling t (Eval.write frame 0 x) (Eval.write frame 0 x) fun _ _ => True := by
  refine .write hlater.orderly 0 (hlater.known hx) fun _ id c hc hsees => ?_
  refine hx.mono (Nat.le_of_not_lt fun hid => ?_)
  exact hlater.unseen hs hunseen hid hc hsees

/-- A new frame is being filled as long as its bindings are evaluated. -/
theorem Ready.fill (h : R.Ready filling bound s frame) (hunseen : Unseen s frame) :
    R.Ready (frame :: filling) true s frame :=
  ⟨h.toOrderly.cons h.inside hunseen, h.inside, fun _ hbound => nomatch hbound⟩

theorem known_replicate {size : Nat} : ∀ v ∈ Array.replicate size Value.void, R.Known n v := by
  intro v hv
  rw [(Array.mem_replicate.mp hv).2]
  exact known_scalar rfl

/-! ## Expressions -/

namespace Stable

mutual

/-- An expression that refers to functions of the first table has the same value in both. -/
theorem eval_stays (hR : R.Stable) (hi : R.Calls i j) {filling : List Nat} {bound : Bool}
    {s : Store Closure} {frame : Nat} (h : R.Ready filling bound s frame) :
    ∀ e : Expr, R.Allows e.globals (e.tame bound) →
      R.Stays filling s (e.eval R.env i frame) (e.eval R.later j frame) R.Known
  | .literal l, _ => .ret h.toOrderly (known_scalar (Value.isScalar_ofLiteral l))
  | .symbol _ (.slot index depth), _ =>
    ⟨rfl, .refl h.toOrderly, h.known_lookup frame index depth⟩
  | .symbol name .global, hallowed => by
    -- looked up in the table of the moment, but the name was there before
    have hname := hallowed.known name (List.mem_singleton_self name)
    obtain ⟨f, hf⟩ := Option.isSome_iff_exists.mp hname
    simp only [Expr.eval, hR.find? name hname, hf]
    exact .ret h.toOrderly (Value.only_function.mpr (there_of_find? hf))
  | .symbol _ .unresolved, _ => .fail h.toOrderly _
  | .binary op left right, hallowed => by
    obtain ⟨hl, hr⟩ := allows_append.mp hallowed
    have hleft := eval_stays hR hi h left hl
    by_cases hand : op = .and
    · subst hand
      refine .bind hleft fun a t hlater ha => ?_
      split
      · exact eval_stays hR hi (h.later hlater) right hr
      · exact .ret hlater.orderly ha
    by_cases hor : op = .or
    · subst hor
      refine .bind hleft fun a t hlater ha => ?_
      split
      · exact .ret hlater.orderly ha
      · exact eval_stays hR hi (h.later hlater) right hr
    rw [Expr.eval_binary hand hor, Expr.eval_binary hand hor]
    refine .bind hleft fun a t hlater ha => ?_
    refine .bind (eval_stays hR hi (h.later hlater) right hr) fun b u hlater' hb => ?_
    refine .fresh_bind hlater'.orderly fun u' hlater'' => ?_
    refine .ofExcept hlater''.orderly fun v hv => hlater''.known ?_
    have hmade := operational_only.apply (w := ()) trivial (hlater'.known ha) hb hv
    exact hmade.only v (List.mem_singleton_self v)
  | .unary op operand, hallowed =>
    .bind (eval_stays hR hi h operand hallowed) fun _ _ hlater _ =>
      .ofExcept hlater.orderly fun _ hv => operational_only.unary (w := ()) hv
  | .call callee args, hallowed =>
    have ⟨hcallee, hargs⟩ := allows_append.mp hallowed
    .bind (eval_stays hR hi h callee hcallee) fun _ _ hlater hf =>
      .bind (evalAll_stays hR hi (h.later hlater) args hargs) fun _ _ hlater' hvalues =>
        call_stays hi hlater'.orderly (hlater'.known hf) hvalues
  | .list items, hallowed =>
    .bind (evalAll_stays hR hi h items hallowed) fun _ _ hlater hvalues =>
      .make hlater.orderly (known_list hvalues)
  | .map entries, hallowed =>
    have hentries := entries_stay hR hi h .empty (List.forall_mem_nil _) entries hallowed
    .bind hentries fun _ _ hlater hdict =>
      .make hlater.orderly fun _ => Value.only_map.mpr hdict
  | .comprehension _ source filter map, hallowed => by
    obtain ⟨hsource, hrest⟩ := allows_append.mp hallowed
    obtain ⟨hfilter, hmap⟩ := allows_append.mp hrest
    refine .bind (eval_stays hR hi h source hsource) fun v t hlater hv => ?_
    cases v with
    | list xs =>
      have hslots : ∀ v ∈ #[Value.void], R.Known t.closures.size v := by
        simpa using known_scalar rfl
      refine .nest_bind (h.later hlater) hslots fun inner u hlater' hinner hunseen => ?_
      refine collect_stays hinner.toOrderly (hlater'.known hv) fun x u' hlater'' hx => ?_
      refine .bind (writeItem_stays hinner.toOrderly hunseen hlater'' hx) fun _ u₃ hlater₃ _ => ?_
      have hinner₃ := hinner.later (hlater''.trans hlater₃)
      refine .bind (evalFilter_stays hR hi hinner₃ filter hfilter) fun keep u₄ hlater₄ _ => ?_
      have hx' := ((hlater''.trans hlater₃).trans hlater₄).known hx
      split
      · have hmapped := evalMap_stays hR hi (hinner₃.later hlater₄) hx' map hmap
        refine .bind hmapped fun y u₅ hlater₅ hy => ?_
        exact .ret hlater₅.orderly (allKnown_singleton.mpr hy)
      · exact .ret hlater₄.orderly (List.forall_mem_nil _)
    | _ => exact .fail hlater.orderly _
  | .withBlock bindings body, hallowed => by
    obtain ⟨hbindings, hbody⟩ := allows_append.mp hallowed
    refine .nest_bind h known_replicate fun inner t hlater hinner hunseen => ?_
    have hfilled :=
      bindings_stay hR hi (hinner.fill hunseen) List.mem_cons_self 0 bindings hbindings
    -- the lambdas of the body see the frame once it is filled
    refine .bind hfilled.tail fun _ u hlater' _ => ?_
    exact eval_stays hR hi (hinner.later hlater') body hbody
  | .lambda _, hallowed => .close h hallowed

theorem evalAll_stays (hR : R.Stable) (hi : R.Calls i j) {filling : List Nat} {bound : Bool}
    {s : Store Closure} {frame : Nat} (h : R.Ready filling bound s frame) :
    ∀ es : List Expr, R.Allows (Expr.globalsAll es) (Expr.tameAll bound es) →
      R.Stays filling s (Expr.evalAll R.env i frame es) (Expr.evalAll R.later j frame es) R.AllKnown
  | [], _ => .ret h.toOrderly (List.forall_mem_nil _)
  | e :: es, hallowed =>
    have ⟨he, hes⟩ := allows_append.mp hallowed
    .bind (eval_stays hR hi h e he) fun _ _ hlater hv =>
      .bind (evalAll_stays hR hi (h.later hlater) es hes) fun _ _ hlater' hvs =>
        .ret hlater'.orderly (List.forall_mem_cons.mpr ⟨hlater'.known hv, hvs⟩)

theorem evalFilter_stays (hR : R.Stable) (hi : R.Calls i j) {filling : List Nat} {bound : Bool}
    {s : Store Closure} {frame : Nat} (h : R.Ready filling bound s frame) :
    ∀ e : Option Expr, R.Allows (Expr.globalsOption e) (Expr.tameOption bound e) →
      R.Stays filling s (Expr.evalFilter R.env i frame e) (Expr.evalFilter R.later j frame e)
        fun _ _ => True
  | none, _ => .ret h.toOrderly trivial
  | some e, hallowed =>
    .bind (eval_stays hR hi h e hallowed) fun _ _ hlater _ => .ret hlater.orderly trivial

theorem evalMap_stays (hR : R.Stable) (hi : R.Calls i j) {filling : List Nat} {bound : Bool}
    {s : Store Closure} {frame : Nat} (h : R.Ready filling bound s frame) {x : Value}
    (hx : R.Known s.closures.size x) :
    ∀ e : Option Expr, R.Allows (Expr.globalsOption e) (Expr.tameOption bound e) →
      R.Stays filling s (Expr.evalMap R.env i frame x e) (Expr.evalMap R.later j frame x e) R.Known
  | none, _ => .ret h.toOrderly hx
  | some e, hallowed => eval_stays hR hi h e hallowed

theorem entries_stay (hR : R.Stable) (hi : R.Calls i j) {filling : List Nat} {bound : Bool}
    {s : Store Closure} {frame : Nat} (h : R.Ready filling bound s frame) (written : Dict Value)
    (hwritten : R.AllKnown s.closures.size written.values) :
    ∀ es : List Entry, R.Allows (Entry.globalsAll es) (Entry.tameAll bound es) →
      R.Stays filling s (Entry.evalAll R.env i frame written es)
        (Entry.evalAll R.later j frame written es) fun m d => R.AllKnown m d.values
  | [], _ => .ret h.toOrderly hwritten
  | ⟨key, value⟩ :: es, hallowed =>
    have ⟨hvalue, hes⟩ := allows_append.mp hallowed
    .bind (eval_stays hR hi h value hvalue) fun _ _ hlater hv =>
      entries_stay hR hi (h.later hlater) _
        (operational_only.insert (w := ()) (keyHash key) (hlater.allKnown hwritten) hv) es hes

/-- Bindings fill a frame that no lambda sees, and make none that does. -/
theorem bindings_stay (hR : R.Stable) (hi : R.Calls i j) {filling : List Nat}
    {s : Store Closure} {frame : Nat} (h : R.Ready filling true s frame)
    (hframe : frame ∈ filling) (slot : Nat) :
    ∀ bs : List Binding, R.Allows (Binding.globalsAll bs) (Binding.tameAll bs) →
      R.Stays filling s (Binding.evalAll R.env i frame slot bs)
        (Binding.evalAll R.later j frame slot bs) fun _ _ => True
  | [], _ => .ret h.toOrderly trivial
  | ⟨target, value⟩ :: bs, hallowed => by
    obtain ⟨hvalue, hbs⟩ := allows_append.mp hallowed
    refine .bind (eval_stays hR hi h value hvalue) fun v t hlater hv => ?_
    refine .fresh_bind hlater.orderly fun t' hlater' => ?_
    have hvalues (vs : List Value) (hvs : target.values v t.nextId = .ok vs) :
        R.AllKnown t'.closures.size vs :=
      (operational_only.target (w := ()) trivial (hlater'.known hv) hvs).only
    refine .bind (.ofExcept hlater'.orderly hvalues) fun vs u hlater'' hvs => ?_
    refine .bind (fillSlots_stays hlater''.orderly hframe slot hvs) fun _ u' hfilled _ => ?_
    have hready := h.later (((hlater.trans hlater').trans hlater'').trans hfilled)
    exact bindings_stay hR hi hready hframe _ bs hbs

end

/-! ## Functions -/

variable (hR : R.Stable) (hi : R.Calls i j)

include hR

/-- The clauses of a function are the same in both tables. They are allowed, and a frame that they
see around them is as good to evaluate in as any. -/
theorem code (hs : R.Orderly filling s) {f : Function} (hf : f.There R.env s.closures.size) :
    f.code R.later s = f.code R.env s ∧
      R.Allows (Clause.globalsAll (f.code R.env s).1) (Clause.tameAll (f.code R.env s).1) ∧
      ∀ p, (f.code R.env s).2 = some p → R.Ready filling false s p := by
  cases f with
  | native fn slot => exact ⟨rfl, allows_nil, fun _ hp => nomatch hp⟩
  | declared name slot =>
    refine ⟨?_, hR.allowed slot, fun _ hp => nomatch hp⟩
    rw [Function.code, Function.code, hR.clausesAt slot hf]
  | lambda id =>
    have hid := Array.getElem?_eq_getElem hf
    have hmem : s.closures[id] ∈ s.closures := Array.getElem_mem hf
    refine ⟨rfl, ?_, fun p hp => ?_⟩
    · simp only [Function.code, hid]
      exact hs.allowed _ hmem
    · simp only [Function.code, hid, Option.some.injEq] at hp
      subst hp
      exact ⟨hs, hs.captured _ hmem, fun htidy _ i hi => (hs.hidden htidy i hi).2 _ hmem⟩

section

omit hR in
theorem value_stays {x y : Eval Value} (h : R.Stays filling s x y R.Known) :
    R.Stays filling s (do return .value (← x)) (do return .value (← y)) fun m flow =>
      R.AllKnown m (Flow.results flow) :=
  .bind h fun _ _ hlater hv => .ret hlater.orderly (allKnown_singleton.mpr hv)

include hi

theorem evalTail_stays (current : Function) (h : R.Ready filling false s frame) (e : Expr)
    (hallowed : R.Allows e.globals (e.tame false)) :
    R.Stays filling s (e.evalTail R.env i current frame) (e.evalTail R.later j current frame)
      fun m flow => R.AllKnown m flow.results := by
  fun_induction Expr.evalTail R.env i current frame e generalizing s with
  | case1 frame callee args =>
    obtain ⟨hcallee, hargs⟩ := allows_append.mp hallowed
    refine .bind (hR.eval_stays hi h callee hcallee) fun f t hlater hf => ?_
    refine .bind (hR.evalAll_stays hi (h.later hlater) args hargs) fun vs u hlater' hvs => ?_
    have hf' := hlater'.known hf
    cases f with
    | function g =>
      dsimp only
      split
      · exact .ret hlater'.orderly hvs
      · exact value_stays (hi g vs filling u hlater'.orderly hf'.there hvs)
    | _ => exact value_stays (call_stays hi hlater'.orderly hf' hvs)
  | case2 frame left right ih =>
    obtain ⟨hl, hr⟩ := allows_append.mp hallowed
    refine .bind (hR.eval_stays hi h left hl) fun a t hlater ha => ?_
    split
    · exact ih (h.later hlater) hr
    · exact .ret hlater.orderly (allKnown_singleton.mpr ha)
  | case3 frame left right ih =>
    obtain ⟨hl, hr⟩ := allows_append.mp hallowed
    refine .bind (hR.eval_stays hi h left hl) fun a t hlater ha => ?_
    split
    · exact .ret hlater.orderly (allKnown_singleton.mpr ha)
    · exact ih (h.later hlater) hr
  | case4 frame bindings body ih =>
    obtain ⟨hbindings, hbody⟩ := allows_append.mp hallowed
    refine .nest_bind h known_replicate fun inner t hlater hinner hunseen => ?_
    have hfilled :=
      hR.bindings_stay hi (hinner.fill hunseen) List.mem_cons_self 0 bindings hbindings
    refine .bind hfilled.tail fun _ u hlater' _ => ?_
    exact ih inner (hinner.later hlater') hbody
  | case5 frame e hcall hand hor hwith =>
    rw [Expr.evalTail]
    · exact value_stays (hR.eval_stays hi h e hallowed)
    all_goals assumption

theorem guardsHold_stays (h : R.Ready filling false s frame) (gs : List Expr)
    (hallowed : ∀ g ∈ gs, R.Allows g.globals (g.tame false)) :
    R.Stays filling s (guardsHold R.env i frame gs) (guardsHold R.later j frame gs)
      fun _ _ => True := by
  induction gs generalizing s with
  | nil => exact .ret h.toOrderly trivial
  | cons g gs ih =>
    obtain ⟨hg, hgs⟩ := List.forall_mem_cons.mp hallowed
    refine .bind (hR.eval_stays hi h g hg) fun v t hlater _ => ?_
    split
    · exact ih (h.later hlater) hgs
    · exact .ret hlater.orderly trivial

/-- The clause that is chosen is one of those to choose from. -/
theorem select_stays (h : R.Ready filling false s frame) (arity : Nat) (cs : List Clause)
    (hallowed : ∀ c ∈ cs, R.Allows c.globals c.tame) :
    R.Stays filling s (select R.env i frame arity cs) (select R.later j frame arity cs)
      fun _ chosen => ∀ c, chosen = some c → R.Allows c.globals c.tame := by
  induction cs generalizing s with
  | nil => exact .ret h.toOrderly fun _ hc => nomatch hc
  | cons c cs ih =>
    obtain ⟨hc, hcs⟩ := List.forall_mem_cons.mp hallowed
    unfold select
    split
    · refine .bind (hR.guardsHold_stays hi h c.guards hc.guards) fun held t hlater _ => ?_
      split
      · exact .ret hlater.orderly fun d hd => Option.some.inj hd ▸ hc
      · exact ih (h.later hlater) hcs
    · exact ih h hcs

theorem applyOnce_stays (hs : R.Orderly filling s) {f : Function}
    (hf : f.There R.env s.closures.size) {args : List Value}
    (hargs : R.AllKnown s.closures.size args) :
    R.Stays filling s (applyOnce R.env i f args) (applyOnce R.later j f args) fun m flow =>
      R.AllKnown m flow.results := by
  obtain ⟨hcode, hallowed, hcaptured⟩ := hR.code hs hf
  have hslots : ∀ v ∈ args.toArray, R.Known s.closures.size v :=
    fun v hv => hargs v (by simpa using hv)
  refine .read_bind hcode (.push_bind hs hslots hcaptured fun frame t _ hframe _ => ?_)
  refine .bind (hR.select_stays hi hframe args.length _ hallowed.clauses)
    fun chosen u hlater hchosen => ?_
  cases chosen with
  | none => exact .fail hlater.orderly _
  | some c => exact hR.evalTail_stays hi f (hframe.later hlater) c.body (hchosen c rfl).body

theorem applyClauses_stays (hs : R.Orderly filling s) {f : Function}
    (hf : f.There R.env s.closures.size) (rounds : Nat) {args : List Value}
    (hargs : R.AllKnown s.closures.size args) :
    R.Stays filling s (applyClauses R.env i f rounds args) (applyClauses R.later j f rounds args)
      R.Known := by
  induction rounds generalizing s args with
  | zero => exact ⟨rfl, trivial⟩
  | succ rounds ih =>
    rw [applyClauses_succ, applyClauses_succ]
    refine .bind (hR.applyOnce_stays hi hs hf hargs) fun flow t hlater hflow => ?_
    cases flow with
    | value v => exact .ret hlater.orderly (hflow v (List.mem_singleton_self v))
    | again args => exact ih hlater.orderly (hlater.there hf) hflow

end

/-- A call of a function that is there ends alike in both tables. -/
theorem invoke_stays (depth : Nat) :
    R.Calls (Function.invoke R.env depth) (Function.invoke R.later depth) := by
  induction depth with
  | zero => exact fun _ _ _ _ _ _ _ => ⟨rfl, trivial⟩
  | succ depth ih =>
    intro f args filling s hs hf hargs
    cases f with
    | native fn slot => exact run_stays ih hs fn hargs
    | declared name slot => exact hR.applyClauses_stays ih hs hf depth hargs
    | lambda id => exact hR.applyClauses_stays ih hs hf depth hargs

/-- So does an evaluation outside any function. -/
theorem evaluateIn_stays (hs : R.Orderly filling s) (depth : Nat) {e : Expr}
    (hallowed : R.Allows e.globals (e.tame false)) :
    R.Stays filling s (R.env.evaluateIn depth e) (R.later.evaluateIn depth e) R.Known := by
  have hnone : ∀ v ∈ (#[] : Array Value), R.Known s.closures.size v := by simp
  have hparent (p : Nat) (hp : none = some p) : R.Ready filling false s p := nomatch hp
  refine .push_bind hs hnone hparent fun root t _ hroot _ => ?_
  exact hR.eval_stays (hR.invoke_stays depth) hroot e hallowed

end Stable

end Setting

end Clausal
