import Clausal.Proofs.Frames
import Clausal.Proofs.Upkeep

/-!
# Captured frames

Frames are shared: a lambda keeps the frame in which it was made, and sees what is written to it
later. But an evaluation writes only to frames that it has made itself, so a frame that was there
before is the same afterwards (`Expr.eval_spares`, `Function.invoke_spares`). Once the block that
has made a frame is finished, nobody writes to the frame any more: what may come then are further
evaluations and calls, and the blocks around, which write to frames of their own
(`Store.Outlives`). So a captured variable keeps the value it has when its block ends
(`Store.Outlives.slot?_eq`).

A comprehension has one frame for all items. What its lambdas see of it in the end is therefore
the last item (`Expr.comprehension_frame`).
-/

namespace Clausal

/-- A sequence of two runs ends where the first fails, or where the second ends. -/
theorem Run.state?_bind {ε σ α β : Type} {x : Run ε σ α} {f : α → Run ε σ β} {s u : σ}
    (h : ((x >>= f) s).state? = some u) :
    (∃ e, x s = .fail e u) ∨ ∃ a t, x s = .ok a t ∧ (f a t).state? = some u := by
  cases hx : x s with
  | ok a t =>
    rw [Run.bind_ok hx] at h
    exact .inr ⟨a, t, rfl, h⟩
  | fail e t =>
    rw [Run.bind_fail hx] at h
    cases h
    exact .inl ⟨e, rfl⟩
  | exhausted =>
    rw [Run.bind_exhausted hx] at h
    cases h

/-! ## Old frames -/

/-- The property that every value has: what is left of the judgement is about frames, and about the
next unused identity. -/
def Invariant.numbered (p : Nat → Prop) : Invariant Unit where
  le _ _ := True
  value _ _ := True
  dict _ _ := True
  ids _ id := p id

theorem Invariant.lawful_numbered {p : Nat → Prop} (hp : ∀ id, p id → p (id + 1)) :
    (Invariant.numbered p).Lawful := by
  have hmakes {id : Nat} {vs : List Value} (hid : p id) : (Invariant.numbered p).Makes () id vs :=
    ⟨(), trivial, hp id hid, fun _ _ => trivial⟩
  refine { toOperational := ?_, function := trivial }
  constructor <;> intros <;> first | trivial | exact hmakes ‹_›

/-- The property that every value has, where identities are of no account. -/
def Invariant.anything : Invariant Unit where
  le _ _ := True
  value _ _ := True
  dict _ _ := True
  ids _ _ := True

theorem Invariant.lawful_anything : Invariant.anything.Lawful :=
  Invariant.lawful_numbered fun _ _ => trivial

section

variable {α : Type} {s t : Store Closure} {n : Nat}

theorem Store.ready_anything (h : n ≤ s.frames.size) : Invariant.anything.Ready n () s :=
  ⟨fun _ _ _ _ => trivial, trivial, h⟩

/-- The store in which a run ends is a later one, also after an error. -/
theorem Invariant.Keeps.later {W : Type} {I : Invariant W} {w : W} {x : Eval α}
    {P : W → α → Prop} (h : I.Keeps n w s x P) (hrun : (x s).state? = some t) :
    ∃ w', I.Later n w s w' t := by
  unfold Invariant.Keeps at h
  split at h
  · next hx =>
    rw [hx] at hrun
    cases hrun
    obtain ⟨w', hlater, -⟩ := h
    exact ⟨w', hlater⟩
  · next hx =>
    rw [hx] at hrun
    cases hrun
    exact h
  · next hx =>
    rw [hx] at hrun
    cases hrun

theorem Invariant.Keeps.spares {W : Type} {I : Invariant W} {w : W} {x : Eval α}
    {P : W → α → Prop} (h : I.Keeps n w s x P) (hrun : (x s).state? = some t) : s.Spares n t := by
  obtain ⟨w', hlater⟩ := h.later hrun
  exact hlater.spares

variable {env : Environment} {depth : Nat}

open Invariant (lawful_anything)

theorem Expr.eval_spares {e : Expr} {frame : Nat}
    (h : (e.eval env (Function.invoke env depth) frame s).state? = some t) :
    s.Spares s.frames.size t :=
  (lawful_anything.eval_keeps (lawful_anything.invoke_keeps env depth)
    (Store.ready_anything (Nat.le_refl _)) frame e).spares h

theorem Function.invoke_spares {f : Function} {args : List Value}
    (h : (Function.invoke env depth f args s).state? = some t) : s.Spares s.frames.size t :=
  (lawful_anything.invoke_keeps env depth f args s.frames.size () s
    (Store.ready_anything (Nat.le_refl _)) fun _ _ => trivial).spares h

theorem Value.call_spares {callee : Value} {args : List Value}
    (h : (callee.call (Function.invoke env depth) args s).state? = some t) :
    s.Spares s.frames.size t :=
  (lawful_anything.call_keeps (lawful_anything.invoke_keeps env depth)
    (Store.ready_anything (Nat.le_refl _)) callee fun _ _ => trivial).spares h

end

/-! ## After the end of a block -/

namespace Store

theorem Spares.grows {s t : Store Closure} (h : s.Spares s.frames.size t) : s.Grows t := by
  intro j f hf
  obtain ⟨hj, -⟩ := Array.getElem?_eq_some_iff.mp hf
  exact ⟨f, (h.frames j hj).trans hf, rfl, rfl⟩

/-- What may happen to a store after the block that has made the frame `i` is finished: evaluations
and calls, in any environment, and the single steps of what goes on around the block, where only
frames other than `i` are written to. -/
inductive Outlives (i : Nat) (s : Store Closure) : Store Closure → Prop
  | refl : Outlives i s s
  | eval {t u : Store Closure} {env : Environment} {depth frame : Nat} {e : Expr}
      (h : Outlives i s t)
      (hrun : (e.eval env (Function.invoke env depth) frame t).state? = some u) : Outlives i s u
  | call {t u : Store Closure} {env : Environment} {depth : Nat} {callee : Value}
      {args : List Value} (h : Outlives i s t)
      (hrun : (callee.call (Function.invoke env depth) args t).state? = some u) : Outlives i s u
  | invoke {t u : Store Closure} {env : Environment} {depth : Nat} {f : Function}
      {args : List Value} (h : Outlives i s t)
      (hrun : (Function.invoke env depth f args t).state? = some u) : Outlives i s u
  | push {t : Store Closure} (h : Outlives i s t) (slots : Array Value) (parent : Option Nat) :
      Outlives i s (t.push slots parent).2
  | write {t : Store Closure} {frame : Nat} (h : Outlives i s t) (hframe : frame ≠ i)
      (index : Nat) (v : Value) : Outlives i s (t.write frame index v)
  | fresh {t : Store Closure} (h : Outlives i s t) : Outlives i s t.fresh.2
  | close {t : Store Closure} (h : Outlives i s t) (c : Closure) : Outlives i s (t.close c).2
  | print {t : Store Closure} (h : Outlives i s t) (line : String) : Outlives i s (t.printLine line)

variable {s t u : Store Closure} {i : Nat}

theorem Outlives.trans (h : s.Outlives i t) (h' : t.Outlives i u) : s.Outlives i u := by
  induction h' with
  | refl => exact h
  | eval _ hrun ih => exact .eval ih hrun
  | call _ hrun ih => exact .call ih hrun
  | invoke _ hrun ih => exact .invoke ih hrun
  | push _ slots parent ih => exact .push ih slots parent
  | write _ hframe index v ih => exact .write ih hframe index v
  | fresh _ ih => exact .fresh ih
  | close _ c ih => exact .close ih c
  | print _ line ih => exact .print ih line

theorem Outlives.grows (h : s.Outlives i t) : s.Grows t := by
  induction h with
  | refl => exact .refl s
  | eval _ hrun ih => exact ih.trans (Expr.eval_spares hrun).grows
  | call _ hrun ih => exact ih.trans (Value.call_spares hrun).grows
  | invoke _ hrun ih => exact ih.trans (Function.invoke_spares hrun).grows
  | push _ slots parent ih => exact ih.trans (grows_push _ slots parent)
  | write _ _ index v ih => exact ih.trans (grows_write _ _ index v)
  | fresh _ ih => exact ih.trans (.of_frames_eq rfl)
  | close _ _ ih => exact ih.trans (.of_frames_eq rfl)
  | print _ _ ih => exact ih.trans (.of_frames_eq rfl)

/-- The frame of a finished block stays as it is. -/
theorem Outlives.frame_eq (h : s.Outlives i t) {f : Frame} (hf : s.frames[i]? = some f) :
    t.frames[i]? = some f := by
  have hold {t : Store Closure} (ht : t.frames[i]? = some f) : i < t.frames.size :=
    (Array.getElem?_eq_some_iff.mp ht).1
  induction h with
  | refl => exact hf
  | eval _ hrun ih => rw [(Expr.eval_spares hrun).frames i (hold ih), ih]
  | call _ hrun ih => rw [(Value.call_spares hrun).frames i (hold ih), ih]
  | invoke _ hrun ih => rw [(Function.invoke_spares hrun).frames i (hold ih), ih]
  | @push t _ slots parent ih =>
    rw [(t.spares_push (Nat.le_refl _) slots parent).frames i (hold ih), ih]
  | write _ hframe index v ih => rw [Store.write, Array.getElem?_modify, if_neg hframe, ih]
  | fresh _ ih => exact ih
  | close _ _ ih => exact ih
  | print _ _ ih => exact ih

/-- The frames around a frame are those they were. -/
theorem Grows.ancestor_eq (h : s.Grows t) {depth frame up : Nat}
    (hup : s.ancestor depth frame = some up) : t.ancestor depth frame = some up := by
  induction depth generalizing frame with
  | zero => exact hup
  | succ depth ih =>
    unfold ancestor at hup
    split at hup
    · next slots parent hf =>
      obtain ⟨g, hg, -, hparent⟩ := h frame _ hf
      obtain ⟨slots', up'⟩ := g
      cases hparent
      rw [ancestor, hg]
      exact ih hup
    · cases hup

theorem slot?_of_ancestor {frame index depth : Nat} {f : Frame}
    (hup : s.ancestor depth frame = some i) (hf : s.frames[i]? = some f) :
    s.slot? frame index depth = f.slots[index]? := by
  simp only [slot?, hup, hf, Option.bind_eq_bind, Option.bind_some]

/-- A variable of a finished block has the value it had at the end of the block, from wherever it is
seen. -/
theorem Outlives.slot?_eq (h : s.Outlives i t) {frame index depth : Nat} {v : Value}
    (hup : s.ancestor depth frame = some i) (hv : s.slot? frame index depth = some v) :
    t.slot? frame index depth = some v := by
  cases hf : s.frames[i]? with
  | none => simp [slot?, hup, hf] at hv
  | some f =>
    rw [slot?_of_ancestor (h.grows.ancestor_eq hup) (h.frame_eq hf),
      ← slot?_of_ancestor hup hf, hv]

end Store

/-! ## The blocks around -/

section

variable {env : Environment} {depth i frame : Nat} {s t u : Store Closure}

theorem fillSlots_outlives (hframe : frame ≠ i) {slot : Nat} {vs : List Value}
    (h : (fillSlots frame slot vs s).state? = some t) : s.Outlives i t := by
  induction vs generalizing s slot with
  | nil =>
    cases h
    exact .refl
  | cons v vs ih => exact (Store.Outlives.write .refl hframe slot v).trans (ih h)

/-- The bindings that are left of a block with a frame of its own leave the frame `i` alone. -/
theorem Binding.evalAll_outlives (hframe : frame ≠ i) {slot : Nat} {bs : List Binding}
    (h : (Binding.evalAll env (Function.invoke env depth) frame slot bs s).state? = some t) :
    s.Outlives i t := by
  induction bs generalizing s slot with
  | nil =>
    cases h
    exact .refl
  | cons b bs ih =>
    obtain ⟨target, value⟩ := b
    obtain ⟨e, hfail⟩ | ⟨v, s₁, hv, h⟩ := Run.state?_bind h
    · exact .eval .refl (by rw [hfail]; rfl)
    have hvalue : s.Outlives i s₁ := .eval .refl (by rw [hv]; rfl)
    have hfresh := hvalue.fresh
    replace h : ((Run.ofExcept (target.values v s₁.nextId) >>= fun vs => do
        fillSlots frame slot vs
        Binding.evalAll env (Function.invoke env depth) frame (slot + target.names.length) bs)
        s₁.fresh.2).state? = some t := h
    cases hvs : target.values v s₁.nextId with
    | error c =>
      rw [hvs] at h
      cases h
      exact hfresh
    | ok vs =>
      rw [hvs] at h
      obtain ⟨e, hfail⟩ | ⟨_, s₂, hfill, h⟩ := Run.state?_bind (x := fillSlots frame slot vs) h
      · exact hfresh.trans (fillSlots_outlives hframe (by rw [hfail]; rfl))
      · exact (hfresh.trans (fillSlots_outlives hframe (by rw [hfill]; rfl))).trans (ih h)

end

/-! ## Comprehensions -/

/-- What a comprehension with the frame `inner` does with one item. -/
def Expr.visit (env : Environment) (invoke : Invoke Cause Closure) (inner : Nat)
    (filter map : Option Expr) (x : Value) : Eval (Option Value) := do
  Eval.write inner 0 x
  if ← Expr.evalFilter env invoke inner filter then
    return some (← Expr.evalMap env invoke inner x map)
  return none

section

variable {env : Environment} {depth i inner : Nat} {filter map : Option Expr}
  {s t u : Store Closure} {x : Value}

/-- All items are visited in one frame. -/
theorem Expr.eval_comprehension (invoke : Invoke Cause Closure) (frame : Nat) (name : String)
    (source : Expr) :
    (Expr.comprehension name source filter map).eval env invoke frame = (do
      match ← source.eval env invoke frame with
      | .list xs =>
        let inner ← Eval.push #[.void] (some frame)
        collect xs (Expr.visit env invoke inner filter map)
      | v => Run.fail (.notIterable v.type)) := by
  rw [Expr.eval]
  rfl

theorem Expr.evalFilter_outlives
    (h : (Expr.evalFilter env (Function.invoke env depth) inner filter s).state? = some t) :
    s.Outlives i t := by
  cases filter with
  | none =>
    cases h
    exact .refl
  | some e =>
    obtain ⟨e, hfail⟩ | ⟨v, s₁, hv, h⟩ := Run.state?_bind h
    · exact .eval .refl (by rw [hfail]; rfl)
    · cases h
      exact .eval .refl (by rw [hv]; rfl)

theorem Expr.evalMap_outlives
    (h : (Expr.evalMap env (Function.invoke env depth) inner x map s).state? = some t) :
    s.Outlives i t := by
  cases map with
  | none =>
    cases h
    exact .refl
  | some e => exact .eval .refl h

/-- An item is written to the frame of the comprehension, and that is all it writes. -/
theorem Expr.visit_outlives
    (h : (Expr.visit env (Function.invoke env depth) inner filter map x s).state? = some t) :
    (s.write inner 0 x).Outlives i t := by
  obtain ⟨e, hfail⟩ | ⟨keep, s₁, hkeep, h⟩ :=
    Run.state?_bind (x := Expr.evalFilter env (Function.invoke env depth) inner filter) h
  · exact Expr.evalFilter_outlives (by rw [hfail]; rfl)
  have hfilter : (s.write inner 0 x).Outlives i s₁ := Expr.evalFilter_outlives (by rw [hkeep]; rfl)
  split at h
  · obtain ⟨e, hfail⟩ | ⟨y, s₂, hy, h⟩ := Run.state?_bind h
    · exact hfilter.trans (Expr.evalMap_outlives (by rw [hfail]; rfl))
    · cases h
      exact hfilter.trans (Expr.evalMap_outlives (by rw [hy]; rfl))
  · cases h
    exact hfilter

/-- The items that are left of a comprehension with a frame of its own leave the frame `i` alone. -/
theorem Expr.collectFrom_visit_outlives (hinner : inner ≠ i) {xs : Sequence Value} {count k : Nat}
    {kept : List Value}
    (h : (collectFrom xs (Expr.visit env (Function.invoke env depth) inner filter map) count k kept
      s).state? = some t) : s.Outlives i t := by
  induction count generalizing s k kept with
  | zero =>
    cases h
    exact .refl
  | succ count ih =>
    rw [collectFrom_succ] at h
    have hwrite := Store.Outlives.write (.refl (s := s)) hinner 0 (Value.item xs k)
    obtain ⟨e, hfail⟩ | ⟨found, s₁, hfound, h⟩ := Run.state?_bind h
    · exact hwrite.trans (Expr.visit_outlives (by rw [hfail]; rfl))
    · exact (hwrite.trans (Expr.visit_outlives (by rw [hfound]; rfl))).trans (ih h)

theorem Expr.visit_frame {y : Value} {parent : Option Nat} {found : Option Value}
    (hs : s.frames[inner]? = some ⟨#[y], parent⟩)
    (h : Expr.visit env (Function.invoke env depth) inner filter map x s = .ok found t) :
    t.frames[inner]? = some ⟨#[x], parent⟩ := by
  have hlater : (s.write inner 0 x).Outlives inner t := Expr.visit_outlives (by rw [h]; rfl)
  refine hlater.frame_eq ?_
  rw [Store.write, Array.getElem?_modify, if_pos rfl, hs]
  rfl

/-- After `count` items the frame holds the last of them. -/
theorem Expr.collectFrom_visit_frame {xs : Sequence Value} {count k : Nat} {y : Value}
    {parent : Option Nat} {kept result : List Value}
    (hs : s.frames[inner]? = some ⟨#[y], parent⟩)
    (h : collectFrom xs (Expr.visit env (Function.invoke env depth) inner filter map) count k kept
      s = .ok result t) :
    t.frames[inner]? =
      some ⟨#[if count = 0 then y else Value.item xs (k + count - 1)], parent⟩ := by
  induction count generalizing s k y kept with
  | zero =>
    cases h
    exact hs
  | succ count ih =>
    rw [collectFrom_succ] at h
    obtain ⟨found, s₁, hfound, h⟩ := Run.bind_eq_ok_iff.mp h
    rw [ih (Expr.visit_frame hs hfound) h, if_neg (Nat.succ_ne_zero count)]
    split
    · next hzero => rw [hzero, Nat.zero_add, Nat.add_sub_cancel]
    · rw [show k + 1 + count - 1 = k + (count + 1) - 1 by omega]

/-- The frame of a finished comprehension is the first that was made after its list; it holds the
last item. -/
theorem Expr.comprehension_frame {name : String} {source : Expr} {frame : Nat} {v : Value}
    (h : (Expr.comprehension name source filter map).eval env (Function.invoke env depth) frame s =
      .ok v t) :
    ∃ xs s₁, source.eval env (Function.invoke env depth) frame s = .ok (.list xs) s₁ ∧
      (0 < xs.size →
        t.frames[s₁.frames.size]? = some ⟨#[Value.item xs (xs.size - 1)], some frame⟩) := by
  rw [Expr.eval_comprehension] at h
  obtain ⟨list, s₁, hsource, h⟩ := Run.bind_eq_ok_iff.mp h
  cases list with
  | list xs =>
    refine ⟨xs, s₁, hsource, fun hsize => ?_⟩
    have hpush : (s₁.push #[.void] (some frame)).2.frames[s₁.frames.size]? =
        some ⟨#[.void], some frame⟩ := by
      rw [Store.push, Array.getElem?_push_size]
    obtain ⟨kept, s₂, hkept, hmake⟩ := (Run.bind_eq_ok_iff
      (x := collectFrom xs (Expr.visit env (Function.invoke env depth) s₁.frames.size filter map)
        xs.size 0 []) (s := (s₁.push #[.void] (some frame)).2)).mp h
    cases hmake
    have hlast := Expr.collectFrom_visit_frame hpush hkept
    rw [if_neg (by omega), Nat.zero_add] at hlast
    exact hlast
  | _ => cases h

end

/-! ## Names of a comprehension -/

theorem Scopes.lastIndex?_eq_none {name : String} {names : List String} (h : name ∉ names) :
    lastIndex? name names = none := by
  induction names with
  | nil => rfl
  | cons n ns ih =>
    simp only [List.mem_cons, not_or] at h
    rw [lastIndex?, ih h.2, if_neg (Ne.symm h.1)]

/-- Inside a clause of a lambda, the name of the comprehension around it stands for the one slot of
the frame around that of the clause. -/
theorem Scopes.locate_comprehension {name : String} {params : List String} (hname : name ≠ "")
    (hparams : name ∉ params) (scopes : Scopes) :
    Scopes.locate (params :: [name] :: scopes) name = some (0, 1) := by
  simp [locate, hname, locateFrom, lastIndex?_eq_none hparams, lastIndex?]

theorem Expr.resolve_comprehension {name : String} {params : List Param} (hname : name ≠ "")
    (hparams : name ∉ Clause.scope params) (isGlobal : String → Bool) (scopes : Scopes) :
    (Expr.free name).resolve isGlobal (Clause.scope params :: [name] :: scopes) =
      .symbol name (.slot 0 1) := by
  rw [Expr.free, Expr.resolve, Resolution.of, Scopes.locate_comprehension hname hparams]

/-- A call of a lambda that was made in the finished comprehension's frame sees what the
comprehension left there. -/
theorem Store.Outlives.lookup_call {t u u' : Store Closure} {inner : Nat} {parent : Option Nat}
    {last : Value} {args : Array Value} (hframe : t.frames[inner]? = some ⟨#[last], parent⟩)
    (hu : t.Outlives inner u) (hu' : (u.push args (some inner)).2.Outlives inner u') :
    u'.lookup u.frames.size 0 1 = last := by
  have hcall : (u.push args (some inner)).2.frames[u.frames.size]? = some ⟨args, some inner⟩ := by
    rw [Store.push, Array.getElem?_push_size]
  have hup : (u.push args (some inner)).2.ancestor 1 u.frames.size = some inner := by
    simp only [Store.ancestor, hcall]
  have hinner := hu'.frame_eq ((hu.push args (some inner)).frame_eq hframe)
  rw [Store.lookup, Store.slot?_of_ancestor (hu'.grows.ancestor_eq hup) hinner]
  rfl

/-! ## Main statement -/

/-- An evaluation writes to no frame that was there before. So a variable that a lambda has captured
never changes once the block that owns it is finished, and a lambda made by a comprehension reads
the last item under its name, whichever item it was made for. -/
theorem Store.old_frames_are_never_written (env : Environment) (depth : Nat)
    (s : Store Closure) :
    -- whether in a value or in an error, evaluations and calls end with all old frames as they were
    (∀ (e : Expr) (frame : Nat) (t : Store Closure),
      (e.eval env (Function.invoke env depth) frame s).state? = some t →
        s.Spares s.frames.size t) ∧
    (∀ (callee : Value) (args : List Value) (t : Store Closure),
      (callee.call (Function.invoke env depth) args s).state? = some t →
        s.Spares s.frames.size t) ∧
    (∀ (f : Function) (args : List Value) (t : Store Closure),
      (Function.invoke env depth f args s).state? = some t → s.Spares s.frames.size t) ∧
    -- the slots of the frames made by a finished block never change, from wherever they are seen
    (∀ (e : Expr) (frame : Nat) (t : Store Closure),
      (e.eval env (Function.invoke env depth) frame s).state? = some t →
        ∀ i, s.frames.size ≤ i →
          (∀ u, t.Outlives i u → ∀ inner index up v, t.ancestor up inner = some i →
            t.slot? inner index up = some v → u.slot? inner index up = some v) ∧
          -- the blocks around have frames that were there before, and go on in such a way
          (∀ outer, outer < s.frames.size →
            (∀ slot bs u,
              (Binding.evalAll env (Function.invoke env depth) outer slot bs t).state? = some u →
                t.Outlives i u) ∧
            (∀ xs filter map count k kept u,
              (collectFrom xs (Expr.visit env (Function.invoke env depth) outer filter map) count k
                kept t).state? = some u → t.Outlives i u))) ∧
    -- lambdas of a comprehension over at least one item
    (∀ (name : String) (source : Expr) (filter map : Option Expr) (frame : Nat) (v : Value)
      (t : Store Closure),
      (Expr.comprehension name source filter map).eval env (Function.invoke env depth) frame s =
        .ok v t →
      ∃ xs s₁, source.eval env (Function.invoke env depth) frame s = .ok (.list xs) s₁ ∧
        (0 < xs.size → ∀ u, t.Outlives s₁.frames.size u →
          ∀ id clauses, u.closures[id]? = some ⟨clauses, s₁.frames.size⟩ →
          ∀ (args : List Value) (params : List Param) (isGlobal : String → Bool) (scopes : Scopes),
            name ≠ "" → name ∉ Clause.scope params →
            let call := u.push args.toArray ((Function.lambda id).code env u).2
            ∀ u', call.2.Outlives s₁.frames.size u' →
              ((Expr.free name).resolve isGlobal (Clause.scope params :: [name] :: scopes)).eval env
                (Function.invoke env depth) call.1 u' = .ok (Value.item xs (xs.size - 1)) u')) := by
  refine ⟨fun e frame t h => Expr.eval_spares h, fun callee args t h => Value.call_spares h,
    fun f args t h => Function.invoke_spares h, fun e frame t h i hi => ⟨?_, ?_⟩, ?_⟩
  · intro u hu inner index up v hup hv
    exact hu.slot?_eq hup hv
  · intro outer houter
    have hne : outer ≠ i := by omega
    exact ⟨fun _ _ _ hu => Binding.evalAll_outlives hne hu,
      fun _ _ _ _ _ _ _ hu => Expr.collectFrom_visit_outlives hne hu⟩
  · intro name source filter map frame v t h
    obtain ⟨xs, s₁, hsource, hframe⟩ := Expr.comprehension_frame h
    refine ⟨xs, s₁, hsource, fun hsize u hu id clauses hid args params isGlobal scopes hname
      hparams => ?_⟩
    dsimp only
    intro u' hu'
    have hcode : ((Function.lambda id).code env u).2 = some s₁.frames.size := by
      simp only [Function.code, hid]
    rw [hcode] at hu' ⊢
    rw [Expr.resolve_comprehension hname hparams, Expr.eval]
    exact congrArg (Outcome.ok · u') (Store.Outlives.lookup_call (hframe hsize) hu hu')

/-- `[true, false] $ x = @() = x` makes two lambdas; both read `false`. -/
theorem Store.old_frames_are_never_written_two_lambdas :
    let made : Expr := .comprehension "x"
      (.list [.literal (.bool true), .literal (.bool false)]) none
      (some (.lambda [⟨[], .symbol "x" (.slot 0 1)⟩]))
    let s : Store Closure := ⟨#[⟨#[], none⟩], #[], 1, ""⟩
    ∃ v t, made.eval {} (Function.invoke {} 1) 0 s = .ok v t ∧ t.closures.size = 2 ∧
      ∀ id < 2,
        let call := t.push #[] ((Function.lambda id).code {} t).2
        (Expr.symbol "x" (.slot 0 1)).eval {} (Function.invoke {} 1) call.1 call.2 =
          .ok (.bool false) call.2 := by
  intro made s
  have hmade : made.eval {} (Function.invoke {} 1) 0 s = .ok _ _ := rfl
  refine ⟨_, _, hmade, rfl, fun id hid => ?_⟩
  obtain ⟨-, -, -, -, hlambdas⟩ := Store.old_frames_are_never_written {} 1 s
  obtain ⟨xs, s₁, hsource, hread⟩ := hlambdas "x" _ none _ 0 _ _ hmade
  cases hsource
  have hid' : id = 0 ∨ id = 1 := by omega
  obtain rfl | rfl := hid'
  · exact hread (by decide) _ .refl 0 _ rfl [] [] (fun _ => false) [] (by decide) (by decide) _
      .refl
  · exact hread (by decide) _ .refl 1 _ rfl [] [] (fun _ => false) [] (by decide) (by decide) _
      .refl

end Clausal
