import Clausal.Proofs.InOrder
import Mathlib.Logic.Relation
import Mathlib.Order.RelClasses

/-!
# Cycles of references

What keeps what alive in a store: a frame keeps the frame around it and the values in its slots, a
lambda keeps the frame it was made in, and a list or a map keeps what it stores (`Store.Refers`).
References that go in a circle are never given up by counting them.

A `with` block makes its frame first and fills it afterwards, and the values it binds are evaluated
inside the frame. So a lambda that is written in such a value keeps the frame that is to keep it:
`Session.bound_lambda_makes_cycle`. Nothing else makes a cycle
(`Session.tame_programs_make_no_cycle`). Where no lambda is written in a bound value, all that a
lambda sees was made before it, and following references leads to older and older lambdas
(`Store.wellFounded_refers`). That includes a comprehension, though its one frame gets a new item
again and again while lambdas that see it are made: the items are older than the frame.
-/

namespace Clausal

/-- What refers or is referred to. -/
inductive Cell where
  | frame (i : Nat)
  | value (v : Value)

namespace Store

/-- The first keeps the second alive. -/
inductive Refers (s : Store Closure) : Cell → Cell → Prop
  | parent {i p : Nat} {f : Frame} (hf : s.frames[i]? = some f) (hp : f.parent = some p) :
      Refers s (.frame i) (.frame p)
  | slot {i : Nat} {f : Frame} {v : Value} (hf : s.frames[i]? = some f) (hv : v ∈ f.slots) :
      Refers s (.frame i) (.value v)
  | captured {id : Nat} {c : Closure} (hc : s.closures[id]? = some c) :
      Refers s (.value (.function (.lambda id))) (.frame c.frame)
  | item {xs : Sequence Value} {x : Value} (hx : x ∈ xs.content.stored) :
      Refers s (.value (.list xs)) (.value x)
  | entry {t : Table Value} {x : Value} (hx : x ∈ t.content.values) :
      Refers s (.value (.map t)) (.value x)

/-- No frame and no value refers to itself, over whatever others. -/
def Acyclic (s : Store Closure) : Prop := ∀ n, ¬ Relation.TransGen s.Refers n n

/-- Following references from here comes to an end. -/
def Ends (s : Store Closure) (n : Cell) : Prop := Acc (flip s.Refers) n

variable {s : Store Closure}

theorem acyclic_of_ends (h : ∀ n, s.Ends n) : s.Acyclic := by
  intro n hcycle
  have hwf : WellFounded (flip s.Refers) := ⟨h⟩
  have hback : Relation.TransGen (flip s.Refers) n n := Relation.transGen_swap.mpr hcycle
  exact hwf.transGen.asymmetric n n hback hback

/-! ## Values -/

/-- From a value, references lead to the functions in it. -/
theorem ends_value {p : Function → Prop} (hp : ∀ f, p f → s.Ends (.value (.function f))) {v : Value}
    (hv : v.Only p) : s.Ends (.value v) := by
  induction hsize : sizeOf v using Nat.strongRecOn generalizing v with
  | ind n ih =>
    subst hsize
    cases v with
    | void | number | bool | text => exact ⟨_, fun _ h => nomatch h⟩
    | function f => exact hp f (Value.only_function.mp hv)
    | list xs =>
      refine ⟨_, fun m h => ?_⟩
      cases h with
      | item hx =>
        refine ih _ ?_ (Value.only_list.mp hv _ hx) rfl
        have hlt := Rope.sizeOf_lt_of_mem_stored hx
        obtain ⟨id, content⟩ := xs
        simp only [Value.list.sizeOf_spec, Sequence.mk.sizeOf_spec] at hlt ⊢
        omega
    | map t =>
      refine ⟨_, fun m h => ?_⟩
      cases h with
      | entry hx =>
        refine ih _ ?_ (Value.only_map.mp hv _ hx) rfl
        obtain ⟨⟨hash, x⟩, hmem, rfl⟩ := List.mem_map.mp hx
        have hlt := Table.sizeOf_lt_of_mem_entries hmem
        simp only [Value.map.sizeOf_spec]
        omega

/-! ## Frames -/

/-- From a frame, references lead to what is seen from it. -/
theorem ends_frame (hs : s.Rooted) {i : Nat}
    (hslots : ∀ (up : Nat) (f : Frame), s.Sees i up → s.frames[up]? = some f →
      ∀ v ∈ f.slots, s.Ends (.value v)) : s.Ends (.frame i) := by
  induction i using Nat.strongRecOn with
  | ind i ih =>
    refine ⟨_, fun m h => ?_⟩
    cases h with
    | @parent i p f hf hp =>
      refine ih p (hs i p f hf hp) fun up g hup => hslots up g ?_
      exact Sees.trans (.parent .self hf hp) hup
    | slot hf hv => exact hslots i _ .self hf _ hv

/-! ## Lambdas -/

variable {R : Setting} {filling : List Nat}

theorem ends_function (hs : R.Orderly filling s) (htidy : R.tidy) (f : Function) :
    s.Ends (.value (.function f)) := by
  cases f with
  | native | declared => exact ⟨_, fun _ h => nomatch h⟩
  | lambda id =>
    -- all that a lambda sees holds older lambdas only
    induction id using Nat.strongRecOn with
    | ind id ih =>
      refine ⟨_, fun m h => ?_⟩
      cases h with
      | @captured id c hc =>
        refine ends_frame hs.rooted fun up f hup hf v hv => ?_
        refine ends_value (fun g hg => ?_) (hs.ordered htidy id c hc up f hup hf v hv)
        cases g with
        | native | declared => exact ⟨_, fun _ h => nomatch h⟩
        | lambda older => exact ih older hg

/-- In an orderly store, following references comes to an end from wherever one starts. -/
theorem ends (hs : R.Orderly filling s) (htidy : R.tidy) (n : Cell) : s.Ends n := by
  have hvalue (v : Value) : s.Ends (.value v) :=
    ends_value (p := fun _ => True) (fun f _ => ends_function hs htidy f) fun _ _ => trivial
  cases n with
  | value v => exact hvalue v
  | frame i => exact ends_frame hs.rooted fun _ _ _ _ v _ => hvalue v

end Store

namespace Session

/-- A program in which no lambda is written in a value that a `with` block binds makes no cycles:
not by loading, by evaluating or by calling, whether that succeeds or fails. -/
theorem tame_programs_make_no_cycle {s : Session} (hs : s.Built True) (henv : s.env.Tame) :
    s.store.Acyclic :=
  Store.acyclic_of_ends (Store.ends (hs.inOrder fun _ => henv).orderly trivial)

theorem tame_new : Session.new.env.Tame := by
  intro slot
  rw [Environment.clausesAt]
  cases hd : Session.new.env.definitions[slot]? with
  | none => rfl
  | some d =>
    obtain ⟨fn, -, rfl⟩ := List.mem_map.mp (List.mem_of_getElem? hd)
    rfl

/-- A comprehension inside a `with` block makes two lambdas, which keep the frame of the block and
what it has bound. -/
theorem tame_programs_make_no_cycle_comprehension :
    ∃ v t, evalText "with (xs = [true, false]) = xs $ x = @() = [x, xs]" .new = .ok v t ∧
      t.store.closures.size = 2 ∧ t.store.Acyclic := by
  have hrun : ((evalText "with (xs = [true, false]) = xs $ x = @() = [x, xs]" .new).passes
      fun _ t => t.store.closures.size == 2) = true := by decide +kernel
  have htame : ((parsed "with (xs = [true, false]) = xs $ x = @() = [x, xs]" none .new).passes
      fun e _ => e.tame false) = true := by decide +kernel
  obtain ⟨v, t, ht, hsize⟩ := Outcome.exists_of_passes hrun
  have hstate := congrArg Outcome.state? ht
  have hbuilt : t.Built True := by
    refine .evalText .new (fun _ e u he => ?_) hstate
    rw [he] at htame
    exact htame
  have henv : t.env.Tame := (state?_evalText hstate).1 ▸ tame_new
  exact ⟨v, t, ht, beq_iff_eq.mp hsize, tame_programs_make_no_cycle hbuilt henv⟩

/-- The function that a value is. -/
def function? : Value → Option Function
  | .function f => some f
  | _ => none

theorem function?_eq_some {v : Value} {f : Function} : function? v = some f ↔ v = .function f := by
  cases v <;> simp [function?]

/-- The lambda keeps the frame of the block, because it is made there, and the frame keeps the
lambda, because it is bound there. -/
theorem bound_lambda_makes_cycle :
    ∃ v t, evalText "with (x = true, f = @() = x) = f()" .new = .ok v t ∧ ¬ t.store.Acyclic := by
  have hrun : ((evalText "with (x = true, f = @() = x) = f()" .new).passes fun _ t =>
      (t.store.closures[0]?).any (·.frame == 1) &&
      (t.store.frames[1]?).any fun frame =>
        (frame.slots[1]?).any (function? · == some (.lambda 0))) = true := by decide +kernel
  obtain ⟨v, t, ht, hrun⟩ := Outcome.exists_of_passes hrun
  simp only [Bool.and_eq_true, Option.any_eq_true, beq_iff_eq, function?_eq_some] at hrun
  obtain ⟨⟨closure, hclosure, hcaptured⟩, frame, hframe, _, hlambda, rfl⟩ := hrun
  refine ⟨v, t, ht, fun hacyclic => ?_⟩
  have hback : t.store.Refers (.value (.function (.lambda 0))) (.frame 1) :=
    hcaptured ▸ .captured hclosure
  have hforth : t.store.Refers (.frame 1) (.value (.function (.lambda 0))) :=
    .slot hframe (Array.mem_of_getElem? hlambda)
  exact hacyclic (.frame 1) (.tail (.single hforth) hback)

end Session

end Clausal
