import Clausal.Proofs.WellFormed

/-!
# Functions in values

A value holds a function if it is that function, or if it is a list or a map that stores a value
which holds it (`Value.Holds`). Joining, cutting and indexing make no functions, so a value that is
made from others holds only what these hold: that all functions in a value satisfy `p` is kept by
the operations on values, whatever `p` is (`Invariant.operational_only`).
-/

namespace Clausal

/-- The function is in the value; what lists store outside their bounds is in it too. -/
inductive Value.Holds (f : Function) : Value → Prop
  | self : Holds f (.function f)
  | item {xs : Sequence Value} {x : Value} (hx : x ∈ xs.content.stored) (h : Holds f x) :
      Holds f (.list xs)
  | entry {t : Table Value} {x : Value} (hx : x ∈ t.content.values) (h : Holds f x) :
      Holds f (.map t)

/-- All functions in a value satisfy `p`. -/
def Value.Only (p : Function → Prop) (v : Value) : Prop := ∀ f, v.Holds f → p f

namespace Value

variable {p q : Function → Prop} {v : Value} {f : Function}

theorem Only.mono (h : v.Only p) (hpq : ∀ f, p f → q f) : v.Only q := fun f hf => hpq f (h f hf)

theorem only_of_isScalar (h : v.isScalar = true) : v.Only p := by
  intro f hf
  cases hf <;> cases h

theorem only_function : Only p (.function f) ↔ p f := by
  constructor
  · intro h
    exact h f .self
  · intro h g hg
    cases hg
    exact h

theorem only_list {xs : Sequence Value} :
    Only p (.list xs) ↔ ∀ x ∈ xs.content.stored, x.Only p := by
  constructor
  · intro h x hx f hf
    exact h f (.item hx hf)
  · intro h f hf
    cases hf with
    | item hx hf => exact h _ hx f hf

theorem only_map {t : Table Value} : Only p (.map t) ↔ ∀ x ∈ t.content.values, x.Only p := by
  constructor
  · intro h x hx f hf
    exact h f (.entry hx hf)
  · intro h f hf
    cases hf with
    | entry hx hf => exact h _ hx f hf

end Value

namespace Invariant

/-- All functions in a value satisfy `p`. Identities are of no account, so there is one world. -/
def only (p : Function → Prop) : Invariant Unit where
  le _ _ := True
  value _ v := v.Only p
  dict _ d := ∀ v ∈ d.values, v.Only p
  ids _ _ := True

variable {p : Function → Prop}

theorem makes_only {id : Nat} {v : Value} (h : v.Only p) : (only p).Makes () id [v] :=
  ⟨(), trivial, trivial, fun _ hx => List.mem_singleton.mp hx ▸ h⟩

theorem Makes.only {id : Nat} {vs : List Value} (h : (only p).Makes () id vs) :
    ∀ v ∈ vs, v.Only p := by
  obtain ⟨_, -, -, hvs⟩ := h
  exact hvs

theorem operational_only : (only p).Operational where
  refl _ := trivial
  trans _ _ := trivial
  value_mono _ h := h
  dict_mono _ h := h
  scalar := Value.only_of_isScalar
  get? h hx := Value.only_list.mp h _ (Rope.mem_stored_of_get? hx)
  content h := Value.only_map.mp h
  find? h hv := h _ (Dict.mem_values_of_find? hv)
  empty := List.forall_mem_nil _
  insert hash hd hv := by
    intro x hx
    rcases Dict.mem_values_insert hx with rfl | hx
    · exact hv
    · exact hd x hx
  merge hd he := fun x hx => (Dict.mem_values_append hx).elim (hd x) (he x)
  fresh _ := ⟨(), trivial, trivial, List.forall_mem_nil _⟩
  list := by
    intro w id vs _ hvs
    refine makes_only (Value.only_list.mpr fun x hx => ?_)
    unfold Sequence.ofList at hx
    split at hx
    · cases hx
    · exact hvs x hx
  append := by
    intro w id xs ys _ hxs hys
    refine makes_only ?_
    unfold Sequence.append
    split
    · exact hys
    split
    · exact hxs
    · refine Value.only_list.mpr fun x hx => ?_
      rcases Rope.mem_stored_append hx with hx | hx
      · exact Value.only_list.mp hxs x hx
      · exact Value.only_list.mp hys x hx
  extract := by
    intro w id xs start stop _ hxs
    refine makes_only ?_
    unfold Sequence.extract
    dsimp only
    split
    · exact hxs
    split
    · exact Value.only_list.mpr (List.forall_mem_nil _)
    · exact Value.only_list.mpr fun x hx =>
        Value.only_list.mp hxs x (Rope.mem_stored_extract hx)
  map _ hd := makes_only (Value.only_map.mpr hd)

end Invariant

end Clausal
