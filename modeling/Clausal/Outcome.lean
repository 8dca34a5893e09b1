/-!
# Outcomes and runs

A run threads a state through a computation that may fail or may be cut short. The three ends of
a run are kept apart: a value, an error, and running out of the steps it was given. Both finished
ends carry the state reached, so that what was done before a failure (characters read, lines
printed, frames made) is not lost.

* `Run.bind_ok`, `Run.bind_fail`, `Run.bind_exhausted`: sequencing, one equation per end.
* `Run.recover_ok`, `Run.recover_fail`, `Run.recover_exhausted`: only a failure is recovered from.
* Runs form a lawful monad.
-/

namespace Clausal

/-- How a run over states `σ` ends: in a value, in an error, or unfinished. -/
inductive Outcome (ε σ α : Type) where
  /-- The value, and the state reached. -/
  | ok (value : α) (state : σ)
  /-- The error, and the state in which it arose. -/
  | fail (error : ε) (state : σ)
  /-- The steps given to the run were used up. -/
  | exhausted
  deriving Repr, DecidableEq

/-- A computation over states `σ` with values `α` and errors `ε`. -/
def Run (ε σ α : Type) : Type := σ → Outcome ε σ α

namespace Run

variable {ε ε' σ α β : Type}

/-- The run that ends at once in `a`. -/
@[always_inline, inline]
def pure (a : α) : Run ε σ α := fun s => .ok a s

/-- Run `x`, then `f` on its value from the state `x` reached. -/
@[always_inline, inline]
def bind (x : Run ε σ α) (f : α → Run ε σ β) : Run ε σ β := fun s =>
  match x s with
  | .ok a s => f a s
  | .fail e s => .fail e s
  | .exhausted => .exhausted

@[always_inline]
instance : Monad (Run ε σ) where
  pure := Run.pure
  bind := Run.bind

/-- The run that fails with `e` and leaves the state alone. -/
@[always_inline, inline]
def fail (e : ε) : Run ε σ α := fun s => .fail e s

/-- The run that has no steps left. -/
@[always_inline, inline]
def exhaust : Run ε σ α := fun _ => .exhausted

/-- Lift a result that does not touch the state. -/
@[always_inline, inline]
def ofExcept : Except ε α → Run ε σ α
  | .ok a => Run.pure a
  | .error e => Run.fail e

/-- Read something off the state. -/
@[always_inline, inline]
def read (f : σ → α) : Run ε σ α := fun s => .ok (f s) s

/-- Change the state. -/
@[always_inline, inline]
def modify (f : σ → σ) : Run ε σ Unit := fun s => .ok () (f s)

/-- Change the state and hand out a value. -/
@[always_inline, inline]
def modifyGet (f : σ → α × σ) : Run ε σ α := fun s =>
  match f s with
  | (a, s) => .ok a s

/-- Run `x`; if it fails, go on with `handler` from the state of the failure. -/
@[always_inline, inline]
def recover (x : Run ε σ α) (handler : ε → Run ε σ α) : Run ε σ α := fun s =>
  match x s with
  | .ok a s => .ok a s
  | .fail e s => handler e s
  | .exhausted => .exhausted

/-- Rename the errors of a run. -/
@[always_inline, inline]
def mapError (f : ε → ε') (x : Run ε σ α) : Run ε' σ α := fun s =>
  match x s with
  | .ok a s => .ok a s
  | .fail e s => .fail (f e) s
  | .exhausted => .exhausted

/-! ## One equation per end -/

theorem bind_ok {x : Run ε σ α} {f : α → Run ε σ β} {s t : σ} {a : α} (h : x s = .ok a t) :
    (x >>= f) s = f a t := by
  simp only [Bind.bind, Run.bind, h]

theorem bind_fail {x : Run ε σ α} {f : α → Run ε σ β} {s t : σ} {e : ε} (h : x s = .fail e t) :
    (x >>= f) s = .fail e t := by
  simp only [Bind.bind, Run.bind, h]

theorem bind_exhausted {x : Run ε σ α} {f : α → Run ε σ β} {s : σ} (h : x s = .exhausted) :
    (x >>= f) s = .exhausted := by
  simp only [Bind.bind, Run.bind, h]

/-- What a sequence of two runs ends in comes from the second, after a value of the first. -/
theorem bind_eq_ok_iff {x : Run ε σ α} {f : α → Run ε σ β} {s u : σ} {b : β} :
    (x >>= f) s = .ok b u ↔ ∃ a t, x s = .ok a t ∧ f a t = .ok b u := by
  constructor
  · intro h
    cases hx : x s with
    | ok a t => exact ⟨a, t, rfl, by rwa [bind_ok hx] at h⟩
    | fail e t =>
      rw [bind_fail hx] at h
      cases h
    | exhausted =>
      rw [bind_exhausted hx] at h
      cases h
  · rintro ⟨a, t, hx, hf⟩
    rw [bind_ok hx, hf]

theorem recover_ok {x : Run ε σ α} {g : ε → Run ε σ α} {s t : σ} {a : α} (h : x s = .ok a t) :
    x.recover g s = .ok a t := by
  simp only [Run.recover, h]

theorem recover_fail {x : Run ε σ α} {g : ε → Run ε σ α} {s t : σ} {e : ε} (h : x s = .fail e t) :
    x.recover g s = g e t := by
  simp only [Run.recover, h]

theorem recover_exhausted {x : Run ε σ α} {g : ε → Run ε σ α} {s : σ} (h : x s = .exhausted) :
    x.recover g s = .exhausted := by
  simp only [Run.recover, h]

/-! ## Laws of sequencing -/

theorem map_id (x : Run ε σ α) : id <$> x = x := by
  funext s
  simp only [Functor.map, Run.bind, Function.comp]
  cases x s <;> rfl

theorem bind_bind {γ : Type} (x : Run ε σ α) (f : α → Run ε σ β) (g : β → Run ε σ γ) :
    x >>= f >>= g = x >>= fun a => f a >>= g := by
  funext s
  simp only [Bind.bind, Run.bind]
  cases x s <;> rfl

instance : LawfulMonad (Run ε σ) := LawfulMonad.mk' _ map_id (fun _ _ => rfl) bind_bind

end Run

end Clausal
